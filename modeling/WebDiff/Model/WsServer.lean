import WebDiff.Model.Answers

/-!
# The WebSocket handler

`WebdiffWsServer::onMessage`: JSON-RPC messages about the position of a player. A session token
names a `PlayerContext`, which every channel that sent the token points to. Nothing here goes to the
database.

The text of a message is a `std::string`, not a C string, and no error of the parser is caught.
-/

namespace WebDiff

/-- `PlayerContext`. -/
structure PlayerContext where
  playerX : ℤ
  playerY : ℤ
deriving DecidableEq, Repr

/-- `PlayerContext()`. -/
def PlayerContext.new : PlayerContext := ⟨2147483647, 2147483647⟩

/-- What a message meets: the objects made with `new PlayerContext()`, of which there are
`allocated`; `m_mapSessions`; `m_pPlayerContext` of the channel the message came on, where `none` is
`nullptr`; and what was sent on that channel. -/
structure WsState where
  players : ℕ → PlayerContext
  allocated : ℕ
  mapSessions : Bytes → Option ℕ
  playerContext : Option ℕ
  sent : List Json

/-- The state of a new server, on a channel that was just opened. -/
def WsState.new : WsState := ⟨fun _ => PlayerContext.new, 0, fun _ => none, none, []⟩

/-- Programs over this state that may throw. -/
abbrev WsHandler := EStateM JsonException WsState

/-! ### Primitives -/

/-- `channel->send(jsonResp.dump())`. -/
def send (jsonResp : Json) : WsHandler Unit := do
  let text ← liftExcept jsonResp.dump
  modify fun s => { s with sent := s.sent ++ [text] }

/-- `m_mapSessions[sToken]`, with a new `PlayerContext` if there was none under the token. -/
def findOrAddSession (token : Bytes) : WsHandler ℕ :=
  modifyGet fun s =>
    match s.mapSessions token with
    | some player => (player, s)
    | none =>
      (s.allocated, { s with
        players := Function.update s.players s.allocated PlayerContext.new
        allocated := s.allocated + 1
        mapSessions := Function.update s.mapSessions token (some s.allocated) })

def setPlayerContext (player : ℕ) : WsHandler Unit :=
  modify fun s => { s with playerContext := some player }

def setPlayer (player : ℕ) (x y : ℤ) : WsHandler Unit :=
  modify fun s => { s with players := Function.update s.players player ⟨x, y⟩ }

variable (parser : JsonParser)

/-- `nlohmann::json::parse(msg)`. -/
def parseMessage (msg : Bytes) : WsHandler Json :=
  match parser.parse msg with
  | some j => return j
  | none => throw .parseError

/-! ### The handler -/

/-- `jsonResp` with the id of the request and the method. -/
def respOf (id : Json) (method : Bytes) : Json :=
  Json.null
    |>.put (lit "id") id
    |>.put (lit "method") (.string method)

/-- `jsonError`, for a channel without a player. -/
def errorContext : Json :=
  Json.null
    |>.put (lit "code") (.numberInteger 550)
    |>.put (lit "message") (.string (lit "Not found error context"))

/-- `jsonResult`, for a channel with one. -/
def PlayerContext.position (player : PlayerContext) : Json :=
  Json.null
    |>.put (lit "x") (.numberInteger player.playerX)
    |>.put (lit "y") (.numberInteger player.playerY)

/-- The branch of `get_player_position`. -/
def getPlayerPosition (j : Json) (method : Bytes) : WsHandler Unit := do
  let id ← liftExcept (j.subscript (lit "id"))
  let s ← get
  match s.playerContext with
  | some player => send ((respOf id method).put (lit "result") (s.players player).position)
  | none => send ((respOf id method).put (lit "error") errorContext)

/-- `VvWsConnectionContext::handleMessage`, which parses the message once more. -/
def handleMessage (msg : Bytes) : WsHandler Unit := do
  let j ← parseMessage parser msg
  let method ← liftExcept (j.subscript (lit "method"))
  if method.isString ∧ method.text = lit "player_move_to" then
    let s ← get
    match s.playerContext with
    | some player =>
      let params ← liftExcept (j.subscript (lit "params"))
      let x ← liftExcept (params.field Json.getInt (lit "x"))
      let y ← liftExcept (params.field Json.getInt (lit "y"))
      setPlayer player x y
    | none => return ()

/-- The branch of `set_session_token`. -/
def setSessionToken (j : Json) : WsHandler Unit := do
  let id ← liftExcept (j.subscript (lit "id"))
  let params ← liftExcept (j.subscript (lit "params"))
  let token ← liftExcept (params.field Json.getString (lit "token"))
  let player ← findOrAddSession token
  setPlayerContext player
  send ((Json.null.put (lit "id") id).put (lit "result") .null)

/-- The branch of `get_map`. With a player the answer has no result. -/
def getMap (j : Json) (method : Bytes) : WsHandler Unit := do
  let id ← liftExcept (j.subscript (lit "id"))
  let s ← get
  match s.playerContext with
  | some _ => send (respOf id method)
  | none => send ((respOf id method).put (lit "error") errorContext)

/-- `onMessage`. The second branch compares `j["method"]` itself, which is the string `method`. -/
def onMessage (msg : Bytes) : WsHandler Unit := do
  let j ← parseMessage parser msg
  let method ← liftExcept (j.field Json.getString (lit "method"))
  if method = lit "get_player_position" then
    getPlayerPosition j method
  else if method = lit "player_move_to" then
    handleMessage parser msg
  else if method = lit "set_session_token" then
    setSessionToken j
  else if method = lit "get_map" then
    getMap j method
  else
    return ()

end WebDiff
