import WebDiff.Framework.Resumable
import WebDiff.Model.Path

/-!
# WebSocket frames

`websocket_parser.c` with the callbacks of `WebSocketParser.cpp`, which turn the bytes of a
connection into messages, and `WebSocketChannel::send`, which turns a message into frames.

`websocket_parser_execute` is called with whatever the socket has read. It is a loop over these bytes
(`executeRound` is one round), and everything it has to remember until the next call is in the two
parsers. `reserve` of the message is left out, and so are lengths it cannot cope with.
-/

namespace WebDiff

/-! ### `websocket_parser` -/

/-- The four bytes of a mask. -/
abbrev WsMask := Fin 4 → UInt8

/-- `websocket_flags`: the opcode with `WS_FIN` and `WS_HAS_MASK`. -/
structure WebsocketFlags where
  op : UInt8
  fin : Bool
  hasMask : Bool
deriving DecidableEq, Repr

/-- `enum state`. -/
inductive ExecuteState
  | start
  | head
  | length
  | mask
  | body
deriving DecidableEq, Repr

/-- `websocket_parser`. -/
structure WebsocketParser where
  state : ExecuteState
  flags : WebsocketFlags
  mask : WsMask
  maskOffset : ℕ
  length : ℕ
  require : ℕ

/-- `websocket_parser_init`. -/
def WebsocketParser.init : WebsocketParser := ⟨.start, ⟨0, false, false⟩, fun _ => 0, 0, 0, 0⟩

/-- `websocket_decode`, which also encodes. -/
def websocketDecode (src : Bytes) (mask : WsMask) (maskOffset : ℕ) : Bytes :=
  src.mapIdx fun i b => b ^^^ mask (Fin.ofNat 4 (i + maskOffset))

/-! ### `WebSocketParser` -/

/-- `websocket_parser_state`. -/
inductive FrameState
  | begin
  | header
  | body
  | done
  | fin
deriving DecidableEq, Repr

/-- `WebSocketParser`, and what `onMessage` was called with. -/
structure WebSocketParser where
  parser : WebsocketParser
  state : FrameState
  opcode : UInt8
  message : Bytes
  received : List (UInt8 × Bytes)

/-- A new `WebSocketParser`. The constructor leaves `opcode` uninitialised. -/
def WebSocketParser.new (opcode : UInt8) : WebSocketParser := ⟨.init, .begin, opcode, [], []⟩

namespace WebSocketParser

variable (wp : WebSocketParser)

def onFrameHeader : WebSocketParser :=
  { wp with
    opcode := if wp.parser.flags.op ≠ 0 then wp.parser.flags.op else wp.opcode
    message := if wp.state = .begin ∨ wp.state = .fin then [] else wp.message
    state := .header }

/-- With `websocket_parser_decode`, where the frame has a mask. -/
def onFrameBody (data : Bytes) : WebSocketParser :=
  if wp.parser.flags.hasMask then
    { wp with
      state := .body
      parser := { wp.parser with maskOffset := (data.length + wp.parser.maskOffset) % 4 }
      message := wp.message ++ websocketDecode data wp.parser.mask wp.parser.maskOffset }
  else
    { wp with state := .body, message := wp.message ++ data }

def onFrameEnd : WebSocketParser :=
  if wp.parser.flags.fin then
    { wp with state := .fin, received := wp.received ++ [(wp.opcode, wp.message)] }
  else
    { wp with state := .done }

/-! ### `websocket_parser_execute` -/

/-- What comes behind the last byte in front of the body. -/
def enterBody : WebSocketParser :=
  if wp.parser.length ≠ 0 then
    { wp with parser := { wp.parser with state := .body, require := wp.parser.length } }
      |>.onFrameHeader
  else
    { wp with parser := { wp.parser with state := .start } }
      |>.onFrameHeader
      |>.onFrameEnd

/-- What comes behind the length. -/
def enterMask : WebSocketParser :=
  if wp.parser.flags.hasMask then
    { wp with parser := { wp.parser with state := .mask, require := 4 } }
  else
    wp.enterBody

/-- `case s_start`. -/
def startCase (cc : UInt8) : WebSocketParser :=
  { wp with
    parser :=
      { wp.parser with
        state := .head
        length := 0
        maskOffset := 0
        flags := ⟨cc &&& 0xF, cc &&& 0x80 ≠ 0, false⟩ } }

/-- The flags behind the second byte. -/
def headFlags (cc : UInt8) : WebsocketFlags :=
  { wp.parser.flags with hasMask := wp.parser.flags.hasMask || cc &&& 0x80 ≠ 0 }

/-- `case s_head`. -/
def headCase (cc : UInt8) : WebSocketParser :=
  if (cc &&& 0x7F).toNat ≥ 126 then
    { wp with
      parser :=
        { wp.parser with
          state := .length
          flags := wp.headFlags cc
          length := 0
          require := if (cc &&& 0x7F).toNat = 127 then 8 else 2 } }
  else
    { wp with
      parser :=
        { wp.parser with
          flags := wp.headFlags cc
          length := (cc &&& 0x7F).toNat } }
      |>.enterMask

/-- `case s_length`, behind its loop. -/
def lengthEnd (length require : ℕ) : WebSocketParser :=
  let wp := { wp with parser := { wp.parser with length := length, require := require } }
  if require = 0 then wp.enterMask else wp

/-- `case s_length`. -/
def lengthCase (data : Bytes) : WebSocketParser × Bytes :=
  let (length, require, rest) :=
    takeLoop (fun length _ cc => length <<< 8 ||| cc.toNat) wp.parser.length wp.parser.require data
  (wp.lengthEnd length require, rest)

/-- `case s_mask`, behind its loop. -/
def maskEnd (mask : WsMask) (require : ℕ) : WebSocketParser :=
  let wp := { wp with parser := { wp.parser with mask := mask, require := require } }
  if require = 0 then wp.enterBody else wp

/-- `case s_mask`. -/
def maskCase (data : Bytes) : WebSocketParser × Bytes :=
  let (mask, require, rest) :=
    takeLoop (fun (mask : WsMask) require cc => Function.update mask (Fin.ofNat 4 (4 - require)) cc)
      wp.parser.mask wp.parser.require data
  (wp.maskEnd mask require, rest)

/-- `case s_body`. When nothing is required the byte is skipped. -/
def bodyCase (data : Bytes) : WebSocketParser × Bytes :=
  if wp.parser.require = 0 then
    ({ wp with parser := { wp.parser with state := .start } }.onFrameEnd, data.tail)
  else if wp.parser.require ≤ data.length then
    let body := wp.onFrameBody (data.take wp.parser.require)
    ({ body with parser := { body.parser with require := 0, state := .start } }.onFrameEnd,
      data.drop wp.parser.require)
  else
    let body := wp.onFrameBody data
    ({ body with parser := { body.parser with require := wp.parser.require - data.length } }, [])

/-- One round of the loop over the bytes: the parser behind it, and the bytes that are left. -/
def executeRound (cc : UInt8) (rest : Bytes) : WebSocketParser × Bytes :=
  match wp.parser.state with
  | .start => (wp.startCase cc, rest)
  | .head => (wp.headCase cc, rest)
  | .length => wp.lengthCase (cc :: rest)
  | .mask => wp.maskCase (cc :: rest)
  | .body => wp.bodyCase (cc :: rest)

/-! ### The loop ends -/

/-- A round without progress over the bytes goes on to a later case. -/
def roundsLeft : ℕ :=
  match wp.parser.state with
  | .length => 2
  | .mask => 1
  | _ => 0

theorem onFrameHeader_state : wp.onFrameHeader.parser.state = wp.parser.state := rfl

theorem onFrameEnd_state : wp.onFrameEnd.parser.state = wp.parser.state := by
  unfold onFrameEnd
  split <;> rfl

theorem roundsLeft_enterBody : wp.enterBody.roundsLeft = 0 := by
  unfold enterBody
  split
  · rfl
  · unfold roundsLeft
    rw [onFrameEnd_state]
    rfl

theorem roundsLeft_enterMask : wp.enterMask.roundsLeft ≤ 1 := by
  unfold enterMask
  split
  · exact le_refl 1
  · rw [roundsLeft_enterBody]
    exact Nat.zero_le 1

/-- **Every round** either takes bytes or has one round less left. -/
theorem executeRound_decreases (cc : UInt8) (rest : Bytes) :
    (wp.executeRound cc rest).2.length < (cc :: rest).length ∨
      (wp.executeRound cc rest).2.length = (cc :: rest).length ∧
        (wp.executeRound cc rest).1.roundsLeft < wp.roundsLeft := by
  unfold executeRound
  cases hstate : wp.parser.state with
  | start => exact Or.inl (Nat.lt_succ_self _)
  | head => exact Or.inl (Nat.lt_succ_self _)
  -- the loops take a byte unless nothing is required any more
  | length =>
    by_cases hrequire : wp.parser.require = 0
    · right
      show (wp.lengthCase (cc :: rest)).2.length = _ ∧ (wp.lengthCase (cc :: rest)).1.roundsLeft < _
      unfold lengthCase lengthEnd roundsLeft
      rw [hrequire, takeLoop_zero, hstate]
      exact ⟨rfl, Nat.lt_succ_of_le (roundsLeft_enterMask _)⟩
    · left
      show (takeLoop _ wp.parser.length wp.parser.require (cc :: rest)).2.2.length < _
      rw [takeLoop_rest, List.length_drop]
      exact Nat.sub_lt (Nat.succ_pos _) (Nat.pos_of_ne_zero hrequire)
  | mask =>
    by_cases hrequire : wp.parser.require = 0
    · right
      show (wp.maskCase (cc :: rest)).2.length = _ ∧ (wp.maskCase (cc :: rest)).1.roundsLeft < _
      unfold maskCase maskEnd roundsLeft
      rw [hrequire, takeLoop_zero, hstate]
      exact ⟨rfl, Nat.lt_succ_of_le (le_of_eq (roundsLeft_enterBody _))⟩
    · left
      show (takeLoop _ wp.parser.mask wp.parser.require (cc :: rest)).2.2.length < _
      rw [takeLoop_rest, List.length_drop]
      exact Nat.sub_lt (Nat.succ_pos _) (Nat.pos_of_ne_zero hrequire)
  | body =>
    left
    show (wp.bodyCase (cc :: rest)).2.length < _
    unfold bodyCase
    split
    · exact Nat.lt_succ_self _
    · next hrequire =>
      split
      · show ((cc :: rest).drop _).length < _
        rw [List.length_drop]
        exact Nat.sub_lt (Nat.succ_pos _) (Nat.pos_of_ne_zero hrequire)
      · exact Nat.succ_pos _

/-- `websocket_parser_execute` with the callbacks of `WebSocketParser`, none of which ever stops it:
it always returns that it has taken all the bytes. -/
def execute (wp : WebSocketParser) : Bytes → WebSocketParser
  | [] => wp
  | cc :: rest => execute (wp.executeRound cc rest).1 (wp.executeRound cc rest).2
termination_by data => (data.length, wp.roundsLeft)
decreasing_by
  cases wp.executeRound_decreases cc rest with
  | inl h => exact Prod.Lex.left _ _ h
  | inr h =>
    rw [h.1]
    exact Prod.Lex.right _ h.2

/-- `WebSocketParser::FeedRecvData`, for one read of the socket after another. -/
def feedRecvData (wp : WebSocketParser) (reads : List Bytes) : WebSocketParser :=
  reads.foldl execute wp

end WebSocketParser

/-! ### Sending -/

/-- `websocket_build_frame`. -/
def websocketBuildFrame (flags : WebsocketFlags) (mask : WsMask) (data : Bytes) : Bytes :=
  let n := data.length
  let frame0 : UInt8 := (if flags.fin then 0x80 else 0) ||| (flags.op &&& 0xF)
  let frame1 : UInt8 := if flags.hasMask then 0x80 else 0
  let head :=
    if n < 126 then
      [frame0, frame1 ||| UInt8.ofNat n]
    else if n ≤ 0xFFFF then
      [frame0, frame1 ||| 126, UInt8.ofNat (n >>> 8), UInt8.ofNat (n &&& 0xFF)]
    else
      [frame0, frame1 ||| 127,
        UInt8.ofNat (n >>> 56 &&& 0xFF), UInt8.ofNat (n >>> 48 &&& 0xFF),
        UInt8.ofNat (n >>> 40 &&& 0xFF), UInt8.ofNat (n >>> 32 &&& 0xFF),
        UInt8.ofNat (n >>> 24 &&& 0xFF), UInt8.ofNat (n >>> 16 &&& 0xFF),
        UInt8.ofNat (n >>> 8 &&& 0xFF), UInt8.ofNat (n &&& 0xFF)]
  if flags.hasMask then
    head ++ List.ofFn mask ++ websocketDecode data mask 0
  else
    head ++ data

/-- `ws_calc_frame_size`. -/
def wsCalcFrameSize (dataLen : ℕ) (hasMask : Bool) : ℕ :=
  let size := dataLen + 2
  let size := if dataLen ≥ 126 then (if dataLen > 0xFFFF then size + 8 else size + 2) else size
  if hasMask then size + 4 else size

/-- `ws_session_type`. -/
inductive WsSessionType
  | client
  | server
deriving DecidableEq, Repr

/-- `WebSocketChannel`: the type, and how many masks it has drawn. -/
structure WebSocketChannel where
  type : WsSessionType
  drawn : ℕ
deriving DecidableEq, Repr

namespace WebSocketChannel

section Send

variable (rand : ℕ → WsMask) (c : WebSocketChannel)

/-- `send_`, where `rand` answers the masks: of the buffer the frame was built in, `frame_size` bytes
are written. -/
def sendFrame (buf : Bytes) (opcode : UInt8) (fin : Bool) : Bytes × WebSocketChannel :=
  match c.type with
  | .client =>
    ((websocketBuildFrame ⟨opcode, fin, true⟩ (rand c.drawn) buf).take
        (wsCalcFrameSize buf.length true),
      { c with drawn := c.drawn + 1 })
  | .server =>
    ((websocketBuildFrame ⟨opcode, fin, false⟩ (fun _ => 0) buf).take
        (wsCalcFrameSize buf.length false),
      c)

end Send

section Fragments

variable (rand : ℕ → WsMask) (fragment : ℕ)

/-- The fragments behind the first one: the loop, and the last fragment. -/
def sendRest (hfragment : 0 < fragment) (c : WebSocketChannel) (p : Bytes) :
    Bytes × WebSocketChannel :=
  if p.length > fragment then
    let (nsend, c) := c.sendFrame rand (p.take fragment) 0x0 false
    let (rest, c) := sendRest hfragment c (p.drop fragment)
    (nsend ++ rest, c)
  else
    c.sendFrame rand p 0x0 true
termination_by p.length
decreasing_by
  rw [List.length_drop]
  omega

/-- `send` with a size for the fragments. -/
def sendFragments (hfragment : 0 < fragment) (c : WebSocketChannel) (buf : Bytes)
    (opcode : UInt8) : Bytes × WebSocketChannel :=
  if buf.length ≤ fragment then
    c.sendFrame rand buf opcode true
  else
    let (nsend, c) := c.sendFrame rand (buf.take fragment) opcode false
    let (rest, c) := sendRest rand fragment hfragment c (buf.drop fragment)
    (nsend ++ rest, c)

end Fragments

/-- `send`. A message that is sent in fragments is finished whatever `fin` says. -/
def send (rand : ℕ → WsMask) (c : WebSocketChannel) (buf : Bytes) (opcode : UInt8) (fin : Bool) :
    Bytes × WebSocketChannel :=
  if buf.length > 0xFFFF then
    sendFragments rand 0xFFFF (by decide) c buf opcode
  else
    c.sendFrame rand buf opcode fin

end WebSocketChannel

end WebDiff
