import WebDiff.Model.WsSessions
import WebDiff.Server.WebSocket

/-!
# The sessions of the WebSocket server

A session is a position that all channels with its token share (`Sessions`). The server keeps it in
an object on the heap, to which `m_mapSessions` and the contexts of the channels point. These pointers
are invisible: whatever is sent over whatever channels, the answers are those of a server that has a
position for every token (`sessions_outputs`).
-/

namespace WebDiff

open EStateM

/-! ### What the sessions are for -/

/-- The position of every token, and the token of every channel. -/
structure Sessions (C : Type) where
  position : Bytes → PlayerContext
  token : C → Option Bytes

def Sessions.new {C : Type} : Sessions C :=
  ⟨fun _ => PlayerContext.new, fun _ => none⟩

section Spec

variable {C : Type} (s : Sessions C) (c : C) (j : Json)

/-- What is sent in answer to a message. -/
def Sessions.answer : List Json :=
  let method := (j.member (lit "method")).text
  let id := j.member (lit "id")
  if method = lit "get_player_position" then
    match s.token c with
    | some token => [(respOf id method).put (lit "result") (s.position token).position]
    | none => [(respOf id method).put (lit "error") errorContext]
  else if method = lit "set_session_token" then
    [(Json.null.put (lit "id") id).put (lit "result") .null]
  else if method = lit "get_map" then
    match s.token c with
    | some _ => [respOf id method]
    | none => [(respOf id method).put (lit "error") errorContext]
  else []

variable [DecidableEq C]

/-- What a message changes: the position of the session, or the token of the channel. -/
def Sessions.change : Sessions C :=
  let method := (j.member (lit "method")).text
  let params := j.member (lit "params")
  if method = lit "player_move_to" then
    match s.token c with
    | some token =>
      let player := ⟨(params.member (lit "x")).toInt, (params.member (lit "y")).toInt⟩
      { s with position := Function.update s.position token player }
    | none => s
  else if method = lit "set_session_token" then
    { s with token := Function.update s.token c (some (params.member (lit "token")).text) }
  else s

instance (hasPlayer : Bool) (j : Json) : Decidable (MessageFits hasPlayer j) :=
  inferInstanceAs (Decidable (_ ∧ (_ → _ → _ ∧ _) ∧ (_ → _)))

/-- A message that does not fit ends the process, and the sessions with it. -/
def Sessions.step (parser : JsonParser) : WsInput C → List Json × Sessions C
  | .onopen c => ([], { s with token := Function.update s.token c none })
  | .onmessage c msg =>
    match parser.parse msg with
    | some j => if MessageFits (s.token c).isSome j then (s.answer c j, s.change c j) else ([], .new)
    | none => ([], .new)
  | .onclose c => ([], { s with token := Function.update s.token c none })

def Sessions.outputs (parser : JsonParser) (s : Sessions C) : List (WsInput C) → List (List Json)
  | [] => []
  | i :: rest => (s.step parser i).1 :: (s.step parser i).2.outputs parser rest

end Spec

/-! ### What a message does -/

/-- The state behind a message that fits. -/
def WsState.after (s : WsState) (j : Json) : WsState :=
  let method := (j.member (lit "method")).text
  let id := j.member (lit "id")
  let params := j.member (lit "params")
  if method = lit "get_player_position" then
    match s.playerContext with
    | some player =>
      { s with sent := s.sent ++ [(respOf id method).put (lit "result") (s.players player).position] }
    | none => { s with sent := s.sent ++ [(respOf id method).put (lit "error") errorContext] }
  else if method = lit "player_move_to" then
    match s.playerContext with
    | some player =>
      let moved := ⟨(params.member (lit "x")).toInt, (params.member (lit "y")).toInt⟩
      { s with players := Function.update s.players player moved }
    | none => s
  else if method = lit "set_session_token" then
    let answer := (Json.null.put (lit "id") id).put (lit "result") .null
    match s.mapSessions (params.member (lit "token")).text with
    | some player => { s with playerContext := some player, sent := s.sent ++ [answer] }
    | none =>
      { s with
        players := Function.update s.players s.allocated PlayerContext.new
        allocated := s.allocated + 1
        mapSessions :=
          Function.update s.mapSessions (params.member (lit "token")).text (some s.allocated)
        playerContext := some s.allocated
        sent := s.sent ++ [answer] }
  else if method = lit "get_map" then
    match s.playerContext with
    | some _ => { s with sent := s.sent ++ [respOf id method] }
    | none => { s with sent := s.sent ++ [(respOf id method).put (lit "error") errorContext] }
  else s

section Branches

variable {s : WsState} {j : Json} (hutf8 : j.textUtf8) (hj : j.isSubscriptable)

include hutf8 hj

theorem getPlayerPosition_after (hmethod : (j.member (lit "method")).text = lit "get_player_position") :
    Returns (getPlayerPosition j (j.member (lit "method")).text) (fun _ s' => s' = s.after j) s := by
  have hid := Json.textUtf8_member hutf8 (lit "id")
  have hm := isUtf8_text (Json.textUtf8_member hutf8 (lit "method"))
  obtain ⟨players, allocated, mapSessions, playerContext, sent⟩ := s
  unfold getPlayerPosition WsState.after
  rw [returns_bind, returns_subscript, returns_bind, returns_get]
  refine ⟨hj, ?_⟩
  simp only [if_pos hmethod]
  cases playerContext with
  | none => exact (returns_send_of_utf8 (textUtf8_errorResp hid hm)).mpr rfl
  | some player => exact (returns_send_of_utf8 (textUtf8_positionResp hid hm _)).mpr rfl

theorem getMap_after (hmethod : (j.member (lit "method")).text = lit "get_map") :
    Returns (getMap j (j.member (lit "method")).text) (fun _ s' => s' = s.after j) s := by
  have hid := Json.textUtf8_member hutf8 (lit "id")
  have hm := isUtf8_text (Json.textUtf8_member hutf8 (lit "method"))
  have hother : ∀ m : Bytes, m ≠ lit "get_map" → (j.member (lit "method")).text ≠ m :=
    fun m hne h => hne (h.symm.trans hmethod)
  obtain ⟨players, allocated, mapSessions, playerContext, sent⟩ := s
  unfold getMap WsState.after
  rw [returns_bind, returns_subscript, returns_bind, returns_get]
  refine ⟨hj, ?_⟩
  simp only [if_neg (hother (lit "get_player_position") (by decide)),
    if_neg (hother (lit "player_move_to") (by decide)),
    if_neg (hother (lit "set_session_token") (by decide)), if_pos hmethod]
  cases playerContext with
  | none => exact (returns_send_of_utf8 (textUtf8_errorResp hid hm)).mpr rfl
  | some player => exact (returns_send_of_utf8 (textUtf8_respOf hid hm)).mpr rfl

theorem setSessionToken_after (hmethod : (j.member (lit "method")).text = lit "set_session_token")
    (htoken : ((j.member (lit "params")).member (lit "token")).isString) :
    Returns (setSessionToken j) (fun _ s' => s' = s.after j) s := by
  have hid := Json.textUtf8_member hutf8 (lit "id")
  have hother : ∀ m : Bytes, m ≠ lit "set_session_token" → (j.member (lit "method")).text ≠ m :=
    fun m hne h => hne (h.symm.trans hmethod)
  obtain ⟨players, allocated, mapSessions, playerContext, sent⟩ := s
  unfold setSessionToken findOrAddSession setPlayerContext WsState.after
  rw [returns_bind, returns_subscript, and_iff_right hj, returns_bind, returns_subscript,
    and_iff_right hj, returns_bind, returns_field Json.converts_getString, and_iff_right htoken,
    returns_bind, returns_modifyGet, returns_bind, returns_modify,
    returns_send_of_utf8 (textUtf8_tokenResp hid)]
  simp only [if_neg (hother (lit "get_player_position") (by decide)),
    if_neg (hother (lit "player_move_to") (by decide)), if_pos hmethod]
  cases mapSessions ((j.member (lit "params")).member (lit "token")).text with
  | none => rfl
  | some player => rfl

omit hutf8 in
theorem handleMessage_after {parser : JsonParser} {msg : Bytes} (hparse : parser.parse msg = some j)
    (hstring : (j.member (lit "method")).isString)
    (hmethod : (j.member (lit "method")).text = lit "player_move_to")
    (hparams : s.playerContext.isSome → ((j.member (lit "params")).member (lit "x")).fitsInt ∧
      ((j.member (lit "params")).member (lit "y")).fitsInt) :
    Returns (handleMessage parser msg) (fun _ s' => s' = s.after j) s := by
  have hother : ∀ m : Bytes, m ≠ lit "player_move_to" → (j.member (lit "method")).text ≠ m :=
    fun m hne h => hne (h.symm.trans hmethod)
  obtain ⟨players, allocated, mapSessions, playerContext, sent⟩ := s
  unfold handleMessage WsState.after
  rw [returns_bind, returns_parseMessage]
  refine ⟨j, hparse, ?_⟩
  rw [returns_bind, returns_subscript, and_iff_right hj, if_pos ⟨hstring, hmethod⟩, returns_bind,
    returns_get]
  simp only [if_neg (hother (lit "get_player_position") (by decide)), if_pos hmethod]
  cases playerContext with
  | none => rfl
  | some player =>
    obtain ⟨hx, hy⟩ := hparams rfl
    unfold setPlayer
    simp only [returns_bind, returns_subscript, hj, returns_field Json.converts_getInt,
      returns_modify, true_and, hx, hy]

end Branches

/-- **A message that fits.** -/
theorem onMessage_after {parser : JsonParser} {msg : Bytes} {s : WsState} {j : Json}
    (hparse : parser.parse msg = some j) (hfits : MessageFits s.playerContext.isSome j) :
    onMessage parser msg s = .ok () (s.after j) := by
  obtain ⟨hstring, hparams, htoken⟩ := hfits
  have hutf8 := parser.parse_utf8 msg j hparse
  have hj := isSubscriptable_of_member_isString j hstring
  have hreturns : Returns (onMessage parser msg) (fun _ s' => s' = s.after j) s := by
    unfold onMessage
    rw [returns_bind, returns_parseMessage]
    refine ⟨j, hparse, ?_⟩
    rw [returns_bind, returns_field Json.converts_getString]
    refine ⟨hstring, ?_⟩
    by_cases hposition : (j.member (lit "method")).text = lit "get_player_position"
    · rw [if_pos hposition]
      exact getPlayerPosition_after hutf8 hj hposition
    rw [if_neg hposition]
    by_cases hmove : (j.member (lit "method")).text = lit "player_move_to"
    · rw [if_pos hmove]
      exact handleMessage_after hj hparse hstring hmove (hparams hmove)
    rw [if_neg hmove]
    by_cases hset : (j.member (lit "method")).text = lit "set_session_token"
    · rw [if_pos hset]
      exact setSessionToken_after hutf8 hj hset (htoken hset)
    rw [if_neg hset]
    by_cases hmap : (j.member (lit "method")).text = lit "get_map"
    · rw [if_pos hmap]
      exact getMap_after hutf8 hj hmap
    · rw [if_neg hmap]
      show s = s.after j
      unfold WsState.after
      simp only [if_neg hposition, if_neg hmove, if_neg hset, if_neg hmap]
  obtain ⟨a, s', heq, rfl⟩ := returns_iff.mp hreturns
  exact heq

/-- A message that does not fit, or is not JSON. -/
theorem onMessage_throws {parser : JsonParser} {msg : Bytes} {s : WsState}
    (hno : ¬ ∃ j, parser.parse msg = some j ∧ MessageFits s.playerContext.isSome j) :
    ∃ e s', onMessage parser msg s = .error e s' := by
  cases heq : onMessage parser msg s with
  | ok a s' => exact absurd (returns_onMessage.mp (returns_true_iff.mpr ⟨a, s', heq⟩)) hno
  | error e s' => exact ⟨e, s', rfl⟩

/-! ### The pointers -/

section StandsFor

variable {C : Type}

/-- The objects and the pointers to them stand for the sessions: a channel points to the object of
its token, and no two tokens share an object. -/
structure StandsFor (p : WsProcess C) (s : Sessions C) : Prop where
  contexts : ∀ c, p.contexts c = (s.token c).bind p.mapSessions
  found : ∀ c token, s.token c = some token → ∃ player, p.mapSessions token = some player
  position : ∀ token, s.position token = ((p.mapSessions token).map p.players).getD .new
  injective : ∀ token token' player, p.mapSessions token = some player →
    p.mapSessions token' = some player → token = token'
  allocated : ∀ token player, p.mapSessions token = some player → player < p.allocated

theorem standsFor_new : StandsFor (WsProcess.new : WsProcess C) Sessions.new where
  contexts := fun _ => rfl
  found := fun _ _ h => nomatch h
  position := fun _ => rfl
  injective := fun _ _ _ h => nomatch h
  allocated := fun _ _ h => nomatch h

variable {p : WsProcess C} {s : Sessions C}

/-- What a channel with a token points to. -/
theorem StandsFor.pointer (h : StandsFor p s) {c : C} {token : Bytes}
    (htoken : s.token c = some token) :
    ∃ player, p.mapSessions token = some player ∧ p.contexts c = some player ∧
      s.position token = p.players player := by
  obtain ⟨player, hplayer⟩ := h.found c token htoken
  refine ⟨player, hplayer, ?_, ?_⟩
  · rw [h.contexts c, htoken, Option.bind_some, hplayer]
  · rw [h.position token, hplayer, Option.map_some, Option.getD_some]

theorem StandsFor.no_pointer (h : StandsFor p s) {c : C} (htoken : s.token c = none) :
    p.contexts c = none := by
  rw [h.contexts c, htoken, Option.bind_none]

theorem StandsFor.isSome (h : StandsFor p s) (c : C) :
    (p.contexts c).isSome = (s.token c).isSome := by
  cases htoken : s.token c with
  | none => rw [h.no_pointer htoken, Option.isSome_none, Option.isSome_none]
  | some token =>
    obtain ⟨player, -, hcontext, -⟩ := h.pointer htoken
    rw [hcontext, Option.isSome_some, Option.isSome_some]

/-- A player moves: the other tokens have other objects. -/
theorem StandsFor.move (h : StandsFor p s) {token : Bytes} {player : ℕ}
    (hplayer : p.mapSessions token = some player) (moved : PlayerContext) :
    StandsFor { p with players := Function.update p.players player moved }
      { s with position := Function.update s.position token moved } where
  contexts := h.contexts
  found := h.found
  injective := h.injective
  allocated := h.allocated
  position := by
    intro token'
    show Function.update s.position token moved token'
      = ((p.mapSessions token').map (Function.update p.players player moved)).getD .new
    by_cases heq : token' = token
    · rw [heq, Function.update_self, hplayer, Option.map_some, Function.update_self,
        Option.getD_some]
    rw [Function.update_of_ne heq, h.position token']
    cases hplayer' : p.mapSessions token' with
    | none => rfl
    | some player' =>
      have hne : player' ≠ player := fun hsame =>
        heq (h.injective token' token player (hsame ▸ hplayer') hplayer)
      rw [Option.map_some, Option.map_some, Function.update_of_ne hne]

/-- `new PlayerContext()`: the object is no other token's, and its position is the one of a session
that nobody moved in. -/
theorem StandsFor.create (h : StandsFor p s) {token : Bytes}
    (hnone : p.mapSessions token = none) :
    StandsFor
      { p with
        players := Function.update p.players p.allocated .new
        allocated := p.allocated + 1
        mapSessions := Function.update p.mapSessions token (some p.allocated) } s where
  contexts := by
    intro c
    rw [h.contexts c]
    cases htoken : s.token c with
    | none => rfl
    | some token' =>
      obtain ⟨player, hplayer, -, -⟩ := h.pointer htoken
      have hne : token' ≠ token := fun heq => by
        rw [heq, hnone] at hplayer
        exact nomatch hplayer
      show p.mapSessions token' = Function.update p.mapSessions token (some p.allocated) token'
      rw [Function.update_of_ne hne]
  found := by
    intro c token' htoken
    by_cases heq : token' = token
    · exact ⟨p.allocated, by rw [heq]; exact Function.update_self ..⟩
    · obtain ⟨player, hplayer⟩ := h.found c token' htoken
      exact ⟨player, (Function.update_of_ne heq ..).trans hplayer⟩
  position := by
    intro token'
    show s.position token'
      = ((Function.update p.mapSessions token (some p.allocated) token').map
          (Function.update p.players p.allocated .new)).getD .new
    rw [h.position token']
    by_cases heq : token' = token
    · rw [heq, hnone, Function.update_self, Option.map_some, Function.update_self]
      rfl
    rw [Function.update_of_ne heq]
    cases hplayer : p.mapSessions token' with
    | none => rfl
    | some player =>
      have hne : player ≠ p.allocated := Nat.ne_of_lt (h.allocated token' player hplayer)
      rw [Option.map_some, Option.map_some, Function.update_of_ne hne]
  injective := by
    intro token₁ token₂ player h₁ h₂
    -- an object under another token was there before, so it is not the new one
    have hold : ∀ token', token' ≠ token →
        Function.update p.mapSessions token (some p.allocated) token' = some player →
        p.mapSessions token' = some player ∧ player ≠ p.allocated := by
      intro token' hne hplayer
      rw [Function.update_of_ne hne] at hplayer
      exact ⟨hplayer, Nat.ne_of_lt (h.allocated token' player hplayer)⟩
    have hnew : ∀ token', token' = token →
        Function.update p.mapSessions token (some p.allocated) token' = some player →
        player = p.allocated := by
      intro token' heq hplayer
      rw [heq, Function.update_self] at hplayer
      exact (Option.some.inj hplayer).symm
    by_cases heq₁ : token₁ = token
    · by_cases heq₂ : token₂ = token
      · rw [heq₁, heq₂]
      · exact absurd (hnew token₁ heq₁ h₁) (hold token₂ heq₂ h₂).2
    · by_cases heq₂ : token₂ = token
      · exact absurd (hnew token₂ heq₂ h₂) (hold token₁ heq₁ h₁).2
      · exact h.injective token₁ token₂ player (hold token₁ heq₁ h₁).1 (hold token₂ heq₂ h₂).1
  allocated := by
    intro token' player hplayer
    by_cases heq : token' = token
    · have hsame : Function.update p.mapSessions token (some p.allocated) token' = some player :=
        hplayer
      rw [heq, Function.update_self] at hsame
      rw [← Option.some.inj hsame]
      exact Nat.lt_succ_self _
    · have hbefore : Function.update p.mapSessions token (some p.allocated) token' = some player :=
        hplayer
      rw [Function.update_of_ne heq] at hbefore
      exact Nat.lt_succ_of_lt (h.allocated token' player hbefore)

variable [DecidableEq C]

/-- The channel gets the token of an object that exists. -/
theorem StandsFor.join (h : StandsFor p s) (c : C) {token : Bytes} {player : ℕ}
    (hplayer : p.mapSessions token = some player) :
    StandsFor { p with contexts := Function.update p.contexts c (some player) }
      { s with token := Function.update s.token c (some token) } where
  position := h.position
  injective := h.injective
  allocated := h.allocated
  contexts := by
    intro c'
    show Function.update p.contexts c (some player) c'
      = (Function.update s.token c (some token) c').bind p.mapSessions
    by_cases heq : c' = c
    · rw [heq, Function.update_self, Function.update_self, Option.bind_some, hplayer]
    · rw [Function.update_of_ne heq, Function.update_of_ne heq, h.contexts c']
  found := by
    intro c' token' htoken
    have hupdate : Function.update s.token c (some token) c' = some token' := htoken
    by_cases heq : c' = c
    · rw [heq, Function.update_self] at hupdate
      exact ⟨player, Option.some.inj hupdate ▸ hplayer⟩
    · rw [Function.update_of_ne heq] at hupdate
      exact h.found c' token' hupdate

/-- A channel is opened or closed. -/
theorem StandsFor.leave (h : StandsFor p s) (c : C) :
    StandsFor { p with contexts := Function.update p.contexts c none }
      { s with token := Function.update s.token c none } where
  position := h.position
  injective := h.injective
  allocated := h.allocated
  contexts := by
    intro c'
    show Function.update p.contexts c none c'
      = (Function.update s.token c none c').bind p.mapSessions
    by_cases heq : c' = c
    · rw [heq, Function.update_self, Function.update_self, Option.bind_none]
    · rw [Function.update_of_ne heq, Function.update_of_ne heq, h.contexts c']
  found := by
    intro c' token' htoken
    have hupdate : Function.update s.token c none c' = some token' := htoken
    by_cases heq : c' = c
    · rw [heq, Function.update_self] at hupdate
      exact nomatch hupdate
    · rw [Function.update_of_ne heq] at hupdate
      exact h.found c' token' hupdate

/-! ### One input -/

/-- The process with what a message on the channel left behind. -/
def WsProcess.leftBy (p : WsProcess C) (c : C) (s : WsState) : WsProcess C :=
  ⟨s.players, s.allocated, s.mapSessions, Function.update p.contexts c s.playerContext⟩

theorem leftBy_of_eq (c : C) (s' : WsState) (hplayer : s'.playerContext = p.contexts c) :
    p.leftBy c s' = ⟨s'.players, s'.allocated, s'.mapSessions, p.contexts⟩ := by
  unfold WsProcess.leftBy
  rw [hplayer, Function.update_eq_self]

omit [DecidableEq C] in
/-- What is sent. -/
theorem StandsFor.answer (h : StandsFor p s) (c : C) (j : Json) :
    ((p.channel c).after j).sent = s.answer c j := by
  unfold WsState.after Sessions.answer WsProcess.channel
  by_cases hposition : (j.member (lit "method")).text = lit "get_player_position"
  · simp only [if_pos hposition]
    cases htoken : s.token c with
    | none =>
      simp only [h.no_pointer htoken]
      rfl
    | some token =>
      obtain ⟨player, -, hcontext, hsame⟩ := h.pointer htoken
      simp only [hcontext, hsame]
      rfl
  simp only [if_neg hposition]
  by_cases hmove : (j.member (lit "method")).text = lit "player_move_to"
  · have hset : (j.member (lit "method")).text ≠ lit "set_session_token" := by
      rw [hmove]
      decide
    have hmap : (j.member (lit "method")).text ≠ lit "get_map" := by
      rw [hmove]
      decide
    simp only [if_pos hmove, if_neg hset, if_neg hmap]
    cases p.contexts c with
    | none => rfl
    | some player => rfl
  simp only [if_neg hmove]
  by_cases hset : (j.member (lit "method")).text = lit "set_session_token"
  · simp only [if_pos hset]
    cases p.mapSessions ((j.member (lit "params")).member (lit "token")).text with
    | none => rfl
    | some player => rfl
  simp only [if_neg hset]
  by_cases hmap : (j.member (lit "method")).text = lit "get_map"
  · simp only [if_pos hmap]
    cases htoken : s.token c with
    | none =>
      simp only [h.no_pointer htoken]
      rfl
    | some token =>
      obtain ⟨player, -, hcontext, -⟩ := h.pointer htoken
      simp only [hcontext]
      rfl
  · simp only [if_neg hmap]

/-- A message that changes no pointer and no object. -/
theorem StandsFor.leftBy (h : StandsFor p s) (c : C) (sent : List Json) :
    StandsFor (p.leftBy c { p.channel c with sent := sent }) s := by
  rw [leftBy_of_eq c { p.channel c with sent := sent } rfl]
  exact h

/-- What changes. -/
theorem StandsFor.change (h : StandsFor p s) (c : C) (j : Json) :
    StandsFor (p.leftBy c ((p.channel c).after j)) (s.change c j) := by
  unfold WsState.after Sessions.change
  by_cases hposition : (j.member (lit "method")).text = lit "get_player_position"
  · have hmove : (j.member (lit "method")).text ≠ lit "player_move_to" := by
      rw [hposition]
      decide
    have hset : (j.member (lit "method")).text ≠ lit "set_session_token" := by
      rw [hposition]
      decide
    simp only [if_pos hposition, if_neg hmove, if_neg hset]
    split
    · exact h.leftBy c _
    · exact h.leftBy c _
  simp only [if_neg hposition]
  by_cases hmove : (j.member (lit "method")).text = lit "player_move_to"
  · simp only [if_pos hmove]
    cases htoken : s.token c with
    | none =>
      have hnone : (p.channel c).playerContext = none := h.no_pointer htoken
      simp only [hnone]
      exact h.leftBy c _
    | some token =>
      obtain ⟨player, hplayer, hcontext, -⟩ := h.pointer htoken
      have hsome : (p.channel c).playerContext = some player := hcontext
      simp only [hsome]
      rw [leftBy_of_eq c _ hcontext.symm]
      exact h.move hplayer _
  simp only [if_neg hmove]
  by_cases hset : (j.member (lit "method")).text = lit "set_session_token"
  · simp only [if_pos hset]
    cases hsession : p.mapSessions ((j.member (lit "params")).member (lit "token")).text with
    | none =>
      have hnone : (p.channel c).mapSessions
          ((j.member (lit "params")).member (lit "token")).text = none := hsession
      simp only [hnone]
      exact (h.create hsession).join c (Function.update_self ..)
    | some player =>
      have hsome : (p.channel c).mapSessions
          ((j.member (lit "params")).member (lit "token")).text = some player := hsession
      simp only [hsome]
      exact h.join c hsession
  simp only [if_neg hset]
  by_cases hmap : (j.member (lit "method")).text = lit "get_map"
  · simp only [if_pos hmap]
    split
    · exact h.leftBy c _
    · exact h.leftBy c _
  · simp only [if_neg hmap]
    exact h.leftBy c _

/-- One input: the same answers, and the pointers stand for the sessions again. -/
theorem StandsFor.step (h : StandsFor p s) (parser : JsonParser) (i : WsInput C) :
    (p.step parser i).1 = (s.step parser i).1 ∧
      StandsFor (p.step parser i).2 (s.step parser i).2 := by
  cases i with
  | onopen c => exact ⟨rfl, h.leave c⟩
  | onclose c => exact ⟨rfl, h.leave c⟩
  | onmessage c msg =>
    have hplayer : (p.channel c).playerContext.isSome = (s.token c).isSome := h.isSome c
    unfold WsProcess.step Sessions.step
    cases hparse : parser.parse msg with
    | none =>
      have hno : ¬ ∃ j, parser.parse msg = some j ∧
          MessageFits (p.channel c).playerContext.isSome j :=
        fun ⟨j, hj, _⟩ => nomatch hparse.symm.trans hj
      obtain ⟨e, s', hthrows⟩ := onMessage_throws hno
      simp only [hparse, hthrows]
      exact ⟨trivial, standsFor_new⟩
    | some j =>
      by_cases hfits : MessageFits (s.token c).isSome j
      · simp only [hparse, if_pos hfits, onMessage_after hparse (hplayer ▸ hfits)]
        exact ⟨h.answer c j, h.change c j⟩
      · have hno : ¬ ∃ j', parser.parse msg = some j' ∧
            MessageFits (p.channel c).playerContext.isSome j' := by
          intro ⟨j', hj', hfits'⟩
          rw [hparse] at hj'
          cases hj'
          exact hfits (hplayer ▸ hfits')
        obtain ⟨e, s', hthrows⟩ := onMessage_throws hno
        simp only [hparse, if_neg hfits, hthrows]
        exact ⟨trivial, standsFor_new⟩

/-- A whole run. -/
theorem StandsFor.outputs (h : StandsFor p s) (parser : JsonParser) (inputs : List (WsInput C)) :
    p.outputs parser inputs = s.outputs parser inputs := by
  induction inputs generalizing p s with
  | nil => rfl
  | cons i rest ih =>
    obtain ⟨hsent, hnext⟩ := h.step parser i
    unfold WsProcess.outputs Sessions.outputs
    rw [hsent, ih hnext]

end StandsFor

/-- **The sessions.** Whatever is opened, sent and closed on the channels, in any order: what the
server sends in answer is what a server sends that keeps a position for every token, which starts at
the largest integers, is moved by every channel that gave the token last, survives the channels, and
is forgotten with everything else at the first message that is not a JSON text of the right shape. -/
theorem sessions_outputs (parser : JsonParser) {C : Type} [DecidableEq C]
    (inputs : List (WsInput C)) :
    (WsProcess.new : WsProcess C).outputs parser inputs = Sessions.new.outputs parser inputs :=
  standsFor_new.outputs parser inputs

end WebDiff
