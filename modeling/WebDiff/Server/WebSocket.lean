import WebDiff.Model.WsServer
import WebDiff.Server.Http

/-!
# When the WebSocket handler returns

The messages that `onMessage` gets through are the JSON texts that satisfy `MessageFits`. The
answers themselves never fail: their strings come from the parser, so `dump` accepts them
(`returns_send_of_utf8`).
-/

namespace WebDiff

open EStateM

/-- The fields that are read of a message, on a channel with a player or without, have the right
types. -/
def MessageFits (hasPlayer : Bool) (j : Json) : Prop :=
  (j.member (lit "method")).isString ∧
    ((j.member (lit "method")).text = lit "player_move_to" → hasPlayer →
      ((j.member (lit "params")).member (lit "x")).fitsInt ∧
        ((j.member (lit "params")).member (lit "y")).fitsInt) ∧
    ((j.member (lit "method")).text = lit "set_session_token" →
      ((j.member (lit "params")).member (lit "token")).isString)

section Primitives

variable {s : WsState}

theorem returns_send_of_utf8 {j : Json} (hj : j.textUtf8) {Q : Unit → WsState → Prop} :
    Returns (send j) Q s ↔ Q () { s with sent := s.sent ++ [j] } := by
  unfold send
  rw [returns_bind, returns_liftExcept_of_eq (rfl : j.dump = if j.textUtf8 then _ else _)]
  exact and_iff_right hj

theorem returns_parseMessage {parser : JsonParser} {msg : Bytes} {Q : Json → WsState → Prop} :
    Returns (parseMessage parser msg) Q s ↔ ∃ j, parser.parse msg = some j ∧ Q j s := by
  unfold parseMessage
  cases parser.parse msg with
  | none => exact ⟨fun h => h.elim, fun ⟨_, h, _⟩ => nomatch h⟩
  | some j =>
    refine ⟨fun h => ⟨j, rfl, h⟩, fun ⟨j', heq, h⟩ => ?_⟩
    cases heq
    exact h

theorem returns_subscript {j : Json} {key : Bytes} {Q : Json → WsState → Prop} :
    Returns (liftExcept (j.subscript key) : WsHandler Json) Q s
      ↔ j.isSubscriptable ∧ Q (j.member key) s :=
  returns_liftExcept_of_eq (j.subscript_eq key)

/-- A field of a member, `j[key][key']`. -/
theorem returns_field {α : Type} {convert : Json → Except JsonException α} {ok : Json → Bool}
    {val : Json → α} (h : Json.Converts convert ok val) {j : Json} {key : Bytes}
    {Q : α → WsState → Prop} :
    Returns (liftExcept (j.field convert key) : WsHandler α) Q s
      ↔ ok (j.member key) ∧ Q (val (j.member key)) s :=
  returns_liftExcept_of_eq (h.field_eq j key)

end Primitives

/-! ### The answers -/

theorem isUtf8_of_ascii {s : Bytes} (h : s.all fun b => b < 0x80) : isUtf8 s := by
  induction s with
  | nil => rfl
  | cons b rest ih =>
    rw [List.all_cons, Bool.and_eq_true, decide_eq_true_eq] at h
    have htail : utf8Tail b = some [] := if_pos h.1
    unfold isUtf8 isUtf8From
    rw [htail]
    exact ih h.2

theorem isUtf8_text {j : Json} (h : j.textUtf8) : isUtf8 j.text := by
  cases j <;> first | exact h | rfl

/-- The keys and texts the server writes itself. -/
theorem isUtf8_lit (s : String) (h : (lit s).all fun b => b < 0x80) : isUtf8 (lit s) :=
  isUtf8_of_ascii h

section Answers

variable {id : Json} {method : Bytes}

theorem textUtf8_respOf (hid : id.textUtf8) (hmethod : isUtf8 method) :
    (respOf id method).textUtf8 :=
  Json.textUtf8_put (Json.textUtf8_put rfl (isUtf8_lit "id" (by decide)) hid)
    (isUtf8_lit "method" (by decide)) hmethod

theorem textUtf8_errorContext : errorContext.textUtf8 :=
  Json.textUtf8_put (Json.textUtf8_put rfl (isUtf8_lit "code" (by decide)) rfl)
    (isUtf8_lit "message" (by decide)) (isUtf8_lit "Not found error context" (by decide))

theorem textUtf8_position (player : PlayerContext) : player.position.textUtf8 :=
  Json.textUtf8_put (Json.textUtf8_put rfl (isUtf8_lit "x" (by decide)) rfl)
    (isUtf8_lit "y" (by decide)) rfl

theorem textUtf8_errorResp (hid : id.textUtf8) (hmethod : isUtf8 method) :
    ((respOf id method).put (lit "error") errorContext).textUtf8 :=
  Json.textUtf8_put (textUtf8_respOf hid hmethod) (isUtf8_lit "error" (by decide))
    textUtf8_errorContext

theorem textUtf8_positionResp (hid : id.textUtf8) (hmethod : isUtf8 method)
    (player : PlayerContext) :
    ((respOf id method).put (lit "result") player.position).textUtf8 :=
  Json.textUtf8_put (textUtf8_respOf hid hmethod) (isUtf8_lit "result" (by decide))
    (textUtf8_position player)

theorem textUtf8_tokenResp (hid : id.textUtf8) :
    ((Json.null.put (lit "id") id).put (lit "result") .null).textUtf8 :=
  Json.textUtf8_put (Json.textUtf8_put rfl (isUtf8_lit "id" (by decide)) hid)
    (isUtf8_lit "result" (by decide)) rfl

end Answers

/-! ### The branches -/

section Branches

variable {s : WsState} {j : Json} (hutf8 : j.textUtf8) (hj : j.isSubscriptable)

include hutf8 hj

theorem returns_getPlayerPosition {method : Bytes} (hmethod : isUtf8 method) :
    Returns (getPlayerPosition j method) (fun _ _ => True) s := by
  have hid := Json.textUtf8_member hutf8 (lit "id")
  unfold getPlayerPosition
  rw [returns_bind, returns_subscript, returns_bind, returns_get]
  refine ⟨hj, ?_⟩
  cases s.playerContext with
  | none =>
    show Returns (send _) _ s
    rw [returns_send_of_utf8 (textUtf8_errorResp hid hmethod)]
    trivial
  | some player =>
    show Returns (send _) _ s
    rw [returns_send_of_utf8 (textUtf8_positionResp hid hmethod (s.players player))]
    trivial

theorem returns_getMap {method : Bytes} (hmethod : isUtf8 method) :
    Returns (getMap j method) (fun _ _ => True) s := by
  have hid := Json.textUtf8_member hutf8 (lit "id")
  unfold getMap
  rw [returns_bind, returns_subscript, returns_bind, returns_get]
  refine ⟨hj, ?_⟩
  cases s.playerContext with
  | none =>
    show Returns (send _) _ s
    rw [returns_send_of_utf8 (textUtf8_errorResp hid hmethod)]
    trivial
  | some player =>
    show Returns (send _) _ s
    rw [returns_send_of_utf8 (textUtf8_respOf hid hmethod)]
    trivial

theorem returns_setSessionToken :
    Returns (setSessionToken j) (fun _ _ => True) s
      ↔ ((j.member (lit "params")).member (lit "token")).isString := by
  have hid := Json.textUtf8_member hutf8 (lit "id")
  unfold setSessionToken findOrAddSession setPlayerContext
  rw [returns_bind, returns_subscript, and_iff_right hj, returns_bind, returns_subscript,
    and_iff_right hj, returns_bind, returns_field Json.converts_getString, returns_bind,
    returns_modifyGet, returns_bind, returns_modify, returns_send_of_utf8 (textUtf8_tokenResp hid),
    and_true]

omit hutf8 hj in
/-- The message is parsed again, to the same value. -/
theorem returns_handleMessage {parser : JsonParser} {msg : Bytes}
    (hparse : parser.parse msg = some j)
    (hmethod : (j.member (lit "method")).isString)
    (hmove : (j.member (lit "method")).text = lit "player_move_to") :
    Returns (handleMessage parser msg) (fun _ _ => True) s
      ↔ (s.playerContext.isSome → ((j.member (lit "params")).member (lit "x")).fitsInt ∧
          ((j.member (lit "params")).member (lit "y")).fitsInt) := by
  have hj : j.isSubscriptable := isSubscriptable_of_member_isString j hmethod
  unfold handleMessage
  rw [returns_bind, returns_parseMessage, hparse]
  have hthe : ∀ P : Json → Prop, (∃ j', some j = some j' ∧ P j') ↔ P j := fun P => by simp
  rw [hthe, returns_bind, returns_subscript, and_iff_right hj, if_pos ⟨hmethod, hmove⟩,
    returns_bind, returns_get]
  cases s.playerContext with
  -- without a player the message is ignored
  | none => exact iff_of_true trivial (fun h => nomatch h)
  | some player =>
    unfold setPlayer
    simp only [returns_bind, returns_subscript, hj, returns_field Json.converts_getInt,
      returns_modify, true_and, and_true, Option.isSome_some, true_implies]

end Branches

/-- **When `onMessage` returns.** -/
theorem returns_onMessage {parser : JsonParser} {msg : Bytes} {s : WsState} :
    Returns (onMessage parser msg) (fun _ _ => True) s
      ↔ ∃ j, parser.parse msg = some j ∧ MessageFits s.playerContext.isSome j := by
  unfold onMessage
  rw [returns_bind, returns_parseMessage]
  refine exists_congr fun j => and_congr_right fun hparse => ?_
  have hutf8 := parser.parse_utf8 msg j hparse
  unfold MessageFits
  rw [returns_bind, returns_field Json.converts_getString]
  refine and_congr_right fun hstring => ?_
  have hj := isSubscriptable_of_member_isString j hstring
  have hmethod := isUtf8_text (Json.textUtf8_member hutf8 (lit "method"))
  -- the methods are different strings, so at most one branch and one condition applies
  by_cases hposition : (j.member (lit "method")).text = lit "get_player_position"
  · rw [if_pos hposition, hposition]
    refine iff_of_true (returns_getPlayerPosition hutf8 hj (hposition ▸ hmethod)) ?_
    exact ⟨fun h => absurd h (by decide), fun h => absurd h (by decide)⟩
  rw [if_neg hposition]
  by_cases hmove : (j.member (lit "method")).text = lit "player_move_to"
  · rw [if_pos hmove, returns_handleMessage hparse hstring hmove, hmove]
    refine ⟨fun h => ⟨fun _ => h, fun h => absurd h (by decide)⟩, fun h => h.1 rfl⟩
  rw [if_neg hmove]
  by_cases htoken : (j.member (lit "method")).text = lit "set_session_token"
  · rw [if_pos htoken, returns_setSessionToken hutf8 hj]
    exact ⟨fun h => ⟨fun h => absurd h hmove, fun _ => h⟩, fun h => h.2 htoken⟩
  rw [if_neg htoken]
  refine iff_of_true ?_ ⟨fun h => absurd h hmove, fun h => absurd h htoken⟩
  by_cases hmap : (j.member (lit "method")).text = lit "get_map"
  · rw [if_pos hmap]
    exact returns_getMap hutf8 hj hmethod
  · rw [if_neg hmap]
    trivial

end WebDiff
