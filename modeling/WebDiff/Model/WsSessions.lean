import Mathlib.Logic.Function.Basic
import WebDiff.Model.WsServer

/-!
# The WebSocket server with its channels

The handlers `onopen`, `onmessage` and `onclose` of `WebdiffWsServer`, for any number of channels.
A channel that is opened gets a context without a player, and closing it deletes the context; the
`PlayerContext` objects stay. Nobody catches what `onMessage` throws, so it ends the process, and the
next one begins without sessions. The time that is sent every second is left out.
-/

namespace WebDiff

/-- What happens to the channels. -/
inductive WsInput (C : Type)
  | onopen (c : C)
  | onmessage (c : C) (msg : Bytes)
  | onclose (c : C)

/-- The process: the `PlayerContext` objects, `m_mapSessions`, and the context of each channel. -/
structure WsProcess (C : Type) where
  players : ℕ → PlayerContext
  allocated : ℕ
  mapSessions : Bytes → Option ℕ
  contexts : C → Option ℕ

/-- A process that was just started. -/
def WsProcess.new {C : Type} : WsProcess C :=
  ⟨fun _ => PlayerContext.new, 0, fun _ => none, fun _ => none⟩

section

variable (parser : JsonParser) {C : Type} [DecidableEq C]

/-- What a message on the channel meets. -/
def WsProcess.channel (p : WsProcess C) (c : C) : WsState where
  players := p.players
  allocated := p.allocated
  mapSessions := p.mapSessions
  playerContext := p.contexts c
  sent := []

/-- What is sent on the channel, and the process afterwards. -/
def WsProcess.step (p : WsProcess C) : WsInput C → List Json × WsProcess C
  | .onopen c => ([], { p with contexts := Function.update p.contexts c none })
  | .onmessage c msg =>
    match onMessage parser msg (p.channel c) with
    | .ok _ s =>
      (s.sent, ⟨s.players, s.allocated, s.mapSessions,
        Function.update p.contexts c s.playerContext⟩)
    | .error _ _ => ([], WsProcess.new)
  | .onclose c => ([], { p with contexts := Function.update p.contexts c none })

/-- What is sent in answer to each of the inputs. -/
def WsProcess.outputs (p : WsProcess C) : List (WsInput C) → List (List Json)
  | [] => []
  | i :: rest => (p.step parser i).1 :: (p.step parser i).2.outputs rest

end

end WebDiff
