import Mathlib.Logic.Basic
import Mathlib.Data.List.Basic
import Mathlib.Tactic.Common

/-!
# Statements that check their own effect

A statement `exec q s` either changes the state or is rejected (`none`), and lists of statements are
executed one after another (`runAll`). Where every statement is rejected unless the part of the
state it touches is as it expects it (`Checked`), a list of statements accepted from two states
touches parts on which the two agree (`Checked.agree`). So a list that was interrupted can be run
again from its beginning only if what it did before the interruption left the state as it was
(`Checked.restart_eq`).
-/

namespace Guarded

variable {Q σ ι : Type} (exec : Q → σ → Option σ)

/-- The statements one after another, up to the first that is rejected. -/
def runAll : List Q → σ → Option σ
  | [], s => some s
  | q :: qs, s => (exec q s).bind (runAll qs)

@[simp] theorem runAll_nil (s : σ) : runAll exec [] s = some s := rfl

@[simp] theorem runAll_cons (q : Q) (qs : List Q) (s : σ) :
    runAll exec (q :: qs) s = (exec q s).bind (runAll exec qs) := rfl

theorem runAll_append (as bs : List Q) (s : σ) :
    runAll exec (as ++ bs) s = (runAll exec as s).bind (runAll exec bs) := by
  induction as generalizing s with
  | nil => rfl
  | cons a as ih =>
    rw [List.cons_append, runAll_cons, runAll_cons]
    cases exec a s with
    | none => rfl
    | some t => exact ih t

/-- The first of two lists is accepted if both are. -/
theorem runAll_append_eq_some {as bs : List Q} {s t : σ} :
    runAll exec (as ++ bs) s = some t ↔
      ∃ m, runAll exec as s = some m ∧ runAll exec bs m = some t := by
  rw [runAll_append, Option.bind_eq_some_iff]

/-- The parts of the state are told apart by `has`, and `touches q` are those the statement `q`
checks and changes. -/
structure Checked (exec : Q → σ → Option σ) (has : σ → ι → Prop) (touches : Q → ι → Prop) :
    Prop where
  ext : ∀ {s t : σ}, (∀ x, has s x ↔ has t x) → s = t
  frame : ∀ {q : Q} {s t : σ} {x : ι}, exec q s = some t → ¬ touches q x → (has t x ↔ has s x)
  guard : ∀ {q : Q} {s s' t t' : σ} {x : ι}, exec q s = some s' → exec q t = some t' →
    touches q x → (has s x ↔ has t x)

namespace Checked

variable {exec : Q → σ → Option σ} {has : σ → ι → Prop} {touches : Q → ι → Prop}

/-- A part no statement touches stays as it is. -/
theorem runAll_frame (h : Checked exec has touches) {qs : List Q} {x : ι}
    (hx : ∀ q ∈ qs, ¬ touches q x) {s t : σ} (hrun : runAll exec qs s = some t) :
    has t x ↔ has s x := by
  induction qs generalizing s with
  | nil =>
    cases hrun
    exact Iff.rfl
  | cons q qs ih =>
    obtain ⟨s₁, hq, hqs⟩ := Option.bind_eq_some_iff.mp hrun
    exact (ih (fun q' hq' => hx q' (List.mem_cons_of_mem q hq')) hqs).trans
      (h.frame hq (hx q List.mem_cons_self))

/-- Two states from which the same statements are accepted agree on what the statements touch. -/
theorem agree (h : Checked exec has touches) {qs : List Q} {x : ι} (hx : ∃ q ∈ qs, touches q x)
    {s s' t t' : σ} (hs : runAll exec qs s = some s') (ht : runAll exec qs t = some t') :
    has s x ↔ has t x := by
  induction qs generalizing s t with
  | nil =>
    obtain ⟨q, hq, -⟩ := hx
    exact absurd hq List.not_mem_nil
  | cons q qs ih =>
    obtain ⟨s₁, hqs, hs⟩ := Option.bind_eq_some_iff.mp hs
    obtain ⟨t₁, hqt, ht⟩ := Option.bind_eq_some_iff.mp ht
    by_cases hq : touches q x
    · exact h.guard hqs hqt hq
    · -- the first statement leaves `x` alone, so a later one is the first to touch it
      obtain ⟨q', hq', hq'x⟩ := hx
      have hq' : q' ∈ qs := by
        rcases List.mem_cons.mp hq' with rfl | hq'
        · exact absurd hq'x hq
        · exact hq'
      have hlater := ih ⟨q', hq', hq'x⟩ hs ht
      exact (h.frame hqs hq).symm.trans (hlater.trans (h.frame hqt hq))

/-- **Starting over.** If a list of statements is accepted from `s`, and again from the state `m`
its first part `as` left, then `as` changed nothing. -/
theorem restart_eq (h : Checked exec has touches) {as bs : List Q} {s s' m m' : σ}
    (hs : runAll exec (as ++ bs) s = some s') (hm : runAll exec as s = some m)
    (hagain : runAll exec (as ++ bs) m = some m') : m = s := by
  refine h.ext fun x => ?_
  by_cases hx : ∃ q ∈ as ++ bs, touches q x
  · exact h.agree hx hagain hs
  · refine h.runAll_frame (fun q hq hqx => hx ⟨q, ?_, hqx⟩) hm
    exact List.mem_append_left bs hq

end Checked

end Guarded
