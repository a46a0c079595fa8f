import Mathlib.Logic.Basic
import Mathlib.Tactic.Common

/-!
# Programs that may throw

A program in `EStateM ε σ` changes a state `σ`, and returns a value or throws an `ε`. Where nobody
catches, a throw ends the process, so the question about such a program is from which states it
returns at all.

`Returns p Q s` says that `p` returns from `s`, with a value and a state that satisfy `Q`. Its rules
are equivalences, not implications: a rule for every primitive and the rule of sequential
composition (`returns_bind`) rewrite `Returns p Q s` into the exact condition on `s` under which `p`
does not throw.
-/

namespace EStateM

variable {ε σ α β : Type}

/-- The program returns from `s`, and `Q` holds of what it returns and of the state it leaves. -/
def Returns (p : EStateM ε σ α) (Q : α → σ → Prop) (s : σ) : Prop :=
  match p s with
  | .ok a s' => Q a s'
  | .error _ _ => False

/-- `Returns` in terms of the outcome. -/
theorem returns_iff {p : EStateM ε σ α} {Q : α → σ → Prop} {s : σ} :
    Returns p Q s ↔ ∃ a s', p s = .ok a s' ∧ Q a s' := by
  unfold Returns
  cases p s with
  | ok a s' =>
    refine ⟨fun h => ⟨a, s', rfl, h⟩, fun h => ?_⟩
    obtain ⟨a', s'', heq, hQ⟩ := h
    cases heq
    exact hQ
  | error e s' =>
    refine ⟨fun h => h.elim, fun h => ?_⟩
    obtain ⟨a', s'', heq, -⟩ := h
    cases heq

/-- Returning at all. -/
theorem returns_true_iff {p : EStateM ε σ α} {s : σ} :
    Returns p (fun _ _ => True) s ↔ ∃ a s', p s = .ok a s' := by
  simp only [returns_iff, and_true]

@[simp] theorem returns_pure {a : α} {Q : α → σ → Prop} {s : σ} :
    Returns (pure a : EStateM ε σ α) Q s ↔ Q a s := Iff.rfl

/-- The rule of sequential composition. -/
@[simp] theorem returns_bind {p : EStateM ε σ α} {f : α → EStateM ε σ β} {Q : β → σ → Prop}
    {s : σ} : Returns (p >>= f) Q s ↔ Returns p (fun a s' => Returns (f a) Q s') s := by
  change Returns (EStateM.bind p f) Q s ↔ _
  unfold Returns EStateM.bind
  cases p s with
  | ok a s' => exact Iff.rfl
  | error e s' => exact Iff.rfl

@[simp] theorem returns_get {Q : σ → σ → Prop} {s : σ} :
    Returns (get : EStateM ε σ σ) Q s ↔ Q s s := Iff.rfl

@[simp] theorem returns_modify {f : σ → σ} {Q : PUnit → σ → Prop} {s : σ} :
    Returns (modify f : EStateM ε σ PUnit) Q s ↔ Q ⟨⟩ (f s) := Iff.rfl

@[simp] theorem returns_modifyGet {f : σ → α × σ} {Q : α → σ → Prop} {s : σ} :
    Returns (modifyGet f : EStateM ε σ α) Q s ↔ Q (f s).1 (f s).2 := Iff.rfl

@[simp] theorem returns_throw {e : ε} {Q : α → σ → Prop} {s : σ} :
    Returns (throw e : EStateM ε σ α) Q s ↔ False := Iff.rfl

@[simp] theorem returns_ite {c : Prop} [Decidable c] {p q : EStateM ε σ α} {Q : α → σ → Prop}
    {s : σ} : Returns (if c then p else q) Q s ↔ if c then Returns p Q s else Returns q Q s := by
  split <;> exact Iff.rfl

/-- The rule of sequential composition inside an operation that does not touch the state. -/
theorem returns_liftExcept_bind {x : Except ε α} {f : α → Except ε β} {Q : β → σ → Prop} {s : σ} :
    Returns (liftExcept (x >>= f) : EStateM ε σ β) Q s
      ↔ Returns (liftExcept x : EStateM ε σ α)
          (fun a s' => Returns (liftExcept (f a) : EStateM ε σ β) Q s') s := by
  cases x with
  | ok a => exact Iff.rfl
  | error e => exact Iff.rfl

/-- An operation that succeeds exactly when `c` holds, and then returns `a`. -/
theorem returns_liftExcept_of_eq {c : Prop} [Decidable c] {x : Except ε α} {a : α} {e : ε}
    (h : x = if c then .ok a else .error e) {Q : α → σ → Prop} {s : σ} :
    Returns (liftExcept x : EStateM ε σ α) Q s ↔ c ∧ Q a s := by
  subst h
  by_cases hc : c
  · rw [if_pos hc]
    exact (and_iff_right hc).symm
  · rw [if_neg hc]
    exact ⟨fun h => h.elim, fun h => hc h.1⟩

end EStateM
