import Mathlib.Logic.Basic
import Mathlib.Data.List.Basic
import Mathlib.Tactic.Common

/-!
# Programs over atomic operations

A program is a finite sequence of atomic operations on a shared state, each of which returns a
result the rest of the program may depend on. Keeping the program as a tree of operations, instead
of a function on states, lets one text carry several meanings:

* `run` — every operation succeeds;
* `exec` — the program stops in front of one chosen operation, which is both the meaning of a
  statement that fails and throws and of a process that dies between two statements;
* `trace` — the operations performed and the results they returned.

The rules of this module are the usual ones for pre- and postconditions. `wp` takes two
postconditions, one for the normal return and one for the state in front of the operation the
program stopped at, so that one proof covers every place where a program may stop
(`wp_exec`). `Uses` bounds the operations a program can perform at all, and `Agree` compares two
interpretations of one program.
-/

/-- Programs over the operations `Op`, where `o : Op` returns a value of type `Res o`. -/
inductive Program (Op : Type) (Res : Op → Type) (α : Type) : Type where
  | ret (a : α)
  | step (o : Op) (k : Res o → Program Op Res α)

namespace Program

variable {Op : Type} {Res : Op → Type} {α β S T : Type}

/-- Sequential composition. -/
def bind : Program Op Res α → (α → Program Op Res β) → Program Op Res β
  | .ret a, f => f a
  | .step o k, f => .step o fun r => (k r).bind f

instance : Monad (Program Op Res) where
  pure := .ret
  bind := bind

/-- The program that performs one operation and returns its result. -/
def perform (o : Op) : Program Op Res (Res o) :=
  .step o .ret

theorem bind_ret (p : Program Op Res α) : p.bind .ret = p := by
  induction p with
  | ret a => rfl
  | step o k ih => simp only [bind]; congr 1; funext r; exact ih r

theorem bind_assoc' {γ : Type} (p : Program Op Res α) (f : α → Program Op Res β)
    (g : β → Program Op Res γ) :
    (p.bind f).bind g = p.bind fun a => (f a).bind g := by
  induction p with
  | ret a => rfl
  | step o k ih => simp only [bind]; congr 1; funext r; exact ih r

instance : LawfulMonad (Program Op Res) :=
  LawfulMonad.mk' _ bind_ret (fun _ _ => rfl) bind_assoc'

/-- An interpretation of the operations as atomic steps on the states `S`. -/
abbrev Interp (Op : Type) (Res : Op → Type) (S : Type) := (o : Op) → S → Res o × S

/-! ### The run in which nothing stops -/

/-- The result and the final state of a run in which every operation succeeds. -/
def run (I : Interp Op Res S) : Program Op Res α → S → α × S
  | .ret a, s => (a, s)
  | .step o k, s => run I (k (I o s).1) (I o s).2

variable (I : Interp Op Res S)

@[simp] theorem run_pure (a : α) (s : S) : run I (pure a : Program Op Res α) s = (a, s) := rfl

@[simp] theorem run_perform (o : Op) (s : S) : run I (perform o) s = I o s := rfl

@[simp] theorem run_bind (p : Program Op Res α) (f : α → Program Op Res β) (s : S) :
    run I (p >>= f) s = run I (f (run I p s).1) (run I p s).2 := by
  change run I (p.bind f) s = _
  induction p generalizing s with
  | ret a => rfl
  | step o k ih => exact ih _ _

/-! ### The operations a run performs -/

/-- The operations of a run in which nothing stops, each with the result it returned. -/
def trace : Program Op Res α → S → List (Σ o, Res o)
  | .ret _, _ => []
  | .step o k, s => ⟨o, (I o s).1⟩ :: trace (k (I o s).1) (I o s).2

@[simp] theorem trace_pure (a : α) (s : S) : trace I (pure a : Program Op Res α) s = [] := rfl

@[simp] theorem trace_perform (o : Op) (s : S) : trace I (perform o) s = [⟨o, (I o s).1⟩] := rfl

@[simp] theorem trace_bind (p : Program Op Res α) (f : α → Program Op Res β) (s : S) :
    trace I (p >>= f) s = trace I p s ++ trace I (f (run I p s).1) (run I p s).2 := by
  change trace I (p.bind f) s = _
  induction p generalizing s with
  | ret a => rfl
  | step o k ih => exact congrArg (List.cons _) (ih _ _)

/-- The interpretation that keeps the operations performed so far, with their results, beside the
state. -/
def Interp.traced : Interp Op Res (S × List (Σ o, Res o)) := fun o s =>
  ((I o s.1).1, ((I o s.1).2, s.2 ++ [⟨o, (I o s.1).1⟩]))

/-- A run beside which the operations are kept is the run together with its trace. -/
theorem run_traced (p : Program Op Res α) (s : S) (t : List (Σ o, Res o)) :
    run (Interp.traced I) p (s, t) = ((run I p s).1, ((run I p s).2, t ++ trace I p s)) := by
  induction p generalizing s t with
  | ret a => simp [run, trace]
  | step o k ih =>
    have h := ih (I o s).1 (I o s).2 (t ++ [⟨o, (I o s).1⟩])
    simpa [run, trace, Interp.traced] using h

/-! ### Runs that stop at an operation -/

section Exec

variable (counted : Op → Bool)

/-- A run that stops in front of the counted operation number `n` when the plan is `some n`,
counting from `0`, and runs to the end when the plan is `none` or the program performs fewer
counted operations. A stopped run returns the operation it stopped at, and the state is left as the
operations before it made it. -/
def exec : Program Op Res α → Option ℕ → S → Except Op α × S
  | .ret a, _, s => (.ok a, s)
  | .step o k, none, s => exec (k (I o s).1) none (I o s).2
  | .step o k, some n, s =>
    if counted o then
      match n with
      | 0 => (.error o, s)
      | n + 1 => exec (k (I o s).1) (some n) (I o s).2
    else exec (k (I o s).1) (some n) (I o s).2

/-- A run without a stopping point is `run`. -/
theorem run_eq_exec (p : Program Op Res α) (s : S) :
    exec I counted p none s = (.ok (run I p s).1, (run I p s).2) := by
  induction p generalizing s with
  | ret a => rfl
  | step o k ih => exact ih _ _

/-- The weakest precondition of a program: `Q` holds of the result and the state of a run that
returns, and `E` holds of every counted operation the run can stop at and the state in front of
it. -/
def wp : Program Op Res α → (α → S → Prop) → (Op → S → Prop) → S → Prop
  | .ret a, Q, _, s => Q a s
  | .step o k, Q, E, s => (counted o = true → E o s) ∧ wp (k (I o s).1) Q E (I o s).2

variable {counted}

/-- **Soundness of `wp`.** Whatever the plan, the run satisfies the postcondition of the way it
ended. -/
theorem wp_exec {p : Program Op Res α} {Q : α → S → Prop} {E : Op → S → Prop} {s : S}
    (h : wp I counted p Q E s) (plan : Option ℕ) :
    (∀ a s', exec I counted p plan s = (.ok a, s') → Q a s') ∧
      ∀ o s', exec I counted p plan s = (.error o, s') → E o s' := by
  induction p generalizing s plan with
  | ret a =>
    refine ⟨fun a' s' h' => ?_, fun o s' h' => ?_⟩
    · obtain ⟨rfl, rfl⟩ : a = a' ∧ s = s' := by simpa [exec] using h'
      exact h
    · simp [exec] at h'
  | step o k ih =>
    obtain ⟨hE, hk⟩ := h
    cases plan with
    | none => exact ih _ hk none
    | some n =>
      -- only a counted operation uses up the plan, and the run stops in front of one
      by_cases hc : counted o = true
      · cases n with
        | zero =>
          refine ⟨fun a s' h' => ?_, fun o' s' h' => ?_⟩
          · simp [exec, hc] at h'
          · obtain ⟨rfl, rfl⟩ : o = o' ∧ s = s' := by simpa [exec, hc] using h'
            exact hE hc
        | succ n => simpa [exec, hc] using ih _ hk (some n)
      · simpa [exec, hc] using ih _ hk (some n)

/-- The postcondition of a run in which nothing stops. -/
theorem wp_run {p : Program Op Res α} {Q : α → S → Prop} {E : Op → S → Prop} {s : S}
    (h : wp I counted p Q E s) : Q (run I p s).1 (run I p s).2 :=
  (wp_exec I h none).1 _ _ (run_eq_exec I counted p s)

@[simp] theorem wp_pure (a : α) (Q : α → S → Prop) (E : Op → S → Prop) (s : S) :
    wp I counted (pure a : Program Op Res α) Q E s ↔ Q a s := Iff.rfl

@[simp] theorem wp_perform (o : Op) (Q : Res o → S → Prop) (E : Op → S → Prop) (s : S) :
    wp I counted (perform o) Q E s ↔ (counted o = true → E o s) ∧ Q (I o s).1 (I o s).2 :=
  Iff.rfl

/-- The rule of sequential composition. -/
@[simp] theorem wp_bind (p : Program Op Res α) (f : α → Program Op Res β) (Q : β → S → Prop)
    (E : Op → S → Prop) (s : S) :
    wp I counted (p >>= f) Q E s ↔ wp I counted p (fun a s' => wp I counted (f a) Q E s') E s := by
  change wp I counted (p.bind f) Q E s ↔ _
  induction p generalizing s with
  | ret a => exact Iff.rfl
  | step o k ih => exact and_congr_right fun _ => ih _ _

/-- The rule of consequence. -/
theorem wp_mono {p : Program Op Res α} {Q Q' : α → S → Prop} {E E' : Op → S → Prop} {s : S}
    (h : wp I counted p Q E s) (hQ : ∀ a s', Q a s' → Q' a s') (hE : ∀ o s', E o s' → E' o s') :
    wp I counted p Q' E' s := by
  induction p generalizing s with
  | ret a => exact hQ _ _ h
  | step o k ih => exact ⟨fun hc => hE _ _ (h.1 hc), ih _ h.2⟩

end Exec

/-! ### Which operations a program can perform -/

/-- Every operation the program performs satisfies `A`, whatever results the operations return. -/
def Uses (A : Op → Prop) : Program Op Res α → Prop
  | .ret _ => True
  | .step o k => A o ∧ ∀ r, (k r).Uses A

section Uses

variable {A : Op → Prop}

theorem uses_pure (a : α) : (pure a : Program Op Res α).Uses A := trivial

theorem uses_perform {o : Op} (ho : A o) : (perform o : Program Op Res (Res o)).Uses A :=
  ⟨ho, fun _ => trivial⟩

theorem uses_bind {p : Program Op Res α} {f : α → Program Op Res β} (hp : p.Uses A)
    (hf : ∀ a, (f a).Uses A) : (p >>= f).Uses A := by
  change (p.bind f).Uses A
  induction p with
  | ret a => exact hf a
  | step o k ih => exact ⟨hp.1, fun r => ih r (hp.2 r)⟩

theorem Uses.mono {B : Op → Prop} {p : Program Op Res α} (hp : p.Uses A)
    (h : ∀ o, A o → B o) : p.Uses B := by
  induction p with
  | ret a => trivial
  | step o k ih => exact ⟨h o hp.1, fun r => ih r (hp.2 r)⟩

/-- What every operation of the kind `A` preserves, a program of such operations preserves,
wherever it stops, and it stops at such an operation. -/
theorem wp_of_uses {counted : Op → Bool} {P : S → Prop} (hP : ∀ o s, A o → P s → P (I o s).2)
    {p : Program Op Res α} (hp : p.Uses A) {s : S} (h : P s) :
    wp I counted p (fun _ s' => P s') (fun o s' => A o ∧ P s') s := by
  induction p generalizing s with
  | ret a => exact h
  | step o k ih => exact ⟨fun _ => ⟨hp.1, h⟩, ih _ (hp.2 _) (hP o s hp.1 h)⟩

/-- The same for a run in which nothing stops. -/
theorem run_of_uses {P : S → Prop} (hP : ∀ o s, A o → P s → P (I o s).2) {p : Program Op Res α}
    (hp : p.Uses A) {s : S} (h : P s) : P (run I p s).2 :=
  have hwp : wp I (fun _ => false) p (fun _ s' => P s') (fun o s' => A o ∧ P s') s :=
    wp_of_uses I hP hp h
  wp_run I hwp

/-- What none of the operations of a program changes, the program does not change. -/
theorem run_frame {V : Type} (view : S → V) (hview : ∀ o s, A o → view (I o s).2 = view s)
    {p : Program Op Res α} (hp : p.Uses A) (s : S) : view (run I p s).2 = view s :=
  run_of_uses I (P := fun s' => view s' = view s) (fun o s' ho h => (hview o s' ho).trans h) hp rfl

/-- Every operation of a run is one the program can perform. -/
theorem Uses.trace {p : Program Op Res α} (hp : p.Uses A) (s : S) : ∀ x ∈ trace I p s, A x.1 := by
  induction p generalizing s with
  | ret a => exact fun _ hx => absurd hx List.not_mem_nil
  | step o k ih =>
    intro x hx
    rcases List.mem_cons.mp hx with rfl | hx
    · exact hp.1
    · exact ih _ (hp.2 _) _ x hx

end Uses

/-! ### Two interpretations of one program -/

section Agree

variable {I} (J : Interp Op Res T)

/-- A program agrees from the related states `s` and `t`: the two interpretations return the same
result and perform the same operations with the same results, and end in related states. -/
structure Agree (I : Interp Op Res S) (J : Interp Op Res T) (R : S → T → Prop)
    (p : Program Op Res α) (s : S) (t : T) : Prop where
  result : (run I p s).1 = (run J p t).1
  trace : trace I p s = trace J p t
  related : R (run I p s).2 (run J p t).2

variable {J} {R : S → T → Prop}

theorem Agree.pure (a : α) {s : S} {t : T} (h : R s t) :
    Agree I J R (Pure.pure a : Program Op Res α) s t :=
  ⟨rfl, rfl, h⟩

/-- Agreement is closed under sequential composition. -/
theorem Agree.bind {p : Program Op Res α} {f : α → Program Op Res β} {s : S} {t : T}
    (hp : Agree I J R p s t)
    (hf : ∀ a s' t', R s' t' → Agree I J R (f a) s' t') : Agree I J R (p >>= f) s t := by
  have h := hf (run J p t).1 _ _ hp.related
  refine ⟨?_, ?_, ?_⟩
  · rw [run_bind, run_bind, hp.result]
    exact h.result
  · rw [trace_bind, trace_bind, hp.trace, hp.result, h.trace]
  · rw [run_bind, run_bind, hp.result]
    exact h.related

end Agree

end Program
