import WebDiff.Framework.Returning

/-!
# How a program that may throw ends

A program in `EStateM ε σ` ends in one of two ways: it returns, or it throws and leaves the state the
operations in front of the throw have made. `Ends p Q E s` says that `p`, started in `s`, ends well
in both: `Q` holds of the value and the state it returns, and `E` of the state it leaves when it
throws. As in `Framework/Returning` the rules are equivalences.

`Keeps view p` says that `p` leaves a part of the state alone in either case.
-/

namespace EStateM

variable {ε σ α β : Type}

/-! ### One run -/

/-- The program ends from `s` with `Q` where it returns and with `E` where it throws. -/
def Ends (p : EStateM ε σ α) (Q : α → σ → Prop) (E : σ → Prop) (s : σ) : Prop :=
  match p s with
  | .ok a s' => Q a s'
  | .error _ s' => E s'

section Ends

variable {Q : α → σ → Prop} {E : σ → Prop} {s : σ}

@[simp] theorem ends_pure {a : α} : Ends (pure a : EStateM ε σ α) Q E s ↔ Q a s := Iff.rfl

/-- The rule of sequential composition. -/
@[simp] theorem ends_bind {p : EStateM ε σ α} {f : α → EStateM ε σ β} {Q : β → σ → Prop} :
    Ends (p >>= f) Q E s ↔ Ends p (fun a s' => Ends (f a) Q E s') E s := by
  change Ends (EStateM.bind p f) Q E s ↔ _
  unfold Ends EStateM.bind
  cases p s with
  | ok a s' => exact Iff.rfl
  | error e s' => exact Iff.rfl

@[simp] theorem ends_get {Q : σ → σ → Prop} : Ends (get : EStateM ε σ σ) Q E s ↔ Q s s := Iff.rfl

@[simp] theorem ends_modify {f : σ → σ} {Q : PUnit → σ → Prop} :
    Ends (modify f : EStateM ε σ PUnit) Q E s ↔ Q ⟨⟩ (f s) := Iff.rfl

@[simp] theorem ends_ite {c : Prop} [Decidable c] {p q : EStateM ε σ α} :
    Ends (if c then p else q) Q E s ↔ if c then Ends p Q E s else Ends q Q E s := by
  split <;> exact Iff.rfl

@[simp] theorem ends_liftExcept_ok {a : α} :
    Ends (liftExcept (.ok a : Except ε α) : EStateM ε σ α) Q E s ↔ Q a s := Iff.rfl

/-- An operation that does not touch the state. -/
theorem ends_liftExcept {x : Except ε α} :
    Ends (liftExcept x : EStateM ε σ α) Q E s
      ↔ (∀ a, x = .ok a → Q a s) ∧ ∀ e, x = .error e → E s := by
  cases x with
  | ok a =>
    show Q a s ↔ _
    constructor
    · intro h
      refine ⟨fun b hb => Except.ok.inj hb ▸ h, fun e he => ?_⟩
      cases he
    · intro h
      exact h.1 a rfl
  | error e =>
    show E s ↔ _
    constructor
    · intro h
      refine ⟨fun b hb => ?_, fun _ _ => h⟩
      cases hb
    · intro h
      exact h.2 e rfl

/-- An operation that succeeds exactly when `c` holds, and then returns `a`. -/
theorem ends_liftExcept_of_eq {c : Prop} [Decidable c] {x : Except ε α} {a : α} {e : ε}
    (h : x = if c then .ok a else .error e) :
    Ends (liftExcept x : EStateM ε σ α) Q E s ↔ if c then Q a s else E s := by
  subst h
  by_cases hc : c
  · rw [if_pos hc, if_pos hc]
    exact Iff.rfl
  · rw [if_neg hc, if_neg hc]
    exact Iff.rfl

/-- The rule of consequence. -/
theorem Ends.mono {p : EStateM ε σ α} {Q' : α → σ → Prop} {E' : σ → Prop} (h : Ends p Q E s)
    (hQ : ∀ a s', Q a s' → Q' a s') (hE : ∀ s', E s' → E' s') : Ends p Q' E' s := by
  unfold Ends at h ⊢
  cases hp : p s with
  | ok a s' =>
    rw [hp] at h
    exact hQ a s' h
  | error e s' =>
    rw [hp] at h
    exact hE s' h

end Ends

/-- The state in which the program ends, in either way. -/
def final (p : EStateM ε σ α) (s : σ) : σ :=
  match p s with
  | .ok _ s' => s'
  | .error _ s' => s'

theorem final_of_ends {p : EStateM ε σ α} {P : σ → Prop} {s : σ}
    (h : Ends p (fun _ s' => P s') P s) : P (final p s) := by
  unfold Ends at h
  unfold final
  cases hp : p s with
  | ok a s' =>
    rw [hp] at h
    exact h
  | error e s' =>
    rw [hp] at h
    exact h

/-- The value the program returns, if it returns. -/
def value (p : EStateM ε σ α) (s : σ) : Option α :=
  match p s with
  | .ok a _ => some a
  | .error _ _ => none

theorem returns_iff_value {p : EStateM ε σ α} {P : α → Prop} {s : σ} :
    Returns p (fun a _ => P a) s ↔ ∃ a, value p s = some a ∧ P a := by
  unfold Returns value
  cases p s with
  | ok a s' =>
    constructor
    · intro h
      exact ⟨a, rfl, h⟩
    · intro h
      obtain ⟨a', heq, ha'⟩ := h
      cases heq
      exact ha'
  | error e s' =>
    constructor
    · intro h
      exact h.elim
    · intro h
      obtain ⟨a, heq, -⟩ := h
      cases heq

/-- Two runs with the same postconditions return the same value, up to the condition under which the
first one returns at all. -/
theorem value_eq_of_returns {c : Prop} [Decidable c] {p q : EStateM ε σ α} {s t : σ}
    (h : ∀ P : α → Prop, Returns p (fun a _ => P a) s ↔ c ∧ Returns q (fun a _ => P a) t) :
    value p s = if c then value q t else none := by
  simp only [returns_iff_value] at h
  by_cases hc : c
  · rw [if_pos hc]
    simp only [hc, true_and] at h
    cases hq : value q t with
    | none =>
      cases hp : value p s with
      | none => rfl
      | some a =>
        obtain ⟨b, hb, -⟩ := (h fun _ => True).mp ⟨a, hp, trivial⟩
        rw [hq] at hb
        cases hb
    | some b =>
      obtain ⟨a, ha, rfl⟩ := (h fun a => a = b).mpr ⟨b, hq, rfl⟩
      exact ha
  · rw [if_neg hc]
    cases hp : value p s with
    | none => rfl
    | some a => exact absurd ((h fun _ => True).mp ⟨a, hp, trivial⟩).1 hc

/-! ### What a program leaves alone -/

/-- The program does not change `view`, however it ends. -/
def Keeps {V : Type} (view : σ → V) (p : EStateM ε σ α) : Prop :=
  ∀ s, Ends p (fun _ s' => view s' = view s) (fun s' => view s' = view s) s

section Keeps

variable {V : Type} {view : σ → V}

theorem keeps_pure (a : α) : Keeps view (pure a : EStateM ε σ α) :=
  fun _ => rfl

theorem Keeps.bind {p : EStateM ε σ α} {f : α → EStateM ε σ β} (hp : Keeps view p)
    (hf : ∀ a, Keeps view (f a)) : Keeps view (p >>= f) := by
  intro s
  rw [ends_bind]
  apply (hp s).mono
  · intro a s' hs'
    apply (hf a s').mono
    · exact fun _ _ h => h.trans hs'
    · exact fun _ h => h.trans hs'
  · exact fun _ h => h

theorem keeps_get : Keeps view (get : EStateM ε σ σ) :=
  fun _ => rfl

theorem keeps_modify {f : σ → σ} (hf : ∀ s, view (f s) = view s) :
    Keeps view (modify f : EStateM ε σ PUnit) :=
  hf

theorem keeps_liftExcept (x : Except ε α) : Keeps view (liftExcept x : EStateM ε σ α) :=
  fun _ => ends_liftExcept.mpr ⟨fun _ _ => rfl, fun _ _ => rfl⟩

theorem Keeps.ite {c : Prop} [Decidable c] {p q : EStateM ε σ α} (hp : Keeps view p)
    (hq : Keeps view q) : Keeps view (if c then p else q) := by
  split
  · exact hp
  · exact hq

end Keeps

end EStateM
