import Mathlib.Data.List.Basic
import Mathlib.Tactic.Common

/-!
# Loops over a stream that arrives in pieces

A parser is called with a piece of a stream at a time. It goes over the piece in rounds, each of which
takes some of the data, and what it has to remember between two calls is in its state. Where a round
runs out of data it must be resumed by the next call: then it does not matter how the stream was cut
(`Resumable.foldl_eq`).
-/

variable {σ α β : Type}

/-! ### A loop that takes what is required -/

/-- The loop takes data as long as there is some and something is still required. -/
def takeLoop (f : α → ℕ → β → α) : α → (require : ℕ) → List β → α × ℕ × List β
  | a, require + 1, b :: rest => takeLoop f (f a (require + 1) b) require rest
  | a, require, data => (a, require, data)

section TakeLoop

variable (f : α → ℕ → β → α)

theorem takeLoop_zero (a : α) (data : List β) : takeLoop f a 0 data = (a, 0, data) := by
  cases data <;> rfl

theorem takeLoop_nil (a : α) (require : ℕ) : takeLoop f a require [] = (a, require, []) := by
  cases require <;> rfl

/-- What is left of the data. -/
theorem takeLoop_rest (a : α) (require : ℕ) (data : List β) :
    (takeLoop f a require data).2.2 = data.drop require := by
  induction data generalizing a require with
  | nil => rw [takeLoop_nil, List.drop_nil]
  | cons b rest ih =>
    cases require with
    | zero => rfl
    | succ require => exact ih _ require

/-- What is still required. -/
theorem takeLoop_require (a : α) (require : ℕ) (data : List β) :
    (takeLoop f a require data).2.1 = require - data.length := by
  induction data generalizing a require with
  | nil => rw [takeLoop_nil, List.length_nil, Nat.sub_zero]
  | cons b rest ih =>
    cases require with
    | zero => rw [takeLoop_zero, Nat.zero_sub]
    | succ require =>
      rw [List.length_cons, Nat.succ_sub_succ]
      exact ih _ require

/-- The loop on more data goes on where it stopped. -/
theorem takeLoop_append (a : α) (require : ℕ) (as bs : List β) :
    takeLoop f a require (as ++ bs)
      = takeLoop f (takeLoop f a require as).1 (takeLoop f a require as).2.1
          ((takeLoop f a require as).2.2 ++ bs) := by
  induction as generalizing a require with
  | nil => rw [takeLoop_nil]
  | cons b rest ih =>
    cases require with
    | zero => simp only [takeLoop_zero]
    | succ require => exact ih _ require

end TakeLoop

/-! ### Rounds -/

/-- A round that ends before the data does is the same whatever comes behind the data, and a round
that takes all the data is resumed. `Live` holds of the states in which the parser is called. -/
structure Resumable (round : σ → List β → σ × List β) (exec : σ → List β → σ) (Live : σ → Prop) :
    Prop where
  nil : ∀ s, exec s [] = s
  cons : ∀ s b bs, exec s (b :: bs) = exec (round s (b :: bs)).1 (round s (b :: bs)).2
  live : ∀ s as, Live s → as ≠ [] → Live (round s as).1
  ends_or_resumes : ∀ s as, Live s → as ≠ [] →
    ((round s as).2.length < as.length ∧
      ∀ bs, round s (as ++ bs) = ((round s as).1, (round s as).2 ++ bs)) ∨
    ((round s as).2 = [] ∧ ∀ bs, bs ≠ [] → round s (as ++ bs) = round (round s as).1 bs)

namespace Resumable

variable {round : σ → List β → σ × List β} {exec : σ → List β → σ} {Live : σ → Prop}
  (h : Resumable round exec Live)
include h

theorem exec_eq {s : σ} {as : List β} (has : as ≠ []) :
    exec s as = exec (round s as).1 (round s as).2 := by
  obtain ⟨b, bs, rfl⟩ := List.exists_cons_of_ne_nil has
  exact h.cons s b bs

/-- **Two pieces.** -/
theorem append {s : σ} (hs : Live s) (as bs : List β) :
    Live (exec s as) ∧ exec s (as ++ bs) = exec (exec s as) bs := by
  -- by the length of the first piece, of which a round leaves less
  induction hn : as.length using Nat.strongRecOn generalizing s as with
  | ind n ih =>
    by_cases has : as = []
    · subst has
      rw [h.nil]
      exact ⟨hs, rfl⟩
    · have hlive := h.live s as hs has
      have happend : exec s (as ++ bs) = exec (round s (as ++ bs)).1 (round s (as ++ bs)).2 :=
        h.exec_eq (List.append_ne_nil_of_left_ne_nil has bs)
      rw [h.exec_eq has]
      cases h.ends_or_resumes s as hs has with
      | inl hends =>
        obtain ⟨hlength, hround⟩ := hends
        rw [happend, hround]
        exact ih _ (hn ▸ hlength) hlive _ rfl
      | inr hresumes =>
        obtain ⟨hnil, hround⟩ := hresumes
        rw [hnil, h.nil]
        refine ⟨hlive, ?_⟩
        by_cases hbs : bs = []
        · rw [hbs, List.append_nil, h.exec_eq has, hnil]
        · rw [happend, hround bs hbs, ← h.exec_eq hbs]

/-- **Any number of pieces.** -/
theorem foldl_eq {s : σ} (hs : Live s) (pieces : List (List β)) :
    pieces.foldl exec s = exec s pieces.flatten := by
  induction pieces generalizing s with
  | nil => exact (h.nil s).symm
  | cons piece rest ih =>
    obtain ⟨hlive, hexec⟩ := h.append hs piece rest.flatten
    rw [List.foldl_cons, ih hlive, List.flatten_cons, hexec]

end Resumable
