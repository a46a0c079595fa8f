import Mathlib.Data.List.Basic
import Mathlib.Tactic.Common

/-!
# Sequences written with a separator in front of every part

`render sep parts` writes every part behind a separator, as an absolute path writes its components.
Parts that do not contain the separator are recovered from the text (`render_injective`), so the
texts of such sequences can serve as keys.
-/

namespace Separated

variable {α : Type} {sep : α}

/-- The parts one after another, each behind a separator. -/
def render (sep : α) (parts : List (List α)) : List α :=
  parts.flatMap (sep :: ·)

@[simp] theorem render_nil : render sep [] = [] := rfl

/-- Writing one more part. -/
theorem render_concat (parts : List (List α)) (part : List α) :
    render sep (parts ++ [part]) = render sep parts ++ sep :: part := by
  simp [render]

theorem mem_render {parts : List (List α)} {x : α} (h : x ∈ render sep parts) :
    x = sep ∨ ∃ part ∈ parts, x ∈ part := by
  obtain ⟨part, hpart, hx⟩ := List.mem_flatMap.mp h
  rcases List.mem_cons.mp hx with hx | hx
  · exact Or.inl hx
  · exact Or.inr ⟨part, hpart, hx⟩

/-- `render` is the usual joining of the parts, with an empty part in front. -/
theorem render_eq_intercalate (parts : List (List α)) :
    render sep parts = [sep].intercalate ([] :: parts) := by
  induction parts with
  | nil => simp [render]
  | cons part rest ih =>
    have hrest : render sep (part :: rest) = sep :: (part ++ render sep rest) := by simp [render]
    rw [hrest, ih]
    cases rest with
    | nil => simp
    | cons next rest => simp [List.intercalate_cons_cons]

/-- **Recovery.** Sequences of parts without the separator are told apart by their texts. -/
theorem render_injective [DecidableEq α] {parts parts' : List (List α)}
    (h : ∀ part ∈ parts, sep ∉ part) (h' : ∀ part ∈ parts', sep ∉ part)
    (heq : render sep parts = render sep parts') : parts = parts' := by
  have hsplit : ∀ {ps : List (List α)}, (∀ part ∈ ps, sep ∉ part) →
      ([sep].intercalate ([] :: ps)).splitOn sep = [] :: ps := by
    intro ps hps
    refine List.splitOn_intercalate sep (fun part hpart => ?_) (List.cons_ne_nil _ _)
    rcases List.mem_cons.mp hpart with rfl | hpart
    · exact List.not_mem_nil
    · exact hps part hpart
  have hcons : ([] :: parts : List (List α)) = [] :: parts' := by
    rw [← hsplit h, ← hsplit h', ← render_eq_intercalate, heq, render_eq_intercalate]
  exact (List.cons.inj hcons).2

end Separated
