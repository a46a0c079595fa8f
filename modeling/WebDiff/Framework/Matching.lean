import Mathlib.Data.List.Perm.Basic
import Mathlib.Data.List.Nodup
import Mathlib.Data.Set.Function
import Mathlib.Logic.Relator
import Mathlib.Tactic.Common

/-!
# Renaming along a matching

A matching pairs names of two systems one with one (`Relator.BiUnique`). `rename` is the function
that takes a name to its partner and keeps the base point `0`, which no pair has. It is injective on
the names that have a partner (`injOn_rename`). Two lists whose elements are renamings of each other
are permutations of each other (`map_perm_of_mem_iff`).
-/

namespace Matching

variable {I J : Type} [Zero I] [Zero J] {C : I → J → Prop}

open Classical in
/-- The partner of a name, `0` if it has none. -/
noncomputable def rename (C : I → J → Prop) (i : I) : J :=
  if h : ∃ j, C i j then h.choose else 0

omit [Zero I] in
theorem rename_eq (hC : Relator.RightUnique C) {i : I} {j : J} (h : C i j) : rename C i = j := by
  have hex : ∃ j, C i j := ⟨j, h⟩
  rw [rename, dif_pos hex]
  exact hC hex.choose_spec h

/-- No pair has the base point. -/
def Pointed (C : I → J → Prop) : Prop :=
  ∀ i j, C i j → i ≠ 0 ∧ j ≠ 0

theorem rename_zero (h : Pointed C) : rename C 0 = 0 := by
  have hnone : ¬ ∃ j, C 0 j := fun ⟨j, hj⟩ => (h 0 j hj).1 rfl
  rw [rename, dif_neg hnone]

theorem injOn_rename (hC : Relator.BiUnique C) (h : Pointed C) :
    Set.InjOn (rename C) {i | i = 0 ∨ ∃ j, C i j} := by
  rintro i hi k hk heq
  rcases hi with rfl | ⟨j, hj⟩
  · rcases hk with rfl | ⟨l, hl⟩
    · rfl
    · rw [rename_zero h, rename_eq hC.2 hl] at heq
      exact absurd heq.symm (h k l hl).2
  · rcases hk with rfl | ⟨l, hl⟩
    · rw [rename_zero h, rename_eq hC.2 hj] at heq
      exact absurd heq (h i j hj).2
    · rw [rename_eq hC.2 hj, rename_eq hC.2 hl] at heq
      exact hC.1 (heq ▸ hj) hl

/-- Lists without repetitions whose elements are renamings of each other. -/
theorem map_perm_of_mem_iff {R S : Type} {f : R → S} {rows : List R} {rows' : List S}
    (hrows : rows.Nodup) (hrows' : rows'.Nodup)
    (hinj : ∀ r ∈ rows, ∀ s ∈ rows, f r = f s → r = s)
    (hmem : ∀ r', r' ∈ rows' ↔ ∃ r ∈ rows, f r = r') : (rows.map f).Perm rows' := by
  refine (List.perm_ext_iff_of_nodup (List.Nodup.map_on (fun r hr s hs => hinj r hr s hs) hrows)
    hrows').mpr fun r' => ?_
  rw [hmem, List.mem_map]

end Matching
