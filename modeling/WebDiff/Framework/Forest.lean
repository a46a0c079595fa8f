import Mathlib.Data.Int.Order.Basic
import Mathlib.Data.List.Nodup
import Mathlib.Logic.Relation
import Mathlib.Tactic.Common

/-!
# Rows that name their parent

The rows of a table are the nodes of a forest when every row names its parent by id, with `0` for
no parent. `Descending` says that a parent has a smaller id than its child, as it must when it was
inserted first, and `Closed` that every parent is a row. With both, the links have no cycle
(`Descending.acyclic`) and lead from every row to `0` (`Closed.reachesRoot`).
-/

namespace Forest

variable {R : Type} (id parent : R → ℤ)

/-- Parents have smaller ids than their children, and no negative ones. -/
def Descending (rows : List R) : Prop :=
  ∀ r ∈ rows, 0 ≤ parent r ∧ parent r < id r

/-- Every parent is `0` or a row. -/
def Closed (rows : List R) : Prop :=
  ∀ r ∈ rows, parent r = 0 ∨ ∃ p ∈ rows, id p = parent r

/-- One parent link, from a row to its parent. -/
def Link (rows : List R) (a b : R) : Prop :=
  a ∈ rows ∧ b ∈ rows ∧ id b = parent a

/-- Following the parent links from an id through the rows ends at `0`. -/
inductive ReachesRoot (rows : List R) : ℤ → Prop
  | root : ReachesRoot rows 0
  | up {r : R} : r ∈ rows → ReachesRoot rows (parent r) → ReachesRoot rows (id r)

variable {id parent} {rows : List R}

theorem Descending.lt_of_transGen (h : Descending id parent rows) {a b : R}
    (hab : Relation.TransGen (Link id parent rows) a b) : id b < id a := by
  induction hab with
  | single hlink => exact hlink.2.2 ▸ (h _ hlink.1).2
  | tail _ hlink ih => exact lt_trans (hlink.2.2 ▸ (h _ hlink.1).2) ih

/-- **No cycles.** -/
theorem Descending.acyclic (h : Descending id parent rows) (r : R) :
    ¬ Relation.TransGen (Link id parent rows) r r := fun hr =>
  lt_irrefl _ (h.lt_of_transGen hr)

/-- With different ids, none of them `0`, a row leads to the root as its parent does. -/
theorem reachesRoot_id_iff (hids : (rows.map id).Nodup) {r : R} (hr : r ∈ rows) (hne : id r ≠ 0) :
    ReachesRoot id parent rows (id r) ↔ ReachesRoot id parent rows (parent r) := by
  constructor
  · intro h
    generalize hi : id r = i at h
    cases h with
    | root => exact absurd hi hne
    | up hr' hup =>
      obtain rfl := List.inj_on_of_nodup_map hids hr hr' hi
      exact hup
  · exact .up hr

/-- **Every row leads to the root**, by induction on its id. -/
theorem Closed.reachesRoot (hc : Closed id parent rows) (hd : Descending id parent rows) {r : R}
    (hr : r ∈ rows) : ReachesRoot id parent rows (id r) := by
  induction hn : (id r).toNat using Nat.strongRecOn generalizing r with
  | ind n ih =>
    obtain ⟨hnonneg, hlt⟩ := hd r hr
    refine .up hr ?_
    rcases hc r hr with h0 | ⟨p, hp, hid⟩
    · rw [h0]
      exact .root
    · rw [← hid]
      exact ih _ (by omega) hp rfl

end Forest
