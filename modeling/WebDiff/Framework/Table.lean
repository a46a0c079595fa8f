import Mathlib.Data.List.Induction
import Mathlib.Data.List.Nodup
import Mathlib.Data.List.Perm.Basic
import Mathlib.Data.Int.Order.Basic
import Mathlib.Logic.Function.Basic
import Mathlib.Order.Basic
import Mathlib.Tactic.Common

/-!
# Tables whose rows carry increasing ids

A table is the list of its rows in the order of insertion, and `id` reads the id of a row. Ids are
given out once and never reused, so they are positive and strictly increasing along the list
(`Increasing`), and the id of the next row only has to be compared with the last one
(`Increasing.append`). A column without repetitions (`(rows.map key).Nodup`) determines the row, in
whatever order the rows are scanned (`find?_key_eq_some_iff`, `find?_key_perm`).
-/

namespace Table

variable {R K : Type} {id : R → ℤ} {key : R → K}

/-- The id of the row inserted last, `0` for the empty table. -/
def lastId (id : R → ℤ) (rows : List R) : ℤ :=
  (rows.getLast?.map id).getD 0

/-- The ids are positive and strictly increasing. -/
structure Increasing (id : R → ℤ) (rows : List R) : Prop where
  pos : ∀ r ∈ rows, 0 < id r
  lt : rows.Pairwise fun a b => id a < id b

theorem Increasing.nil : Increasing id ([] : List R) :=
  ⟨fun _ h => absurd h List.not_mem_nil, List.Pairwise.nil⟩

theorem Increasing.lastId_nonneg {rows : List R} (h : Increasing id rows) :
    0 ≤ lastId id rows := by
  unfold lastId
  cases hl : rows.getLast? with
  | none => exact le_refl _
  | some r => exact le_of_lt (h.pos r (List.mem_of_getLast? hl))

/-- No id is greater than the last one. -/
theorem Increasing.le_lastId {rows : List R} (h : Increasing id rows) {r : R} (hr : r ∈ rows) :
    id r ≤ lastId id rows := by
  obtain ⟨init, last, rfl⟩ := List.eq_nil_or_concat' rows |>.resolve_left (List.ne_nil_of_mem hr)
  have hlast : lastId id (init ++ [last]) = id last := by simp [lastId]
  rw [hlast]
  rcases List.mem_append.mp hr with hr | hr
  · exact le_of_lt ((List.pairwise_append.mp h.lt).2.2 r hr last (List.mem_singleton.mpr rfl))
  · rw [List.mem_singleton.mp hr]

/-- **Insertion.** A row whose id is above the last one may be appended. -/
theorem Increasing.append {rows : List R} (h : Increasing id rows) {r : R}
    (hr : lastId id rows < id r) : Increasing id (rows ++ [r]) := by
  refine ⟨fun x hx => ?_, List.pairwise_append.mpr ⟨h.lt, List.pairwise_singleton _ _, ?_⟩⟩
  · rcases List.mem_append.mp hx with hx | hx
    · exact h.pos x hx
    · rw [List.mem_singleton.mp hx]
      exact lt_of_le_of_lt h.lastId_nonneg hr
  · intro a ha b hb
    rw [List.mem_singleton.mp hb]
    exact lt_of_le_of_lt (h.le_lastId ha) hr

theorem Increasing.nodup_map {rows : List R} (h : Increasing id rows) : (rows.map id).Nodup :=
  List.pairwise_map.mpr (h.lt.imp fun hab => ne_of_lt hab)

/-- Ids identify rows. -/
theorem Increasing.eq_of_id_eq {rows : List R} (h : Increasing id rows) {a b : R} (ha : a ∈ rows)
    (hb : b ∈ rows) (hab : id a = id b) : a = b :=
  List.inj_on_of_nodup_map h.nodup_map ha hb hab

theorem Increasing.nodup {rows : List R} (h : Increasing id rows) : rows.Nodup :=
  h.nodup_map.of_map

/-- At most one row has a given id. -/
theorem length_filter_le {rows : List R} (h : (rows.map id).Nodup) (n : ℤ) :
    (rows.filter fun r => id r = n).length ≤ 1 := by
  have hnodup : ((rows.filter fun r => id r = n).map id).Nodup :=
    h.sublist (List.filter_sublist.map id)
  have hconst : (rows.filter fun r => id r = n).map id
      = List.replicate (rows.filter fun r => id r = n).length n := by
    refine List.eq_replicate_iff.mpr ⟨List.length_map _, fun x hx => ?_⟩
    obtain ⟨r, hr, rfl⟩ := List.mem_map.mp hx
    simpa using (List.mem_filter.mp hr).2
  rw [hconst] at hnodup
  exact List.nodup_replicate.mp hnodup

/-! ### Joins -/

/-- A join that finds at most one partner for every row repeats no row. -/
theorem join_sublist {P : Type} (rows : List R) (partners : R → List P)
    (h : ∀ r ∈ rows, (partners r).length ≤ 1) :
    ((rows.flatMap fun r => (partners r).map fun p => (r, p)).map Prod.fst).Sublist rows := by
  induction rows with
  | nil => exact List.Sublist.refl _
  | cons r rest ih =>
    rw [List.flatMap_cons, List.map_append, List.map_map]
    have hrest := ih fun x hx => h x (List.mem_cons_of_mem _ hx)
    have hr := h r List.mem_cons_self
    match hp : partners r, hr with
    | [], _ => exact hrest.cons r
    | [p], _ => exact hrest.cons_cons r

/-! ### Columns without repetitions -/

/-- Appending a row whose key is new keeps the column free of repetitions. -/
theorem nodup_map_append {rows : List R} (h : (rows.map key).Nodup) {r : R}
    (hr : ∀ x ∈ rows, key x ≠ key r) : ((rows ++ [r]).map key).Nodup := by
  rw [List.map_append, List.nodup_append]
  refine ⟨h, by simp, fun a ha b hb => ?_⟩
  obtain ⟨x, hx, rfl⟩ := List.mem_map.mp ha
  rw [List.map_singleton, List.mem_singleton] at hb
  rw [hb]
  exact hr x hx

variable [DecidableEq K]

/-- A search by key finds the row with that key. -/
theorem find?_key_eq_some_iff {rows : List R} (h : (rows.map key).Nodup) (k : K) (r : R) :
    rows.find? (fun x => key x = k) = some r ↔ r ∈ rows ∧ key r = k := by
  refine ⟨fun hf => ⟨List.mem_of_find?_eq_some hf, ?_⟩, ?_⟩
  · simpa using List.find?_some hf
  · rintro ⟨hr, rfl⟩
    have hsome : (rows.find? fun x => key x = key r).isSome :=
      List.find?_isSome.mpr ⟨r, hr, by simp⟩
    obtain ⟨x, hf⟩ := Option.isSome_iff_exists.mp hsome
    have hkey : key x = key r := by simpa using List.find?_some hf
    exact hf.trans (congrArg some
      (List.inj_on_of_nodup_map h (List.mem_of_find?_eq_some hf) hr hkey))

/-- The order of the rows does not matter to a search by key. -/
theorem find?_key_perm {rows rows' : List R} (hp : rows.Perm rows') (h : (rows.map key).Nodup)
    (k : K) : rows.find? (fun x => key x = k) = rows'.find? (fun x => key x = k) := by
  have h' : (rows'.map key).Nodup := (hp.map key).nodup_iff.mp h
  refine Option.ext fun r => ?_
  rw [find?_key_eq_some_iff h, find?_key_eq_some_iff h', hp.mem_iff]

theorem find?_key_eq_none_iff {rows : List R} (k : K) :
    rows.find? (fun x => key x = k) = none ↔ ∀ x ∈ rows, key x ≠ k := by
  simp [List.find?_eq_none]

/-! ### Reading a column into a map -/

/-- A map filled row by row holds the rows with new keys, and elsewhere what it held before. -/
theorem foldl_update_eq_some_iff {rows : List R} (h : (rows.map key).Nodup) (m : K → Option ℤ)
    (k : K) (i : ℤ) :
    rows.foldl (fun m r => Function.update m (key r) (some (id r))) m k = some i ↔
      (∃ r ∈ rows, key r = k ∧ id r = i) ∨ (∀ r ∈ rows, key r ≠ k) ∧ m k = some i := by
  induction rows generalizing m with
  | nil => simp
  | cons r rest ih =>
    rw [List.map_cons, List.nodup_cons] at h
    rw [List.foldl_cons, ih h.2]
    -- no later row has the key of `r`, so what it puts in stays
    by_cases hk : key r = k
    · subst hk
      have hrest : ∀ x ∈ rest, key x ≠ key r := fun x hx he =>
        h.1 (he ▸ List.mem_map_of_mem hx)
      have hnone : ¬ ∃ x ∈ rest, key x = key r ∧ id x = i := fun ⟨x, hx, he, _⟩ => hrest x hx he
      simp [hnone, Function.update_self]
      exact fun _ => hrest
    · rw [Function.update_of_ne (Ne.symm hk)]
      simp [hk]

/-- Whatever the keys, such a map holds the last row of a key, and what it held before where there
is none. -/
theorem foldl_update_eq_getLast? (rows : List R) (m : K → Option ℤ) (k : K) :
    rows.foldl (fun m r => Function.update m (key r) (some (id r))) m k
      = ((rows.filter fun r => key r = k).getLast?.map id).or (m k) := by
  induction rows using List.reverseRecOn with
  | nil => rfl
  | append_singleton rows r ih =>
    rw [List.foldl_append, List.foldl_cons, List.foldl_nil, List.filter_append]
    -- the last row decides its own key and no other
    by_cases hk : key r = k
    · subst hk
      simp
    · rw [Function.update_of_ne (Ne.symm hk), ih]
      simp [hk]

/-- Whatever the keys, such a map has no values but the ids of the rows and those it had before. -/
theorem exists_of_foldl_update_eq_some {rows : List R} {m : K → Option ℤ} {k : K} {i : ℤ}
    (h : rows.foldl (fun m r => Function.update m (key r) (some (id r))) m k = some i) :
    (∃ r ∈ rows, id r = i) ∨ m k = some i := by
  induction rows generalizing m with
  | nil => exact Or.inr h
  | cons r rest ih =>
    rw [List.foldl_cons] at h
    rcases ih h with ⟨x, hx, hid⟩ | hupdate
    · exact Or.inl ⟨x, List.mem_cons_of_mem _ hx, hid⟩
    · rw [Function.update_apply] at hupdate
      split at hupdate
      · exact Or.inl ⟨r, List.mem_cons_self, Option.some.inj hupdate⟩
      · exact Or.inr hupdate

end Table
