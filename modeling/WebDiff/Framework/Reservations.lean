import Mathlib.Data.List.Count
import WebDiff.Framework.Table

/-!
# Threads that look up, insert and remember

Threads share a table and a cache of its ids. A thread that misses a key in the cache inserts a row
for the key and then the id of the row into the cache, in three atomic steps with the steps of other
threads between them. A key is claimed by a thread from the miss on until its id is in the cache; a
claim carries the id of the row once the row is there.

`Reserved` is the invariant under which nothing is inserted twice: every row is in the cache or
claimed, no claimed key is in the cache, and no key has two claims. It is kept as long as no thread
misses a key that another one has claimed. Where that happens the key is `Crowded` for the rest of
the run, and the table ends with two rows for it.
-/

namespace Reservation

open Table

variable {R K ι : Type} {key : R → K} {id : R → ℤ}

/-- The claims of the threads: a key, with the id of its row once that is inserted. -/
abbrev Claims (ι K : Type) := ι → Option (K × Option ℤ)

/-- Every row is in the cache or claimed, and no key is claimed twice. -/
structure Reserved (key : R → K) (id : R → ℤ) (rows : List R) (cache : K → Option ℤ)
    (claims : Claims ι K) : Prop where
  cached : ∀ {k n}, cache k = some n → ∃ r ∈ rows, key r = k ∧ id r = n
  row : ∀ r ∈ rows, cache (key r) = some (id r) ∨ ∃ i, claims i = some (key r, some (id r))
  absent : ∀ {i k x}, claims i = some (k, x) → cache k = none
  exclusive : ∀ {i j k x y}, claims i = some (k, x) → claims j = some (k, y) → i = j
  inserted : ∀ {i k n}, claims i = some (k, some n) → ∃ r ∈ rows, key r = k ∧ id r = n

section Steps

variable [DecidableEq ι] {rows : List R} {cache : K → Option ℤ} {claims : Claims ι K}

omit [DecidableEq ι] in
/-- Without claims the cache holds exactly the rows. -/
theorem Reserved.start (h : ∀ k n, cache k = some n ↔ ∃ r ∈ rows, key r = k ∧ id r = n)
    (hclaims : ∀ i, claims i = none) : Reserved key id rows cache claims where
  cached := fun hk => (h _ _).mp hk
  row := fun r hr => Or.inl ((h _ _).mpr ⟨r, hr, rfl, rfl⟩)
  absent := fun hi => by simp [hclaims] at hi
  exclusive := fun hi => by simp [hclaims] at hi
  inserted := fun hi => by simp [hclaims] at hi

variable (h : Reserved key id rows cache claims)
include h

omit [DecidableEq ι] in
/-- A claimed key without a row. -/
theorem Reserved.fresh {i : ι} {k : K} (hi : claims i = some (k, none)) :
    ∀ r ∈ rows, key r ≠ k := by
  rintro r hr rfl
  rcases h.row r hr with hcache | ⟨j, hj⟩
  · rw [h.absent hi] at hcache
    cases hcache
  · obtain rfl := h.exclusive hi hj
    rw [hi] at hj
    cases hj

/-- A thread whose claim stays what it is. -/
theorem Reserved.stay {i : ι} {x : Option (K × Option ℤ)} (hi : claims i = x) :
    Reserved key id rows cache (Function.update claims i x) := by
  rwa [← hi, Function.update_eq_self]

/-- **A miss** of a key that nobody has claimed claims it. -/
theorem Reserved.miss {i : ι} {k : K} (hi : claims i = none) (hk : cache k = none)
    (hfree : ∀ j x, j ≠ i → claims j ≠ some (k, x)) :
    Reserved key id rows cache (Function.update claims i (some (k, none))) := by
  refine ⟨h.cached, fun r hr => ?_, fun {j k' x} hj => ?_, fun {j j' k' x y} hj hj' => ?_,
    fun {j k' n} hj => ?_⟩
  · rcases h.row r hr with hcache | ⟨j, hj⟩
    · exact Or.inl hcache
    · have hne : j ≠ i := by
        rintro rfl
        rw [hi] at hj
        cases hj
      exact Or.inr ⟨j, by rw [Function.update_of_ne hne, hj]⟩
  · rw [Function.update_apply] at hj
    split at hj
    · obtain ⟨rfl, -⟩ := Prod.mk.inj (Option.some.inj hj)
      exact hk
    · exact h.absent hj
  · rw [Function.update_apply] at hj hj'
    split at hj
    · next heq =>
      obtain ⟨rfl, -⟩ := Prod.mk.inj (Option.some.inj hj)
      split at hj'
      -- two claims on the missed key are both `i`'s, since nobody else claims it
      · next heq' => exact heq.trans heq'.symm
      · next hne => exact absurd hj' (hfree j' y hne)
    · next hne =>
      split at hj'
      · obtain ⟨rfl, -⟩ := Prod.mk.inj (Option.some.inj hj')
        exact absurd hj (hfree j x hne)
      · exact h.exclusive hj hj'
  · rw [Function.update_apply] at hj
    split at hj
    · cases hj
    · exact h.inserted hj

/-- **An insertion** of the row for a claimed key. -/
theorem Reserved.insert {i : ι} {r : R} (hi : claims i = some (key r, none)) :
    Reserved key id (rows ++ [r]) cache
      (Function.update claims i (some (key r, some (id r)))) := by
  -- the keys claimed before and after are the same
  have hkeys : ∀ {j k x}, Function.update claims i (some (key r, some (id r))) j = some (k, x) →
      ∃ y, claims j = some (k, y) := by
    intro j k x hj
    rw [Function.update_apply] at hj
    split at hj
    · next heq =>
      obtain ⟨rfl, -⟩ := Prod.mk.inj (Option.some.inj hj)
      exact ⟨none, heq ▸ hi⟩
    · exact ⟨x, hj⟩
  refine ⟨fun hk => ?_, fun s hs => ?_, fun hj => ?_, fun hj hj' => ?_, fun {j k n} hj => ?_⟩
  · obtain ⟨s, hs, hkey⟩ := h.cached hk
    exact ⟨s, List.mem_append_left _ hs, hkey⟩
  · rcases List.mem_append.mp hs with hs | hs
    · rcases h.row s hs with hcache | ⟨j, hj⟩
      · exact Or.inl hcache
      · have hne : j ≠ i := by
          rintro rfl
          simp [hi] at hj
        exact Or.inr ⟨j, by rw [Function.update_of_ne hne, hj]⟩
    · obtain rfl := List.mem_singleton.mp hs
      exact Or.inr ⟨i, Function.update_self ..⟩
  · obtain ⟨y, hy⟩ := hkeys hj
    exact h.absent hy
  · obtain ⟨y, hy⟩ := hkeys hj
    obtain ⟨y', hy'⟩ := hkeys hj'
    exact h.exclusive hy hy'
  · rw [Function.update_apply] at hj
    split at hj
    · obtain ⟨rfl, hn⟩ := Prod.mk.inj (Option.some.inj hj)
      exact ⟨r, List.mem_append_right _ (List.mem_singleton.mpr rfl), rfl, Option.some.inj hn⟩
    · obtain ⟨s, hs, hkey⟩ := h.inserted hj
      exact ⟨s, List.mem_append_left _ hs, hkey⟩

/-- **The insertion into the cache** ends the claim. -/
theorem Reserved.put [DecidableEq K] {i : ι} {k : K} {n : ℤ} (hi : claims i = some (k, some n)) :
    Reserved key id rows (Function.update cache k (some n)) (Function.update claims i none) := by
  -- only the claim of `i` ends
  have hclaims : ∀ {j k' x}, Function.update claims i none j = some (k', x) →
      j ≠ i ∧ claims j = some (k', x) := by
    intro j k' x hj
    rw [Function.update_apply] at hj
    split at hj
    · cases hj
    · next hne => exact ⟨hne, hj⟩
  refine ⟨fun {k' n'} hk => ?_, fun r hr => ?_, fun {j k' x} hj => ?_, fun hj hj' => ?_,
    fun hj => h.inserted (hclaims hj).2⟩
  · rw [Function.update_apply] at hk
    split at hk
    · next heq =>
      obtain rfl := Option.some.inj hk
      -- the id that goes into the cache is that of the inserted row
      exact heq ▸ h.inserted hi
    · exact h.cached hk
  · rcases h.row r hr with hcache | ⟨j, hj⟩
    · -- a cached key is not the claimed one
      have hne : key r ≠ k := by
        rintro rfl
        rw [h.absent hi] at hcache
        cases hcache
      exact Or.inl (by rw [Function.update_of_ne hne, hcache])
    · by_cases heq : j = i
      · subst heq
        rw [hi] at hj
        obtain ⟨rfl, hn⟩ := Prod.mk.inj (Option.some.inj hj)
        exact Or.inl (by rw [Function.update_self, hn])
      · exact Or.inr ⟨j, by rw [Function.update_of_ne heq, hj]⟩
  · obtain ⟨hne, hj⟩ := hclaims hj
    -- a second claim on the key would be one of `i` too
    have hk : k' ≠ k := by
      rintro rfl
      exact hne (h.exclusive hj hi)
    rw [Function.update_of_ne hk]
    exact h.absent hj
  · exact h.exclusive (hclaims hj).2 (hclaims hj').2

end Steps

/-! ### Two claims on one key -/

section Crowded

variable [DecidableEq ι] [DecidableEq K]

/-- There are two rows for the key, or there will be: a claim without a row becomes one. -/
def Crowded (key : R → K) (rows : List R) (claims : Claims ι K) (k : K) : Prop :=
  2 ≤ rows.countP (fun r => key r = k) ∨
    (1 ≤ rows.countP (fun r => key r = k) ∧ ∃ i, claims i = some (k, none)) ∨
      ∃ i j, i ≠ j ∧ claims i = some (k, none) ∧ claims j = some (k, none)

variable {rows : List R} {claims : Claims ι K} {k : K}

omit [DecidableEq ι] in
/-- In the end two rows have the key. -/
theorem Crowded.not_nodup (h : Crowded key rows claims k) (hclaims : ∀ i, claims i = none) :
    ¬ (rows.map key).Nodup := by
  intro hnodup
  rcases h with hrows | ⟨-, i, hi⟩ | ⟨i, -, -, hi, -⟩
  -- two rows; the other cases need a claim
  · have hcount : (rows.map key).count k = rows.countP fun r => key r = k := by
      rw [List.count, List.countP_map]
      exact List.countP_congr fun r _ => by simp
    have hle := List.nodup_iff_count_le_one.mp hnodup k
    omega
  · rw [hclaims i] at hi
    cases hi
  · rw [hclaims i] at hi
    cases hi

/-- A miss of a key that another thread has claimed. -/
theorem Reserved.crowded {id : R → ℤ} {cache : K → Option ℤ}
    (h : Reserved key id rows cache claims) {i j : ι} (hne : j ≠ i) {x : Option ℤ}
    (hj : claims j = some (k, x)) :
    Crowded key rows (Function.update claims i (some (k, none))) k := by
  cases x with
  -- neither has inserted its row: two claims
  | none =>
    refine Or.inr (Or.inr ⟨j, i, hne, ?_, Function.update_self ..⟩)
    rw [Function.update_of_ne hne, hj]
  -- the other one's row is there: a row and a claim
  | some n =>
    obtain ⟨r, hr, hkey, -⟩ := h.inserted hj
    have hcount : 0 < rows.countP fun r => key r = k :=
      List.countP_pos_iff.mpr ⟨r, hr, by simpa using hkey⟩
    exact Or.inr (Or.inl ⟨hcount, i, Function.update_self ..⟩)

/-- Only an insertion changes a claim without a row. -/
theorem Crowded.update (h : Crowded key rows claims k) {i : ι} (hi : claims i ≠ some (k, none))
    (x : Option (K × Option ℤ)) : Crowded key rows (Function.update claims i x) k := by
  have hkeep : ∀ {j}, claims j = some (k, none) →
      Function.update claims i x j = some (k, none) := by
    intro j hj
    have hne : j ≠ i := by
      rintro rfl
      exact hi hj
    rw [Function.update_of_ne hne, hj]
  exact h.imp_right (Or.imp (And.imp_right fun ⟨j, hj⟩ => ⟨j, hkeep hj⟩)
    fun ⟨j, j', hne, hj, hj'⟩ => ⟨j, j', hne, hkeep hj, hkeep hj'⟩)

/-- An insertion makes a row of a claim. -/
theorem Crowded.insert (h : Crowded key rows claims k) {i : ι} {r : R}
    (hi : claims i = some (key r, none)) (n : ℤ) :
    Crowded key (rows ++ [r]) (Function.update claims i (some (key r, some n))) k := by
  have hcount : (rows ++ [r]).countP (fun r => key r = k)
      = rows.countP (fun r => key r = k) + if key r = k then 1 else 0 := by
    rw [List.countP_append, List.countP_singleton]
    simp only [decide_eq_true_eq]
  -- a row for another key touches neither the rows nor the claims of this one
  by_cases hk : key r = k
  · subst hk
    rw [if_pos rfl] at hcount
    unfold Crowded
    rw [hcount]
    rcases h with hrows | ⟨hrows, -⟩ | ⟨j, j', hne, hj, hj'⟩
    · exact Or.inl (by omega)
    · exact Or.inl (by omega)
    · -- the claim of the other thread is still there
      refine Or.inr (Or.inl ⟨by omega, ?_⟩)
      by_cases heq : j = i
      · exact ⟨j', by rw [Function.update_of_ne (heq ▸ hne.symm), hj']⟩
      · exact ⟨j, by rw [Function.update_of_ne heq, hj]⟩
  · have hother : claims i ≠ some (k, none) := by
      rw [hi]
      exact fun heq => hk (Prod.mk.inj (Option.some.inj heq)).1
    have hupdate := h.update hother (some (key r, some n))
    unfold Crowded at hupdate ⊢
    rwa [hcount, if_neg hk, Nat.add_zero]

end Crowded

end Reservation
