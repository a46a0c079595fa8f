import WebDiff.Framework.Guarded
import WebDiff.Upgrade.Recorded

/-!
# The statements of the migrations

Every statement of an update checks its own effect (`checked_query`), so a list of statements can be
run again from its beginning only where it has had no effect. `schemaAt` is the schema the first
migrations make out of an empty database, and `runQueries_fault` says how far `apply` gets when one
of its statements fails.
-/

namespace WebDiff

open Guarded

/-! ### Statements and parts of the schema -/

/-- The part of the schema a statement checks: for `CREATE TABLE` everything about the table. -/
def Query.Touches : Query → Item → Prop
  | .createTable t _, x => x.owner = t
  | .addColumn t c, x => x = .column t c
  | .dropColumn t c, x => x = .column t c
  | .insertRow t key, x => x = .row t key

/-- What an accepted statement found, and what it left. -/
def Query.Effect (S T : Schema) : Query → Prop
  | .createTable t columns =>
    .table t ∉ S.items ∧
      T.items = insert (.table t) (S.items ∪ (columns.map (Item.column t)).toFinset)
  | .addColumn t c => .column t c ∉ S.items ∧ T.items = insert (.column t c) S.items
  | .dropColumn t c => .column t c ∈ S.items ∧ T.items = S.items.erase (.column t c)
  | .insertRow t key => .row t key ∉ S.items ∧ T.items = insert (.row t key) S.items

theorem Query.effect_of_exec {q : Query} {S T : Schema} (h : q.exec S = some T) :
    q.Effect S T := by
  cases q with
  | createTable t columns =>
    rw [Query.exec] at h
    split at h
    · cases h
    · next htable =>
      cases h
      exact ⟨htable, rfl⟩
  -- the table has to exist; what the statement adds must not
  | addColumn t c =>
    rw [Query.exec] at h
    split at h
    · split at h
      · cases h
      · next hcolumn =>
        cases h
        exact ⟨hcolumn, rfl⟩
    · cases h
  | dropColumn t c =>
    rw [Query.exec] at h
    split at h
    · next hcolumn =>
      cases h
      exact ⟨hcolumn, rfl⟩
    · cases h
  | insertRow t key =>
    rw [Query.exec] at h
    split at h
    · split at h
      · cases h
      · next hrow =>
        cases h
        exact ⟨hrow, rfl⟩
    · cases h

/-- **The statements check their own effect.** -/
theorem checked_query : Checked Query.exec (fun S x => x ∈ S.items) Query.Touches where
  ext h := Schema.ext (Finset.ext h)
  frame {q S T x} h hx := by
    have hspec := Query.effect_of_exec h
    cases q with
    | createTable t columns =>
      have hx : x.owner ≠ t := hx
      rw [hspec.2, Finset.mem_insert, Finset.mem_union, List.mem_toFinset, List.mem_map]
      constructor
      · rintro (rfl | hS | ⟨c, -, rfl⟩)
        · exact absurd rfl hx
        · exact hS
        · exact absurd rfl hx
      · exact fun hS => Or.inr (Or.inl hS)
    | addColumn t c =>
      rw [hspec.2]
      exact Finset.mem_insert.trans (or_iff_right hx)
    | dropColumn t c =>
      rw [hspec.2]
      exact Finset.mem_erase.trans (and_iff_right hx)
    | insertRow t key =>
      rw [hspec.2]
      exact Finset.mem_insert.trans (or_iff_right hx)
  guard {q S S' T T' x} hS hT hx := by
    have hS := Query.effect_of_exec hS
    have hT := Query.effect_of_exec hT
    cases q with
    | createTable t columns =>
      -- neither schema has the table, and so nothing that belongs to it
      obtain rfl : x.owner = t := hx
      exact iff_of_false (fun h => hS.1 (S.owned x h)) fun h => hT.1 (T.owned x h)
    | addColumn t c =>
      obtain rfl : x = .column t c := hx
      exact iff_of_false hS.1 hT.1
    | dropColumn t c =>
      obtain rfl : x = .column t c := hx
      exact iff_of_true hS.1 hT.1
    | insertRow t key =>
      obtain rfl : x = .row t key := hx
      exact iff_of_false hS.1 hT.1

/-! ### The statements of consecutive migrations -/

/-- The statements of update `v`. -/
def queriesOf (us : List MySqlStorageUpdate) (v : ℤ) : List Query :=
  match us.find? fun u => u.version = v with
  | some u => u.queries
  | none => []

/-- The statements of the `count` migrations after version `m`. -/
def statements (us : List MySqlStorageUpdate) (m count : ℕ) : List Query :=
  (List.range count).flatMap fun i : ℕ => queriesOf us (m + i + 1)

/-- The schema the first `k` migrations make out of an empty database, `none` if MySQL rejects one
of their statements. -/
def schemaAt (us : List MySqlStorageUpdate) (k : ℕ) : Option Schema :=
  runAll Query.exec (statements us 0 k) Schema.empty

/-- The migrations fit together: on an empty database every statement is accepted. -/
def Fits (us : List MySqlStorageUpdate) : Prop :=
  (schemaAt us us.length).isSome

theorem statements_succ (us : List MySqlStorageUpdate) (m count : ℕ) :
    statements us m (count + 1) = statements us m count ++ queriesOf us (m + count + 1) := by
  rw [statements, List.range_succ, List.flatMap_append, List.flatMap_singleton]
  rfl

theorem statements_add (us : List MySqlStorageUpdate) (m a b : ℕ) :
    statements us m (a + b) = statements us m a ++ statements us (m + a) b := by
  induction b with
  | zero => simp [statements]
  | succ b ih =>
    have hv : (m : ℤ) + (a + b : ℕ) + 1 = (m + a : ℕ) + b + 1 := by push_cast; omega
    rw [← Nat.add_assoc, statements_succ, ih, statements_succ, List.append_assoc, hv]

/-- One migration more. -/
theorem schemaAt_succ (us : List MySqlStorageUpdate) (k : ℕ) :
    schemaAt us (k + 1) = (schemaAt us k).bind (runAll Query.exec (queriesOf us (k + 1))) := by
  have hv : ((0 : ℕ) : ℤ) + k + 1 = k + 1 := by omega
  rw [schemaAt, statements_succ, runAll_append, hv]
  rfl

/-- The migrations up to `m` and those after it. -/
theorem schemaAt_add (us : List MySqlStorageUpdate) (m count : ℕ) :
    schemaAt us (m + count)
      = (schemaAt us m).bind (runAll Query.exec (statements us m count)) := by
  rw [schemaAt, statements_add, runAll_append, Nat.zero_add]
  rfl

theorem Numbered.queriesOf_eq {us : List MySqlStorageUpdate} (hus : Numbered us)
    {u : MySqlStorageUpdate} (hu : u ∈ us) : queriesOf us u.version = u.queries := by
  unfold queriesOf
  cases hf : us.find? fun u' => u'.version = u.version with
  | none =>
    have hne := List.find?_eq_none.mp hf u hu
    simp at hne
  | some u' =>
    have hv : u'.version = u.version := by simpa using List.find?_some hf
    rw [hus.unique (List.mem_of_find?_eq_some hf) hu hv]

/-! ### `apply` and the statements it gets through -/

section

variable {σ : Type} {exec : Query → σ → Option σ}

theorem runQueries_eq_true {qs : List Query} {s t : σ} (h : runAll exec qs s = some t) :
    runQueries exec none qs s = (true, t) := by
  induction qs generalizing s with
  | nil =>
    cases h
    rfl
  | cons q qs ih =>
    obtain ⟨s₁, hq, hqs⟩ := Option.bind_eq_some_iff.mp h
    rw [runQueries, hq]
    · exact ih hqs
    · exact fun h => absurd h (by simp)

theorem runQueries_eq_false {qs : List Query} {s : σ} (h : runAll exec qs s = none) :
    ∃ t, runQueries exec none qs s = (false, t) := by
  induction qs generalizing s with
  | nil => cases h
  | cons q qs ih =>
    rw [runQueries]
    · cases hq : exec q s with
      | none => exact ⟨s, rfl⟩
      | some s₁ =>
        rw [runAll_cons, hq] at h
        exact ih h
    · exact fun h => absurd h (by simp)

/-- Statement number `i` fails: those before it have been executed. -/
theorem runQueries_fault {qs : List Query} {i : ℕ} (hi : i < qs.length) {s t : σ}
    (h : runAll exec (qs.take i) s = some t) : runQueries exec (some i) qs s = (false, t) := by
  induction qs generalizing i s with
  | nil => exact absurd hi (Nat.not_lt_zero i)
  | cons q qs ih =>
    cases i with
    | zero =>
      cases h
      rfl
    | succ i =>
      rw [List.take_succ_cons] at h
      obtain ⟨s₁, hq, hqs⟩ := Option.bind_eq_some_iff.mp h
      rw [runQueries, hq]
      · exact ih (Nat.lt_of_succ_lt_succ hi) hqs
      · exact fun h => absurd h (by simp)

/-- There is no statement number `i` that could fail. -/
theorem runQueries_no_fault {qs : List Query} {i : ℕ} (hi : qs.length ≤ i) {s t : σ}
    (h : runAll exec qs s = some t) : runQueries exec (some i) qs s = (true, t) := by
  induction qs generalizing i s with
  | nil =>
    cases h
    cases i <;> rfl
  | cons q qs ih =>
    cases i with
    | zero => exact absurd hi (by simp)
    | succ i =>
      obtain ⟨s₁, hq, hqs⟩ := Option.bind_eq_some_iff.mp h
      rw [runQueries, hq]
      · exact ih (Nat.le_of_succ_le_succ hi) hqs
      · exact fun h => absurd h (by simp)

end

end WebDiff
