import WebDiff.Upgrade.Clock
import WebDiff.Upgrade.Statements

/-!
# Resuming an interrupted upgrade

The statements of a migration commit one by one, and the migration is recorded after the last. A
server start that fails in between leaves a database whose schema is ahead of its recorded version,
and the next start begins with the first statement of the same migration again. Since every
statement checks its own effect, it gets through only if what the interrupted migration did had no
effect on the schema at all (`NoEffect`).

`resumable_iff` makes this exact for whole histories of starts: an upgrade without failures
completes from every state of the history as it would on an empty database if and only if the
updates fit together, no start was interrupted inside a migration that had changed the schema, and
the clock never made an older version look like the last one.
-/

namespace WebDiff

open Guarded Program

/-! ### Where a start is stopped -/

/-- The first `i` statements of migration `v`, executed after the migrations before it, leave the
schema as it was. -/
def NoEffect (us : List MySqlStorageUpdate) (v : ℤ) (i : ℕ) : Prop :=
  (schemaAt us (v - 1).toNat).bind (runAll Query.exec ((queriesOf us v).take i))
    = schemaAt us (v - 1).toNat

/-- The start is stopped in migration `v`, after its first `i` statements. -/
def Stops (us : List MySqlStorageUpdate) (start : Start) (v : ℤ) (i : ℕ) : Prop :=
  start.fault = some (.query v i) ∧ i < (queriesOf us v).length ∨
    start.fault = some (.insertInfo v) ∧ i = (queriesOf us v).length

/-- If the start is stopped in a migration that is not recorded yet, it is so where that migration
has had no effect. -/
def Harmless (us : List MySqlStorageUpdate) (w : UpgradeDb Schema) (start : Start) : Prop :=
  ∀ v i, Stops us start v i → 1 ≤ v → v ≤ us.length → v ∉ w.versions → NoEffect us v i

/-- No version was recorded later than the greatest one. -/
def NoneLater (w : UpgradeDb Schema) : Prop :=
  ∀ r ∈ w.updates.getD [], (∀ r' ∈ w.updates.getD [], r'.version ≤ r.version) →
    ∀ r' ∈ w.updates.getD [], r'.dt ≤ r.dt

/-- A start without a failure completes from `w`, and leaves the schema and the recorded versions an
uninterrupted upgrade of an empty database leaves. -/
def Resumes (us : List MySqlStorageUpdate) (w : UpgradeDb Schema) : Prop :=
  ∀ now : ℤ → ℤ,
    let r := w.start Query.exec ⟨us, none, now⟩
    let whole := (UpgradeDb.new Schema.empty).start Query.exec ⟨us, none, now⟩
    r.1 = some (.ok true) ∧ r.2.rest = whole.2.rest ∧ r.2.versions = whole.2.versions

/-! ### Starts without a failure -/

theorem Records.rows_eq {σ : Type} {w : UpgradeDb σ} {d : ℤ → ℤ} {m : ℕ} (h : Records w d m) :
    w.updates.getD [] = recordedRows d m := by
  rcases h with h | ⟨h, rfl⟩
  · rw [h]
    rfl
  · rw [h]
    rfl

theorem mem_versions {m : ℕ} {v : ℤ} :
    v ∈ (List.range m).map (fun i : ℕ => (i : ℤ) + 1) ↔ 1 ≤ v ∧ v ≤ m := by
  rw [List.mem_map]
  constructor
  · rintro ⟨i, hi, rfl⟩
    have hi := List.mem_range.mp hi
    omega
  · rintro ⟨h1, hv⟩
    exact ⟨(v - 1).toNat, List.mem_range.mpr (by omega), by omega⟩

/-- The greatest version is read back exactly when none was recorded later. -/
theorem Records.noneLater_iff {w : UpgradeDb Schema} {d : ℤ → ℤ} {m : ℕ} (h : Records w d m) :
    NoneLater w ↔ selectVersion (recordedRows d m) = m := by
  unfold NoneLater
  rw [selectVersion_recordedRows_iff, h.rows_eq]
  constructor
  · intro hlater i h1 hi
    have hm : (⟨m, d m⟩ : UpdateRow) ∈ recordedRows d m :=
      mem_recordedRows.mpr ⟨⟨by simp only; omega, le_refl _⟩, rfl⟩
    have hi : (⟨i, d i⟩ : UpdateRow) ∈ recordedRows d m := mem_recordedRows.mpr ⟨⟨h1, hi⟩, rfl⟩
    exact hlater _ hm (fun r' hr' => (mem_recordedRows.mp hr').1.2) _ hi
  · intro hle r hr hgreatest r' hr'
    obtain ⟨⟨h1, hm⟩, hdt⟩ := mem_recordedRows.mp hr
    obtain ⟨⟨h1', hm'⟩, hdt'⟩ := mem_recordedRows.mp hr'
    have hlast := hgreatest ⟨m, d m⟩ (mem_recordedRows.mpr ⟨⟨by simp only; omega, le_refl _⟩, rfl⟩)
    -- a row with the greatest version is the row of version `m`
    have hrm : r.version = m := le_antisymm hm hlast
    rw [hdt, hdt', hrm]
    exact hle _ h1' hm'

/-- **A start without a failure** executes the statements of the migrations that are not recorded,
and completes exactly when MySQL accepts them. -/
theorem start_clean {start : Start} (hfault : start.fault = none) {us : List MySqlStorageUpdate}
    (hupdates : start.updates = us) (hus : Numbered us) {w : UpgradeDb Schema} {d : ℤ → ℤ} {m : ℕ}
    (hw : Records w d m) (hm : m ≤ us.length) (hread : selectVersion (recordedRows d m) = m) :
    match runAll Query.exec (statements us m (us.length - m)) w.rest with
    | some T =>
      (w.start Query.exec start).1 = some (.ok true) ∧
        (w.start Query.exec start).2.rest = T ∧
        (w.start Query.exec start).2.versions
          = (List.range us.length).map fun i : ℕ => (i : ℤ) + 1
    | none => (w.start Query.exec start).1 ≠ some (.ok true) := by
  subst hupdates
  -- behind version `k` the statements of the migrations up to `k` have been executed
  let P : ℕ → Schema → Prop := fun k s =>
    runAll Query.exec (statements start.updates m (k - m)) w.rest = some s
  let E : UpgradeDb Schema → Prop := fun _ =>
    runAll Query.exec (statements start.updates m (start.updates.length - m)) w.rest = none
  have hstep : ∀ u ∈ start.updates, ∀ k : ℕ, u.version = k + 1 → m ≤ k → ∀ s, P k s →
      ApplyEnds Query.exec start (P (k + 1))
        (fun s' => E ⟨some (recordedRows (timesAfter d m start.now) k), s'⟩) u s := by
    intro u hu k hk hmk s hs
    have hkn : k + 1 ≤ start.updates.length := by
      have := (hus.mem_iff.mp ⟨u, hu, rfl⟩).2
      omega
    -- the statements up to `k + 1` are those up to `k` and those of `u`
    have hq : queriesOf start.updates (m + (k - m : ℕ) + 1) = u.queries := by
      rw [← hus.queriesOf_eq hu, hk]
      congr 1
      omega
    have hnext : runAll Query.exec (statements start.updates m (k + 1 - m)) w.rest
        = runAll Query.exec u.queries s := by
      rw [show k + 1 - m = k - m + 1 by omega, statements_succ, runAll_append, hs, hq]
      rfl
    cases hrun : runAll Query.exec u.queries s with
    | some t => exact applyEnds_of_true hfault (runQueries_eq_true hrun) (hnext.trans hrun)
    | none =>
      -- a rejected statement is rejected whatever comes after it
      obtain ⟨t, ht⟩ := runQueries_eq_false hrun
      refine applyEnds_of_false hfault ht ?_
      show runAll Query.exec (statements start.updates m (start.updates.length - m)) w.rest = none
      have hsplit : start.updates.length - m = k + 1 - m + (start.updates.length - (k + 1)) := by
        omega
      rw [hsplit, statements_add, runAll_append, hnext, hrun]
      rfl
  have hstart : P m w.rest := by
    show runAll Query.exec (statements start.updates m (m - m)) w.rest = some w.rest
    rw [Nat.sub_self]
    rfl
  have hend := start_ended (E := E) hstep hus hw hstart hread (by rw [hfault]; simp)
    (fun _ => by rw [hfault]; simp)
  rw [max_eq_right hm] at hend
  generalize w.start Query.exec start = r at hend ⊢
  obtain ⟨_ | (e | b), w'⟩ := r
  · exact hend.elim
  · have hend : runAll Query.exec (statements start.updates m (start.updates.length - m)) w.rest
        = none := hend
    rw [hend]
    simp
  · obtain ⟨rfl, hrows, hrest, -⟩ := hend
    rw [hrest]
    refine ⟨rfl, rfl, ?_⟩
    rw [UpgradeDb.versions, hrows, Option.getD_some, versions_recordedRows]

/-! ### Starts with a failure -/

theorem Start.queryFault_cases (start : Start) (v : ℤ) :
    start.queryFault v = none ∨
      ∃ i, start.queryFault v = some i ∧ start.fault = some (.query v i) := by
  unfold Start.queryFault
  split
  · next v' i hf =>
    by_cases hv : v' = v
    · subst hv
      exact Or.inr ⟨i, if_pos rfl, hf⟩
    · exact Or.inl (if_neg hv)
  · exact Or.inl rfl

theorem Stops.unique {us : List MySqlStorageUpdate} {start : Start} {v v' : ℤ} {i i' : ℕ}
    (h : Stops us start v i) (h' : Stops us start v' i') : v = v' ∧ i = i' := by
  rcases h with ⟨hf, hi⟩ | ⟨hf, hi⟩
  · rcases h' with ⟨hf', hi'⟩ | ⟨hf', hi'⟩
    · rw [hf] at hf'
      cases hf'
      exact ⟨rfl, rfl⟩
    · rw [hf] at hf'
      cases hf'
  · rcases h' with ⟨hf', hi'⟩ | ⟨hf', hi'⟩
    · rw [hf] at hf'
      cases hf'
    · rw [hf] at hf'
      cases hf'
      exact ⟨rfl, hi.trans hi'.symm⟩

/-- Fitting migrations fit up to every version. -/
theorem Fits.schemaAt {us : List MySqlStorageUpdate} (h : Fits us) {k : ℕ} (hk : k ≤ us.length) :
    ∃ S, schemaAt us k = some S := by
  obtain ⟨T, hT⟩ := Option.isSome_iff_exists.mp h
  obtain ⟨c, hc⟩ := Nat.exists_eq_add_of_le hk
  rw [hc, schemaAt_add] at hT
  obtain ⟨S, hS, -⟩ := Option.bind_eq_some_iff.mp hT
  exact ⟨S, hS⟩

/-- Applying and recording one of the fitting migrations. -/
theorem applyEnds_of_schemaAt {us : List MySqlStorageUpdate} (hus : Numbered us) (hfits : Fits us)
    {start : Start} {u : MySqlStorageUpdate} (hu : u ∈ us) {k : ℕ} (hk : u.version = k + 1)
    {s : Schema} (hs : schemaAt us k = some s) {P E : Schema → Prop}
    (hP : ∀ t, schemaAt us (k + 1) = some t → (∀ i, ¬ Stops us start (k + 1) i) → P t)
    (hE : ∀ t i, Stops us start (k + 1) i →
      runAll Query.exec ((queriesOf us (k + 1)).take i) s = some t → E t) :
    ApplyEnds Query.exec start P E u s := by
  have hkn := (hus.mem_iff.mp ⟨u, hu, rfl⟩).2
  have hq : queriesOf us (k + 1) = u.queries := by rw [← hk, hus.queriesOf_eq hu]
  obtain ⟨t, ht⟩ := hfits.schemaAt (k := k + 1) (by omega)
  have hrun : runAll Query.exec u.queries s = some t := by
    rw [schemaAt_succ, hs, hq] at ht
    exact ht
  unfold ApplyEnds
  rw [hk]
  rcases start.queryFault_cases (k + 1) with hnone | ⟨i, hsome, hf⟩
  · -- every statement is executed, and the recording decides
    rw [hnone, runQueries_eq_true hrun]
    show if start.fault = some (.insertInfo (k + 1)) then E t else P t
    by_cases hinsert : start.fault = some (.insertInfo (k + 1))
    · rw [if_pos hinsert]
      exact hE t _ (Or.inr ⟨hinsert, rfl⟩) (by rwa [List.take_length, hq])
    · rw [if_neg hinsert]
      refine hP t ht fun i hi => ?_
      rcases hi with ⟨hf, -⟩ | ⟨hf, -⟩
      · rw [Start.queryFault, hf] at hnone
        simp at hnone
      · exact hinsert hf
  -- the connection is lost in front of statement `i`
  · rw [hsome]
    rcases Nat.lt_or_ge i u.queries.length with hi | hi
    · rw [← List.take_append_drop i u.queries] at hrun
      obtain ⟨t', ht', -⟩ := (runAll_append_eq_some _).mp hrun
      rw [runQueries_fault hi ht']
      exact hE t' i (Or.inl ⟨hf, by rwa [hq]⟩) (by rwa [hq])
    · -- there is no such statement
      rw [runQueries_no_fault hi hrun, hf]
      refine hP t ht fun i' hi' => ?_
      rcases hi' with ⟨hf', hlt⟩ | ⟨hf', -⟩
      · rw [hf] at hf'
        cases hf'
        rw [hq] at hlt
        omega
      · rw [hf] at hf'
        cases hf'

/-- Between two starts: versions `1` to `m` are recorded, and the schema is the one the first `m`
migrations make. -/
def Sound (us : List MySqlStorageUpdate) (w : UpgradeDb Schema) : Prop :=
  ∃ d m, Records w d m ∧ m ≤ us.length ∧ schemaAt us m = some w.rest

/-- The state a stopped start leaves: version `k` is the last one recorded, and the first `i`
statements of the next migration have been executed. -/
def StoppedAt (us : List MySqlStorageUpdate) (w : UpgradeDb Schema) (k i : ℕ) : Prop :=
  (∃ d, Records w d k) ∧
    (schemaAt us k).bind (runAll Query.exec ((queriesOf us (k + 1)).take i)) = some w.rest

/-- **A start from a sound state** leaves it as it is, completes, or is stopped in a migration that
was not recorded before. -/
theorem start_stopped {us : List MySqlStorageUpdate} (hus : Numbered us) (hfits : Fits us)
    {start : Start} (hupdates : start.updates = us) {w : UpgradeDb Schema} {d : ℤ → ℤ} {m : ℕ}
    (hw : Records w d m) (hm : m ≤ us.length) (hschema : schemaAt us m = some w.rest)
    (hread : selectVersion (recordedRows d m) = m) :
    ((w.start Query.exec start).2 = w ∧ ∀ v i, ¬ Stops us start v i) ∨
      (Sound us (w.start Query.exec start).2 ∧
        ∀ v i, Stops us start v i → v ≤ m ∨ us.length < v) ∨
      ∃ k i, m ≤ k ∧ k < us.length ∧ Stops us start (k + 1) i ∧
        StoppedAt us (w.start Query.exec start).2 k i := by
  subst hupdates
  by_cases hrefused : start.fault = some .selectVersion ∨
      w.updates = none ∧ start.fault = some .createUpdates
  · -- `lastDatabaseVersion` fails, and `upgrade` throws before it does anything
    left
    have hlast : (UpgradeDb.step Query.exec start .lastDatabaseVersion w).1 < 0 ∧
        (UpgradeDb.step Query.exec start .lastDatabaseVersion w).2 = w := by
      simp only [UpgradeDb.step]
      rcases hrefused with hf | ⟨hnone, hf⟩
      · rw [if_pos hf]
        exact ⟨Int.negSucc_lt_zero 0, rfl⟩
      · rw [hnone, if_neg (by rw [hf]; simp)]
        simp only [if_pos hf]
        exact ⟨Int.negSucc_lt_zero 1, trivial⟩
    refine ⟨?_, fun v i hstops => ?_⟩
    · rw [UpgradeDb.start, run_upgrade_of_neg _ _ hlast.1]
      exact hlast.2
    · rcases hstops with ⟨hf', -⟩ | ⟨hf', -⟩ <;> rcases hrefused with hf | ⟨-, hf⟩ <;>
        · rw [hf] at hf'
          cases hf'
  · right
    have hselect : start.fault ≠ some .selectVersion := fun h => hrefused (Or.inl h)
    have hcreate : w.updates = none → start.fault ≠ some .createUpdates := fun hnone h =>
      hrefused (Or.inr ⟨hnone, h⟩)
    -- where the start would be stopped up to version `k`, it has not been
    let P : ℕ → Schema → Prop := fun k s => schemaAt start.updates k = some s ∧
      ∀ v i, Stops start.updates start v i → v ≤ m ∨ k < v
    let E : UpgradeDb Schema → Prop := fun w' => ∃ k i, m ≤ k ∧ k < start.updates.length ∧
      Stops start.updates start (k + 1) i ∧ StoppedAt start.updates w' k i
    have hstep : ∀ u ∈ start.updates, ∀ k : ℕ, u.version = k + 1 → m ≤ k → ∀ s, P k s →
        ApplyEnds Query.exec start (P (k + 1))
          (fun s' => E ⟨some (recordedRows (timesAfter d m start.now) k), s'⟩) u s := by
      rintro u hu k hk hmk s ⟨hs, hpassed⟩
      have hkn := (hus.mem_iff.mp ⟨u, hu, rfl⟩).2
      refine applyEnds_of_schemaAt hus hfits hu hk hs (fun t ht hnot => ⟨ht, fun v i hi => ?_⟩)
        fun t i hi ht => ⟨k, i, hmk, by omega, hi, ⟨_, Or.inl rfl⟩, by rw [hs]; exact ht⟩
      have hne : v ≠ k + 1 := fun hv => hnot i (hv ▸ hi)
      have := hpassed v i hi
      omega
    have hend := start_ended (E := E) hstep hus hw ⟨hschema, fun v _ _ => le_or_gt v m⟩ hread
      hselect hcreate
    rw [max_eq_right hm] at hend
    generalize w.start Query.exec start = r at hend ⊢
    obtain ⟨_ | (e | b), w'⟩ := r
    · exact hend.elim
    · exact Or.inr hend
    · obtain ⟨-, hrows, ⟨hs, hpassed⟩, -⟩ := hend
      exact Or.inl ⟨⟨_, _, Or.inl hrows, le_refl _, hs⟩, hpassed⟩

/-- A harmless start keeps the state sound. -/
theorem start_sound {us : List MySqlStorageUpdate} (hus : Numbered us) (hfits : Fits us)
    {start : Start} (hupdates : start.updates = us) {w : UpgradeDb Schema} (hw : Sound us w)
    (hlater : NoneLater w) (hharmless : Harmless us w start) :
    Sound us (w.start Query.exec start).2 := by
  obtain ⟨d, m, hrecords, hm, hschema⟩ := hw
  rcases start_stopped hus hfits hupdates hrecords hm hschema (hrecords.noneLater_iff.mp hlater)
    with ⟨heq, -⟩ | ⟨hsound, -⟩ | ⟨k, i, hmk, hkn, hstops, ⟨d', hd'⟩, hrest⟩
  · rw [heq]
    exact ⟨d, m, hrecords, hm, hschema⟩
  · exact hsound
  · -- the part of migration `k + 1` that was executed had no effect
    have hnew : (k : ℤ) + 1 ∉ w.versions := by
      rw [hrecords.versions_eq, mem_versions]
      omega
    have hno := hharmless _ i hstops (by omega) (by omega) hnew
    unfold NoEffect at hno
    rw [show ((k : ℤ) + 1 - 1).toNat = k by omega, hrest] at hno
    exact ⟨d', k, hd', by omega, hno.symm⟩

theorem sound_new (us : List MySqlStorageUpdate) : Sound us (UpgradeDb.new Schema.empty) :=
  ⟨fun _ => 0, 0, Or.inr ⟨rfl, rfl⟩, Nat.zero_le _, rfl⟩

/-! ### Resuming -/

/-- An uninterrupted upgrade of an empty database. -/
theorem start_new {us : List MySqlStorageUpdate} (hus : Numbered us) (now : ℤ → ℤ) :
    match schemaAt us us.length with
    | some T =>
      ((UpgradeDb.new Schema.empty).start Query.exec ⟨us, none, now⟩).1 = some (.ok true) ∧
        ((UpgradeDb.new Schema.empty).start Query.exec ⟨us, none, now⟩).2.rest = T ∧
        ((UpgradeDb.new Schema.empty).start Query.exec ⟨us, none, now⟩).2.versions
          = (List.range us.length).map fun i : ℕ => (i : ℤ) + 1
    | none =>
      ((UpgradeDb.new Schema.empty).start Query.exec ⟨us, none, now⟩).1 ≠ some (.ok true) :=
  have hnew : Records (UpgradeDb.new Schema.empty) (fun _ => 0) 0 := Or.inr ⟨rfl, rfl⟩
  have hfault : (⟨us, none, now⟩ : Start).fault = none := rfl
  start_clean hfault rfl hus hnew (Nat.zero_le _) rfl

/-- **Resumption.** From a sound state in which no version was recorded later than the greatest one,
an upgrade without a failure completes as it would have without interruptions. -/
theorem resumes_of_sound {us : List MySqlStorageUpdate} (hus : Numbered us) (hfits : Fits us)
    {w : UpgradeDb Schema} (hw : Sound us w) (hlater : NoneLater w) : Resumes us w := by
  obtain ⟨d, m, hrecords, hm, hschema⟩ := hw
  obtain ⟨T, hT⟩ := hfits.schemaAt (le_refl us.length)
  intro now
  have hwhole := start_new hus now
  rw [hT] at hwhole
  have hfault : (⟨us, none, now⟩ : Start).fault = none := rfl
  have hclean := start_clean hfault rfl hus hrecords hm (hrecords.noneLater_iff.mp hlater)
  obtain ⟨c, hc⟩ := Nat.exists_eq_add_of_le hm
  -- what is left to execute leads from the schema of version `m` to the last one
  have hrun : runAll Query.exec (statements us m (us.length - m)) w.rest = some T := by
    rw [hc, schemaAt_add, hschema] at hT
    rw [show us.length - m = c by omega]
    exact hT
  rw [hrun] at hclean
  exact ⟨hclean.1, hclean.2.1.trans hwhole.2.1.symm, hclean.2.2.trans hwhole.2.2.symm⟩

/-- If the empty database can be upgraded at all, the migrations fit together. -/
theorem fits_of_resumes {us : List MySqlStorageUpdate} (hus : Numbered us)
    (h : Resumes us (UpgradeDb.new Schema.empty)) : Fits us := by
  unfold Fits
  have hwhole := start_new hus fun _ => 0
  cases hT : schemaAt us us.length with
  | some T => rfl
  | none =>
    rw [hT] at hwhole
    exact absurd (h fun _ => 0).1 hwhole

/-- A start that reads back version `v` and completes has recorded further versions behind the
others, beginning with `v + 1`. -/
theorem start_appends {us : List MySqlStorageUpdate} {w : UpgradeDb Schema} {rows : List UpdateRow}
    (hrows : w.updates = some rows) (hv : 0 ≤ selectVersion rows) (now : ℤ → ℤ)
    (h : (w.start Query.exec ⟨us, none, now⟩).1 = some (.ok true)) :
    ∃ k new, UpTo us (selectVersion rows) k ∧ (selectVersion rows < k →
        selectVersion rows + 1 ∈ new) ∧
      (w.start Query.exec ⟨us, none, now⟩).2.versions = w.versions ++ new := by
  let v := selectVersion rows
  let I := UpgradeDb.step Query.exec ⟨us, none, now⟩
  -- the rows are only appended to
  let Inv : ℤ → UpgradeDb Schema → Prop := fun n w' => ∃ new, (v < n → v + 1 ∈ new) ∧
    v ≤ n ∧ w'.updates.isSome ∧ w'.versions = w.versions ++ new
  have hadvance : ∀ u ∈ us, ∀ w', Inv (u.version - 1) w' →
      Advances I Inv (fun _ => True) u w' := by
    rintro u - ⟨updates, s⟩ ⟨new, hmem, hle, hsome, hnew⟩
    obtain ⟨rows', rfl⟩ := Option.isSome_iff_exists.mp hsome
    unfold Advances
    rcases hq : runQueries Query.exec none u.queries s with ⟨_ | _, s'⟩
    · simp only [I, UpgradeDb.step, Start.queryFault, hq]
    · simp only [I, UpgradeDb.step, Start.queryFault, hq, reduceCtorEq, if_false]
      refine ⟨new ++ [u.version], fun hlt => ?_, by omega, rfl, ?_⟩
      -- version `v + 1` is the one recorded now, unless it has been recorded before
      · by_cases hvu : v < u.version - 1
        · exact List.mem_append_left _ (hmem hvu)
        · exact List.mem_append_right _ (List.mem_singleton.mpr (by omega))
      · have hnew : rows'.map (·.version) = w.versions ++ new := hnew
        rw [UpgradeDb.versions, Option.getD_some, List.map_append, hnew, List.append_assoc]
        rfl
  have hlast : (I .lastDatabaseVersion w).1 = v ∧ (I .lastDatabaseVersion w).2 = w := by
    simp only [I, UpgradeDb.step, reduceCtorEq, if_false, hrows]
    exact ⟨rfl, trivial⟩
  have hstart : Inv v w :=
    ⟨[], fun hlt => absurd hlt (lt_irrefl v), le_refl v, by rw [hrows]; rfl,
      (List.append_nil _).symm⟩
  have hend := run_upgrade hadvance (Nat.lt_succ_self us.length) (s := w)
    (by rw [hlast.1]; exact hv) (by rw [hlast.1, hlast.2]; exact hstart)
  rw [hlast.1] at hend
  unfold UpgradeDb.start at h ⊢
  generalize run _ (upgrade us _) w = r at hend h ⊢
  obtain ⟨_ | (e | b), w'⟩ := r
  · exact hend.elim
  · cases h
  · obtain ⟨-, k, hk, new, hmem, -, -, hnew⟩ := hend
    exact ⟨k, new, hk, hmem, hnew⟩

/-- An upgrade that reads back an older version records a version twice. -/
theorem noneLater_of_resumes {us : List MySqlStorageUpdate} (hus : Numbered us) (hfits : Fits us)
    {w : UpgradeDb Schema} {d : ℤ → ℤ} {m : ℕ} (hw : Records w d m) (hm : m ≤ us.length)
    (h : Resumes us w) : NoneLater w := by
  by_contra hlater
  have hread : selectVersion (recordedRows d m) ≠ m := fun h => hlater (hw.noneLater_iff.mpr h)
  have hm0 : m ≠ 0 := fun h => hread (by rw [h]; rfl)
  have hrows : w.updates = some (recordedRows d m) :=
    hw.resolve_right fun hzero => hm0 hzero.2
  have hne : recordedRows d m ≠ [] := by
    rw [recordedRows, Ne, List.map_eq_nil_iff, List.range_eq_nil]
    exact hm0
  -- the version read back is recorded, and so is the next one
  obtain ⟨r, hr, hrv, -⟩ := selectVersion_spec hne
  obtain ⟨⟨h1, hrm⟩, -⟩ := mem_recordedRows.mp hr
  obtain ⟨hreturned, -, hversions⟩ := h fun _ => 0
  obtain ⟨k, new, hk, hmem, hnew⟩ := start_appends hrows (by omega) _ hreturned
  obtain ⟨T, hT⟩ := hfits.schemaAt (le_refl us.length)
  have hwhole := start_new hus fun _ => 0
  rw [hT] at hwhole
  -- in an uninterrupted upgrade no version is recorded twice
  have hnodup := nodup_versions us.length
  rw [← hwhole.2.2, ← hversions, hnew] at hnodup
  have hnext : selectVersion (recordedRows d m) + 1 ∈ w.versions := by
    rw [hw.versions_eq, mem_versions]
    omega
  obtain ⟨u, hu, huv⟩ := hus.mem_iff.mpr (show 1 ≤ selectVersion (recordedRows d m) + 1 ∧
    selectVersion (recordedRows d m) + 1 ≤ us.length by omega)
  have hlt : selectVersion (recordedRows d m) < k := by
    refine lt_of_le_of_ne hk.le fun heq => ?_
    exact hk.next u hu (by rw [huv, heq])
  exact List.disjoint_of_nodup_append hnodup hnext (hmem hlt)

/-- **What a stopped start has to leave.** If the next start completes, the statements executed
before the stop had no effect. -/
theorem noEffect_of_resumes {us : List MySqlStorageUpdate} (hus : Numbered us) (hfits : Fits us)
    {w : UpgradeDb Schema} {k i : ℕ} (hk : k < us.length) (hw : StoppedAt us w k i)
    (h : Resumes us w) : NoEffect us (k + 1) i := by
  obtain ⟨⟨d, hrecords⟩, hrest⟩ := hw
  obtain ⟨S, hS⟩ := hfits.schemaAt (le_of_lt hk)
  rw [hS] at hrest
  have hlater := noneLater_of_resumes hus hfits hrecords (le_of_lt hk) h
  have hfault : (⟨us, none, fun _ => 0⟩ : Start).fault = none := rfl
  have hclean := start_clean hfault rfl hus hrecords (le_of_lt hk)
    (hrecords.noneLater_iff.mp hlater)
  -- both the interrupted migration and its repetition are accepted
  have hqueries : statements us k 1 = queriesOf us (k + 1) := by
    rw [statements_succ]
    simp [statements]
  have hagain : ∃ T, runAll Query.exec (queriesOf us (k + 1)) w.rest = some T := by
    cases hrun : runAll Query.exec (statements us k (us.length - k)) w.rest with
    | none =>
      rw [hrun] at hclean
      exact absurd (h fun _ => 0).1 hclean
    | some T =>
      rw [show us.length - k = 1 + (us.length - (k + 1)) by omega, statements_add, hqueries] at hrun
      obtain ⟨T', hT', -⟩ := (runAll_append_eq_some _).mp hrun
      exact ⟨T', hT'⟩
  obtain ⟨T, hT⟩ := hagain
  obtain ⟨S', hS'⟩ := hfits.schemaAt (k := k + 1) (by omega)
  rw [schemaAt_succ, hS] at hS'
  have hS' : runAll Query.exec (queriesOf us (k + 1)) S = some S' := hS'
  rw [← List.take_append_drop i (queriesOf us (k + 1))] at hS' hT
  -- statements with an effect are rejected when they are repeated
  have heq : w.rest = S := checked_query.restart_eq hS' hrest hT
  unfold NoEffect
  rw [show ((k : ℤ) + 1 - 1).toNat = k by omega, hS]
  exact hrest.trans (congrArg some heq)

/-- A start behind which the upgrade completes was harmless. -/
theorem harmless_of_resumes {us : List MySqlStorageUpdate} (hus : Numbered us) (hfits : Fits us)
    {start : Start} (hupdates : start.updates = us) {w : UpgradeDb Schema} (hw : Sound us w)
    (hlater : NoneLater w) (h : Resumes us (w.start Query.exec start).2) :
    Harmless us w start := by
  obtain ⟨d, m, hrecords, hm, hschema⟩ := hw
  intro v i hstops h1 hvn hnew
  rw [hrecords.versions_eq, mem_versions] at hnew
  rcases start_stopped hus hfits hupdates hrecords hm hschema (hrecords.noneLater_iff.mp hlater)
    with ⟨-, hnot⟩ | ⟨-, hpassed⟩ | ⟨k, i', hmk, hkn, hstops', hstopped⟩
  · exact absurd hstops (hnot v i)
  · -- a start that was not stopped has passed every migration that was not recorded
    have := hpassed v i hstops
    omega
  · obtain ⟨rfl, rfl⟩ := hstops.unique hstops'
    exact noEffect_of_resumes hus hfits hkn hstopped h

/-- **Resumable upgrades.** After every part of a history of starts an upgrade without a failure
completes as it would have on an empty database exactly when the migrations fit together, no version
was ever recorded later than the greatest one, and every start was stopped, if at all, where the
interrupted migration had had no effect on the schema. -/
theorem resumable_iff {us : List MySqlStorageUpdate} (hus : Numbered us) {history : List Start}
    (hhistory : ∀ start ∈ history, start.updates = us) :
    (∀ before, before <+: history →
        Resumes us ((UpgradeDb.new Schema.empty).starts Query.exec before)) ↔
      Fits us ∧
        (∀ before, before <+: history →
          NoneLater ((UpgradeDb.new Schema.empty).starts Query.exec before)) ∧
        ∀ before start, before ++ [start] <+: history →
          Harmless us ((UpgradeDb.new Schema.empty).starts Query.exec before) start := by
  let w : List Start → UpgradeDb Schema := (UpgradeDb.new Schema.empty).starts Query.exec
  have hmem : ∀ before start, before ++ [start] <+: history → start.updates = us :=
    fun before start hpre => hhistory start
      (hpre.subset (List.mem_append_right _ (List.mem_singleton.mpr rfl)))
  constructor
  · intro h
    have hfits : Fits us := fits_of_resumes hus (h [] (List.nil_prefix))
    -- along the history the states stay sound, since every one of them can be resumed from
    have hall : ∀ before, before <+: history → Sound us (w before) ∧ NoneLater (w before) ∧
        ∀ earlier start, earlier ++ [start] <+: before → Harmless us (w earlier) start := by
      intro before
      induction before using List.reverseRecOn with
      | nil =>
        refine fun _ => ⟨sound_new us, ?_, fun earlier start hpre => ?_⟩
        · exact fun r hr => absurd hr List.not_mem_nil
        · simp at hpre
      | append_singleton before start ih =>
        intro hpre
        obtain ⟨hsound, hlater, hearlier⟩ := ih ((List.prefix_append _ _).trans hpre)
        have hupdates := hmem before start hpre
        have hresumes := h _ hpre
        rw [UpgradeDb.starts_append] at hresumes
        have hharmless := harmless_of_resumes hus hfits hupdates hsound hlater hresumes
        have hsound' := start_sound hus hfits hupdates hsound hlater hharmless
        rw [← UpgradeDb.starts_append] at hsound'
        obtain ⟨d, m, hrecords, hm, -⟩ := id hsound'
        refine ⟨hsound', noneLater_of_resumes hus hfits hrecords hm (h _ hpre), ?_⟩
        intro earlier start' hpre'
        -- the last start, or one before it
        rcases List.prefix_concat_iff.mp hpre' with heq | hpre'
        · obtain ⟨rfl, rfl⟩ := List.append_singleton_inj.mp heq
          exact hharmless
        · exact hearlier earlier start' hpre'
    exact ⟨hfits, fun before hpre => (hall before hpre).2.1,
      fun before start hpre => (hall _ hpre).2.2 before start (List.prefix_refl _)⟩
  · rintro ⟨hfits, hlater, hharmless⟩
    have hsound : ∀ before, before <+: history → Sound us (w before) := by
      intro before
      induction before using List.reverseRecOn with
      | nil => exact fun _ => sound_new us
      | append_singleton before start ih =>
        intro hpre
        have hbefore := (List.prefix_append _ _).trans hpre
        show Sound us ((UpgradeDb.new Schema.empty).starts Query.exec (before ++ [start]))
        rw [UpgradeDb.starts_append]
        exact start_sound hus hfits (hmem before start hpre) (ih hbefore)
          (hlater before hbefore) (hharmless before start hpre)
    exact fun before hpre =>
      resumes_of_sound hus hfits (hsound before hpre) (hlater before hpre)

/-- The shipped updates, started again after a start without a failure. -/
theorem resumable_iff_shipped :
    (∀ before, before <+: [(⟨databaseUpdates, none, fun _ => 0⟩ : Start)] →
        Resumes databaseUpdates ((UpgradeDb.new Schema.empty).starts Query.exec before)) ↔
      Fits databaseUpdates ∧
        (∀ before, before <+: [(⟨databaseUpdates, none, fun _ => 0⟩ : Start)] →
          NoneLater ((UpgradeDb.new Schema.empty).starts Query.exec before)) ∧
        ∀ before start, before ++ [start] <+: [(⟨databaseUpdates, none, fun _ => 0⟩ : Start)] →
          Harmless databaseUpdates ((UpgradeDb.new Schema.empty).starts Query.exec before) start :=
  resumable_iff numbered_databaseUpdates fun start hstart => by
    rw [List.mem_singleton.mp hstart]

/-- The shipped updates fit together, but the first start loses its connection after `CREATE TABLE`
of `webdiff_users`, and the next one throws at that statement. -/
theorem lostConnection_not_resumes :
    Fits databaseUpdates ∧
      let w := (UpgradeDb.new Schema.empty).starts Query.exec
        [⟨databaseUpdates, some (.query 1 1), fun _ => 0⟩]
      (w.start Query.exec ⟨databaseUpdates, none, fun _ => 0⟩).1
          = some (.error (lit "Could not apply update 0")) ∧
        ¬ Resumes databaseUpdates w := by
  have hthrows : (((UpgradeDb.new Schema.empty).starts Query.exec
      [⟨databaseUpdates, some (.query 1 1), fun _ => 0⟩]).start Query.exec
        ⟨databaseUpdates, none, fun _ => 0⟩).1
          = some (.error (lit "Could not apply update 0")) := by
    decide +kernel
  refine ⟨?_, hthrows, fun h => ?_⟩
  · show (schemaAt databaseUpdates 9).isSome = true
    decide +kernel
  · have hreturned := (h fun _ => 0).1
    rw [hthrows] at hreturned
    cases hreturned

end WebDiff
