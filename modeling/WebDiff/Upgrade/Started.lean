import WebDiff.Model.DiffStatements
import WebDiff.Upgrade.Resume

/-!
# The schema of a server that has started

The server serves requests only after `upgrade` has returned `true`. Its history before that may be
anything: starts that were interrupted, starts of older programs that know fewer updates, a clock that
makes `lastDatabaseVersion` read back an older version. What protects the schema is that a migration
that has begun is rejected at its first statement when it is begun again (`RejectsRepeats`): such a
start changes nothing (`start_unchanged`), so at every moment the schema is the one of the recorded
migrations and the first statements of the next one (`Underway`). A start that completes has found no
such statements, and what it leaves has everything the server asks for (`started_schema`).
-/

namespace WebDiff

open Guarded Program

/-! ### What the server asks of the schema -/

/-- The statements of a server that has started. -/
inductive Statement
  /-- a statement that writes, or the `COUNT` -/
  | sql (s : Sql)
  /-- a `SELECT` of `getDiff` -/
  | diff (q : DiffQuery)
  | getApiVersionsAll
  | getGroupsAll
  | getGroups (versionId : ℤ)
  | getFiles (versionId groupId parentId : ℤ)
  | getDefineFilesCache
  | loadFilesIds

/-- A table and columns of it. -/
def tableColumns (table : String) (columns : List String) : List Item :=
  .table table :: columns.map (Item.column table)

/-- The tables and the columns that a statement names. -/
def Statement.names : Statement → List Item
  | .sql (.insertVersion _) => tableColumns "webdiff_versions" ["name", "comment"]
  | .sql (.insertGroup _) => tableColumns "webdiff_file_groups" ["name"]
  | .sql (.insertDefineFile _ _ _) =>
    tableColumns "webdiff_define_files" ["filepath", "filename", "parent_id"]
  | .sql (.insertFile _ _ _ _) =>
    tableColumns "webdiff_files" ["version_id", "file_group_id", "define_file_id", "parent_id"]
  | .sql (.selectCount _) => tableColumns "webdiff_files" ["id", "parent_id"]
  | .sql (.updateAmountOfChildren _ _) => tableColumns "webdiff_files" ["amount_of_children", "id"]
  | .sql (.insertComment _ _ _) =>
    tableColumns "webdiff_define_files_comments" ["define_file_id", "comment", "dt_created"]
  | .sql (.updateHided _) => tableColumns "webdiff_define_files_comments" ["hided", "id"]
  | .diff (.diffFiles _ _) =>
    tableColumns "webdiff_files"
        ["id", "parent_id", "file_group_id", "amount_of_children", "define_file_id", "version_id"] ++
      tableColumns "webdiff_define_files" ["id", "filepath", "filename"] ++
      tableColumns "webdiff_file_groups" ["id", "name"]
  | .diff (.file _) =>
    tableColumns "webdiff_files" ["id", "parent_id", "amount_of_children", "define_file_id"] ++
      tableColumns "webdiff_define_files" ["id", "filepath", "filename"]
  | .diff (.comments _) =>
    tableColumns "webdiff_define_files_comments"
      ["id", "define_file_id", "comment", "hided", "dt_created"]
  | .getApiVersionsAll => tableColumns "webdiff_versions" ["id", "name"]
  | .getGroupsAll => tableColumns "webdiff_file_groups" ["id", "name"]
  | .getGroups _ =>
    tableColumns "webdiff_files" ["version_id", "file_group_id"] ++
      tableColumns "webdiff_file_groups" ["id", "name"]
  | .getFiles _ _ _ =>
    tableColumns "webdiff_files"
        ["version_id", "file_group_id", "id", "amount_of_children", "define_file_id", "parent_id"] ++
      tableColumns "webdiff_define_files" ["id", "filename"]
  | .getDefineFilesCache => tableColumns "webdiff_define_files" ["id", "filepath"]
  | .loadFilesIds =>
    tableColumns "webdiff_files" ["id", "version_id", "define_file_id", "file_group_id"]

/-- Every statement finds the tables and the columns it names. -/
def Schema.Serves (S : Schema) : Prop :=
  ∀ q : Statement, ∀ x ∈ q.names, x ∈ S.items

/-! ### What a history leaves -/

/-- A program knows the first of the updates, in any order. -/
def Knows (us updates : List MySqlStorageUpdate) : Prop :=
  Numbered updates ∧ updates ⊆ us

/-- The first `m` migrations are recorded and executed, and of the next one the first `i`
statements. -/
structure Underway (us : List MySqlStorageUpdate) (w : UpgradeDb Schema) (m i : ℕ) : Prop where
  le : m ≤ us.length
  begun : i ≤ (queriesOf us (m + 1)).length
  stopped : StoppedAt us w m i

/-- A migration that has begun is rejected when it is begun again. -/
def RejectsRepeats (us : List MySqlStorageUpdate) : Prop :=
  ∀ m ≤ us.length, ∀ i ≤ (queriesOf us (m + 1)).length,
    ∀ s ∈ (schemaAt us m).bind (runAll Query.exec ((queriesOf us (m + 1)).take i)),
      ∀ v < us.length, v < m ∨ v = m ∧ 0 < i →
        ∃ q ∈ (queriesOf us (v + 1)).head?, q.exec s = none

instance (us : List MySqlStorageUpdate) : Decidable (RejectsRepeats us) :=
  inferInstanceAs (Decidable (∀ m ≤ us.length, ∀ i ≤ (queriesOf us (m + 1)).length,
    ∀ s ∈ (schemaAt us m).bind (runAll Query.exec ((queriesOf us (m + 1)).take i)),
      ∀ v < us.length, v < m ∨ v = m ∧ 0 < i →
        ∃ q ∈ (queriesOf us (v + 1)).head?, q.exec s = none))

/-- **The shipped updates reject repetitions.** -/
theorem rejectsRepeats_databaseUpdates : RejectsRepeats databaseUpdates := by
  decide +kernel

theorem fits_databaseUpdates : Fits databaseUpdates := by
  show (schemaAt databaseUpdates 9).isSome = true
  decide +kernel

/-- The tables and columns that the statements name. -/
def servedItems : List Item :=
  tableColumns "webdiff_versions" ["id", "name", "comment"] ++
    tableColumns "webdiff_file_groups" ["id", "name"] ++
    tableColumns "webdiff_define_files" ["id", "filepath", "filename", "parent_id"] ++
    tableColumns "webdiff_files"
      ["id", "version_id", "file_group_id", "define_file_id", "parent_id", "amount_of_children"] ++
    tableColumns "webdiff_define_files_comments"
      ["id", "define_file_id", "comment", "dt_created", "hided"]

theorem Statement.names_subset (q : Statement) : q.names ⊆ servedItems := by
  cases q with
  | sql s =>
    cases s <;>
      · simp only [Statement.names]
        decide
  | diff q =>
    cases q <;>
      · simp only [Statement.names]
        decide
  | _ =>
    simp only [Statement.names]
    decide

/-- The schema the shipped updates make serves the server. -/
theorem serves_schemaAt {S : Schema} (h : schemaAt databaseUpdates 9 = some S) : S.Serves := by
  have hmem : ∀ T ∈ schemaAt databaseUpdates 9, ∀ x ∈ servedItems, x ∈ T.items := by
    decide +kernel
  intro q x hx
  exact hmem S h x (q.names_subset hx)

/-! ### One start -/

section

variable {σ : Type} {exec : Query → σ → Option σ} {start : Start} {w : UpgradeDb σ} {d : ℤ → ℤ}
  {m : ℕ}

/-- A version that is read back is one of the recorded ones, or `0`. -/
theorem selectVersion_recordedRows_le (d : ℤ → ℤ) (m : ℕ) :
    ∃ v : ℕ, selectVersion (recordedRows d m) = v ∧ v ≤ m := by
  rcases Nat.eq_zero_or_pos m with rfl | hm
  · exact ⟨0, rfl, le_refl 0⟩
  · have hne : recordedRows d m ≠ [] := by
      rw [recordedRows, Ne, List.map_eq_nil_iff, List.range_eq_nil]
      omega
    obtain ⟨r, hr, hrv, -⟩ := selectVersion_spec hne
    obtain ⟨⟨h1, hrm⟩, -⟩ := mem_recordedRows.mp hr
    exact ⟨r.version.toNat, by omega, by omega⟩

/-- What `lastDatabaseVersion` returns and leaves. -/
theorem Records.lastDatabaseVersion (hw : Records w d m) (exec : Query → σ → Option σ)
    (start : Start) :
    let r := UpgradeDb.step exec start .lastDatabaseVersion w
    Records r.2 d m ∧ r.2.rest = w.rest ∧
      (r.1 < 0 ∨ r.1 = selectVersion (recordedRows d m) ∧ start.fault ≠ some .selectVersion ∧
        (w.updates = none → start.fault ≠ some .createUpdates)) := by
  intro r
  simp only [r, UpgradeDb.step]
  by_cases hselect : start.fault = some .selectVersion
  · rw [if_pos hselect]
    exact ⟨hw, rfl, Or.inl (Int.negSucc_lt_zero 0)⟩
  · rw [if_neg hselect]
    rcases hw with hrows | ⟨hnone, rfl⟩
    · rw [hrows]
      exact ⟨Or.inl hrows, rfl, Or.inr ⟨rfl, hselect, fun h => absurd h (Option.some_ne_none _)⟩⟩
    · rw [hnone]
      by_cases hcreate : start.fault = some .createUpdates
      · simp only [if_pos hcreate]
        exact ⟨Or.inr ⟨hnone, rfl⟩, trivial, Or.inl (Int.negSucc_lt_zero 1)⟩
      · simp only [if_neg hcreate]
        exact ⟨Or.inl rfl, trivial, Or.inr ⟨rfl, hselect, fun _ => hcreate⟩⟩

/-- `upgrade` throws behind a `lastDatabaseVersion` that failed. -/
theorem start_of_neg (h : (UpgradeDb.step exec start .lastDatabaseVersion w).1 < 0) :
    (w.start exec start).1 ≠ some (.ok true) ∧
      (w.start exec start).2 = (UpgradeDb.step exec start .lastDatabaseVersion w).2 := by
  unfold UpgradeDb.start
  rw [run_upgrade_of_neg _ _ h]
  exact ⟨by simp, rfl⟩

/-- Nothing is executed of a list whose first statement is rejected. -/
theorem runQueries_rejected {fault : Option ℕ} {q : Query} {qs : List Query} {s : σ}
    (h : exec q s = none) : runQueries exec fault (q :: qs) s = (false, s) := by
  cases fault with
  | none => simp only [runQueries, h]
  | some i =>
    cases i with
    | zero => rfl
    | succ i => simp only [runQueries, h]

/-- **A start whose first migration is rejected** changes nothing. -/
theorem start_unchanged (hw : Records w d m)
    (hreject : ∀ u ∈ start.updates, u.version = selectVersion (recordedRows d m) + 1 →
      ∃ q ∈ u.queries.head?, exec q w.rest = none) :
    Records (w.start exec start).2 d m ∧ (w.start exec start).2.rest = w.rest ∧
      ((w.start exec start).1 = some (.ok true) →
        ∀ u ∈ start.updates, u.version ≠ selectVersion (recordedRows d m) + 1) := by
  let I := UpgradeDb.step exec start
  have hlast : Records (I .lastDatabaseVersion w).2 d m ∧ _ := hw.lastDatabaseVersion exec start
  obtain ⟨hrecords, hrest, hneg | ⟨hread, -⟩⟩ := hlast
  · obtain ⟨hne, heq⟩ := start_of_neg hneg
    rw [heq]
    exact ⟨hrecords, hrest, fun h => absurd h hne⟩
  · obtain ⟨v, hv, -⟩ := selectVersion_recordedRows_le d m
    let Inv : ℤ → UpgradeDb σ → Prop := fun n w' => n = v ∧ w' = (I .lastDatabaseVersion w).2
    have hadvance : ∀ u ∈ start.updates, ∀ w', Inv (u.version - 1) w' →
        Advances I Inv (fun w' => w' = (I .lastDatabaseVersion w).2) u w' := by
      intro u hu w' hInv
      obtain ⟨hn, rfl⟩ := hInv
      obtain ⟨q, hq, hnone⟩ := hreject u hu (by rw [hv]; omega)
      obtain ⟨qs, hqs⟩ := List.head?_eq_some_iff.mp hq
      have happly : I (.apply u) (I .lastDatabaseVersion w).2
          = (false, (I .lastDatabaseVersion w).2) := by
        show (_, _) = _
        rw [hqs, runQueries_rejected (hrest ▸ hnone)]
      unfold Advances
      rw [happly]
    have hrun := run_upgrade hadvance (Nat.lt_succ_self start.updates.length) (s := w)
      (by show 0 ≤ (I .lastDatabaseVersion w).1; rw [hread, hv]; exact Int.natCast_nonneg v)
      (show Inv (I .lastDatabaseVersion w).1 _ from ⟨hread.trans hv, rfl⟩)
    unfold UpgradeDb.start
    generalize run I (upgrade start.updates (start.updates.length + 1)) w = r at hrun ⊢
    obtain ⟨_ | (e | b), w'⟩ := r
    · exact hrun.elim
    · have heq : w' = (I .lastDatabaseVersion w).2 := hrun
      rw [heq]
      exact ⟨hrecords, hrest, fun h => by cases h⟩
    · obtain ⟨-, k, hk, rfl, rfl⟩ := hrun
      refine ⟨hrecords, hrest, fun _ u hu => ?_⟩
      rw [hv]
      exact hk.next u hu

end

/-! ### Histories of starts -/

section

variable {us : List MySqlStorageUpdate} {start : Start} {w : UpgradeDb Schema} {m i : ℕ}

theorem Knows.length_le (hus : Numbered us) {updates : List MySqlStorageUpdate}
    (h : Knows us updates) : updates.length ≤ us.length := by
  rcases Nat.eq_zero_or_pos updates.length with hzero | hpos
  · omega
  · have hlast : (1 : ℤ) ≤ updates.length ∧ (updates.length : ℤ) ≤ updates.length := by omega
    obtain ⟨u, hu, hv⟩ := h.1.mem_iff.mpr hlast
    have hle := (hus.mem_iff.mp ⟨u, h.2 hu, rfl⟩).2
    omega

/-- The number of the statements that have been executed of a migration that does not exist. -/
theorem Underway.eq_zero (hus : Numbered us) (h : Underway us w us.length i) : i = 0 := by
  have hnone : us.find? (fun u => u.version = (us.length : ℤ) + 1) = none := by
    apply List.find?_eq_none.mpr
    intro u hu
    have hle := (hus.mem_iff.mp ⟨u, hu, rfl⟩).2
    simp only [decide_eq_true_eq]
    omega
  have hbegun := h.begun
  unfold queriesOf at hbegun
  rw [hnone] at hbegun
  exact Nat.le_zero.mp hbegun

/-- What a start leaves when the next migration has not begun. -/
theorem start_underway_zero (hus : Numbered us) (hfits : Fits us) (hknows : Knows us start.updates)
    {d : ℤ → ℤ} (hw : Records w d m) (hm : m ≤ us.length) (hschema : schemaAt us m = some w.rest)
    (hread : selectVersion (recordedRows d m) = m) :
    ∃ m' i', m ≤ m' ∧ Underway us (w.start Query.exec start).2 m' i' ∧
      ((w.start Query.exec start).1 = some (.ok true) → start.updates.length ≤ m') := by
  obtain ⟨hrecords, hrest, hneg | ⟨-, hselect, hcreate⟩⟩ :=
    hw.lastDatabaseVersion Query.exec start
  · obtain ⟨hne, heq⟩ := start_of_neg hneg
    rw [heq]
    refine ⟨m, 0, le_refl m, ⟨hm, Nat.zero_le _, ⟨d, hrecords⟩, ?_⟩, fun h => absurd h hne⟩
    rw [hrest, hschema]
    rfl
  · let E : UpgradeDb Schema → Prop := fun w' => ∃ k i, m ≤ k ∧ Underway us w' k i
    have hstep : ∀ u ∈ start.updates, ∀ k : ℕ, u.version = k + 1 → m ≤ k → ∀ s,
        schemaAt us k = some s → ApplyEnds Query.exec start (fun t => schemaAt us (k + 1) = some t)
          (fun t => E ⟨some (recordedRows (timesAfter d m start.now) k), t⟩) u s := by
      intro u hu k hk hmk s hs
      have hkn := (hus.mem_iff.mp ⟨u, hknows.2 hu, rfl⟩).2
      refine applyEnds_of_schemaAt hus hfits (hknows.2 hu) hk hs (fun t ht _ => ht) ?_
      intro t i hi ht
      refine ⟨k, i, hmk, by omega, ?_, ⟨_, Or.inl rfl⟩, by rw [hs]; exact ht⟩
      rcases hi with ⟨-, hlt⟩ | ⟨-, heq⟩
      · exact le_of_lt hlt
      · exact le_of_eq heq
    have hend := start_ended hstep hknows.1 hw hschema hread hselect hcreate
    have hlength := hknows.length_le hus
    generalize w.start Query.exec start = r at hend ⊢
    obtain ⟨_ | (e | b), w'⟩ := r
    · exact hend.elim
    · obtain ⟨k, i, hmk, hk⟩ := hend
      exact ⟨k, i, hmk, hk, fun h => by cases h⟩
    · obtain ⟨-, hrows, hs, -⟩ := hend
      refine ⟨max m start.updates.length, 0, le_max_left _ _,
        ⟨max_le hm hlength, Nat.zero_le _, ⟨_, Or.inl hrows⟩, ?_⟩, fun _ => le_max_right _ _⟩
      rw [hs]
      rfl

/-- **One start.** Whatever fails and whatever the clock shows, a start either goes on where the
earlier ones have come to, or changes nothing. -/
theorem start_underway (hus : Numbered us) (hfits : Fits us) (hrejects : RejectsRepeats us)
    (hknows : Knows us start.updates) (hw : Underway us w m i) :
    ∃ m' i', m ≤ m' ∧ Underway us (w.start Query.exec start).2 m' i' ∧
      ((w.start Query.exec start).1 = some (.ok true) → start.updates.length = us.length →
        m' = us.length) := by
  obtain ⟨hm, hi, ⟨d, hrecords⟩, hrest⟩ := hw
  obtain ⟨v, hv, hvm⟩ := selectVersion_recordedRows_le d m
  by_cases hfresh : v = m ∧ i = 0
  · obtain ⟨rfl, rfl⟩ := hfresh
    have hschema : schemaAt us v = some w.rest := by
      cases hs : schemaAt us v with
      | none =>
        rw [hs] at hrest
        cases hrest
      | some s =>
        rw [hs] at hrest
        exact hrest
    obtain ⟨m', i', hle, hunderway, hok⟩ :=
      start_underway_zero hus hfits hknows hrecords hm hschema hv
    refine ⟨m', i', hle, hunderway, fun h hlength => ?_⟩
    have := hunderway.le
    have := hok h
    omega
  · -- the migration behind the version that is read back has begun
    have hbegun : v < m ∨ v = m ∧ 0 < i := by omega
    have hreject : ∀ u ∈ start.updates, u.version = selectVersion (recordedRows d m) + 1 →
        ∃ q ∈ u.queries.head?, q.exec w.rest = none := by
      intro u hu hversion
      rw [hv] at hversion
      have hle := (hus.mem_iff.mp ⟨u, hknows.2 hu, rfl⟩).2
      have hq := hrejects m hm i hi w.rest hrest v (by omega) hbegun
      rwa [← hversion, hus.queriesOf_eq (hknows.2 hu)] at hq
    obtain ⟨hrecords', hrest', hok⟩ := start_unchanged hrecords hreject
    refine ⟨m, i, le_refl m, ⟨hm, hi, ⟨d, hrecords'⟩, by rw [hrest']; exact hrest⟩, ?_⟩
    intro h hlength
    -- only the last version has none behind it
    by_contra hlt
    have hnext : (1 : ℤ) ≤ v + 1 ∧ (v : ℤ) + 1 ≤ start.updates.length := by omega
    obtain ⟨u, hu, huv⟩ := hknows.1.mem_iff.mpr hnext
    exact hok h u hu (by rw [hv]; exact huv)

/-- **Histories.** No start undoes what the earlier ones have done. -/
theorem starts_underway (hus : Numbered us) (hfits : Fits us) (hrejects : RejectsRepeats us)
    {history : List Start} (hknows : ∀ start ∈ history, Knows us start.updates)
    (hw : Underway us w m i) :
    ∃ m' i', m ≤ m' ∧ Underway us (w.starts Query.exec history) m' i' := by
  induction history using List.reverseRecOn with
  | nil => exact ⟨m, i, le_refl m, hw⟩
  | append_singleton history start ih =>
    obtain ⟨m₁, i₁, hle₁, h₁⟩ := ih fun s hs => hknows s (List.mem_append_left _ hs)
    have hstart := hknows start (List.mem_append_right _ List.mem_cons_self)
    obtain ⟨m₂, i₂, hle₂, h₂, -⟩ := start_underway hus hfits hrejects hstart h₁
    rw [UpgradeDb.starts_append]
    exact ⟨m₂, i₂, le_trans hle₁ hle₂, h₂⟩

theorem underway_new (us : List MySqlStorageUpdate) :
    Underway us (UpgradeDb.new Schema.empty) 0 0 :=
  ⟨Nat.zero_le _, Nat.zero_le _, ⟨fun _ => 0, Or.inr ⟨rfl, rfl⟩⟩, rfl⟩

end

/-- **A server that has started finds its schema.** Whatever starts of this program and of older ones
came before, wherever they failed and whatever the clock showed: once a start has completed, every
table and column that a statement of the server names is there, each migration is recorded once and in
order, and the schema is the one of an uninterrupted upgrade. It stays so whatever starts follow. -/
theorem started_schema {history later : List Start} {start : Start}
    (hknows : ∀ s ∈ history ++ later, Knows databaseUpdates s.updates)
    (hupdates : start.updates = databaseUpdates)
    (hok : (((UpgradeDb.new Schema.empty).starts Query.exec history).start Query.exec start).1
      = some (.ok true)) :
    let w := (((UpgradeDb.new Schema.empty).starts Query.exec history).start Query.exec
      start).2.starts Query.exec later
    w.rest.Serves ∧ w.versions = [1, 2, 3, 4, 5, 6, 7, 8, 9] ∧
      schemaAt databaseUpdates 9 = some w.rest := by
  intro w
  have hus := numbered_databaseUpdates
  have hfits := fits_databaseUpdates
  have hrejects := rejectsRepeats_databaseUpdates
  obtain ⟨m₁, i₁, -, h₁⟩ := starts_underway hus hfits hrejects
    (fun s hs => hknows s (List.mem_append_left _ hs)) (underway_new databaseUpdates)
  have hstart : Knows databaseUpdates start.updates := by
    rw [hupdates]
    exact ⟨hus, List.Subset.refl _⟩
  obtain ⟨m₂, i₂, -, h₂, hdone⟩ := start_underway hus hfits hrejects hstart h₁
  obtain rfl : m₂ = databaseUpdates.length := hdone hok (by rw [hupdates])
  obtain ⟨m₃, i₃, hle₃, h₃⟩ := starts_underway hus hfits hrejects
    (fun s hs => hknows s (List.mem_append_right _ hs)) h₂
  obtain rfl : m₃ = databaseUpdates.length := le_antisymm h₃.le hle₃
  obtain rfl := h₃.eq_zero hus
  obtain ⟨-, -, ⟨d, hrecords⟩, hrest⟩ := h₃
  obtain ⟨S, hS⟩ := hfits.schemaAt (le_refl _)
  have hschema : schemaAt databaseUpdates 9 = some w.rest := by
    rw [hS] at hrest
    exact hS.trans hrest
  exact ⟨serves_schemaAt hschema, hrecords.versions_eq, hschema⟩

/-- An older program, a start that loses its connection, the one that completes, and then the older
program again and one under a clock that was set back. -/
theorem started_schema_older :
    let history : List Start := [⟨databaseUpdates.take 8, none, fun v => v⟩,
      ⟨databaseUpdates, some .selectVersion, fun v => v⟩]
    let later : List Start := [⟨databaseUpdates.take 8, none, fun v => v⟩,
      ⟨databaseUpdates, none, fun v => -v⟩]
    let w := (((UpgradeDb.new Schema.empty).starts Query.exec history).start Query.exec
      ⟨databaseUpdates, none, fun v => v⟩).2.starts Query.exec later
    w.rest.Serves ∧ w.versions = [1, 2, 3, 4, 5, 6, 7, 8, 9] ∧
      schemaAt databaseUpdates 9 = some w.rest := by
  have hall : Knows databaseUpdates databaseUpdates :=
    ⟨numbered_databaseUpdates, List.Subset.refl _⟩
  have hfirst : Knows databaseUpdates (databaseUpdates.take 8) :=
    ⟨numbered_firstUpdates, List.take_subset _ _⟩
  have hok : (((UpgradeDb.new Schema.empty).starts Query.exec
      [⟨databaseUpdates.take 8, none, fun v => v⟩,
        ⟨databaseUpdates, some .selectVersion, fun v => v⟩]).start Query.exec
          ⟨databaseUpdates, none, fun v => v⟩).1 = some (.ok true) := by
    decide +kernel
  refine started_schema ?_ rfl hok
  intro s hs
  simp only [List.cons_append, List.nil_append, List.mem_cons, List.not_mem_nil, or_false] at hs
  rcases hs with rfl | rfl | rfl | rfl
  · exact hfirst
  · exact hall
  · exact hfirst
  · exact hall

end WebDiff
