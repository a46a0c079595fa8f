import WebDiff.Upgrade.Loop

/-!
# Recorded versions

What an upgrade leaves in `webdiff_db_updates`, and what the next one reads from it. A list of
updates is numbered when its versions are `1` to its length, in any order; an upgrade of such a list
then ends at the last version (`UpTo.eq_max`). The version an upgrade starts from is the one of the
row with the latest time, so it is the greatest one recorded exactly when no row is later
(`selectVersion_eq_iff`). `start_ended` combines the two into the rule of a server start that
finds versions `1` to `m` recorded and reads `m` back.
-/

namespace WebDiff

open Program

/-! ### Numbered lists of updates -/

/-- The versions of the updates are `1` to their number, in any order. -/
def Numbered (us : List MySqlStorageUpdate) : Prop :=
  (us.map (·.version)).Perm ((List.range us.length).map fun i : ℕ => (i : ℤ) + 1)

theorem Numbered.mem_iff {us : List MySqlStorageUpdate} (h : Numbered us) {v : ℤ} :
    (∃ u ∈ us, u.version = v) ↔ 1 ≤ v ∧ v ≤ us.length := by
  rw [← List.mem_map, List.Perm.mem_iff h, List.mem_map]
  constructor
  · rintro ⟨i, hi, rfl⟩
    have hi := List.mem_range.mp hi
    omega
  · rintro ⟨h1, hv⟩
    refine ⟨(v - 1).toNat, List.mem_range.mpr (by omega), by omega⟩

/-- Each version belongs to one update. -/
theorem Numbered.unique {us : List MySqlStorageUpdate} (h : Numbered us)
    {u u' : MySqlStorageUpdate} (hu : u ∈ us) (hu' : u' ∈ us) (hv : u.version = u'.version) :
    u = u' := by
  have hnodup : (us.map (·.version)).Nodup :=
    (List.Perm.nodup_iff h).mpr (List.nodup_range.map fun i j hij => by
      have hij : (i : ℤ) + 1 = j + 1 := hij
      omega)
  exact List.inj_on_of_nodup_map hnodup hu hu' hv

/-- An upgrade of a numbered list ends at its last version, unless it starts above it. -/
theorem UpTo.eq_max {us : List MySqlStorageUpdate} (hus : Numbered us) {v k : ℤ}
    (h : UpTo us v k) (hv : 0 ≤ v) : k = max v us.length := by
  -- above `v` every version up to the last one has an update, and none behind it
  have hle := h.le
  rcases lt_or_eq_of_le hle with hlt | rfl
  · have hk := (hus.mem_iff.mp (h.present k hlt (le_refl k))).2
    have hnext : ¬ (1 ≤ k + 1 ∧ k + 1 ≤ us.length) := fun hk' =>
      have ⟨u, hu, huv⟩ := hus.mem_iff.mpr hk'
      h.next u hu huv
    omega
  · have hnext : ¬ (1 ≤ v + 1 ∧ v + 1 ≤ us.length) := fun hk' =>
      have ⟨u, hu, huv⟩ := hus.mem_iff.mpr hk'
      h.next u hu huv
    omega

/-! ### The version an upgrade starts from -/

/-- The row the version is read from. -/
theorem selectVersion_spec {rows : List UpdateRow} (h : rows ≠ []) :
    ∃ r ∈ rows, selectVersion rows = r.version ∧
      ∀ r' ∈ rows, r'.dt < r.dt ∨ r'.dt = r.dt ∧ r'.version ≤ r.version := by
  unfold selectVersion
  cases hr : latestRow rows with
  | none => exact absurd (List.argmax_eq_none.mp hr) h
  | some r =>
    refine ⟨r, List.argmax_mem hr, rfl, fun r' hr' => ?_⟩
    have hle := List.le_of_mem_argmax hr' hr
    exact Prod.Lex.toLex_le_toLex.mp hle

/-- **The greatest version is read back** exactly when a row with that version has the latest
time. -/
theorem selectVersion_eq_iff {rows : List UpdateRow} {m : ℤ} (hle : ∀ r ∈ rows, r.version ≤ m)
    (hm : ∃ r ∈ rows, r.version = m) :
    selectVersion rows = m ↔ ∃ r ∈ rows, r.version = m ∧ ∀ r' ∈ rows, r'.dt ≤ r.dt := by
  obtain ⟨rm, hrm, hrmv⟩ := hm
  obtain ⟨r, hr, hrv, hmax⟩ := selectVersion_spec (List.ne_nil_of_mem hrm)
  constructor
  · intro h
    refine ⟨r, hr, hrv.symm.trans h, fun r' hr' => ?_⟩
    rcases hmax r' hr' with hlt | ⟨heq, -⟩
    · exact le_of_lt hlt
    · exact le_of_eq heq
  -- the row read is the latest, and of the latest ones the one with the greatest version
  · rintro ⟨r', hr', hr'v, hlatest⟩
    rw [hrv]
    have hdt := hlatest r hr
    rcases hmax r' hr' with hlt | ⟨-, hver⟩
    · omega
    · have hrm := hle r hr
      omega

/-! ### The rows of versions `1` to `m` -/

/-- The rows after versions `1` to `m` were recorded in order, version `v` at the time `d v`. -/
def recordedRows (d : ℤ → ℤ) (m : ℕ) : List UpdateRow :=
  (List.range m).map fun i : ℕ => ⟨i + 1, d (i + 1)⟩

theorem mem_recordedRows {d : ℤ → ℤ} {m : ℕ} {r : UpdateRow} :
    r ∈ recordedRows d m ↔ (1 ≤ r.version ∧ r.version ≤ m) ∧ r.dt = d r.version := by
  rw [recordedRows, List.mem_map]
  constructor
  · rintro ⟨i, hi, rfl⟩
    have hi := List.mem_range.mp hi
    exact ⟨⟨by simp only; omega, by simp only; omega⟩, rfl⟩
  · rintro ⟨⟨h1, hm⟩, hdt⟩
    obtain ⟨version, dt⟩ := r
    simp only at h1 hm hdt
    refine ⟨(version - 1).toNat, List.mem_range.mpr (by omega), ?_⟩
    have hi : ((version - 1).toNat : ℤ) + 1 = version := by omega
    rw [hi, hdt]

/-- One version more. -/
theorem recordedRows_succ (d : ℤ → ℤ) (m : ℕ) :
    recordedRows d (m + 1) = recordedRows d m ++ [⟨m + 1, d (m + 1)⟩] := by
  rw [recordedRows, List.range_succ, List.map_append]
  rfl

theorem recordedRows_congr {d d' : ℤ → ℤ} {m : ℕ} (h : ∀ i : ℤ, 1 ≤ i → i ≤ m → d i = d' i) :
    recordedRows d m = recordedRows d' m := by
  refine List.map_congr_left fun i hi => ?_
  have hi := List.mem_range.mp hi
  rw [h (i + 1) (by omega) (by omega)]

/-- The versions of the rows. -/
theorem versions_recordedRows (d : ℤ → ℤ) (m : ℕ) :
    (recordedRows d m).map (·.version) = (List.range m).map fun i : ℕ => (i : ℤ) + 1 := by
  rw [recordedRows, List.map_map]
  rfl

/-- Reading back after versions `1` to `m` were recorded. -/
theorem selectVersion_recordedRows_iff (d : ℤ → ℤ) (m : ℕ) :
    selectVersion (recordedRows d m) = m ↔ ∀ i : ℤ, 1 ≤ i → i ≤ m → d i ≤ d m := by
  rcases Nat.eq_zero_or_pos m with rfl | hm
  -- an empty table is read as version `0`
  · exact ⟨fun _ i h1 h0 => by omega, fun _ => rfl⟩
  · have hlast : (⟨m, d m⟩ : UpdateRow) ∈ recordedRows d m :=
      mem_recordedRows.mpr ⟨⟨by simp only; omega, le_refl _⟩, rfl⟩
    rw [selectVersion_eq_iff (fun r hr => (mem_recordedRows.mp hr).1.2) ⟨_, hlast, rfl⟩]
    constructor
    · rintro ⟨r, hr, hrv, hlatest⟩ i h1 hi
      have hdt := (mem_recordedRows.mp hr).2
      rw [hrv] at hdt
      rw [← hdt]
      exact hlatest ⟨i, d i⟩ (mem_recordedRows.mpr ⟨⟨h1, hi⟩, rfl⟩)
    · intro h
      refine ⟨_, hlast, rfl, fun r' hr' => ?_⟩
      obtain ⟨⟨h1, hm⟩, hdt⟩ := mem_recordedRows.mp hr'
      rw [hdt]
      exact h _ h1 hm

/-! ### One server start -/

/-- Versions `1` to `m` are recorded, version `v` at the time `d v`. The table may be missing as
long as there is none. -/
def Records {σ : Type} (w : UpgradeDb σ) (d : ℤ → ℤ) (m : ℕ) : Prop :=
  w.updates = some (recordedRows d m) ∨ w.updates = none ∧ m = 0

/-- The times of the versions up to `m`, and of those a start records above it. -/
def timesAfter (d : ℤ → ℤ) (m : ℕ) (now : ℤ → ℤ) (v : ℤ) : ℤ :=
  if v ≤ m then d v else now v

theorem recordedRows_timesAfter (d : ℤ → ℤ) (m : ℕ) (now : ℤ → ℤ) :
    recordedRows (timesAfter d m now) m = recordedRows d m :=
  recordedRows_congr fun _ _ hi => if_pos hi

section

variable {σ : Type} {exec : Query → σ → Option σ} {start : Start}

/-- The steps of a server start. -/
def UpgradeDb.startSteps (exec : Query → σ → Option σ) (w : UpgradeDb σ) (start : Start) :
    List Migration :=
  migrations (trace (UpgradeDb.step exec start)
    (upgrade start.updates (start.updates.length + 1)) w)

/-- Applying and recording `u` leaves the rest of the database with `P`, or fails and leaves it with
`E`. -/
def ApplyEnds (exec : Query → σ → Option σ) (start : Start) (P E : σ → Prop)
    (u : MySqlStorageUpdate) (s : σ) : Prop :=
  match runQueries exec (start.queryFault u.version) u.queries s with
  | (false, s') => E s'
  | (true, s') => if start.fault = some (.insertInfo u.version) then E s' else P s'

theorem Start.queryFault_eq_none (hfault : start.fault = none) (v : ℤ) :
    start.queryFault v = none := by
  rw [Start.queryFault, hfault]

theorem applyEnds_of_true (hfault : start.fault = none) {P E : σ → Prop}
    {u : MySqlStorageUpdate} {s t : σ} (h : runQueries exec none u.queries s = (true, t))
    (ht : P t) : ApplyEnds exec start P E u s := by
  rw [ApplyEnds, start.queryFault_eq_none hfault, h, hfault]
  exact ht

/-- Nothing is asked of the rest of the database. -/
theorem applyEnds_trivial (start : Start) (u : MySqlStorageUpdate) (s : σ) :
    ApplyEnds exec start (fun _ => True) (fun _ => True) u s := by
  unfold ApplyEnds
  split
  · trivial
  · split
    · trivial
    · trivial

theorem applyEnds_of_false (hfault : start.fault = none) {P E : σ → Prop}
    {u : MySqlStorageUpdate} {s t : σ} (h : runQueries exec none u.queries s = (false, t))
    (ht : E t) : ApplyEnds exec start P E u s := by
  rw [ApplyEnds, start.queryFault_eq_none hfault, h]
  exact ht

/-- **The rule of a server start.** The versions it reaches are recorded in order, `P` is carried
along by the statements of the updates, and `E` holds where the start throws. -/
theorem start_ended {P : ℕ → σ → Prop} {E : UpgradeDb σ → Prop} {d : ℤ → ℤ} {m : ℕ}
    (hstep : ∀ u ∈ start.updates, ∀ k : ℕ, u.version = k + 1 → m ≤ k → ∀ s, P k s →
      ApplyEnds exec start (P (k + 1))
        (fun s' => E ⟨some (recordedRows (timesAfter d m start.now) k), s'⟩) u s)
    (hus : Numbered start.updates) {w : UpgradeDb σ} (hw : Records w d m) (hP : P m w.rest)
    (hread : selectVersion (recordedRows d m) = m) (hselect : start.fault ≠ some .selectVersion)
    (hcreate : w.updates = none → start.fault ≠ some .createUpdates) :
    Ended (fun w' => w'.updates =
          some (recordedRows (timesAfter d m start.now) (max m start.updates.length)) ∧
        P (max m start.updates.length) w'.rest ∧
        w.startSteps exec start = migrated m (max m start.updates.length : ℕ)) E
      (w.start exec start) := by
  let I := UpgradeDb.step exec start
  let d' := timesAfter d m start.now
  -- at version `k` the rows are those of `1` to `k`, and the steps of this start those above `m`
  let Inv : ℤ → UpgradeDb σ × List (Σ c, UpgradeCall.Res c) → Prop := fun n st =>
    ∃ k : ℕ, n = k ∧ m ≤ k ∧ st.1.updates = some (recordedRows d' k) ∧ P k st.1.rest ∧
      migrations st.2 = migrated m k
  have hadvance : ∀ u ∈ start.updates, ∀ st, Inv (u.version - 1) st →
      Advances (Interp.traced I) Inv (fun st => E st.1) u st := by
    rintro u hu ⟨⟨updates, s⟩, t⟩ ⟨k, hk, hmk, hrows, hPk, ht⟩
    obtain rfl : updates = some (recordedRows d' k) := hrows
    have hstep := hstep u hu k (by omega) hmk s hPk
    -- the same two questions on both sides: do the statements succeed, and does the recording?
    unfold ApplyEnds at hstep
    unfold Advances
    rcases hq : runQueries exec (start.queryFault u.version) u.queries s with ⟨_ | _, s'⟩
    · rw [hq] at hstep
      simp only [Interp.traced, I, UpgradeDb.step, hq]
      exact hstep
    · rw [hq] at hstep
      simp only [Interp.traced, I, UpgradeDb.step, hq]
      by_cases hf : start.fault = some (.insertInfo u.version)
      · simp only [if_pos hf] at hstep ⊢
        exact hstep
      · simp only [if_neg hf] at hstep ⊢
        refine ⟨k + 1, by push_cast; omega, by omega, ?_, hstep, ?_⟩
        · -- the version is above `m`, so its time is the one of this start
          have hd : d' ((k : ℤ) + 1) = start.now (k + 1) := if_neg (by omega)
          have hv : u.version = k + 1 := by omega
          rw [recordedRows_succ, hd, hv]
        · have hsucc : migrated m ((k : ℤ) + 1) = _ := migrated_succ (by omega)
          have hv : u.version = k + 1 := by omega
          push_cast
          rw [migrations_append_insert, migrations_append_apply, ht, hsucc, hv, List.append_assoc]
          rfl
  have hlast : (Interp.traced I .lastDatabaseVersion (w, [])).1 = m ∧
      Inv m (Interp.traced I .lastDatabaseVersion (w, [])).2 := by
    rcases hw with hw | ⟨hw, rfl⟩
    · simp only [Interp.traced, I, UpgradeDb.step, if_neg hselect, hw]
      exact ⟨hread, m, rfl, le_refl m, by rw [hw, recordedRows_timesAfter], hP, by
        rw [migrated_self]; rfl⟩
    · simp only [Interp.traced, I, UpgradeDb.step, if_neg hselect, hw, if_neg (hcreate hw)]
      exact ⟨rfl, 0, rfl, le_refl 0, rfl, hP, by rw [migrated_self]; rfl⟩
  have hrun := run_upgrade hadvance (Nat.lt_succ_self _) (s := (w, []))
    (by rw [hlast.1]; exact Int.natCast_nonneg m) (by rw [hlast.1]; exact hlast.2)
  rw [run_traced, hlast.1] at hrun
  unfold UpgradeDb.start UpgradeDb.startSteps
  generalize run (UpgradeDb.step exec start) _ w = r at hrun ⊢
  obtain ⟨_ | (e | b), w'⟩ := r
  · exact hrun
  · exact hrun
  · obtain ⟨hb, k, hk, j, rfl, hmj, hrows, hPj, ht⟩ := hrun
    -- the upgrade ends at the last version there is
    have hj : j = max m start.updates.length := by
      have := hk.eq_max hus (Int.natCast_nonneg m)
      omega
    subst hj
    exact ⟨hb, hrows, hPj, ht⟩

end

end WebDiff
