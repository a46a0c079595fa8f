import WebDiff.Upgrade.Recorded

/-!
# Migrations and the clock

`lastDatabaseVersion` sorts by the time of the recording first and by the version only as a
tie-break. In a history of server starts in which no statement fails, version `v` is recorded by the
first start that knows it, at the time the clock shows there (`recordedAt`), so which version the
next start reads back depends on those times alone: it is the greatest one exactly when the greatest
version reached so far has the latest time. `appliedOnce_iff` says that every migration is applied
and recorded at most once, and the greatest version always read back, in exactly the histories in
which this is so between any two starts.
-/

namespace WebDiff

open Program

/-! ### Histories -/

/-- The greatest version a start of the history knows. -/
def knownUpTo (history : List Start) : ℕ :=
  history.foldl (fun m start => max m start.updates.length) 0

/-- The time at which version `v` is recorded: the first start that knows it records it. -/
def recordedAt (history : List Start) (v : ℤ) : ℤ :=
  match history.find? fun start => v ≤ start.updates.length with
  | some start => start.now v
  | none => 0

/-- The greatest version of the history was recorded no earlier than any other. -/
def InOrder (history : List Start) : Prop :=
  ∀ v : ℤ, 1 ≤ v → v ≤ knownUpTo history →
    recordedAt history v ≤ recordedAt history (knownUpTo history)

@[simp] theorem knownUpTo_nil : knownUpTo [] = 0 := rfl

@[simp] theorem knownUpTo_append (history : List Start) (start : Start) :
    knownUpTo (history ++ [start]) = max (knownUpTo history) start.updates.length := by
  rw [knownUpTo, List.foldl_append]
  rfl

/-- A version up to the greatest one is known to some start. -/
theorem exists_of_le_knownUpTo {history : List Start} {v : ℤ} (h1 : 1 ≤ v)
    (hv : v ≤ knownUpTo history) : ∃ start ∈ history, v ≤ start.updates.length := by
  induction history using List.reverseRecOn with
  | nil =>
    rw [knownUpTo_nil] at hv
    omega
  | append_singleton history start ih =>
    rw [knownUpTo_append] at hv
    -- the greatest version is that of the last start or of one before
    rcases le_total start.updates.length (knownUpTo history) with hle | hle
    · rw [max_eq_left hle] at hv
      obtain ⟨st, hst, hlen⟩ := ih hv
      exact ⟨st, List.mem_append_left _ hst, hlen⟩
    · rw [max_eq_right hle] at hv
      exact ⟨start, List.mem_append_right _ (List.mem_singleton.mpr rfl), hv⟩

theorem le_knownUpTo {history : List Start} {start : Start} (h : start ∈ history) :
    start.updates.length ≤ knownUpTo history := by
  induction history using List.reverseRecOn with
  | nil => exact absurd h List.not_mem_nil
  | append_singleton history last ih =>
    rw [knownUpTo_append]
    rcases List.mem_append.mp h with h | h
    · exact le_trans (ih h) (le_max_left _ _)
    · rw [List.mem_singleton.mp h]
      exact le_max_right _ _

/-- The times after one more start. -/
theorem recordedAt_append {history : List Start} {start : Start} {v : ℤ} (h1 : 1 ≤ v)
    (hv : v ≤ knownUpTo (history ++ [start])) :
    recordedAt (history ++ [start]) v
      = timesAfter (recordedAt history) (knownUpTo history) start.now v := by
  simp only [recordedAt, timesAfter, List.find?_append]
  by_cases hle : v ≤ knownUpTo history
  · obtain ⟨st, hst, hlen⟩ := exists_of_le_knownUpTo h1 hle
    obtain ⟨first, hfirst⟩ : ∃ first, history.find? (fun start => v ≤ start.updates.length)
        = some first := by
      rw [← Option.isSome_iff_exists, List.find?_isSome]
      exact ⟨st, hst, by simpa using hlen⟩
    rw [if_pos hle, hfirst]
    simp only [Option.some_or]
  · -- no earlier start knows the version, so the last one records it
    have hnone : history.find? (fun start => v ≤ start.updates.length) = none := by
      refine List.find?_eq_none.mpr fun st hst => ?_
      have := le_knownUpTo hst
      simp only [decide_eq_true_eq]
      omega
    rw [knownUpTo_append] at hv
    have hlast : v ≤ start.updates.length := by omega
    rw [if_neg hle, hnone]
    simp [hlast]

section

variable {σ : Type} (exec : Query → σ → Option σ)

/-- The steps of a history of server starts. -/
def UpgradeDb.steps (w : UpgradeDb σ) : List Start → List Migration
  | [] => []
  | start :: history => w.startSteps exec start ++ (w.start exec start).2.steps history

theorem UpgradeDb.steps_append (w : UpgradeDb σ) (before after : List Start) :
    w.steps exec (before ++ after)
      = w.steps exec before ++ (w.starts exec before).steps exec after := by
  induction before generalizing w with
  | nil => rfl
  | cons first before ih =>
    rw [List.cons_append, UpgradeDb.steps, ih, UpgradeDb.steps, List.append_assoc]
    rfl

theorem UpgradeDb.steps_concat (w : UpgradeDb σ) (history : List Start) (start : Start) :
    w.steps exec (history ++ [start])
      = w.steps exec history ++ (w.starts exec history).startSteps exec start := by
  rw [w.steps_append]
  exact congrArg _ (List.append_nil _)

theorem UpgradeDb.starts_append (w : UpgradeDb σ) (history : List Start) (start : Start) :
    w.starts exec (history ++ [start]) = ((w.starts exec history).start exec start).2 := by
  rw [UpgradeDb.starts, List.foldl_append]
  rfl

/-- The versions recorded so far. -/
def UpgradeDb.versions (w : UpgradeDb σ) : List ℤ :=
  (w.updates.getD []).map (·.version)

/-- Whether the step succeeded. -/
def Migration.ok : Migration → Bool
  | .applied _ ok => ok
  | .recorded _ ok => ok

/-- The versions a list of steps tries to apply. -/
def appliedVersions (steps : List Migration) : List ℤ :=
  steps.filterMap fun
    | .applied v _ => some v
    | .recorded _ _ => none

/-- The versions a list of steps tries to record. -/
def recordedVersions (steps : List Migration) : List ℤ :=
  steps.filterMap fun
    | .applied _ _ => none
    | .recorded v _ => some v

/-- Every migration is applied and recorded at most once in the history, and between any two starts
`lastDatabaseVersion` returns the greatest version recorded so far. -/
structure AppliedOnce (s : σ) (history : List Start) : Prop where
  last : ∀ before, before <+: history → ∀ start : Start, start.fault = none →
    let w := (UpgradeDb.new s).starts exec before
    (UpgradeDb.step exec start .lastDatabaseVersion w).1 = w.versions.foldr max 0
  applied : (appliedVersions ((UpgradeDb.new s).steps exec history)).Nodup
  recorded : (recordedVersions ((UpgradeDb.new s).steps exec history)).Nodup

end

/-! ### What the steps mention -/

theorem appliedVersions_append (a b : List Migration) :
    appliedVersions (a ++ b) = appliedVersions a ++ appliedVersions b :=
  List.filterMap_append

theorem recordedVersions_append (a b : List Migration) :
    recordedVersions (a ++ b) = recordedVersions a ++ recordedVersions b :=
  List.filterMap_append

/-- Consecutive stretches of versions are one stretch. -/
theorem migrated_append (a : ℤ) (b c : ℕ) :
    migrated a (a + b) ++ migrated (a + b) (a + b + c) = migrated a (a + b + c) := by
  induction c with
  | zero => simp
  | succ c ih =>
    have hsucc : a + b + ((c + 1 : ℕ) : ℤ) = a + b + c + 1 := by omega
    rw [hsucc, migrated_succ (by omega), migrated_succ (by omega), ← List.append_assoc, ih]

/-- The steps from version `0` mention each version once. -/
theorem versions_migrated (k : ℕ) :
    appliedVersions (migrated 0 k) = (List.range k).map (fun i : ℕ => (i : ℤ) + 1) ∧
      recordedVersions (migrated 0 k) = (List.range k).map fun i : ℕ => (i : ℤ) + 1 := by
  induction k with
  | zero => exact ⟨rfl, rfl⟩
  | succ k ih =>
    have hsucc : migrated 0 ((k + 1 : ℕ) : ℤ) = _ := migrated_succ (Int.natCast_nonneg k)
    rw [hsucc, appliedVersions_append, recordedVersions_append, ih.1, ih.2, List.range_succ,
      List.map_append]
    exact ⟨rfl, rfl⟩

theorem nodup_versions (k : ℕ) : ((List.range k).map fun i : ℕ => (i : ℤ) + 1).Nodup :=
  List.nodup_range.map fun i j hij => by
    have hij : (i : ℤ) + 1 = j + 1 := hij
    omega

/-- The greatest of the versions `1` to `k`. -/
theorem foldr_max_versions (k : ℕ) :
    ((List.range k).map fun i : ℕ => (i : ℤ) + 1).foldr max 0 = k := by
  -- for the induction the fold starts anywhere
  have hacc : ∀ a : ℤ, 0 ≤ a → ((List.range k).map fun i : ℕ => (i : ℤ) + 1).foldr max a
      = max a k := by
    induction k with
    | zero => exact fun a ha => (max_eq_left ha).symm
    | succ k ih =>
      intro a ha
      rw [List.range_succ, List.map_append, List.foldr_append]
      show List.foldr max (max ((k : ℤ) + 1) a) _ = _
      rw [ih _ (by omega)]
      push_cast
      omega
  rw [hacc 0 (le_refl 0)]
  omega

/-! ### Histories without failures -/

section

variable {σ : Type} {exec : Query → σ → Option σ}

theorem Records.versions_eq {w : UpgradeDb σ} {d : ℤ → ℤ} {m : ℕ} (h : Records w d m) :
    w.versions = (List.range m).map fun i : ℕ => (i : ℤ) + 1 := by
  unfold UpgradeDb.versions
  rcases h with h | ⟨h, rfl⟩
  · rw [h, Option.getD_some, versions_recordedRows]
  · rw [h]
    rfl

/-- What `lastDatabaseVersion` returns. -/
theorem Records.last_eq {w : UpgradeDb σ} {d : ℤ → ℤ} {m : ℕ} (h : Records w d m) {start : Start}
    (hfault : start.fault = none) :
    (UpgradeDb.step exec start .lastDatabaseVersion w).1 = selectVersion (recordedRows d m) := by
  have hselect : start.fault ≠ some .selectVersion := by rw [hfault]; simp
  have hcreate : start.fault ≠ some .createUpdates := by rw [hfault]; simp
  rcases h with hrows | ⟨hrows, rfl⟩
  · simp only [UpgradeDb.step, if_neg hselect, hrows]
  · simp only [UpgradeDb.step, if_neg hselect, hrows, if_neg hcreate]
    rfl

/-- A start in which every step succeeds completes. -/
theorem start_completes {w : UpgradeDb σ} {start : Start}
    (hlast : 0 ≤ (UpgradeDb.step exec start .lastDatabaseVersion w).1)
    (hok : ∀ step ∈ w.startSteps exec start, step.ok = true) :
    (w.start exec start).1 = some (.ok true) := by
  let I := UpgradeDb.step exec start
  let Inv : ℤ → UpgradeDb σ × List (Σ c, UpgradeCall.Res c) → Prop := fun _ _ => True
  let E : UpgradeDb σ × List (Σ c, UpgradeCall.Res c) → Prop := fun st =>
    ∃ step ∈ migrations st.2, step.ok = false
  -- the upgrade throws only behind a step that failed
  have hadvance : ∀ u ∈ start.updates, ∀ st, Inv (u.version - 1) st →
      Advances (Interp.traced I) Inv E u st := by
    rintro u - ⟨w, t⟩ -
    unfold Advances
    rcases ha : I (.apply u) w with ⟨_ | _, w₁⟩
    · simp only [Interp.traced, ha]
      refine ⟨.applied u.version false, ?_, rfl⟩
      rw [migrations_append_apply]
      exact List.mem_append_right _ (List.mem_singleton.mpr rfl)
    · rcases hr : I (.insertUpdateInfo u.version) w₁ with ⟨_ | _, w₂⟩
      · simp only [Interp.traced, ha, hr]
        refine ⟨.recorded u.version false, ?_, rfl⟩
        rw [migrations_append_insert]
        exact List.mem_append_right _ (List.mem_singleton.mpr rfl)
      · simp only [Interp.traced, ha, hr]
        exact trivial
  have hstart : Inv (Interp.traced I .lastDatabaseVersion (w, [])).1
      (Interp.traced I .lastDatabaseVersion (w, [])).2 := trivial
  have hrun := run_upgrade hadvance (Nat.lt_succ_self _) (s := (w, [])) hlast hstart
  rw [run_traced] at hrun
  unfold UpgradeDb.startSteps at hok
  unfold UpgradeDb.start
  generalize run (UpgradeDb.step exec start) _ w = r at hrun ⊢
  obtain ⟨_ | (e | b), w'⟩ := r
  · exact hrun.elim
  · obtain ⟨step, hstep, hfailed⟩ := hrun
    rw [hok step hstep] at hfailed
    cases hfailed
  · rw [hrun.1]

/-- Without a failure, and as long as the greatest version is read back, the history has recorded
each version at its time. -/
theorem starts_recorded (s : σ) {history : List Start}
    (hhistory : ∀ start ∈ history, start.fault = none ∧ Numbered start.updates)
    (hok : ∀ step ∈ (UpgradeDb.new s).steps exec history, step.ok = true)
    (horder : ∀ before, before <+: history → before ≠ history → InOrder before) :
    Records ((UpgradeDb.new s).starts exec history) (recordedAt history) (knownUpTo history) ∧
      (UpgradeDb.new s).steps exec history = migrated 0 (knownUpTo history) := by
  induction history using List.reverseRecOn with
  | nil => exact ⟨Or.inr ⟨rfl, rfl⟩, (migrated_self 0).symm⟩
  | append_singleton history start ih =>
    rw [UpgradeDb.steps_concat] at hok
    obtain ⟨hrecords, hsteps⟩ := ih
      (fun st hst => hhistory st (List.mem_append_left _ hst))
      (fun step hstep => hok step (List.mem_append_left _ hstep))
      (fun before hbefore _ => horder before (hbefore.trans (List.prefix_append _ _)) fun h => by
        have hlen := hbefore.length_le
        rw [h, List.length_append, List.length_singleton] at hlen
        omega)
    obtain ⟨hfault, hus⟩ := hhistory start (List.mem_append_right _ (List.mem_singleton.mpr rfl))
    have hread := (selectVersion_recordedRows_iff _ _).mpr
      (horder history (List.prefix_append _ _) (by simp))
    have hlast : 0 ≤ (UpgradeDb.step exec start .lastDatabaseVersion
        ((UpgradeDb.new s).starts exec history)).1 := by
      rw [hrecords.last_eq hfault, hread]
      exact Int.natCast_nonneg _
    have hreturns := start_completes hlast fun step hstep =>
      hok step (List.mem_append_right _ hstep)
    -- the start completes, so nothing but the invariant of the rows has to be carried along
    have hstep : ∀ (u : MySqlStorageUpdate) (s : σ),
        ApplyEnds exec start (fun _ => True) (fun _ => True) u s := applyEnds_trivial start
    have hend := start_ended (P := fun _ _ => True) (E := fun _ => True)
      (fun u _ k _ _ s _ => hstep u s) hus hrecords trivial hread
      (by rw [hfault]; simp) (fun _ => by rw [hfault]; simp)
    rw [UpgradeDb.starts_append, UpgradeDb.steps_concat, hsteps, knownUpTo_append]
    generalize ((UpgradeDb.new s).starts exec history).start exec start = r at hend hreturns ⊢
    obtain ⟨_ | (e | b), w'⟩ := r
    · exact hend.elim
    · cases hreturns
    · obtain ⟨-, hrows, -, hnew⟩ := hend
      refine ⟨Or.inl ?_, ?_⟩
      · show w'.updates = _
        rw [hrows]
        refine congrArg some (recordedRows_congr fun v h1 hv => (recordedAt_append h1 ?_).symm)
        rwa [knownUpTo_append]
      -- the steps of this start follow on those before: from the greatest version to the new one
      · obtain ⟨c, hc⟩ := Nat.exists_eq_add_of_le (le_max_left (knownUpTo history)
          start.updates.length)
        rw [hnew, hc]
        have happend := migrated_append 0 (knownUpTo history) c
        rw [zero_add] at happend
        push_cast
        exact happend

/-- **Every migration is applied at most once** exactly in the histories in which, between any two
starts, the greatest version was recorded no earlier than the others. -/
theorem appliedOnce_iff (s : σ) (history : List Start)
    (hhistory : ∀ start ∈ history, start.fault = none ∧ Numbered start.updates)
    (hok : ∀ step ∈ (UpgradeDb.new s).steps exec history, step.ok = true) :
    AppliedOnce exec s history ↔ ∀ before, before <+: history → InOrder before := by
  -- what a prefix of the history recorded and what is read back from it
  have hpre : ∀ before, before <+: history →
      (∀ earlier, earlier <+: before → earlier ≠ before → InOrder earlier) →
      ∀ start : Start, start.fault = none →
      ((UpgradeDb.step exec start .lastDatabaseVersion
          ((UpgradeDb.new s).starts exec before)).1
        = ((UpgradeDb.new s).starts exec before).versions.foldr max 0 ↔ InOrder before) := by
    intro before hbefore hearlier start hfault
    have hokBefore : ∀ step ∈ (UpgradeDb.new s).steps exec before, step.ok = true := by
      obtain ⟨after, rfl⟩ := hbefore
      rw [UpgradeDb.steps_append] at hok
      exact fun step hstep => hok step (List.mem_append_left _ hstep)
    have hrecords := (starts_recorded s (fun st hst => hhistory st (hbefore.subset hst))
      hokBefore hearlier).1
    rw [hrecords.last_eq hfault, hrecords.versions_eq, foldr_max_versions,
      selectVersion_recordedRows_iff]
    rfl
  constructor
  · intro h before
    -- by the length of the prefix: the shorter ones fix what has been recorded
    induction hn : before.length using Nat.strong_induction_on generalizing before with
    | _ n ih =>
      intro hbefore
      refine (hpre before hbefore (fun earlier hearlier hne => ?_)
        ⟨[], none, fun _ => 0⟩ rfl).mp (h.last before hbefore _ rfl)
      have hlt : earlier.length < before.length :=
        lt_of_le_of_ne hearlier.length_le fun hlen => hne (hearlier.eq_of_length hlen)
      exact ih earlier.length (hn ▸ hlt) earlier rfl (hearlier.trans hbefore)
  · intro horder
    have hsteps :=
      (starts_recorded s hhistory hok fun before hbefore _ => horder before hbefore).2
    refine ⟨fun before hbefore start hfault => ?_, ?_, ?_⟩
    · exact (hpre before hbefore
        (fun earlier hearlier _ => horder earlier (hearlier.trans hbefore)) start hfault).mpr
        (horder before hbefore)
    · rw [hsteps, (versions_migrated _).1]
      exact nodup_versions _
    · rw [hsteps, (versions_migrated _).2]
      exact nodup_versions _

end

theorem numbered_databaseUpdates : Numbered databaseUpdates := by
  unfold Numbered
  decide

theorem numbered_firstUpdates : Numbered (databaseUpdates.take 8) := by
  unfold Numbered
  decide

/-- A server that is started with eight updates, and later with nine. -/
def grownUpdates : List Start :=
  [⟨databaseUpdates.take 8, none, fun v => v⟩, ⟨databaseUpdates, none, fun v => v⟩]

theorem appliedOnce_iff_grown :
    AppliedOnce Query.exec Schema.empty grownUpdates ↔
      ∀ before, before <+: grownUpdates → InOrder before :=
  have hhistory : ∀ start ∈ grownUpdates, start.fault = none ∧ Numbered start.updates := by
    intro start hstart
    rcases List.mem_cons.mp hstart with rfl | hstart
    · exact ⟨rfl, numbered_firstUpdates⟩
    · rw [List.mem_singleton.mp hstart]
      exact ⟨rfl, numbered_databaseUpdates⟩
  appliedOnce_iff Schema.empty grownUpdates hhistory (by decide +kernel)

/-! ### A clock that steps back -/

/-- The shipped updates, the last of them recorded after the clock went back from 02:59:59 to
02:00:00. -/
def summerTimeEnds : Start :=
  ⟨databaseUpdates, none, fun v => if v = 9 then 7200 else 10799⟩

/-- All nine versions are recorded without a failure, version 8 is read back, and the next start
applies version 9 again and throws. -/
theorem summerTimeEnds_rereads :
    let w := (UpgradeDb.new Schema.empty).start Query.exec summerTimeEnds
    w.1 = some (.ok true) ∧ w.2.versions = [1, 2, 3, 4, 5, 6, 7, 8, 9] ∧
      (UpgradeDb.step Query.exec summerTimeEnds .lastDatabaseVersion w.2).1 = 8 ∧
      w.2.startSteps Query.exec summerTimeEnds = [.applied 9 false] ∧
      (w.2.start Query.exec summerTimeEnds).1
        = some (.error (lit "Could not apply update 8")) := by
  decide +kernel

/-- Version 9 is the greatest version recorded, and version 8 is read back. -/
theorem summerTimeEnds_not_appliedOnce :
    ((UpgradeDb.new Schema.empty).start Query.exec summerTimeEnds).1 = some (.ok true) ∧
      ¬ AppliedOnce Query.exec Schema.empty [summerTimeEnds] := by
  obtain ⟨hreturned, hversions, hlast, -⟩ := summerTimeEnds_rereads
  refine ⟨hreturned, fun h => ?_⟩
  have hread := h.last [summerTimeEnds] (List.prefix_refl _) summerTimeEnds rfl
  have hread : (UpgradeDb.step Query.exec summerTimeEnds .lastDatabaseVersion
      ((UpgradeDb.new Schema.empty).start Query.exec summerTimeEnds).2).1
        = ((UpgradeDb.new Schema.empty).start Query.exec summerTimeEnds).2.versions.foldr max 0 :=
    hread
  rw [hlast, hversions] at hread
  exact absurd hread (by decide)

end WebDiff
