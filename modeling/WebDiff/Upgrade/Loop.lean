import WebDiff.Model.Updates

/-!
# One upgrade is a migration loop

`upgrade` rescans its list of updates until a pass finds nothing, and moves the version it compares
against in the middle of a pass. The rule `run_upgrade` reduces every question about it to one step:
an invariant `Inv n` of the version `n` reached so far is carried along by applying and recording an
update with version `n + 1` (`Advances`), and whatever the order of the list, its gaps and its
repetitions, the loop ends at a version whose successor is missing. A pass that finds an update
leaves fewer updates above the version (`above`), so the number of updates bounds the passes.

The first use of the rule is at the calls themselves: `upgrade_migrates` says which calls a run
makes, and in which order.
-/

namespace WebDiff

open Program

variable {S : Type}

/-! ### The rule of the loop -/

/-- Applying and recording the update `u` from `s` leads to `Inv` at the version of `u`, or stops at
a call that failed, in a state with `E`. -/
def Advances (I : Interp UpgradeCall UpgradeCall.Res S) (Inv : ℤ → S → Prop) (E : S → Prop)
    (u : MySqlStorageUpdate) (s : S) : Prop :=
  match I (.apply u) s with
  | (false, s₁) => E s₁
  | (true, s₁) =>
    match I (.insertUpdateInfo u.version) s₁ with
    | (false, s₂) => E s₂
    | (true, s₂) => Inv u.version s₂

/-- A fact about the version itself may be added to the invariant. -/
theorem Advances.and {I : Interp UpgradeCall UpgradeCall.Res S} {Inv : ℤ → S → Prop}
    {E : S → Prop} {u : MySqlStorageUpdate} {s : S} (h : Advances I Inv E u s) {P : ℤ → Prop}
    (hP : P u.version) : Advances I (fun n s => Inv n s ∧ P n) E u s := by
  unfold Advances at h ⊢
  rcases ha : I (.apply u) s with ⟨_ | _, s₁⟩
  · simp only [ha] at h
    exact h
  · rcases hr : I (.insertUpdateInfo u.version) s₁ with ⟨_ | _, s₂⟩
    · simp only [ha, hr] at h ⊢
      exact h
    · simp only [ha, hr] at h ⊢
      exact ⟨h, hP⟩

/-- How an upgrade ended: it returned `true` with `Q`, or threw with `E`. -/
def Ended (Q E : S → Prop) : Option (Except Bytes Bool) × S → Prop
  | (none, _) => False
  | (some (.error _), s) => E s
  | (some (.ok returned), s) => returned = true ∧ Q s

/-- How a pass that began at version `n` ended. -/
def PassEnded (Inv : ℤ → S → Prop) (E : S → Prop) (us : List MySqlStorageUpdate) (found : Bool)
    (n : ℤ) : Except Bytes (Bool × ℤ) × S → Prop
  | (.error _, s) => E s
  | (.ok (true, n'), s) =>
    Inv n' s ∧ n ≤ n' ∧ (found = true ∨ n < n' ∧ ∃ u ∈ us, u.version = n + 1)
  | (.ok (false, n'), s) => Inv n' s ∧ n' = n ∧ found = false ∧ ∀ u ∈ us, u.version ≠ n + 1

variable {I : Interp UpgradeCall UpgradeCall.Res S} {Inv : ℤ → S → Prop} {E : S → Prop}
  {us : List MySqlStorageUpdate}

/-- **One pass.** -/
theorem run_upgradePass
    (hstep : ∀ u ∈ us, ∀ s, Inv (u.version - 1) s → Advances I Inv E u s) :
    ∀ (found : Bool) (n : ℤ) (s : S), Inv n s →
      PassEnded Inv E us found n (run I (upgradePass us found n) s) := by
  induction us with
  -- the pass has seen every update: it returns whether one of them was due
  | nil =>
    intro found n s h
    cases found with
    | true => exact ⟨h, le_refl n, Or.inl rfl⟩
    | false => exact ⟨h, rfl, rfl, fun u hu => absurd hu List.not_mem_nil⟩
  | cons u us ih =>
    intro found n s h
    have ih := ih fun u' hu' => hstep u' (List.mem_cons_of_mem u hu')
    rw [upgradePass]
    by_cases hn : u.version - 1 = n
    · -- the update is due: both calls succeed and the pass goes on above it, or the pass throws
      have hu := hstep u List.mem_cons_self s (hn ▸ h)
      unfold Advances at hu
      rw [if_pos hn, run_bind, run_perform]
      rcases ha : I (.apply u) s with ⟨_ | _, s₁⟩
      · rw [ha] at hu
        exact hu
      · rw [ha] at hu
        show PassEnded Inv E (u :: us) found n
          (run I (perform (.insertUpdateInfo u.version) >>= _) s₁)
        rw [run_bind, run_perform]
        rcases hr : I (.insertUpdateInfo u.version) s₁ with ⟨_ | _, s₂⟩
        · simp only [hr] at hu
          exact hu
        · simp only [hr] at hu
          have hpass := ih true u.version s₂ hu
          show PassEnded Inv E (u :: us) found n (run I (upgradePass us true u.version) s₂)
          generalize run I (upgradePass us true u.version) s₂ = r at hpass ⊢
          obtain ⟨_ | ⟨_ | _, n'⟩, s'⟩ := r
          · exact hpass
          · exact absurd hpass.2.2.1 (by decide)
          · have hle := hpass.2.1
            exact ⟨hpass.1, by omega, Or.inr ⟨by omega, u, List.mem_cons_self, by omega⟩⟩
    -- the update is not due, and the pass goes on as it was
    · rw [if_neg hn]
      have hpass := ih found n s h
      generalize run I (upgradePass us found n) s = r at hpass ⊢
      obtain ⟨_ | ⟨_ | _, n'⟩, s'⟩ := r
      · exact hpass
      · obtain ⟨hInv, hn', hf, hnone⟩ := hpass
        refine ⟨hInv, hn', hf, fun u' hu' => ?_⟩
        rcases List.mem_cons.mp hu' with rfl | hu'
        · omega
        · exact hnone u' hu'
      · obtain ⟨hInv, hle, hfound⟩ := hpass
        refine ⟨hInv, hle, hfound.imp_right ?_⟩
        rintro ⟨hlt, u', hu', hv⟩
        exact ⟨hlt, u', List.mem_cons_of_mem u hu', hv⟩

/-- The number of updates above version `n`, the measure of the `while` loop. -/
def above (us : List MySqlStorageUpdate) (n : ℤ) : ℕ :=
  us.countP fun u => n < u.version

theorem above_le (us : List MySqlStorageUpdate) (n : ℤ) : above us n ≤ us.length :=
  List.countP_le_length

/-- A pass that moved on passed an update. -/
theorem above_lt {n n' : ℤ} (h : n < n') {u : MySqlStorageUpdate} (hu : u ∈ us)
    (hv : u.version = n + 1) : above us n' < above us n := by
  obtain ⟨l, r, rfl⟩ := List.append_of_mem hu
  -- `u` itself is above `n` and no longer above `n'`
  have hl : above l n' ≤ above l n :=
    List.countP_mono_left fun x _ hx => by simp only [decide_eq_true_eq] at hx ⊢; omega
  have hr : above r n' ≤ above r n :=
    List.countP_mono_left fun x _ hx => by simp only [decide_eq_true_eq] at hx ⊢; omega
  have hout : ¬ n' < u.version := by omega
  have hin : n < u.version := by omega
  unfold above at *
  rw [List.countP_append, List.countP_append, List.countP_cons_of_neg (by simpa using hout),
    List.countP_cons_of_pos (by simpa using hin)]
  omega

/-- **The `while` loop.** -/
theorem run_upgradeLoop
    (hstep : ∀ u ∈ us, ∀ s, Inv (u.version - 1) s → Advances I Inv E u s) :
    ∀ (fuel : ℕ) (n : ℤ) (s : S), above us n < fuel → Inv n s →
      Ended (fun s' => ∃ k, n ≤ k ∧ Inv k s' ∧ ∀ u ∈ us, u.version ≠ k + 1) E
        (run I (upgradeLoop us fuel n) s) := by
  intro fuel
  induction fuel with
  | zero => exact fun n s hfuel => absurd hfuel (Nat.not_lt_zero _)
  | succ fuel ih =>
    intro n s hfuel h
    have hpass := run_upgradePass hstep false n s h
    rw [upgradeLoop, run_bind]
    generalize run I (upgradePass us false n) s = r at hpass ⊢
    obtain ⟨_ | ⟨_ | _, n'⟩, s'⟩ := r
    · exact hpass
    -- no update was found, and the loop ends where the pass began
    · obtain ⟨hInv, rfl, -, hnone⟩ := hpass
      exact ⟨rfl, n', le_refl n', hInv, hnone⟩
    · -- the pass found an update, and fewer of them are left above the new version
      obtain ⟨hInv, hle, hfound⟩ := hpass
      obtain ⟨hlt, u, hu, hv⟩ := hfound.resolve_left (by decide)
      have hless := above_lt hlt hu hv
      have hloop := ih n' s' (by omega) hInv
      show Ended _ E (run I (upgradeLoop us fuel n') s')
      generalize run I (upgradeLoop us fuel n') s' = r at hloop ⊢
      obtain ⟨_ | (_ | b), s''⟩ := r
      · exact hloop
      · exact hloop
      · obtain ⟨hb, k, hk, hkInv, hknone⟩ := hloop
        exact ⟨hb, k, by omega, hkInv, hknone⟩

/-- The versions above `v` up to `k` are versions of updates, and `k + 1` is not. -/
structure UpTo (us : List MySqlStorageUpdate) (v k : ℤ) : Prop where
  le : v ≤ k
  present : ∀ j, v < j → j ≤ k → ∃ u ∈ us, u.version = j
  next : ∀ u ∈ us, u.version ≠ k + 1

/-- The versions the loop passes are carried along as a second part of the invariant. -/
theorem run_upgradeLoop_upTo
    (hstep : ∀ u ∈ us, ∀ s, Inv (u.version - 1) s → Advances I Inv E u s) {fuel : ℕ}
    (hfuel : us.length < fuel) (v : ℤ) {s : S} (h : Inv v s) :
    Ended (fun s' => ∃ k, UpTo us v k ∧ Inv k s') E (run I (upgradeLoop us fuel v) s) := by
  let Passed : ℤ → Prop := fun n => ∀ j, v < j → j ≤ n → ∃ u ∈ us, u.version = j
  let Inv' : ℤ → S → Prop := fun n s => Inv n s ∧ Passed n
  have hstep' : ∀ u ∈ us, ∀ s, Inv' (u.version - 1) s → Advances I Inv' E u s := by
    rintro u hu s ⟨hs, hpassed⟩
    refine (hstep u hu s hs).and fun j hvj hj => ?_
    -- version `u` is passed now, the ones below it were passed before
    by_cases hju : j = u.version
    · exact ⟨u, hu, hju.symm⟩
    · exact hpassed j hvj (by omega)
  have hstart : Passed v := fun j hvj hj => absurd hj (by omega)
  have hrun := run_upgradeLoop hstep' fuel v s (lt_of_le_of_lt (above_le us v) hfuel) ⟨h, hstart⟩
  generalize run I (upgradeLoop us fuel v) s = r at hrun ⊢
  obtain ⟨_ | (_ | b), s'⟩ := r
  · exact hrun
  · exact hrun
  · obtain ⟨hb, k, hk, ⟨hInv, hpassed⟩, hnext⟩ := hrun
    exact ⟨hb, k, ⟨hk, hpassed, hnext⟩, hInv⟩

/-- **The rule of `upgrade`.** More fuel than updates is enough. -/
theorem run_upgrade
    (hstep : ∀ u ∈ us, ∀ s, Inv (u.version - 1) s → Advances I Inv E u s) {fuel : ℕ}
    (hfuel : us.length < fuel) {s : S} (hv : 0 ≤ (I .lastDatabaseVersion s).1)
    (h : Inv (I .lastDatabaseVersion s).1 (I .lastDatabaseVersion s).2) :
    Ended (fun s' => ∃ k, UpTo us (I .lastDatabaseVersion s).1 k ∧ Inv k s') E
      (run I (upgrade us fuel) s) := by
  rw [upgrade, run_bind, run_perform, if_neg (not_lt.mpr hv)]
  exact run_upgradeLoop_upTo hstep hfuel _ h

/-- A negative version is refused before anything else is called. -/
theorem run_upgrade_of_neg (us : List MySqlStorageUpdate) (fuel : ℕ) {s : S}
    (hv : (I .lastDatabaseVersion s).1 < 0) :
    run I (upgrade us fuel) s =
      (some (.error (lit "Could not get latest version of database")),
        (I .lastDatabaseVersion s).2) := by
  rw [upgrade, run_bind, run_perform, if_pos hv, run_pure]

/-! ### The calls of a run -/

/-- A version that was applied or recorded, and whether that succeeded. -/
inductive Migration
  | applied (version : ℤ) (ok : Bool)
  | recorded (version : ℤ) (ok : Bool)
deriving DecidableEq, Repr

/-- The migration step a call is. -/
def Migration.ofCall : (Σ c, UpgradeCall.Res c) → Option Migration
  | ⟨.lastDatabaseVersion, _⟩ => none
  | ⟨.apply u, ok⟩ => some (.applied u.version ok)
  | ⟨.insertUpdateInfo v, ok⟩ => some (.recorded v ok)

/-- The migration steps of a run. -/
def migrations (calls : List (Σ c, UpgradeCall.Res c)) : List Migration :=
  calls.filterMap Migration.ofCall

/-- Versions `v + 1` to `k` in order, each recorded right after it was applied. -/
def migrated (v k : ℤ) : List Migration :=
  (List.range (k - v).toNat).flatMap fun i : ℕ =>
    [.applied (v + 1 + i) true, .recorded (v + 1 + i) true]

@[simp] theorem migrated_self (v : ℤ) : migrated v v = [] := by
  simp [migrated]

/-- One version more. -/
theorem migrated_succ {v k : ℤ} (h : v ≤ k) :
    migrated v (k + 1) = migrated v k ++ [.applied (k + 1) true, .recorded (k + 1) true] := by
  have hlen : (k + 1 - v).toNat = (k - v).toNat + 1 := by omega
  have hlast : v + 1 + ((k - v).toNat : ℤ) = k + 1 := by omega
  rw [migrated, hlen, List.range_succ, List.flatMap_append, List.flatMap_singleton, hlast]
  rfl

theorem migrations_append_apply (t : List (Σ c, UpgradeCall.Res c)) (u : MySqlStorageUpdate)
    (ok : Bool) : migrations (t ++ [⟨.apply u, ok⟩]) = migrations t ++ [.applied u.version ok] := by
  rw [migrations, List.filterMap_append]
  rfl

theorem migrations_append_insert (t : List (Σ c, UpgradeCall.Res c)) (v : ℤ) (ok : Bool) :
    migrations (t ++ [⟨.insertUpdateInfo v, ok⟩]) = migrations t ++ [.recorded v ok] := by
  rw [migrations, List.filterMap_append]
  rfl

/-- The steps of a run that threw: version `j` is the first whose application or recording failed,
and nothing happened after that. -/
def Threw (v : ℤ) (steps : List Migration) : Prop :=
  ∃ j, v < j ∧ (steps = migrated v (j - 1) ++ [.applied j false] ∨
    steps = migrated v (j - 1) ++ [.applied j true, .recorded j false])

/-- **One upgrade is a migration loop.** Whatever the calls do and return, from a database version
`v ≥ 0` the upgrade ends, and either returns `true` with exactly the versions `v + 1` to `k` applied
and recorded, all of them versions of updates while `k + 1` is not, or throws at the first call that
fails. -/
theorem upgrade_migrates (I : Interp UpgradeCall UpgradeCall.Res S) (us : List MySqlStorageUpdate)
    (fuel : ℕ) (hfuel : us.length < fuel) (s : S) (v : ℤ)
    (hv : (I .lastDatabaseVersion s).1 = v) (hv0 : 0 ≤ v) :
    (∃ k, UpTo us v k ∧
        (run I (upgrade us fuel) s).1 = some (.ok true) ∧
        migrations (trace I (upgrade us fuel) s) = migrated v k) ∨
      ∃ e, (run I (upgrade us fuel) s).1 = some (.error e) ∧
        Threw v (migrations (trace I (upgrade us fuel) s)) := by
  -- the trace of the calls is part of the state: at version `n` it is the migration up to `n`
  let Inv : ℤ → S × List (Σ c, UpgradeCall.Res c) → Prop := fun n st =>
    v ≤ n ∧ migrations st.2 = migrated v n
  have hstep : ∀ u ∈ us, ∀ st : S × List (Σ c, UpgradeCall.Res c), Inv (u.version - 1) st →
      Advances (Interp.traced I) Inv (fun st => Threw v (migrations st.2)) u st := by
    rintro u - ⟨s, t⟩ ⟨hle, ht⟩
    have hsucc := migrated_succ hle
    rw [Int.sub_add_cancel] at hsucc
    unfold Advances
    rcases ha : I (.apply u) s with ⟨_ | _, s₁⟩
    · simp only [Interp.traced, ha]
      -- `apply` failed: the upgrade throws at version `u`
      refine ⟨u.version, by omega, Or.inl ?_⟩
      rw [migrations_append_apply, ht]
    · rcases hr : I (.insertUpdateInfo u.version) s₁ with ⟨_ | _, s₂⟩
      · simp only [Interp.traced, ha, hr]
        -- recording failed
        refine ⟨u.version, by omega, Or.inr ?_⟩
        rw [migrations_append_insert, migrations_append_apply, ht, List.append_assoc]
        rfl
      · simp only [Interp.traced, ha, hr]
        refine ⟨by omega, ?_⟩
        rw [migrations_append_insert, migrations_append_apply, ht, hsucc, List.append_assoc]
        rfl
  have hlast : (Interp.traced I .lastDatabaseVersion (s, [])).1 = v := hv
  have hstart : Inv (Interp.traced I .lastDatabaseVersion (s, [])).1
      (Interp.traced I .lastDatabaseVersion (s, [])).2 := by
    rw [hlast]
    refine ⟨le_refl v, ?_⟩
    rw [migrated_self]
    rfl
  have hrun := run_upgrade hstep hfuel (hlast ▸ hv0) hstart
  rw [run_traced] at hrun
  generalize run I (upgrade us fuel) s = r at hrun ⊢
  obtain ⟨_ | (e | b), s'⟩ := r
  · exact hrun.elim
  · exact Or.inr ⟨e, rfl, hrun⟩
  · obtain ⟨hb, k, hk, -, ht⟩ := hrun
    rw [hlast] at hk
    exact Or.inl ⟨k, hk, by rw [hb], ht⟩

/-- The updates of the program on a database without tables. -/
theorem upgrade_migrates_shipped :
    let I := UpgradeDb.step Query.exec ⟨databaseUpdates, none, fun _ => 0⟩
    let p := upgrade databaseUpdates 10
    let w := UpgradeDb.new Schema.empty
    (∃ k, UpTo databaseUpdates 0 k ∧ (run I p w).1 = some (.ok true) ∧
        migrations (trace I p w) = migrated 0 k) ∨
      ∃ e, (run I p w).1 = some (.error e) ∧ Threw 0 (migrations (trace I p w)) :=
  upgrade_migrates (UpgradeDb.step Query.exec ⟨databaseUpdates, none, fun _ => 0⟩) databaseUpdates
    10 (by decide) (UpgradeDb.new Schema.empty) 0 rfl (le_refl 0)

end WebDiff
