import Mathlib.Data.List.Induction
import WebDiff.Storage.Synced

/-!
# Failing statements

`Program.exec` runs a call up to the statement that fails. The rules `wp_…` say what holds when a
find-or-create function returns, and in front of every statement it may fail at.
-/

namespace WebDiff

open Program

/-- The statements `insertFile` executes after its `INSERT`. -/
def Op.isRecount : Op → Bool
  | .sql (.selectCount _) => true
  | .sql (.updateAmountOfChildren _ _) => true
  | _ => false

variable {my : MySql} {w : World}

/-- What is known where a run stops: the caches are in step unless the statement is one of the two
behind the `INSERT` of `insertFile`. -/
def StopsAt (o : Op) (w : World) : Prop :=
  Synced w ↔ o.isRecount = false

theorem Synced.stopsAt (h : Synced w) {o : Op} (ho : o.isRecount = false) : StopsAt o w :=
  ⟨fun _ => ho, fun _ => h⟩

theorem wp_findVersionOrCreate (h : Synced w) (version : Bytes) :
    wp (World.step my) Op.isSql (findVersionOrCreate version) (fun _ w' => Synced w') StopsAt
      w := by
  unfold findVersionOrCreate insertVersion sql Op.perform
  simp only [wp_bind, wp_perform, World.step]
  refine ⟨fun hsql => absurd hsql (by simp [Op.isSql]), ?_⟩
  cases hf : w.caches.versions.find? (fun ver => ver.name = version) with
  | some ver => exact h
  | none =>
    have hnew : ∀ ver ∈ w.caches.versions, ver.name ≠ version := by
      simpa using List.find?_eq_none.mp hf
    simp only [wp_bind, wp_perform, wp_pure, World.step]
    exact ⟨fun _ => h.stopsAt rfl, fun hsql => absurd hsql (by simp [Op.isSql]),
      h.insertVersion hnew⟩

theorem wp_findGroupOrCreate (h : Synced w) (group : Bytes) :
    wp (World.step my) Op.isSql (findGroupOrCreate group) (fun _ w' => Synced w') StopsAt w := by
  unfold findGroupOrCreate insertGroup sql Op.perform
  simp only [wp_bind, wp_perform, World.step]
  refine ⟨fun hsql => absurd hsql (by simp [Op.isSql]), ?_⟩
  cases hf : w.caches.groups.find? (fun gr => gr.title = group) with
  | some gr => exact h
  | none =>
    have hnew : ∀ gr ∈ w.caches.groups, gr.title ≠ group := by
      simpa using List.find?_eq_none.mp hf
    simp only [wp_bind, wp_perform, wp_pure, World.step]
    exact ⟨fun _ => h.stopsAt rfl, fun hsql => absurd hsql (by simp [Op.isSql]), h.insertGroup hnew⟩

theorem wp_findDefineFileIdOrCreate (h : Synced w) (path name : Bytes) (parent : ℤ) :
    wp (World.step my) Op.isSql (findDefineFileIdOrCreate path name parent)
      (fun _ w' => Synced w') StopsAt w := by
  unfold findDefineFileIdOrCreate WebDiff.insertDefineFile sql Op.perform
  simp only [wp_bind, wp_perform, World.step]
  refine ⟨fun hsql => absurd hsql (by simp [Op.isSql]), ?_⟩
  cases hf : w.caches.defineFileIds path with
  | some id => exact h
  | none =>
    simp only [wp_bind, wp_perform, wp_pure, World.step]
    exact ⟨fun _ => h.stopsAt rfl, fun hsql => absurd hsql (by simp [Op.isSql]),
      h.insertDefineFile hf⟩

theorem wp_findFileOrCreate (h : Synced w) (v g d parent : ℤ) :
    wp (World.step my) Op.isSql (findFileOrCreate v g d parent)
      (fun _ w' => Synced w') StopsAt w := by
  unfold findFileOrCreate Op.perform
  simp only [wp_bind, wp_perform]
  refine ⟨fun hsql => absurd hsql (by simp [Op.isSql]), ?_⟩
  change wp _ _ (createFileIfAbsent v g d parent (w.caches.fileIds.findFileId v g d)) _ _ w
  unfold createFileIfAbsent WebDiff.insertFile sql Op.perform
  split
  · exact h
  · next hf =>
    have hnew : w.caches.fileIds.lookup (v, g, d) = none :=
      h.findFileId_eq_neg_one.mp (not_not.mp hf)
    simp only [wp_bind, wp_perform, wp_pure, World.step]
    -- between the `INSERT` and the cache entry the row is unknown to the caches
    have hgap : ¬ Synced ⟨((Sql.insertFile v g d parent).exec my w.db).2, w.caches⟩ :=
      not_synced_insertFile hnew
    exact ⟨fun _ => h.stopsAt rfl, fun _ => ⟨fun hs => absurd hs hgap, fun ho => by cases ho⟩,
      fun _ => ⟨fun hs => absurd hs hgap, fun ho => by cases ho⟩,
      fun hsql => absurd hsql (by simp [Op.isSql]), (h.insertFile hnew).updateAmount _ _⟩

/-- Every round of the loop starts from caches that are in step. -/
theorem wp_addFileLoop (h : Synced w) (v g : ℤ) (names : List Bytes) (path : Bytes) (d f : ℤ) :
    wp (World.step my) Op.isSql (addFileLoop v g names path d f)
      (fun _ w' => Synced w') StopsAt w := by
  induction names generalizing w path d f with
  | nil => exact h
  | cons name rest ih =>
    unfold addFileLoop
    split
    · exact ih h path d f
    · simp only [wp_bind]
      refine wp_mono _ (wp_findDefineFileIdOrCreate h _ _ _) (fun d' w' h' => ?_) fun _ _ he => he
      exact wp_mono _ (wp_findFileOrCreate h' _ _ _ _) (fun f' w'' h'' => ih h'' _ _ _)
        fun _ _ he => he

theorem wp_addFile (h : Synced w) (v g : ℤ) (file : FileInfo) :
    wp (World.step my) Op.isSql (addFile v g file) (fun _ w' => Synced w') StopsAt w := by
  unfold addFile
  split
  · exact h
  · exact wp_addFileLoop h v g _ _ _ _

/-! ### Sequences of calls -/

/-- A call on one `MySqlStorage`. -/
inductive Call
  | findVersionOrCreate (version : Bytes)
  | findGroupOrCreate (group : Bytes)
  | addFile (versionId groupId : ℤ) (file : FileInfo)
deriving DecidableEq, Repr

/-- The program of a call, without its result. -/
def Call.program : Call → Storage Unit
  | .findVersionOrCreate version => do
    let _ ← WebDiff.findVersionOrCreate version
    return ()
  | .findGroupOrCreate group => do
    let _ ← WebDiff.findGroupOrCreate group
    return ()
  | .addFile versionId groupId file => WebDiff.addFile versionId groupId file

theorem wp_call (h : Synced w) (c : Call) :
    wp (World.step my) Op.isSql c.program (fun _ w' => Synced w') StopsAt w := by
  cases c with
  | findVersionOrCreate version =>
    simp only [Call.program, wp_bind, wp_pure]
    exact wp_findVersionOrCreate h version
  | findGroupOrCreate group =>
    simp only [Call.program, wp_bind, wp_pure]
    exact wp_findGroupOrCreate h group
  | addFile v g file => exact wp_addFile h v g file

/-- A call and the number of its statement that fails, if one does. -/
abbrev Attempt := Call × Option ℕ

/-- How a call ended: it returned, or threw at a statement. -/
def Attempt.exec (my : MySql) (a : Attempt) (w : World) : Except Op Unit × World :=
  Program.exec (World.step my) Op.isSql a.1.program a.2 w

/-- The world after a sequence of calls on one object. The caller carries on after a throw. -/
def runAttempts (my : MySql) (attempts : List Attempt) (w : World) : World :=
  attempts.foldl (fun w a => (a.exec my w).2) w

/-- The call throws at one of the statements `insertFile` executes after its `INSERT`. -/
def Attempt.FailsAtRecount (my : MySql) (a : Attempt) (w : World) : Prop :=
  ∃ o, (a.exec my w).1 = .error o ∧ o.isRecount = true

/-- **One call.** From caches in step, a call leaves them in step exactly when it does not throw at
a statement behind the `INSERT` of `insertFile`. -/
theorem Attempt.synced_iff (h : Synced w) (a : Attempt) :
    Synced (a.exec my w).2 ↔ ¬ a.FailsAtRecount my w := by
  have hwp := wp_exec (World.step my) (wp_call h a.1) a.2
  unfold FailsAtRecount
  rcases hexec : a.exec my w with ⟨r, w'⟩
  cases r with
  | ok u => simp [hwp.1 u w' hexec]
  | error o =>
    have hstop : Synced w' ↔ o.isRecount = false := hwp.2 o w' hexec
    simp [hstop]

theorem runAttempts_concat (pre : List Attempt) (a : Attempt) (w : World) :
    runAttempts my (pre ++ [a]) w = (a.exec my (runAttempts my pre w)).2 := by
  simp [runAttempts]

/-- **Failures and the caches.** In a sequence of calls in which any statement may fail, the caches
hold exactly the rows of the tables after every call, and no path and no file is stored twice,
exactly when no call throws behind the `INSERT` of `insertFile`. -/
theorem synced_runAttempts_iff (h : Synced w) (attempts : List Attempt) :
    (∀ pre, pre <+: attempts → Synced (runAttempts my pre w)) ↔
      ∀ pre a, pre ++ [a] <+: attempts → ¬ a.FailsAtRecount my (runAttempts my pre w) := by
  constructor
  · intro hs pre a hpre
    rw [← Attempt.synced_iff (hs pre ((List.prefix_append _ _).trans hpre)) a,
      ← runAttempts_concat]
    exact hs _ hpre
  · intro hno pre
    -- along the prefixes, one call at a time
    induction pre using List.reverseRecOn with
    | nil => exact fun _ => h
    | append_singleton pre a ih =>
      intro hpre
      rw [runAttempts_concat, Attempt.synced_iff (ih ((List.prefix_append _ _).trans hpre)) a]
      exact hno pre a hpre

/-- A file description with nothing but a path. -/
def fileInfo (filePath : Bytes) : FileInfo := ⟨filePath, 0, 0, [], false, []⟩

/-- The two calls of the failure below: the `COUNT` of the first one fails, the second one stores
the same path again. -/
def countFailure : List Attempt :=
  [(.addFile 1 1 (fileInfo (lit "a")), some 2), (.addFile 1 1 (fileInfo (lit "a")), none)]

/-- The failing `COUNT` leaves a row the caches do not know, and the same path uploaded again gets a
second row. -/
theorem countFailure_stores_twice :
    ¬ Cached (runAttempts .innodb (countFailure.take 1) World.empty).db
        (runAttempts .innodb (countFailure.take 1) World.empty).caches ∧
      ¬ ((runAttempts .innodb countFailure World.empty).db.links.map FileLink.key).Nodup := by
  refine ⟨fun h => ?_, by decide⟩
  have hnone : ∀ row ∈ (runAttempts .innodb (countFailure.take 1) World.empty).db.links,
      row.key ≠ (1, 1, 1) := h.fileIds_eq_none.mp rfl
  exact hnone ⟨1, 1, 1, 1, 0⟩ (by decide) rfl

/-- The same two calls with nothing failing. -/
theorem synced_runAttempts_iff_calls :
    Synced (runAttempts .innodb (countFailure.map fun a => (a.1, none)) World.empty) := by
  refine (synced_runAttempts_iff Synced.empty _).mpr (fun pre a hpre => ?_) _ List.prefix_rfl
  rintro ⟨o, ho, -⟩
  have ha : a.2 = none := by
    obtain ⟨b, -, hb⟩ := List.mem_map.mp (hpre.subset (List.mem_append_right _ List.mem_cons_self))
    exact hb ▸ rfl
  rw [Attempt.exec, ha, run_eq_exec] at ho
  cases ho

end WebDiff
