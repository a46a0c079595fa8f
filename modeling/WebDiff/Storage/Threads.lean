import WebDiff.Framework.Interleaving
import WebDiff.Model.Storage

/-!
# Uploading threads

Threads that share one `MySqlStorage`, each with a connection of its own, and each running a
sequence of calls of `addFile`. Inside a call a thread takes one round of the loop of `addFile` for
every component of the path, and inside a round it stands at one of eight places between two atomic
operations (`Stage`). `Stage.program_eq` reads the next operation of the thread off its place, and
where the result of the operation leads it; so the run of the threads is the run of a machine on the
places (`run_view`).
-/

namespace WebDiff

open Program

/-! ### The threads -/

/-- One call of `addFile`. -/
structure FileCall where
  versionId : ℤ
  groupId : ℤ
  file : FileInfo
deriving DecidableEq, Repr

/-- The program of a thread: its calls one after another. -/
def addCalls : List FileCall → Storage Unit
  | [] => return ()
  | c :: rest => do
    addFile c.versionId c.groupId c.file
    addCalls rest

/-- The threads in front of their first calls. -/
def threads {ι : Type} (w : World) (calls : ι → List FileCall) : Pool Op Op.Res Unit World ι :=
  ⟨w, fun i => addCalls (calls i)⟩

/-! ### The places of a thread -/

/-- A round of the loop of `addFile`: the arguments of the call, the path read so far, the component
of the round, the components behind it, and the calls behind this one. -/
structure Round where
  versionId : ℤ
  groupId : ℤ
  read : Path
  name : Component
  rest : Path
  later : List FileCall

/-- The path of the round. -/
def Round.path (r : Round) : Path :=
  r.read ++ [r.name]

/-- The places inside a round, each in front of one operation. `d` and `f` are the variables
`nDefineFileId` and `nFileParentId` of the loop. -/
inductive Stage
  /-- the lookup of the path -/
  | findDefine (d f : ℤ)
  /-- the `INSERT` of the path, which is not in the cache -/
  | insertDefine (d f : ℤ)
  /-- the insertion of the path into the cache -/
  | putDefine (d f : ℤ)
  /-- the lookup of the file -/
  | findFile (d f : ℤ)
  /-- the `INSERT` of the file, which is not in the cache -/
  | insertFile (d f : ℤ)
  /-- the `COUNT` of the children of the parent `f` of the new row `id` -/
  | count (d f id : ℤ)
  /-- the `UPDATE` of the parent with the count `n` -/
  | update (d f id n : ℤ)
  /-- the insertion of the file into the cache -/
  | putFile (d f id : ℤ)

/-- Where a thread stands. -/
inductive Place
  | done
  | inside (r : Round) (s : Stage)

/-- The beginning of a sequence of calls. A call with an empty path does nothing. -/
def Place.begin : List FileCall → Place
  | [] => .done
  | c :: later =>
    match c.file.path with
    | [] => begin later
    | name :: rest => .inside ⟨c.versionId, c.groupId, [], name, rest, later⟩ (.findDefine 0 0)

/-- Behind the round, with the ids of its path. -/
def Round.next (r : Round) (d f : ℤ) : Place :=
  match r.rest with
  | [] => .begin r.later
  | name :: rest => .inside { r with read := r.path, name := name, rest := rest } (.findDefine d f)

/-- A sequence of calls begins with the lookup of a path, if it has anything to do. -/
theorem begin_cases (calls : List FileCall) :
    Place.begin calls = .done ∨ ∃ r d f, Place.begin calls = .inside r (.findDefine d f) := by
  induction calls with
  | nil => exact Or.inl rfl
  | cons c later ih =>
    unfold Place.begin
    split
    · exact ih
    · exact Or.inr ⟨_, _, _, rfl⟩

/-- So does what comes behind a round. -/
theorem next_cases (r : Round) (d f : ℤ) :
    r.next d f = .done ∨ ∃ r' d' f', r.next d f = .inside r' (.findDefine d' f') := by
  unfold Round.next
  split
  · exact begin_cases r.later
  · exact Or.inr ⟨_, _, _, rfl⟩

/-- What is left of the program of the thread behind the round. -/
def Round.finish (r : Round) (d f : ℤ) : Storage Unit := do
  addFileLoop r.versionId r.groupId (r.rest.map Subtype.val) (renderPath r.path) d f
  addCalls r.later

/-- What is left of the program of the thread at the place. -/
def Stage.program (r : Round) : Stage → Storage Unit
  | .findDefine d f => do
    let d ← findDefineFileIdOrCreate (renderPath r.path) r.name.val d
    let f ← findFileOrCreate r.versionId r.groupId d f
    r.finish d f
  | .insertDefine d f => do
    let d ← WebDiff.insertDefineFile (renderPath r.path) r.name.val d
    Op.perform (.putDefineFile (renderPath r.path) d)
    let f ← findFileOrCreate r.versionId r.groupId d f
    r.finish d f
  | .putDefine d f => do
    Op.perform (.putDefineFile (renderPath r.path) d)
    let f ← findFileOrCreate r.versionId r.groupId d f
    r.finish d f
  | .findFile d f => do
    let f ← findFileOrCreate r.versionId r.groupId d f
    r.finish d f
  | .insertFile d f => do
    let id ← WebDiff.insertFile r.versionId r.groupId d f
    Op.perform (.putFile r.versionId r.groupId d id)
    r.finish d id
  | .count d f id => do
    let n ← sql (.selectCount f)
    sql (.updateAmountOfChildren n f)
    Op.perform (.putFile r.versionId r.groupId d id)
    r.finish d id
  | .update d f id n => do
    sql (.updateAmountOfChildren n f)
    Op.perform (.putFile r.versionId r.groupId d id)
    r.finish d id
  | .putFile d _ id => do
    Op.perform (.putFile r.versionId r.groupId d id)
    r.finish d id

def Place.program : Place → Storage Unit
  | .done => return ()
  | .inside r s => s.program r

theorem program_begin (calls : List FileCall) : (Place.begin calls).program = addCalls calls := by
  induction calls with
  | nil => rfl
  | cons c later ih =>
    rw [addCalls, addFile_eq, Place.begin]
    split
    · next hpath =>
      -- an empty path takes no round
      rw [hpath, List.map_nil, addFileLoop, ih]
      rfl
    · next name rest hpath =>
      -- the first round of a call starts at the root, whose path is empty
      have hread : renderPath ([] ++ [name]) = [] ++ slash :: name.val := renderPath_concat [] name
      rw [hpath, List.map_cons, addFileLoop, if_neg name.property.1, ← hread]
      simp only [bind_assoc]
      rfl

theorem program_next (r : Round) (d f : ℤ) : (r.next d f).program = r.finish d f := by
  unfold Round.next Round.finish
  cases hrest : r.rest with
  -- the path is used up, and the next call begins
  | nil => exact program_begin r.later
  | cons name rest =>
    rw [List.map_cons, addFileLoop, if_neg name.property.1, ← renderPath_concat]
    simp only [bind_assoc]
    rfl

/-! ### The steps of a thread -/

/-- The operation at the place. -/
def Stage.op (r : Round) : Stage → Op
  | .findDefine _ _ => .findDefineFile (renderPath r.path)
  | .insertDefine d _ => .sql (.insertDefineFile (renderPath r.path) r.name.val d)
  | .putDefine d _ => .putDefineFile (renderPath r.path) d
  | .findFile d _ => .findFile r.versionId r.groupId d
  | .insertFile d f => .sql (.insertFile r.versionId r.groupId d f)
  | .count _ f _ => .sql (.selectCount f)
  | .update _ f _ n => .sql (.updateAmountOfChildren n f)
  | .putFile d _ id => .putFile r.versionId r.groupId d id

/-- The place behind the operation, which finds the world `w`. -/
def Stage.next (my : MySql) (r : Round) (w : World) : Stage → Place
  | .findDefine d f =>
    match w.caches.defineFileIds (renderPath r.path) with
    | some d => .inside r (.findFile d f)
    | none => .inside r (.insertDefine d f)
  | .insertDefine _ f =>
    .inside r (.putDefine (my.nextId .defineFiles DefineFileRow.id w.db.defineFiles) f)
  | .putDefine d f => .inside r (.findFile d f)
  | .findFile d f =>
    let id := w.caches.fileIds.findFileId r.versionId r.groupId d
    if id ≠ -1 then r.next d id else .inside r (.insertFile d f)
  | .insertFile d f => .inside r (.count d f (my.nextId .files FileLink.id w.db.links))
  | .count d f id => .inside r (.update d f id (w.db.links.countP fun l => l.parentId = f : ℕ))
  | .update d f id _ => .inside r (.putFile d f id)
  | .putFile d _ id => r.next d id

/-- **One step.** The program at a place is its operation and the program at the place behind. -/
theorem Stage.program_eq (my : MySql) (r : Round) (s : Stage) :
    ∃ k, s.program r = .step (s.op r) k ∧
      ∀ w, k (World.step my (s.op r) w).1 = (s.next my r w).program := by
  cases s with
  -- the answers of the two lookups decide where the thread goes; the others have one way on
  | findDefine d f =>
    refine ⟨_, rfl, fun w => ?_⟩
    simp only [Stage.op, World.step, Stage.next]
    cases w.caches.defineFileIds (renderPath r.path) <;> rfl
  | findFile d f =>
    refine ⟨_, rfl, fun w => ?_⟩
    change (createFileIfAbsent r.versionId r.groupId d f
        (w.caches.fileIds.findFileId r.versionId r.groupId d) >>= fun f => r.finish d f) = _
    by_cases hid : w.caches.fileIds.findFileId r.versionId r.groupId d ≠ -1
    · simp only [createFileIfAbsent, Stage.next, if_pos hid, pure_bind, program_next]
    · simp only [createFileIfAbsent, Stage.next, if_neg hid, bind_assoc, pure_bind]
      rfl
  | putFile d f id => exact ⟨_, rfl, fun w => (program_next r d id).symm⟩
  | insertDefine d f => exact ⟨_, rfl, fun _ => rfl⟩
  | putDefine d f => exact ⟨_, rfl, fun _ => rfl⟩
  | insertFile d f => exact ⟨_, rfl, fun _ => rfl⟩
  | count d f id => exact ⟨_, rfl, fun _ => rfl⟩
  | update d f id n => exact ⟨_, rfl, fun _ => rfl⟩

/-! ### The machine -/

/-- A world, and the places of the threads that share it. -/
structure Shared (ι : Type) where
  world : World
  places : ι → Place

namespace Shared

variable {ι : Type}

/-- The threads at their places. -/
def view (s : Shared ι) : Pool Op Op.Res Unit World ι :=
  ⟨s.world, fun i => (s.places i).program⟩

variable [DecidableEq ι] (my : MySql)

/-- The thread takes the step from its place. -/
def step (s : Shared ι) (i : ι) : Shared ι :=
  match s.places i with
  | .done => s
  | .inside r st =>
    ⟨(World.step my (st.op r) s.world).2, Function.update s.places i (st.next my r s.world)⟩

variable {my} {s : Shared ι} {i : ι}

theorem step_done (h : s.places i = .done) : s.step my i = s := by
  unfold step
  rw [h]

theorem step_inside {r : Round} {st : Stage} (h : s.places i = .inside r st) :
    s.step my i
      = ⟨(World.step my (st.op r) s.world).2,
          Function.update s.places i (st.next my r s.world)⟩ := by
  unfold step
  rw [h]

omit [DecidableEq ι] in
theorem next_done (h : s.places i = .done) : s.view.next i = none := by
  simp only [Pool.next, view, h, Place.program]
  rfl

omit [DecidableEq ι] in
theorem next_inside {r : Round} {st : Stage} (h : s.places i = .inside r st) :
    s.view.next i = some (st.op r) := by
  obtain ⟨k, hk, -⟩ := st.program_eq MySql.innodb r
  simp only [Pool.next, view, h, Place.program, hk]

omit [DecidableEq ι] in
theorem finished_iff : s.view.Finished ↔ ∀ i, s.places i = .done := by
  refine forall_congr' fun i => ⟨fun h => ?_, next_done⟩
  cases hplace : s.places i with
  | done => rfl
  | inside r st =>
    rw [next_inside hplace] at h
    cases h

/-- The machine takes the steps of the threads. -/
theorem step_view (s : Shared ι) (i : ι) :
    s.view.step (World.step my) i = (s.step my i).view := by
  cases hplace : s.places i with
  | done =>
    rw [step_done hplace]
    simp only [Pool.step, view, hplace, Place.program]
    rfl
  | inside r st =>
    obtain ⟨k, hk, hnext⟩ := st.program_eq my r
    rw [step_inside hplace]
    simp only [Pool.step, view, hplace, Place.program, hk, hnext]
    congr 1
    -- only the thread that took the step is at another place
    funext j
    by_cases hj : j = i
    · subst hj
      rw [Function.update_self, Function.update_self]
    · rw [Function.update_of_ne hj, Function.update_of_ne hj]

variable (my)

/-- The threads in front of their first calls. -/
def start (w : World) (calls : ι → List FileCall) : Shared ι :=
  ⟨w, fun i => .begin (calls i)⟩

omit [DecidableEq ι] in
theorem view_start (w : World) (calls : ι → List FileCall) :
    (start w calls).view = threads w calls := by
  simp only [view, start, threads, program_begin]

/-- The machine after the steps of the schedule. -/
def run (s : Shared ι) (schedule : List ι) : Shared ι :=
  schedule.foldl (step my) s

theorem run_view (s : Shared ι) (schedule : List ι) :
    s.view.run (World.step my) schedule = (s.run my schedule).view :=
  Pool.run_view _ _ (fun s i => step_view s i) s schedule

end Shared

end WebDiff
