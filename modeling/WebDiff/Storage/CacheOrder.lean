import WebDiff.Framework.ServedList
import WebDiff.Model.Answers
import WebDiff.Storage.Footprint
import WebDiff.Storage.Synced

/-!
# The order of the cached lists

`getVersionsAll` and `getGroupsAll` answer from memory, where an upload appends a new name and a
restart leaves what `SELECT … ORDER BY name` returns. Both are lists served from memory in the sense
of `Framework/ServedList`, so they are what the query would return after every step exactly when the
names arrive in the order of the collation, and have no NUL byte (`listsAgree_iff`).
-/

namespace WebDiff

open Program ServedList

/-! ### Steps of the server -/

/-- A request to store an upload, or a restart of the server. -/
inductive ServerStep
  | upload (req : AddRequest)
  | restart
deriving DecidableEq, Repr

/-- The version that a step names. -/
def ServerStep.version : ServerStep → Option Bytes
  | .upload req => some req.version
  | .restart => none

/-- The group that a step names. -/
def ServerStep.group : ServerStep → Option Bytes
  | .upload req => some req.group
  | .restart => none

/-- The server after one step in which nothing fails. -/
def World.serverStep (my : MySql) (w : World) : ServerStep → World
  | .upload req => (run (World.step my) (WebDiff.upload req) w).2
  | .restart => w.restart my

/-- The server after a sequence of steps. -/
def afterSteps (my : MySql) (steps : List ServerStep) : World :=
  steps.foldl (World.serverStep my) World.empty

/-- The cached lists are what the queries return on the tables. -/
structure ListsAgree (my : MySql) (w : World) : Prop where
  versions : w.caches.getVersionsAll = getApiVersionsAll my w.db
  groups : w.caches.getGroupsAll = WebDiff.getGroupsAll my w.db

/-! ### The queries -/

/-- `SELECT … ORDER BY name`, where the name is read as a C string. -/
def selectByName {R M : Type} (my : MySql) (rowName : R → Bytes) (make : R → Bytes → M)
    (rows : List R) : List M :=
  (my.orderBy (fun a b => my.collate (rowName a) (rowName b)) rows).map
    fun r => make r (cString (rowName r))

/-- Such a query sorts the rows whose names have no NUL byte. -/
theorem sorts_selectByName (my : MySql) {R M : Type} (rowName : R → Bytes) (make : R → Bytes → M)
    {name : M → Bytes} (hname : ∀ r s, name (make r s) = s) :
    Sorts (fun r => make r (rowName r)) name (fun a b => my.collate a b = true) (fun n => 0 ∉ n)
      (selectByName my rowName make) where
  perm := by
    intro rows hclean
    apply ((my.orderBy_perm _ rows).map _).trans
    apply List.Perm.of_eq
    apply List.map_congr_left
    intro r hr
    rw [cString_eq_self (hname r (rowName r) ▸ hclean r hr)]
  sorted := by
    intro rows hclean
    have hsorted := List.pairwise_mergeSort
      (fun a b c : R => my.collate_trans (rowName a) (rowName b) (rowName c))
      (fun a b : R => my.collate_total (rowName a) (rowName b)) (my.scan rows)
    -- the names come out as they are stored
    have hself : ∀ r ∈ (my.scan rows).mergeSort
        (fun a b => my.collate (rowName a) (rowName b)), cString (rowName r) = rowName r := by
      intro r hr
      exact cString_eq_self
        (hname r (rowName r) ▸ hclean r ((my.orderBy_perm _ rows).mem_iff.mp hr))
    refine List.pairwise_map.mpr (hsorted.imp_of_mem ?_)
    intro a b ha hb hab
    rw [hname, hname, hself a ha, hself b hb]
    exact hab
  clean := by
    intro rows m hm
    obtain ⟨r, -, rfl⟩ := List.mem_map.mp hm
    rw [hname]
    exact not_mem_cString _

theorem sorts_versions (my : MySql) :
    Sorts VersionRow.toModel ModelVersion.name (fun a b => my.collate a b = true) (fun n => 0 ∉ n)
      (selectByName my VersionRow.name fun row => ModelVersion.mk row.id) :=
  sorts_selectByName my VersionRow.name (fun row => ModelVersion.mk row.id) fun _ _ => rfl

theorem sorts_groups (my : MySql) :
    Sorts FileGroupRow.toModel ModelGroup.title (fun a b => my.collate a b = true) (fun n => 0 ∉ n)
      (selectByName my FileGroupRow.name fun row => ModelGroup.mk row.id) :=
  sorts_selectByName my FileGroupRow.name (fun row => ModelGroup.mk row.id) fun _ _ => rfl

/-! ### What an upload does to the lists -/

/-- The rows of the versions, and their cached list. -/
def World.versionList (w : World) : Listed VersionRow ModelVersion :=
  ⟨w.db.versions, w.caches.versions⟩

/-- The rows of the groups, and their cached list. -/
def World.groupList (w : World) : Listed FileGroupRow ModelGroup :=
  ⟨w.db.fileGroups, w.caches.groups⟩

/-- The operations that write no version. -/
def Op.KeepsVersions : Op → Prop
  | .pushVersion _ => False
  | .sql (.insertVersion _) => False
  | _ => True

/-- The operations that write no group. -/
def Op.KeepsGroups : Op → Prop
  | .pushGroup _ => False
  | .sql (.insertGroup _) => False
  | _ => True

theorem Op.OfAddFile.keeps {P : Bytes → Prop} {o : Op} (h : o.OfAddFile P) :
    o.KeepsVersions ∧ o.KeepsGroups := by
  cases o with
  | sql s =>
    cases s with
    | insertVersion name => exact h.elim
    | insertGroup name => exact h.elim
    | _ => exact ⟨trivial, trivial⟩
  | pushVersion ver => exact h.elim
  | pushGroup gr => exact h.elim
  | _ => exact ⟨trivial, trivial⟩

section Frame

variable {α : Type} {p : Storage α} (my : MySql) (w : World)

theorem versionList_run (hp : p.Uses Op.KeepsVersions) :
    (run (World.step my) p w).2.versionList = w.versionList := by
  refine run_frame (World.step my) World.versionList (fun o w' ho => ?_) hp w
  cases o with
  | sql s =>
    cases s with
    | insertVersion name => exact ho.elim
    | _ => rfl
  | pushVersion ver => exact ho.elim
  | _ => rfl

theorem groupList_run (hp : p.Uses Op.KeepsGroups) :
    (run (World.step my) p w).2.groupList = w.groupList := by
  refine run_frame (World.step my) World.groupList (fun o w' ho => ?_) hp w
  cases o with
  | sql s =>
    cases s with
    | insertGroup name => exact ho.elim
    | _ => rfl
  | pushGroup gr => exact ho.elim
  | _ => rfl

end Frame

section Upload

variable (my : MySql) (w : World)

/-- `findVersionOrCreate` finds the name, or appends it to the table and the list. -/
theorem step_findVersionOrCreate (query : List VersionRow → List ModelVersion) (version : Bytes) :
    Step VersionRow.toModel ModelVersion.name query w.versionList (some version)
      (run (World.step my) (findVersionOrCreate version) w).2.versionList := by
  unfold findVersionOrCreate insertVersion sql Op.perform
  simp only [run_bind, run_perform, World.step]
  cases hf : w.caches.versions.find? (fun ver => ver.name = version) with
  | some ver => exact Step.of_find?_eq_some hf
  | none =>
    exact Step.of_find?_eq_none (l := w.versionList)
      (⟨my.nextId .versions VersionRow.id w.db.versions, version⟩ : VersionRow) hf

/-- `findGroupOrCreate` finds the name, or appends it to the table and the list. -/
theorem step_findGroupOrCreate (query : List FileGroupRow → List ModelGroup) (group : Bytes) :
    Step FileGroupRow.toModel ModelGroup.title query w.groupList (some group)
      (run (World.step my) (findGroupOrCreate group) w).2.groupList := by
  unfold findGroupOrCreate insertGroup sql Op.perform
  simp only [run_bind, run_perform, World.step]
  cases hf : w.caches.groups.find? (fun gr => gr.title = group) with
  | some gr => exact Step.of_find?_eq_some hf
  | none =>
    exact Step.of_find?_eq_none (l := w.groupList)
      (⟨my.nextId .fileGroups FileGroupRow.id w.db.fileGroups, group⟩ : FileGroupRow) hf

/-- An upload brings its version to the list of versions. -/
theorem versionList_upload (query : List VersionRow → List ModelVersion) (req : AddRequest) :
    Step VersionRow.toModel ModelVersion.name query w.versionList (some req.version)
      (run (World.step my) (upload req) w).2.versionList := by
  have hstep := step_findVersionOrCreate my w query req.version
  -- the rest of the upload leaves the versions alone
  have hgroup : (findGroupOrCreate req.group).Uses Op.KeepsVersions :=
    uses_findGroupOrCreate trivial trivial fun _ => trivial
  have hfiles : ∀ v g, (addFiles v g req.files).Uses Op.KeepsVersions := fun v g =>
    (uses_addFiles (List.Subset.refl req.files) v g).mono fun _ ho => ho.keeps.1
  unfold upload
  rw [run_bind]
  have hrest := versionList_run my (run (World.step my) (findVersionOrCreate req.version) w).2
    (uses_bind hgroup fun gr => uses_bind
      (hfiles (run (World.step my) (findVersionOrCreate req.version) w).1.id gr.id)
      fun _ => uses_pure ((run (World.step my) (findVersionOrCreate req.version) w).1, gr))
  rw [hrest]
  exact hstep

/-- An upload brings its group to the list of groups. -/
theorem groupList_upload (query : List FileGroupRow → List ModelGroup) (req : AddRequest) :
    Step FileGroupRow.toModel ModelGroup.title query w.groupList (some req.group)
      (run (World.step my) (upload req) w).2.groupList := by
  have hversion := groupList_run my w (p := findVersionOrCreate req.version)
    (uses_findVersionOrCreate trivial trivial fun _ => trivial)
  unfold upload
  rw [run_bind, run_bind, ← hversion]
  have hstep := step_findGroupOrCreate my
    (run (World.step my) (findVersionOrCreate req.version) w).2 query req.group
  -- neither does the storing of the files write a group
  have hfiles : ∀ v g, (addFiles v g req.files).Uses Op.KeepsGroups := fun v g =>
    (uses_addFiles (List.Subset.refl req.files) v g).mono fun _ ho => ho.keeps.2
  rw [run_bind, run_pure, groupList_run my _ (hfiles _ _)]
  exact hstep

end Upload

/-! ### All steps -/

/-- The versions the steps name, in their order. -/
def versionNames (steps : List ServerStep) : List Bytes :=
  steps.filterMap ServerStep.version

/-- The groups the steps name, in their order. -/
def groupNames (steps : List ServerStep) : List Bytes :=
  steps.filterMap ServerStep.group

theorem afterSteps_concat (my : MySql) (steps : List ServerStep) (x : ServerStep) :
    afterSteps my (steps ++ [x]) = (afterSteps my steps).serverStep my x := by
  simp [afterSteps]

/-- The versions are a list served from memory. -/
theorem versionList_step (my : MySql) (before : List ServerStep) (x : ServerStep) :
    Step VersionRow.toModel ModelVersion.name
      (selectByName my VersionRow.name fun row => ModelVersion.mk row.id)
      (afterSteps my before).versionList x.version (afterSteps my (before ++ [x])).versionList := by
  rw [afterSteps_concat]
  cases x with
  | upload req => exact versionList_upload my _ _ req
  | restart => exact Step.reloaded (l := (afterSteps my before).versionList)

/-- The groups are a list served from memory. -/
theorem groupList_step (my : MySql) (before : List ServerStep) (x : ServerStep) :
    Step FileGroupRow.toModel ModelGroup.title
      (selectByName my FileGroupRow.name fun row => ModelGroup.mk row.id)
      (afterSteps my before).groupList x.group (afterSteps my (before ++ [x])).groupList := by
  rw [afterSteps_concat]
  cases x with
  | upload req => exact groupList_upload my _ _ req
  | restart => exact Step.reloaded (l := (afterSteps my before).groupList)

/-- **When the cached lists are sorted.** Where the collation is a total order, the cached lists are
what the queries would return after every step exactly when no version and no group is named with a
NUL byte, and each name is known or not below any name before it. -/
theorem listsAgree_iff (my : MySql)
    (hanti : ∀ a b, my.collate a b = true → my.collate b a = true → a = b)
    (steps : List ServerStep) :
    (∀ before, before <+: steps → ListsAgree my (afterSteps my before)) ↔
      ((∀ n ∈ versionNames steps, 0 ∉ n) ∧
          InOrder (fun a b => my.collate a b = true) (versionNames steps)) ∧
        (∀ n ∈ groupNames steps, 0 ∉ n) ∧
          InOrder (fun a b => my.collate a b = true) (groupNames steps) := by
  have hversions := agrees_iff (fun before => (afterSteps my before).versionList) rfl
    (versionList_step my) hanti (sorts_versions my) steps
  have hgroups := agrees_iff (fun before => (afterSteps my before).groupList) rfl
    (groupList_step my) hanti (sorts_groups my) steps
  unfold versionNames groupNames
  rw [← hversions, ← hgroups]
  constructor
  · intro h
    exact ⟨fun before hpre => (h before hpre).versions, fun before hpre => (h before hpre).groups⟩
  · intro h before hpre
    exact ⟨h.1 before hpre, h.2 before hpre⟩

/-- Two versions in order, with a restart between them. -/
def inOrderSteps : List ServerStep :=
  [.upload ⟨lit "1.0", lit "core", []⟩, .restart, .upload ⟨lit "1.1", lit "core", []⟩]

theorem listsAgree_iff_inOrderSteps :
    (∀ before, before <+: inOrderSteps → ListsAgree .innodb (afterSteps .innodb before)) ↔
      ((∀ n ∈ versionNames inOrderSteps, 0 ∉ n) ∧
          InOrder (fun a b => MySql.innodb.collate a b = true) (versionNames inOrderSteps)) ∧
        (∀ n ∈ groupNames inOrderSteps, 0 ∉ n) ∧
          InOrder (fun a b => MySql.innodb.collate a b = true) (groupNames inOrderSteps) :=
  listsAgree_iff .innodb bytesLe_antisymm inOrderSteps

/-- A version that sorts before one that is there already. -/
def olderVersion : List ServerStep :=
  [.upload ⟨lit "1.1", lit "core", []⟩, .upload ⟨lit "1.0", lit "core", []⟩]

/-- The list in memory ends with the older version. -/
theorem olderVersion_not_sorted :
    (afterSteps .innodb olderVersion).caches.getVersionsAll = [⟨1, lit "1.1"⟩, ⟨2, lit "1.0"⟩] ∧
      ¬ ∀ before, before <+: olderVersion → ListsAgree .innodb (afterSteps .innodb before) := by
  have hcached : (afterSteps .innodb olderVersion).caches.getVersionsAll
      = [⟨1, lit "1.1"⟩, ⟨2, lit "1.0"⟩] := by
    decide +kernel
  refine ⟨hcached, fun h => ?_⟩
  -- the query would sort the two rows
  have hclean : ∀ row ∈ (afterSteps .innodb olderVersion).db.versions, 0 ∉ row.name := by
    decide +kernel
  have hsorted : (getApiVersionsAll .innodb (afterSteps .innodb olderVersion).db).Pairwise _ :=
    (sorts_versions .innodb).sorted _ hclean
  rw [← (h _ (List.prefix_refl _)).versions, hcached] at hsorted
  exact absurd hsorted (by decide +kernel)

end WebDiff
