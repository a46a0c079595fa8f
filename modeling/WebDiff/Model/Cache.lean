import Mathlib.Logic.Function.Basic
import Mathlib.Data.Int.Order.Basic
import Mathlib.Tactic.Common

/-!
# The file id cache

`models_cache.cpp`: three nested hash maps, from the version to the group to the define id to the
file id. A hash map is the function that looks its keys up. `lookup` reads the three levels as one
map, and `lookup_add` says that `add` updates that map at one triple.
-/

namespace WebDiff

/-- `ModelCacheFiles`: from define ids to file ids. -/
structure ModelCacheFiles where
  cacheFiles : ℤ → Option ℤ

/-- `ModelCacheGroups`: from group ids to the caches of the groups. -/
structure ModelCacheGroups where
  cacheFileDefinesIds : ℤ → Option ModelCacheFiles

/-- `ModelCacheFilesVersion`: from version ids to the caches of the versions. -/
structure ModelCacheFilesVersion where
  cacheGroups : ℤ → Option ModelCacheGroups

namespace ModelCacheFiles

/-- The empty map. -/
def new : ModelCacheFiles := ⟨fun _ => none⟩

def findFileId (c : ModelCacheFiles) (defineFileId : ℤ) : ℤ :=
  match c.cacheFiles defineFileId with
  | some fileId => fileId
  | none => -1

def add (c : ModelCacheFiles) (defineFileId fileId : ℤ) : ModelCacheFiles :=
  ⟨Function.update c.cacheFiles defineFileId (some fileId)⟩

end ModelCacheFiles

namespace ModelCacheGroups

/-- The empty map. -/
def new : ModelCacheGroups := ⟨fun _ => none⟩

def findFileId (c : ModelCacheGroups) (groupId defineFileId : ℤ) : ℤ :=
  match c.cacheFileDefinesIds groupId with
  | some files => files.findFileId defineFileId
  | none => -1

/-- `add` inserts an empty map for a group it does not know yet. -/
def add (c : ModelCacheGroups) (groupId defineFileId fileId : ℤ) : ModelCacheGroups :=
  let files := (c.cacheFileDefinesIds groupId).getD ModelCacheFiles.new
  ⟨Function.update c.cacheFileDefinesIds groupId (some (files.add defineFileId fileId))⟩

end ModelCacheGroups

namespace ModelCacheFilesVersion

/-- The empty map. -/
def new : ModelCacheFilesVersion := ⟨fun _ => none⟩

def findFileId (c : ModelCacheFilesVersion) (versionId groupId defineFileId : ℤ) : ℤ :=
  match c.cacheGroups versionId with
  | some groups => groups.findFileId groupId defineFileId
  | none => -1

/-- `add` inserts an empty map for a version it does not know yet. -/
def add (c : ModelCacheFilesVersion) (versionId groupId defineFileId fileId : ℤ) :
    ModelCacheFilesVersion :=
  let groups := (c.cacheGroups versionId).getD ModelCacheGroups.new
  ⟨Function.update c.cacheGroups versionId (some (groups.add groupId defineFileId fileId))⟩

/-- The three levels read as one map. -/
def lookup (c : ModelCacheFilesVersion) (key : ℤ × ℤ × ℤ) : Option ℤ := do
  let groups ← c.cacheGroups key.1
  let files ← groups.cacheFileDefinesIds key.2.1
  files.cacheFiles key.2.2

@[simp] theorem lookup_new (key : ℤ × ℤ × ℤ) : new.lookup key = none := rfl

/-- `-1` is the answer for an absent key. -/
theorem findFileId_eq (c : ModelCacheFilesVersion) (versionId groupId defineFileId : ℤ) :
    c.findFileId versionId groupId defineFileId
      = (c.lookup (versionId, groupId, defineFileId)).getD (-1) := by
  unfold findFileId lookup
  cases hv : c.cacheGroups versionId with
  | none => simp
  | some groups =>
    simp only [Option.bind_eq_bind, Option.bind_some, ModelCacheGroups.findFileId]
    cases hg : groups.cacheFileDefinesIds groupId with
    | none => simp
    | some files =>
      simp only [Option.bind_some, ModelCacheFiles.findFileId]
      cases files.cacheFiles defineFileId <;> rfl

/-- `add` changes the answer at its own triple and nowhere else. -/
theorem lookup_add (c : ModelCacheFilesVersion) (versionId groupId defineFileId fileId : ℤ)
    (key : ℤ × ℤ × ℤ) :
    (c.add versionId groupId defineFileId fileId).lookup key
      = if key = (versionId, groupId, defineFileId) then some fileId else c.lookup key := by
  obtain ⟨v, g, d⟩ := key
  by_cases hv : v = versionId
  · subst hv
    by_cases hg : g = groupId
    · subst hg
      by_cases hd : d = defineFileId
      · subst hd
        simp [lookup, add, ModelCacheGroups.add, ModelCacheFiles.add]
      · -- the same inner map with another key, whether that map existed or is new
        have hne : (v, g, d) ≠ (v, g, defineFileId) := by simp [hd]
        rw [if_neg hne]
        cases hc : c.cacheGroups v with
        | none =>
          simp [lookup, add, ModelCacheGroups.add, ModelCacheFiles.add, hc, hd,
            ModelCacheGroups.new, ModelCacheFiles.new]
        | some groups =>
          cases hf : groups.cacheFileDefinesIds g <;>
            simp [lookup, add, ModelCacheGroups.add, ModelCacheFiles.add, hc, hf, hd,
              ModelCacheFiles.new]
    · have hne : (v, g, d) ≠ (v, groupId, defineFileId) := by simp [hg]
      rw [if_neg hne]
      cases hc : c.cacheGroups v <;>
        simp [lookup, add, ModelCacheGroups.add, hc, hg, ModelCacheGroups.new]
  · have hne : (v, g, d) ≠ (versionId, groupId, defineFileId) := by simp [hv]
    rw [if_neg hne]
    simp [lookup, add, hv]

theorem lookup_add_eq_update (c : ModelCacheFilesVersion)
    (versionId groupId defineFileId fileId : ℤ) :
    (c.add versionId groupId defineFileId fileId).lookup
      = Function.update c.lookup (versionId, groupId, defineFileId) (some fileId) := by
  funext key
  rw [lookup_add, Function.update_apply]

/-- A loop of calls of `add` is a loop of updates. -/
theorem lookup_foldl_add {T : Type} (versionId groupId defineFileId fileId : T → ℤ) (rows : List T)
    (c : ModelCacheFilesVersion) :
    (rows.foldl (fun c row =>
        c.add (versionId row) (groupId row) (defineFileId row) (fileId row)) c).lookup
      = rows.foldl (fun (m : ℤ × ℤ × ℤ → Option ℤ) row =>
          Function.update m (versionId row, groupId row, defineFileId row) (some (fileId row)))
        c.lookup := by
  induction rows generalizing c with
  | nil => rfl
  | cons row rest ih => rw [List.foldl_cons, ih, List.foldl_cons, lookup_add_eq_update]

end ModelCacheFilesVersion

end WebDiff
