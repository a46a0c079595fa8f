import WebDiff.Framework.Table
import WebDiff.Model.Cache

/-!
# The file id cache as one map

The three levels of `ModelCacheFilesVersion` are one map from triples to file ids. A sequence of
calls of `add` fills it like a table is read into a map, so the last call decides the answer at its
triple (`findFileId_addAll`).
-/

namespace WebDiff

/-- A call of `ModelCacheFilesVersion::add`. -/
structure CacheAdd where
  versionId : ℤ
  groupId : ℤ
  defineFileId : ℤ
  fileId : ℤ
deriving DecidableEq, Repr

/-- The triple the call is about. -/
def CacheAdd.key (a : CacheAdd) : ℤ × ℤ × ℤ :=
  (a.versionId, a.groupId, a.defineFileId)

namespace ModelCacheFilesVersion

/-- The cache after a sequence of calls on an empty one. -/
def addAll (adds : List CacheAdd) : ModelCacheFilesVersion :=
  adds.foldl (fun c a => c.add a.versionId a.groupId a.defineFileId a.fileId) new

theorem lookup_addAll (adds : List CacheAdd) (key : ℤ × ℤ × ℤ) :
    (addAll adds).lookup key
      = (adds.filter fun a => a.key = key).getLast?.map CacheAdd.fileId := by
  unfold addAll
  rw [lookup_foldl_add]
  exact (Table.foldl_update_eq_getLast? adds new.lookup key).trans (Option.or_none)

/-- **The cache is a flat map.** After any calls of `add`, `findFileId` answers with the file id of
the last call for exactly this triple, and with `-1` if there was none; and a call for another
triple changes no answer. -/
theorem findFileId_addAll (adds : List CacheAdd) (versionId groupId defineFileId : ℤ) :
    (addAll adds).findFileId versionId groupId defineFileId
        = ((adds.filter fun a => a.key = (versionId, groupId, defineFileId)).getLast?.map
            CacheAdd.fileId).getD (-1) ∧
      ∀ a : CacheAdd, a.key ≠ (versionId, groupId, defineFileId) →
        ((addAll adds).add a.versionId a.groupId a.defineFileId a.fileId).findFileId
            versionId groupId defineFileId
          = (addAll adds).findFileId versionId groupId defineFileId := by
  refine ⟨by rw [findFileId_eq, lookup_addAll], fun a ha => ?_⟩
  have hne : (versionId, groupId, defineFileId) ≠ (a.versionId, a.groupId, a.defineFileId) :=
    Ne.symm ha
  rw [findFileId_eq, findFileId_eq, lookup_add, if_neg hne]

end ModelCacheFilesVersion

end WebDiff
