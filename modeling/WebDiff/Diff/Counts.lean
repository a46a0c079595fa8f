import Mathlib.Algebra.Ring.Nat
import WebDiff.Diff.Groups
import WebDiff.Diff.Rows
import WebDiff.Model.Answers

/-!
# The numbers of the diff

The ids of the three tables are all that the diff needs to count its entries once: whatever the
other columns say, the two passes find different rows and the search for the parents adds only rows
that have no entry in the group (`nodup_entries`). So no member of the JSON is written twice, and
the numbers in it are those of the entries (`counts_getDiff`).
-/

namespace WebDiff

namespace ModelDiffGroups

/-- What `toJson` says of a group. -/
def groupJson (d : ModelDiffGroups) (groupId : ℤ) : Json :=
  (d.toJson.member (lit "groups")).member (lit "group" ++ decimal groupId)

theorem decimal_key_injective (stem : Bytes) :
    Function.Injective fun n : ℤ => stem ++ decimal n :=
  fun _ _ h => decimal_injective (List.append_cancel_left h)

theorem nodup_groupKeys (d : ModelDiffGroups) :
    (d.mapGroups.toList.map fun g => lit "group" ++ decimal g.1).Nodup := by
  have hnodup : (d.mapGroups.toList.map Prod.fst).Nodup := by
    rw [Std.TreeMap.map_fst_toList_eq_keys]
    exact d.mapGroups.nodup_keys
  have hmap := hnodup.map (decimal_key_injective (lit "group"))
  rwa [List.map_map] at hmap

/-- The groups of the JSON are those of the map. -/
theorem members_groups (d : ModelDiffGroups) :
    (d.toJson.member (lit "groups")).members.Perm
      (d.mapGroups.toList.map fun g => (lit "group" ++ decimal g.1, g.2.toJson)) := by
  have hne : lit "groups" ≠ lit "comments" := by decide
  have hgroups : d.toJson.member (lit "groups")
      = d.mapGroups.toList.foldl
          (fun j g => j.put (lit "group" ++ decimal g.1) g.2.toJson) .null := by
    have hstart : (Json.null.put (lit "groups") .null).isSubscriptable := rfl
    have hcomments : ((d.putGroups (Json.null.put (lit "groups") .null)).put (lit "comments")
        .null).isSubscriptable := by
      rw [Json.isSubscriptable_put, putGroups, isSubscriptable_foldl_putIn]
      exact hstart
    show (d.putComments _).member _ = _
    rw [putComments, member_foldl_putIn _ _ _ _ _ hcomments, if_neg hne,
      Json.member_put ((Json.isSubscriptable_put _ _ _).symm.trans hcomments), if_neg hne,
      putGroups, member_foldl_putIn _ _ _ _ _ hstart, if_pos rfl, Json.member_put rfl, if_pos rfl]
  -- the keys are different, so no `put` replaces a member
  rw [hgroups]
  exact Json.members_foldl_put _ rfl d.nodup_groupKeys fun _ _ _ hm => absurd hm List.not_mem_nil

theorem groupJson_eq {d : ModelDiffGroups} {groupId : ℤ} {G : ModelDiffGroup}
    (h : d.mapGroups[groupId]? = some G) : d.groupJson groupId = G.toJson := by
  have hperm := d.members_groups
  have hmem : (groupId, G) ∈ d.mapGroups.toList :=
    Std.TreeMap.mem_toList_iff_getElem?_eq_some.mpr h
  have hjson : (lit "group" ++ decimal groupId, G.toJson) ∈
      (d.toJson.member (lit "groups")).members :=
    hperm.mem_iff.mpr (List.mem_map.mpr ⟨_, hmem, rfl⟩)
  unfold groupJson
  refine Json.member_eq_of_mem ?_ hjson
  rw [(hperm.map Prod.fst).nodup_iff, List.map_map]
  exact d.nodup_groupKeys

/-- `getFilesLength` adds up the entries of the groups. -/
theorem getFilesLength_eq (d : ModelDiffGroups) :
    d.getFilesLength = (d.mapGroups.keys.map fun g => (d.entries g).length).sum := by
  -- for the induction the counter starts anywhere
  have hfold : ∀ (gs : List (ℤ × ModelDiffGroup)) (n : ℕ),
      gs.foldl (fun ret g => ret + g.2.size) n = n + (gs.map fun g => g.2.size).sum := by
    intro gs
    induction gs with
    | nil => exact fun _ => rfl
    | cons g rest ih =>
      intro n
      rw [List.foldl_cons, ih, List.map_cons, List.sum_cons, Nat.add_assoc]
  unfold getFilesLength
  rw [hfold, Nat.zero_add, ← Std.TreeMap.map_fst_toList_eq_keys, List.map_map]
  congr 1
  refine List.map_congr_left fun g hg => ?_
  have hget : d.mapGroups[g.1]? = some g.2 := Std.TreeMap.mem_toList_iff_getElem?_eq_some.mp hg
  show g.2.size = (d.entries g.1).length
  rw [entries_of_mem hget]
  rfl

end ModelDiffGroups

/-- Entries with different ids are different members of `files`. -/
theorem ModelDiffGroup.members_filesToJson {G : ModelDiffGroup}
    (h : (G.fileDiffs.map ModelDiffFile.id).Nodup) :
    G.filesToJson.members.Perm
      (G.fileDiffs.map fun e => (lit "id" ++ decimal e.id, e.toJson)) := by
  have hkeys : (G.fileDiffs.map fun e => lit "id" ++ decimal e.id).Nodup := by
    have hmap := h.map (ModelDiffGroups.decimal_key_injective (lit "id"))
    rwa [List.map_map] at hmap
  exact Json.members_foldl_put _ rfl hkeys fun _ _ _ hm => absurd hm List.not_mem_nil

/-- The entries of a group, and the numbers made of them, count every file once. -/
structure CountsOnce (d : ModelDiffGroups) : Prop where
  nodup : ∀ g, ((d.entries g).map ModelDiffFile.id).Nodup
  new : ∀ g ∈ d.mapGroups, (d.groupJson g).member (lit "new")
    = .numberInteger ((d.entries g).countP fun e => e.state = .new)
  missing : ∀ g ∈ d.mapGroups, (d.groupJson g).member (lit "missing")
    = .numberInteger ((d.entries g).countP fun e => e.state = .missing)
  files : ∀ g ∈ d.mapGroups, ((d.groupJson g).member (lit "files")).members.Perm
    ((d.entries g).map fun e => (lit "id" ++ decimal e.id, e.toJson))
  length : d.getFilesLength = (d.mapGroups.keys.map fun g => (d.entries g).length).sum

/-- The entries are counted once as soon as their ids are different. -/
theorem countsOnce_iff (d : ModelDiffGroups) :
    CountsOnce d ↔ ∀ g, ((d.entries g).map ModelDiffFile.id).Nodup := by
  refine ⟨CountsOnce.nodup, fun h => ?_⟩
  have hgroup : ∀ g ∈ d.mapGroups, ∃ G : ModelDiffGroup,
      d.groupJson g = G.toJson ∧ d.entries g = G.fileDiffs := by
    intro g hg
    obtain ⟨G, hG⟩ := Option.isSome_iff_exists.mp (Std.TreeMap.mem_iff_isSome_getElem?.mp hg)
    exact ⟨G, ModelDiffGroups.groupJson_eq hG, ModelDiffGroups.entries_of_mem hG⟩
  -- the two numbers are the invariant of `ModelDiffGroup`, the members need the different ids
  refine ⟨h, fun g hg => ?_, fun g hg => ?_, fun g hg => ?_, d.getFilesLength_eq⟩
  · obtain ⟨G, hjson, hentries⟩ := hgroup g hg
    rw [hjson, hentries, ← G.newFiles_eq]
    rfl
  · obtain ⟨G, hjson, hentries⟩ := hgroup g hg
    rw [hjson, hentries, ← G.missingFiles_eq]
    rfl
  · obtain ⟨G, hjson, hentries⟩ := hgroup g hg
    have hnodup := h g
    rw [hentries] at hnodup
    rw [hjson, hentries]
    exact G.members_filesToJson hnodup

section Entries

variable {db : Database} (h : PrimaryKeys db) (my : MySql)
include h

/-- The two passes of the diff find every row once. -/
theorem nodup_differing (left right g : ℤ) :
    ((differing my db left right g).map ModelDiffFile.id).Nodup := by
  have hids : ∀ state v w, ((diffRows my db v w g).map (diffFile state)).map ModelDiffFile.id
      = (diffRows my db v w g).map fun t => t.1.id := by
    intro state v w
    rw [List.map_map]
    rfl
  unfold differing
  rw [List.map_append, hids, hids, List.nodup_append]
  refine ⟨h.nodup_diffRows my left right g, h.nodup_diffRows my right left g, ?_⟩
  intro i hi j hj hij
  obtain ⟨t, ht, rfl⟩ := List.mem_map.mp hi
  obtain ⟨t', ht', rfl⟩ := List.mem_map.mp hj
  -- rows with one id are one row
  obtain rfl := List.inj_on_of_nodup_map h.nodup_filesJoin (mem_diffRows.mp ht).1
    (mem_diffRows.mp ht').1 hij
  exact disjoint_diffRows ht ht'

/-- No file has two entries in a group. -/
theorem nodup_entries (left right g : ℤ) :
    (((getDiff my db left right).entries g).map ModelDiffFile.id).Nodup := by
  obtain ⟨ts, hE, hnodup, hts⟩ := withParents_getDiff my h.nodup_filesJoin left right g
  rw [hE, List.map_append, List.nodup_append]
  refine ⟨nodup_differing h my left right g, by rwa [List.map_map], ?_⟩
  intro i hi j hj hij
  -- a parent is added only if no entry has its id yet
  obtain ⟨e, he, rfl⟩ := List.mem_map.mp hj
  obtain ⟨t, ht, rfl⟩ := List.mem_map.mp he
  obtain rfl := hij
  exact ((hts t).mp ht).2.2.2 hi

end Entries

/-- **The diff of any tables.** Whatever the columns of the tables hold besides their primary keys,
the loops over the stacks of parents end, and the diff of any two versions counts its entries
once. -/
theorem counts_getDiff (my : MySql) (db : Database) (h : PrimaryKeys db) (left right : ℤ) :
    (∀ group parentFilesIds d, (searchGroupParents my db group parentFilesIds d).2 = []) ∧
      CountsOnce (getDiff my db left right) :=
  ⟨fun group parentFilesIds d => searchGroupParents_stack my db group parentFilesIds d,
    (countsOnce_iff _).mpr (nodup_entries h my left right)⟩

/-- Two files of different versions, each of them the parent of the other. -/
def crossingParents : Database where
  versions := []
  fileGroups := [⟨1, lit "core"⟩]
  defineFiles := [⟨1, lit "/a", lit "a", 0⟩, ⟨2, lit "/b", lit "b", 7⟩]
  files := [⟨⟨1, 1, 1, 1, 2⟩, 0⟩, ⟨⟨2, 2, 1, 2, 1⟩, 0⟩, ⟨⟨3, 2, 1, 1, 3⟩, 0⟩]
  comments := []

theorem counts_getDiff_crossing :
    PrimaryKeys crossingParents ∧ CountsOnce (getDiff .innodb crossingParents 1 2) :=
  have h : PrimaryKeys crossingParents := ⟨by decide, by decide, by decide⟩
  ⟨h, (counts_getDiff .innodb crossingParents h 1 2).2⟩

end WebDiff
