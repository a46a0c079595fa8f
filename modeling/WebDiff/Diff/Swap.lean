import WebDiff.Diff.Groups
import WebDiff.Diff.Rows

/-!
# The diff seen from the other version

Comparing the versions the other way round runs the two passes in the other order, so the search for
the parents starts from another stack. What it adds is described by the entries it starts from as a
set (`WithParents`), so the result is the same apart from the labels (`swap_getDiff`).
-/

namespace WebDiff

/-- The state of an entry in the diff of the other direction. -/
def DiffState.swap (s : DiffState) : DiffState :=
  if s = .missing then .new
  else if s = .new then .missing
  else s

@[simp] theorem DiffState.swap_missing : DiffState.missing.swap = .new := by decide

@[simp] theorem DiffState.swap_new : DiffState.new.swap = .missing := by decide

@[simp] theorem DiffState.swap_none : DiffState.none.swap = .none := by decide

theorem DiffState.swap_swap (s : DiffState) : s.swap.swap = s := by
  by_cases hmissing : s = .missing
  · rw [hmissing, swap_missing, swap_new]
  · by_cases hnew : s = .new
    · rw [hnew, swap_new, swap_missing]
    · have hself : s.swap = s := by rw [swap, if_neg hmissing, if_neg hnew]
      rw [hself, hself]

theorem DiffState.swap_eq_iff (s state : DiffState) : s.swap = state ↔ s = state.swap := by
  constructor
  · rintro rfl
    exact s.swap_swap.symm
  · rintro rfl
    exact state.swap_swap

/-- The entry in the diff of the other direction. -/
def ModelDiffFile.swap (e : ModelDiffFile) : ModelDiffFile :=
  { e with state := e.state.swap }

theorem map_swap_diffFile (state : DiffState) (ts : List (FileRow × DefineFileRow)) :
    (ts.map (diffFile state)).map ModelDiffFile.swap = ts.map (diffFile state.swap) := by
  rw [List.map_map]
  rfl

/-- A group of the one diff and a group of the other. -/
structure ModelDiffGroup.Swapped (G G' : ModelDiffGroup) : Prop where
  group : G'.group = G.group
  fileDiffs : G'.fileDiffs.Perm (G.fileDiffs.map ModelDiffFile.swap)
  newFiles : G'.newFiles = G.missingFiles
  missingFiles : G'.missingFiles = G.newFiles

/-- The diff `d'` is the diff `d` with other labels. -/
structure ModelDiffGroups.Swapped (d d' : ModelDiffGroups) : Prop where
  keys : ∀ g : ℤ, g ∈ d'.mapGroups ↔ g ∈ d.mapGroups
  groups : ∀ (g : ℤ) (G G' : ModelDiffGroup), d.mapGroups[g]? = some G →
    d'.mapGroups[g]? = some G' → G.Swapped G'
  comments : ∀ i : ℤ, d'.mapComments[i]? = d.mapComments[i]?

section Entries

variable {db : Database} (my : MySql)

theorem differing_swap (left right g : ℤ) :
    (differing my db right left g).Perm
      ((differing my db left right g).map ModelDiffFile.swap) := by
  unfold differing
  rw [List.map_append, map_swap_diffFile, map_swap_diffFile, DiffState.swap_missing,
    DiffState.swap_new]
  exact List.perm_append_comm

/-- The parents that are added do not depend on the order of the entries or on their states. -/
theorem WithParents.swap {E F E' F' : List ModelDiffFile} (hE : WithParents db E E')
    (hF : WithParents db F F') (h : F.Perm (E.map ModelDiffFile.swap)) :
    F'.Perm (E'.map ModelDiffFile.swap) := by
  obtain ⟨ts, rfl, hids, hts⟩ := hE
  obtain ⟨us, rfl, hids', hus⟩ := hF
  -- the ids and the parent ids of the entries are the same
  have hmem : ∀ (key : ModelDiffFile → ℤ) (hkey : ∀ e : ModelDiffFile, key e.swap = key e) (i : ℤ),
      i ∈ F.map key ↔ i ∈ E.map key := by
    intro key hkey i
    rw [(h.map key).mem_iff, List.map_map]
    have hcomp : key ∘ ModelDiffFile.swap = key := funext hkey
    rw [hcomp]
  -- the rows that are added are decided by these ids alone
  have hperm : us.Perm ts := by
    refine (List.perm_ext_iff_of_nodup hids'.of_map hids.of_map).mpr fun t => ?_
    rw [hts, hus, hmem _ fun _ => rfl, hmem _ fun _ => rfl]
  rw [List.map_append, map_swap_diffFile, DiffState.swap_none]
  exact h.append (hperm.map _)

variable (hids : (db.filesJoin.map fun t => t.1.id).Nodup)
include hids

/-- The entries of a group. -/
theorem entries_swap (left right g : ℤ) :
    ((getDiff my db right left).entries g).Perm
      (((getDiff my db left right).entries g).map ModelDiffFile.swap) :=
  (withParents_getDiff my hids left right g).swap (withParents_getDiff my hids right left g)
    (differing_swap my left right g)

/-- The comments are filed under the define ids of the entries, which are the same. -/
theorem mapComments_swap (left right i : ℤ) :
    (getDiff my db right left).mapComments[i]? = (getDiff my db left right).mapComments[i]? := by
  refine Option.ext fun cs => ?_
  rw [mapComments_getDiff my hids, mapComments_getDiff my hids]
  refine and_congr_left fun _ => exists_congr fun g => ?_
  constructor
  · rintro ⟨e, he, hi⟩
    obtain ⟨e', he', rfl⟩ := List.mem_map.mp ((entries_swap my hids left right g).mem_iff.mp he)
    exact ⟨e', he', hi⟩
  · rintro ⟨e, he, hi⟩
    exact ⟨e.swap, (entries_swap my hids left right g).mem_iff.mpr (List.mem_map_of_mem he), hi⟩

end Entries

/-- The counters follow the entries. -/
theorem ModelDiffGroup.swapped_of_perm {G G' : ModelDiffGroup} (hgroup : G'.group = G.group)
    (h : G'.fileDiffs.Perm (G.fileDiffs.map ModelDiffFile.swap)) : G.Swapped G' := by
  have hcount : ∀ state : DiffState, G'.fileDiffs.countP (fun e => e.state = state)
      = G.fileDiffs.countP fun e => e.state = state.swap := by
    intro state
    rw [h.countP_eq, List.countP_map]
    refine List.countP_congr fun e _ => ?_
    show decide (e.state.swap = state) = true ↔ decide (e.state = state.swap) = true
    rw [decide_eq_true_eq, decide_eq_true_eq, DiffState.swap_eq_iff]
  refine ⟨hgroup, h, ?_, ?_⟩
  · rw [G'.newFiles_eq, G.missingFiles_eq]
    exact hcount .new
  · rw [G'.missingFiles_eq, G.newFiles_eq]
    exact hcount .missing

/-- **Swapping the versions swaps the labels.** Whatever the columns of the tables hold besides
their primary keys, the diff of two versions and the diff of the same versions in the other order
have the same groups and the same comments, and in each group the same entries with the states `new`
and `missing` exchanged, as are the two numbers. -/
theorem swap_getDiff (my : MySql) (db : Database) (h : PrimaryKeys db) (left right : ℤ) :
    (getDiff my db left right).Swapped (getDiff my db right left) := by
  have htitled := titled_getDiff my db left right
  have htitled' := titled_getDiff my db right left
  have hentries := entries_swap my h.nodup_filesJoin left right
  refine ⟨fun g => ?_, fun g G G' hG hG' => ?_, mapComments_swap my h.nodup_filesJoin left right⟩
  -- a group is in the diff when it has an entry
  · rw [← Std.TreeMap.mem_keys, ← Std.TreeMap.mem_keys, htitled.mem_keys_iff,
      htitled'.mem_keys_iff, not_iff_not, ← List.length_eq_zero_iff, ← List.length_eq_zero_iff,
      (hentries g).length_eq, List.length_map]
  · -- both groups carry the name of the one row with this id
    obtain ⟨-, row, hrow, hid, hgroup⟩ := htitled g G hG
    obtain ⟨-, row', hrow', hid', hgroup'⟩ := htitled' g G' hG'
    have hsame : row' = row :=
      List.inj_on_of_nodup_map h.fileGroups hrow' hrow (hid'.trans hid.symm)
    have hperm := hentries g
    rw [ModelDiffGroups.entries_of_mem hG, ModelDiffGroups.entries_of_mem hG'] at hperm
    refine ModelDiffGroup.swapped_of_perm ?_ hperm
    rw [hgroup, hgroup', hsame]

/-- A file of each version below one directory, whose parents are found in two orders. -/
def bothSides : Database where
  versions := []
  fileGroups := [⟨1, lit "core"⟩]
  defineFiles := [⟨1, lit "/a", lit "a", 0⟩, ⟨2, lit "/a/x", lit "x", 1⟩,
    ⟨3, lit "/a/y", lit "y", 1⟩]
  files := [⟨⟨1, 1, 1, 1, 0⟩, 1⟩, ⟨⟨2, 1, 1, 2, 1⟩, 0⟩, ⟨⟨3, 2, 1, 1, 0⟩, 1⟩,
    ⟨⟨4, 2, 1, 3, 3⟩, 0⟩]
  comments := [⟨1, 1, lit "todo", 0, 0⟩]

theorem swap_getDiff_bothSides :
    PrimaryKeys bothSides ∧
      (getDiff .innodb bothSides 1 2).Swapped (getDiff .innodb bothSides 2 1) :=
  have h : PrimaryKeys bothSides := ⟨by decide, by decide, by decide⟩
  ⟨h, swap_getDiff .innodb bothSides h 1 2⟩

end WebDiff
