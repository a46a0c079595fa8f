import WebDiff.Diff.Counts

/-!
# The containers of a diff

`ModelDiffGroups` says the same thing several times: a group keeps its files, their ids, their
parent ids and two numbers, and beside the groups stand the define ids of all files. `Represents`
says what each of these containers holds in terms of the calls of `addDiffFile` that were made, and
`represents_addDiffFiles` that it holds this after any calls.
-/

namespace WebDiff

/-- The diff after a sequence of calls `addDiffFile(group, file)` on a new one. -/
def addDiffFiles (calls : List (ModelGroup × ModelDiffFile)) : ModelDiffGroups :=
  calls.foldl (fun d c => d.addDiffFile c.1 c.2) ModelDiffGroups.new

/-- The files that were added under a group id, in the order of the calls. -/
def addedFiles (calls : List (ModelGroup × ModelDiffFile)) (groupId : ℤ) : List ModelDiffFile :=
  (calls.filter fun c => c.1.id = groupId).map Prod.snd

/-- The containers hold what was added. -/
structure Represents (d : ModelDiffGroups) (calls : List (ModelGroup × ModelDiffFile)) : Prop where
  keys : ∀ g, g ∈ d.mapGroups ↔ ∃ c ∈ calls, c.1.id = g
  fileDiffs : ∀ (g : ℤ) (G : ModelDiffGroup), d.mapGroups[g]? = some G →
    G.fileDiffs = addedFiles calls g
  filesIds : ∀ (g : ℤ) (G : ModelDiffGroup), d.mapGroups[g]? = some G →
    G.filesIds = (addedFiles calls g).map ModelDiffFile.id
  parentFilesIds : ∀ (g : ℤ) (G : ModelDiffGroup), d.mapGroups[g]? = some G →
    G.parentFilesIds = (addedFiles calls g).map ModelDiffFile.parentFileId
  hasFileId : ∀ (g : ℤ) (G : ModelDiffGroup), d.mapGroups[g]? = some G →
    ∀ x, G.hasFileId x = true ↔ ∃ f ∈ addedFiles calls g, f.id = x
  newFiles : ∀ (g : ℤ) (G : ModelDiffGroup), d.mapGroups[g]? = some G →
    G.newFiles = (addedFiles calls g).countP fun f => f.state = .new
  missingFiles : ∀ (g : ℤ) (G : ModelDiffGroup), d.mapGroups[g]? = some G →
    G.missingFiles = (addedFiles calls g).countP fun f => f.state = .missing
  fileDefineIds_nodup : d.fileDefineIds.Nodup
  mem_fileDefineIds : ∀ i, i ∈ d.fileDefineIds ↔ ∃ c ∈ calls, c.2.defineFileId = i
  filesLength : d.getFilesLength = calls.length

/-- Different keys that cover a list count each of its members once. -/
theorem sum_count_of_nodup {keys xs : List ℤ} (hkeys : keys.Nodup) (hxs : ∀ x ∈ xs, x ∈ keys) :
    (keys.map fun g => xs.count g).sum = xs.length := by
  induction keys generalizing xs with
  | nil =>
    have hnil : xs = [] := List.eq_nil_iff_forall_not_mem.mpr fun x hx => by simpa using hxs x hx
    subst hnil
    rfl
  | cons g keys ih =>
    obtain ⟨hg, hkeys⟩ := List.nodup_cons.mp hkeys
    -- the members other than `g` are covered by the other keys
    have hrest : (xs.filter fun x => !x == g).length
        = (keys.map fun k => (xs.filter fun x => !x == g).count k).sum := by
      refine (ih hkeys fun x hx => ?_).symm
      obtain ⟨hx, hne⟩ := List.mem_filter.mp hx
      exact List.mem_of_ne_of_mem (by simpa using hne) (hxs x hx)
    have hcount : ∀ k ∈ keys, (xs.filter fun x => !x == g).count k = xs.count k := by
      intro k hk
      refine List.count_filter ?_
      simpa using ne_of_mem_of_not_mem hk hg
    rw [List.map_congr_left hcount] at hrest
    rw [List.map_cons, List.sum_cons, ← hrest, List.count_eq_length_filter]
    exact (List.length_eq_length_filter_add (· == g)).symm

section Calls

variable (calls : List (ModelGroup × ModelDiffFile))

theorem addDiffFiles_concat (c : ModelGroup × ModelDiffFile) :
    addDiffFiles (calls ++ [c]) = (addDiffFiles calls).addDiffFile c.1 c.2 := by
  simp [addDiffFiles]

theorem entries_addDiffFiles (g : ℤ) : (addDiffFiles calls).entries g = addedFiles calls g := by
  unfold addDiffFiles addedFiles
  rw [ModelDiffGroups.entries_foldl, ModelDiffGroups.entries_new, List.nil_append]

/-- A group is in the map as soon as its id is used. -/
theorem mem_mapGroups_addDiffFiles (g : ℤ) :
    g ∈ (addDiffFiles calls).mapGroups ↔ ∃ c ∈ calls, c.1.id = g := by
  induction calls using List.reverseRecOn with
  | nil => simp [addDiffFiles, ModelDiffGroups.new]
  | append_singleton calls c ih =>
    rw [addDiffFiles_concat, ModelDiffGroups.addDiffFile, Std.TreeMap.mem_insert, ih]
    simp [or_comm]

/-- A define id is listed when it is added first. -/
theorem nodup_fileDefineIds_addDiffFiles : (addDiffFiles calls).fileDefineIds.Nodup := by
  induction calls using List.reverseRecOn with
  | nil => exact List.nodup_nil
  | append_singleton calls c ih =>
    rw [addDiffFiles_concat, ModelDiffGroups.addDiffFile]
    dsimp only
    split
    · exact ih
    · next hnew =>
      rw [List.contains_iff_mem] at hnew
      refine ih.append (List.nodup_singleton _) ?_
      rw [List.disjoint_singleton]
      exact hnew

theorem mem_fileDefineIds_addDiffFiles (i : ℤ) :
    i ∈ (addDiffFiles calls).fileDefineIds ↔ ∃ c ∈ calls, c.2.defineFileId = i := by
  have hwell : (addDiffFiles calls).WellFormed :=
    ModelDiffGroups.WellFormed.foldl calls Prod.fst Prod.snd ModelDiffGroups.WellFormed.new
  rw [hwell.defineIds]
  simp only [entries_addDiffFiles, addedFiles, List.mem_map, List.mem_filter, decide_eq_true_eq]
  constructor
  · rintro ⟨_, _, ⟨c, ⟨hc, rfl⟩, rfl⟩, hi⟩
    exact ⟨c, hc, hi⟩
  · rintro ⟨c, hc, hi⟩
    exact ⟨c.1.id, c.2, ⟨c, ⟨hc, rfl⟩, rfl⟩, hi⟩

/-- The files of all groups are the calls. -/
theorem getFilesLength_addDiffFiles : (addDiffFiles calls).getFilesLength = calls.length := by
  have hlength : ∀ g, ((addDiffFiles calls).entries g).length
      = (calls.map fun c => c.1.id).count g := by
    intro g
    rw [entries_addDiffFiles, addedFiles, List.length_map, List.count_eq_countP, List.countP_map,
      List.countP_eq_length_filter]
    congr 1
  rw [ModelDiffGroups.getFilesLength_eq]
  simp only [hlength]
  rw [sum_count_of_nodup Std.TreeMap.nodup_keys, List.length_map]
  -- the group id of a call is a key
  intro x hx
  obtain ⟨c, hc, rfl⟩ := List.mem_map.mp hx
  exact Std.TreeMap.mem_keys.mpr ((mem_mapGroups_addDiffFiles calls c.1.id).mpr ⟨c, hc, rfl⟩)

/-- **The containers agree.** After any calls of `addDiffFile`, each group id used is the key of the
files added under it, in the order of the calls; the ids, the parent ids and the two numbers of the
group are theirs; the define ids of all files are listed once each; and `getFilesLength` is the
number of calls. -/
theorem represents_addDiffFiles : Represents (addDiffFiles calls) calls := by
  have hfiles : ∀ (g : ℤ) (G : ModelDiffGroup), (addDiffFiles calls).mapGroups[g]? = some G →
      G.fileDiffs = addedFiles calls g := by
    intro g G hG
    rw [← entries_addDiffFiles, ModelDiffGroups.entries_of_mem hG]
  refine ⟨mem_mapGroups_addDiffFiles calls, hfiles, ?_, ?_, ?_, ?_, ?_,
    nodup_fileDefineIds_addDiffFiles calls, mem_fileDefineIds_addDiffFiles calls,
    getFilesLength_addDiffFiles calls⟩
  -- what a group repeats of its files is the invariant of `ModelDiffGroup`
  · intro g G hG
    rw [G.filesIds_eq, hfiles g G hG]
  · intro g G hG
    rw [G.parentFilesIds_eq, hfiles g G hG]
  · intro g G hG x
    rw [ModelDiffGroup.hasFileId, List.contains_iff_mem, G.filesIds_eq, hfiles g G hG,
      List.mem_map]
  · intro g G hG
    rw [G.newFiles_eq, hfiles g G hG]
  · intro g G hG
    rw [G.missingFiles_eq, hfiles g G hG]

end Calls

end WebDiff
