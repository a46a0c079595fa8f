import WebDiff.Diff.Entries

/-!
# Which groups the diff reports

A group is in the result when it has an entry, under the id and the name of its row (`Titled`,
`titled_getDiff`).
-/

namespace WebDiff

/-- The groups of the map have entries, and carry the id and the name of a row of
`webdiff_file_groups`. -/
def Titled (db : Database) (d : ModelDiffGroups) : Prop :=
  ∀ k G, d.mapGroups[k]? = some G → G.fileDiffs ≠ [] ∧
    ∃ row ∈ db.fileGroups, row.id = k ∧ G.group = ⟨k, cString row.name⟩

section Titled

variable {db : Database}

theorem Titled.new : Titled db ModelDiffGroups.new := by
  intro k G hG
  simp [ModelDiffGroups.new] at hG

/-- One more entry, under the id and the name of a row. -/
theorem Titled.addDiffFile {d : ModelDiffGroups} (h : Titled db d) {group : ModelGroup}
    (hgroup : ∃ row ∈ db.fileGroups, group = ⟨row.id, cString row.name⟩) (f : ModelDiffFile) :
    Titled db (d.addDiffFile group f) := by
  intro k G hG
  rw [ModelDiffGroups.addDiffFile, Std.TreeMap.getElem?_insert] at hG
  split at hG
  · next hk =>
    obtain rfl := Std.LawfulEqCmp.eq_of_compare hk
    obtain rfl := Option.some.inj hG
    refine ⟨List.append_ne_nil_of_right_ne_nil _ (List.cons_ne_nil _ _), ?_⟩
    -- a group that was there keeps its name, a new one has that of `group`
    change ∃ row ∈ db.fileGroups, row.id = group.id ∧
      (d.mapGroups.getD group.id (ModelDiffGroup.new group)).group = ⟨group.id, cString row.name⟩
    rw [Std.TreeMap.getD_eq_getD_getElem?]
    cases hold : d.mapGroups[group.id]? with
    | none =>
      obtain ⟨row, hrow, rfl⟩ := hgroup
      exact ⟨row, hrow, rfl, rfl⟩
    | some old => exact (h _ _ hold).2
  · exact h k G hG

theorem Titled.foldl {T : Type} {rows : List T} {group : T → ModelGroup}
    (f : T → ModelDiffFile) {d : ModelDiffGroups} (h : Titled db d)
    (hgroup : ∀ t ∈ rows, ∃ row ∈ db.fileGroups, group t = ⟨row.id, cString row.name⟩) :
    Titled db (rows.foldl (fun d t => d.addDiffFile (group t) (f t)) d) := by
  induction rows generalizing d with
  | nil => exact h
  | cons t rest ih =>
    exact ih (h.addDiffFile (hgroup t List.mem_cons_self) _)
      fun t ht => hgroup t (List.mem_cons_of_mem _ ht)

variable {my : MySql}

theorem Titled.getDiffFiles {d : ModelDiffGroups} (h : Titled db d) (left right : ℤ)
    (state : DiffState) : Titled db (getDiffFiles my db left right state d) := by
  refine h.foldl _ fun t ht => ?_
  rw [MySql.mem_scan] at ht
  obtain ⟨t1, ht1, hmem⟩ := List.mem_flatMap.mp (List.mem_filter.mp ht).1
  obtain ⟨row, hrow, rfl⟩ := List.mem_map.mp hmem
  obtain ⟨hrow, hid⟩ := List.mem_filter.mp hrow
  rw [decide_eq_true_eq] at hid
  exact ⟨row, hrow, by rw [hid]⟩

theorem Titled.searchGroupParents {d : ModelDiffGroups} (h : Titled db d) {group : ModelGroup}
    (hgroup : ∃ row ∈ db.fileGroups, group = ⟨row.id, cString row.name⟩) (ids : List ℤ) :
    Titled db (searchGroupParents my db group ids d).1 := by
  apply searchGroupParents_induction _ h
  intro fileId d' vIds hd'
  rw [findAndAddFile_eq]
  exact hd'.foldl _ fun _ _ => hgroup

theorem Titled.searchParentsOf {d : ModelDiffGroups} (h : Titled db d) (groupId : ℤ) :
    Titled db (searchParentsOf my db d groupId) := by
  unfold WebDiff.searchParentsOf
  cases hg : d.mapGroups[groupId]? with
  | none => exact h
  | some G =>
    obtain ⟨-, row, hrow, rfl, hgroup⟩ := h _ _ hg
    exact h.searchGroupParents ⟨row, hrow, hgroup⟩ _

/-- **The groups of the diff.** -/
theorem titled_getDiff (my : MySql) (db : Database) (left right : ℤ) :
    Titled db (getDiff my db left right) := by
  have hdiffering : Titled db (differingGroups my db left right) :=
    (Titled.new.getDiffFiles _ _ _).getDiffFiles _ _ _
  have hparents : ∀ (ks : List ℤ) (d : ModelDiffGroups), Titled db d →
      Titled db (ks.foldl (WebDiff.searchParentsOf my db) d) := by
    intro ks
    induction ks with
    | nil => exact fun _ hd => hd
    | cons k rest ih => exact fun d hd => ih _ (hd.searchParentsOf k)
  have hsearch := hparents (differingGroups my db left right).mapGroups.keys _ hdiffering
  intro k G hG
  rw [getDiff_eq, searchComments, (searchComments_foldl my db _ _).1] at hG
  exact hsearch k G hG

end Titled

section Keys

variable {db : Database} {d : ModelDiffGroups} (h : Titled db d)
include h

/-- The groups of the map are those with an entry. -/
theorem Titled.mem_keys_iff {k : ℤ} : k ∈ d.mapGroups.keys ↔ d.entries k ≠ [] := by
  rw [Std.TreeMap.mem_keys, Std.TreeMap.mem_iff_isSome_getElem?, Option.isSome_iff_exists]
  constructor
  · rintro ⟨G, hG⟩
    rw [ModelDiffGroups.entries_of_mem hG]
    exact (h k G hG).1
  · intro hne
    unfold ModelDiffGroups.entries at hne
    cases hG : d.mapGroups[k]? with
    | none => rw [hG] at hne; exact absurd rfl hne
    | some G => exact ⟨G, rfl⟩

/-- An entry belongs to a group that has a row. -/
theorem Titled.exists_row {k : ℤ} (hk : d.entries k ≠ []) : ∃ row ∈ db.fileGroups, row.id = k := by
  rw [← h.mem_keys_iff, Std.TreeMap.mem_keys, Std.TreeMap.mem_iff_isSome_getElem?,
    Option.isSome_iff_exists] at hk
  obtain ⟨G, hG⟩ := hk
  obtain ⟨-, row, hrow, hid, -⟩ := h k G hG
  exact ⟨row, hrow, hid⟩

end Keys

end WebDiff
