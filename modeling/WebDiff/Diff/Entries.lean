import WebDiff.Model.Diff

/-!
# Which entries the diff reports

The entries `getDiff` reports in one group are those of the rows that differ, first the missing ones
and then the new ones (`differing`), followed by the rows the loop over the parents adds. That loop
always ends with an empty stack (`searchGroupParents_stack`), and what it adds is one level of
parents: the rows whose id is the parent id of a differing row and that are not there already
(`WithParents`, `withParents_getDiff`). It goes no further up because `findAndAddFile` pushes the id
of the row it found, which the next round discards, and not the id of the parent of that row.
-/

namespace WebDiff

/-! ### The entries of a group -/

namespace ModelDiffGroups

/-- The entries of a group, none if the group is not in the map. -/
def entries (d : ModelDiffGroups) (groupId : ℤ) : List ModelDiffFile :=
  match d.mapGroups[groupId]? with
  | some g => g.fileDiffs
  | none => []

/-- As long as no comments were searched: the keys of the groups fit the groups, and the define ids
are those of the entries. -/
structure WellFormed (d : ModelDiffGroups) : Prop where
  group_id : ∀ (k : ℤ) (g : ModelDiffGroup), d.mapGroups[k]? = some g → g.group.id = k
  defineIds : ∀ i, i ∈ d.fileDefineIds ↔ ∃ k, ∃ f ∈ d.entries k, f.defineFileId = i
  comments : d.mapComments = ∅

@[simp] theorem entries_new (k : ℤ) : new.entries k = [] := by
  simp [entries, new]

theorem WellFormed.new : ModelDiffGroups.new.WellFormed where
  group_id := by simp [ModelDiffGroups.new]
  defineIds := by simp [ModelDiffGroups.new, entries]
  comments := rfl

theorem entries_of_mem {d : ModelDiffGroups} {k : ℤ} {g : ModelDiffGroup}
    (h : d.mapGroups[k]? = some g) : d.entries k = g.fileDiffs := by
  simp [entries, h]

/-- The entries of a group as `addDiffFile` finds them. -/
theorem getD_fileDiffs (d : ModelDiffGroups) (group : ModelGroup) :
    (d.mapGroups.getD group.id (ModelDiffGroup.new group)).fileDiffs = d.entries group.id := by
  rw [Std.TreeMap.getD_eq_getD_getElem?]
  unfold entries
  cases d.mapGroups[group.id]? <;> rfl

theorem hasFileId_iff (d : ModelDiffGroups) (group : ModelGroup) (fileId : ℤ) :
    (d.mapGroups.getD group.id (ModelDiffGroup.new group)).hasFileId fileId = true ↔
      fileId ∈ (d.entries group.id).map ModelDiffFile.id := by
  rw [ModelDiffGroup.hasFileId, List.contains_iff_mem, ModelDiffGroup.filesIds_eq, getD_fileDiffs]

/-- One more entry, in its group. -/
theorem entries_addDiffFile (d : ModelDiffGroups) (group : ModelGroup) (f : ModelDiffFile)
    (k : ℤ) :
    (d.addDiffFile group f).entries k = d.entries k ++ if group.id = k then [f] else [] := by
  by_cases hk : group.id = k
  · subst hk
    rw [if_pos rfl, ← getD_fileDiffs d group]
    simp [entries, addDiffFile, ModelDiffGroup.addDiffFile]
  · simp [entries, addDiffFile, Std.TreeMap.getElem?_insert, hk]

theorem WellFormed.addDiffFile {d : ModelDiffGroups} (h : d.WellFormed) (group : ModelGroup)
    (f : ModelDiffFile) : (d.addDiffFile group f).WellFormed where
  group_id := by
    intro k g hg
    rw [ModelDiffGroups.addDiffFile, Std.TreeMap.getElem?_insert] at hg
    split at hg
    · next hk =>
      obtain rfl := Std.LawfulEqCmp.eq_of_compare hk
      obtain rfl := Option.some.inj hg
      -- a group that was there keeps its id, a new one has the id of `group`
      change (d.mapGroups.getD group.id (ModelDiffGroup.new group)).group.id = group.id
      rw [Std.TreeMap.getD_eq_getD_getElem?]
      cases hold : d.mapGroups[group.id]? with
      | none => rfl
      | some old => exact h.group_id _ _ hold
    · exact h.group_id k g hg
  defineIds := by
    intro i
    have hmem : i ∈ (d.addDiffFile group f).fileDefineIds ↔
        i ∈ d.fileDefineIds ∨ i = f.defineFileId := by
      unfold ModelDiffGroups.addDiffFile
      dsimp only
      split
      · next hc =>
        rw [List.contains_iff_mem] at hc
        exact ⟨Or.inl, fun hi => hi.elim id fun hi => hi ▸ hc⟩
      · rw [List.mem_append, List.mem_singleton]
    rw [hmem, h.defineIds]
    simp only [entries_addDiffFile, List.mem_append, or_and_right, exists_or]
    refine or_congr Iff.rfl ⟨?_, ?_⟩
    · rintro rfl
      exact ⟨group.id, f, by simp, rfl⟩
    · rintro ⟨k, f', hf', rfl⟩
      split at hf'
      · rw [List.mem_singleton.mp hf']
      · exact absurd hf' List.not_mem_nil
  comments := h.comments

/-- The entries after a loop over rows. -/
theorem entries_foldl {T : Type} (rows : List T) (group : T → ModelGroup) (f : T → ModelDiffFile)
    (d : ModelDiffGroups) (k : ℤ) :
    (rows.foldl (fun d t => d.addDiffFile (group t) (f t)) d).entries k
      = d.entries k ++ (rows.filter fun t => (group t).id = k).map f := by
  induction rows generalizing d with
  | nil => simp
  | cons t rest ih =>
    rw [List.foldl_cons, ih, entries_addDiffFile, List.append_assoc]
    congr 1
    by_cases hk : (group t).id = k <;> simp [hk]

theorem WellFormed.foldl {T : Type} (rows : List T) (group : T → ModelGroup)
    (f : T → ModelDiffFile) {d : ModelDiffGroups} (h : d.WellFormed) :
    (rows.foldl (fun d t => d.addDiffFile (group t) (f t)) d).WellFormed := by
  induction rows generalizing d with
  | nil => exact h
  | cons t rest ih => exact ih (h.addDiffFile _ _)

end ModelDiffGroups

/-! ### The loop over the parents ends -/

section Loop

variable (my : MySql) (db : Database)

/-- The rows `findAndAddFile` finds. -/
def foundFiles (fileId : ℤ) : List (FileRow × DefineFileRow) :=
  my.scan (db.filesJoin.filter fun t => t.1.id = fileId)

variable {my db}

theorem mem_foundFiles {fileId : ℤ} {t : FileRow × DefineFileRow} :
    t ∈ foundFiles my db fileId ↔ t ∈ db.filesJoin ∧ t.1.id = fileId := by
  simp [foundFiles]

/-- `findAndAddFile` adds the rows it finds and pushes their ids. -/
theorem findAndAddFile_eq (group : ModelGroup) (fileId : ℤ) (d : ModelDiffGroups)
    (vIds : List ℤ) :
    findAndAddFile my db group fileId (d, vIds)
      = ((foundFiles my db fileId).foldl
            (fun d t => d.addDiffFile group (diffFile .none t)) d,
          ((foundFiles my db fileId).map fun t => t.1.id).reverse ++ vIds) := by
  unfold findAndAddFile
  change (foundFiles my db fileId).foldl _ _ = _
  induction foundFiles my db fileId generalizing d vIds with
  | nil => rfl
  | cons t rest ih =>
    rw [List.foldl_cons, ih, List.foldl_cons, List.map_cons, List.reverse_cons, List.append_assoc]
    rfl

theorem entries_findAndAddFile (group : ModelGroup) (fileId : ℤ) (d : ModelDiffGroups)
    (vIds : List ℤ) (k : ℤ) :
    (findAndAddFile my db group fileId (d, vIds)).1.entries k
      = d.entries k ++
        if group.id = k then (foundFiles my db fileId).map (diffFile .none) else [] := by
  rw [findAndAddFile_eq, ModelDiffGroups.entries_foldl]
  by_cases hk : group.id = k <;> simp [hk]

/-- The rows that have no entry in the group yet. -/
def unseen (db : Database) (E : List ModelDiffFile) : ℕ :=
  db.filesJoin.countP fun t => t.1.id ∉ E.map ModelDiffFile.id

theorem unseen_found (my : MySql) (db : Database) {E : List ModelDiffFile} {fileId : ℤ}
    (h : fileId ∉ E.map ModelDiffFile.id) :
    unseen db (E ++ (foundFiles my db fileId).map (diffFile .none))
        + (foundFiles my db fileId).length
      = unseen db E := by
  have hlen : (foundFiles my db fileId).length
      = db.filesJoin.countP fun t => t.1.id = fileId := by
    rw [List.countP_eq_length_filter]
    exact (my.scan_perm _).length_eq
  have hsplit := List.countP_eq_countP_filter_add db.filesJoin
    (fun t => t.1.id ∉ E.map ModelDiffFile.id) (fun t => t.1.id = fileId)
  unfold unseen
  rw [hsplit, List.countP_filter, List.countP_filter, hlen, Nat.add_comm]
  congr 1
  · refine List.countP_congr fun t _ => ?_
    simp only [decide_eq_true_eq, Bool.and_eq_true]
    exact ⟨fun ht => ⟨ht ▸ h, ht⟩, And.right⟩
  · refine List.countP_congr fun t ht => ?_
    -- a row is found exactly when it has the id
    have hfound : t.1.id ∈ ((foundFiles my db fileId).map (diffFile .none)).map ModelDiffFile.id ↔
        t.1.id = fileId := by
      constructor
      · intro hmem
        obtain ⟨f, hf, hid⟩ := List.mem_map.mp hmem
        obtain ⟨t', ht', rfl⟩ := List.mem_map.mp hf
        exact hid ▸ (mem_foundFiles.mp ht').2
      · intro hid
        exact List.mem_map_of_mem (List.mem_map_of_mem (mem_foundFiles.mpr ⟨ht, hid⟩))
    simp only [decide_eq_true_eq, Bool.and_eq_true, Bool.not_eq_true', decide_eq_false_iff_not,
      List.map_append, List.mem_append, not_or, hfound]

/-- What one round does: it stops at the empty stack, discards the top, or looks it up. -/
theorem parentsStep_cases (my : MySql) (db : Database) (group : ModelGroup) (d : ModelDiffGroups)
    (vIds : List ℤ) :
    (vIds = [] ∧ parentsStep my db group (d, vIds) = (d, [])) ∨
    (∃ fileId rest, vIds = fileId :: rest ∧
      (fileId = 0 ∨ fileId ∈ (d.entries group.id).map ModelDiffFile.id) ∧
      parentsStep my db group (d, vIds) = (d, rest)) ∨
    ∃ fileId rest, vIds = fileId :: rest ∧ fileId ≠ 0 ∧
      fileId ∉ (d.entries group.id).map ModelDiffFile.id ∧
      parentsStep my db group (d, vIds) = findAndAddFile my db group fileId (d, rest) := by
  cases vIds with
  | nil => exact Or.inl ⟨rfl, rfl⟩
  | cons fileId rest =>
    refine Or.inr ?_
    by_cases hskip : fileId = 0 ∨ fileId ∈ (d.entries group.id).map ModelDiffFile.id
    · refine Or.inl ⟨fileId, rest, rfl, hskip, ?_⟩
      rw [← ModelDiffGroups.hasFileId_iff] at hskip
      exact if_pos hskip
    · refine Or.inr ⟨fileId, rest, rfl, fun h0 => hskip (Or.inl h0), fun hmem =>
        hskip (Or.inr hmem), ?_⟩
      rw [← ModelDiffGroups.hasFileId_iff] at hskip
      exact if_neg hskip

/-- What the lookup of one id keeps, the loop keeps. -/
theorem searchGroupParents_induction {my : MySql} {db : Database} {group : ModelGroup}
    {P : ModelDiffGroups → Prop}
    (hfind : ∀ fileId d vIds, P d → P (findAndAddFile my db group fileId (d, vIds)).1)
    {d : ModelDiffGroups} (h : P d) (ids : List ℤ) :
    P (searchGroupParents my db group ids d).1 := by
  refine Function.Iterate.rec (fun s : ModelDiffGroups × List ℤ => P s.1) h ?_ _
  rintro ⟨d', vIds⟩ hd'
  rcases parentsStep_cases my db group d' vIds with ⟨rfl, hstep⟩ | ⟨x, rest, rfl, -, hstep⟩ |
    ⟨x, rest, rfl, -, -, hstep⟩
  · rw [hstep]
    exact hd'
  · rw [hstep]
    exact hd'
  · rw [hstep]
    exact hfind x d' rest hd'

/-- Every round takes one off the stack and the rows without an entry together. -/
theorem parentsStep_measure (my : MySql) (db : Database) (group : ModelGroup)
    (s : ModelDiffGroups × List ℤ) :
    (parentsStep my db group s).2.length
        + unseen db ((parentsStep my db group s).1.entries group.id)
      = s.2.length + unseen db (s.1.entries group.id) - if s.2 = [] then 0 else 1 := by
  obtain ⟨d, vIds⟩ := s
  rcases parentsStep_cases my db group d vIds with ⟨rfl, h⟩ | ⟨x, rest, rfl, -, h⟩ |
    ⟨x, rest, rfl, -, hnew, h⟩
  · rw [h]
    simp
  · rw [h]
    simp only [List.length_cons, reduceCtorEq, if_false]
    omega
  -- each row found goes onto the stack once, and has an entry from now on
  · rw [h, entries_findAndAddFile, if_pos rfl, findAndAddFile_eq]
    have hunseen := unseen_found my db hnew
    simp only [List.length_append, List.length_reverse, List.length_map, List.length_cons,
      reduceCtorEq, if_false]
    omega

/-- A loop whose body decreases a measure until it is done is done after as many rounds. -/
theorem iterate_done {S : Type} {body : S → S} (done : S → Prop) (measure : S → ℕ)
    (hbody : ∀ s, done s → done (body s)) (hmeasure : ∀ s, ¬ done s → measure (body s) < measure s)
    {n : ℕ} {s : S} (h : measure s ≤ n) : done (body^[n] s) := by
  induction n generalizing s with
  | zero =>
    by_contra hnot
    have hlt := hmeasure s hnot
    omega
  | succ n ih =>
    by_cases hs : done s
    · exact Function.Iterate.rec done (hbody s hs) hbody n
    · have hlt := hmeasure s hs
      exact ih (by omega)

/-- **The loop ends.** The rounds of `searchGroupParents` drain the stack, whatever the tables. -/
theorem searchGroupParents_stack (my : MySql) (db : Database) (group : ModelGroup)
    (parentFilesIds : List ℤ) (d : ModelDiffGroups) :
    (searchGroupParents my db group parentFilesIds d).2 = [] := by
  refine iterate_done (fun s : ModelDiffGroups × List ℤ => s.2 = [])
    (fun s => s.2.length + unseen db (s.1.entries group.id)) ?_ ?_ ?_
  · rintro ⟨d, vIds⟩ rfl
    rfl
  · intro s hs
    have hmeasure := parentsStep_measure my db group s
    have hpos : 0 < s.2.length := List.length_pos_iff.mpr hs
    rw [if_neg hs] at hmeasure
    omega
  · have hunseen : unseen db (d.entries group.id) ≤ db.filesJoin.length := List.countP_le_length
    simp only [List.length_reverse]
    omega

end Loop

/-! ### What the loop adds -/

/-- The entries `E'` are the entries `E` and one entry for every row, not in `E`, whose id is the
parent id of an entry of `E`. -/
def WithParents (db : Database) (E E' : List ModelDiffFile) : Prop :=
  ∃ ts : List (FileRow × DefineFileRow), E' = E ++ ts.map (diffFile .none) ∧
    (ts.map fun t => t.1.id).Nodup ∧
    ∀ t, t ∈ ts ↔ t ∈ db.filesJoin ∧ t.1.id ∈ E.map ModelDiffFile.parentFileId ∧ t.1.id ≠ 0 ∧
      t.1.id ∉ E.map ModelDiffFile.id

/-- The invariant of the loop for one group, where the entries were `E` before the loop: what is on
the stack are parent ids, what was added are rows for them, and a parent id is on the stack still,
or dealt with. -/
structure ParentsInv (db : Database) (E E' : List ModelDiffFile) (vIds : List ℤ)
    (ts : List (FileRow × DefineFileRow)) : Prop where
  entries : E' = E ++ ts.map (diffFile .none)
  nodup : (ts.map fun t => t.1.id).Nodup
  added : ∀ t ∈ ts, t ∈ db.filesJoin ∧ t.1.id ∈ E.map ModelDiffFile.parentFileId ∧ t.1.id ≠ 0 ∧
    t.1.id ∉ E.map ModelDiffFile.id
  stack : ∀ x ∈ vIds, x ∈ E.map ModelDiffFile.parentFileId
  covered : ∀ x ∈ E.map ModelDiffFile.parentFileId, x ∈ vIds ∨ x = 0 ∨
    x ∈ E'.map ModelDiffFile.id ∨ ∀ t ∈ db.filesJoin, t.1.id ≠ x

section Parents

variable (my : MySql) {db : Database} (hids : (db.filesJoin.map fun t => t.1.id).Nodup)
include hids

theorem nodup_foundFiles (fileId : ℤ) :
    ((foundFiles my db fileId).map fun t => t.1.id).Nodup := by
  have hperm : (foundFiles my db fileId).Perm (db.filesJoin.filter fun t => t.1.id = fileId) :=
    my.scan_perm _
  refine ((hperm.map _).nodup_iff).mpr ?_
  exact hids.sublist (List.filter_sublist.map _)

/-- One round keeps the invariant. -/
theorem ParentsInv.step {group : ModelGroup} {E : List ModelDiffFile} {d : ModelDiffGroups}
    {vIds : List ℤ} {ts : List (FileRow × DefineFileRow)}
    (h : ParentsInv db E (d.entries group.id) vIds ts) :
    ∃ ts', ParentsInv db E ((parentsStep my db group (d, vIds)).1.entries group.id)
      (parentsStep my db group (d, vIds)).2 ts' := by
  rcases parentsStep_cases my db group d vIds with ⟨rfl, hstep⟩ | ⟨x, rest, rfl, hskip, hstep⟩ |
    ⟨x, rest, rfl, hzero, hnew, hstep⟩
  · rw [hstep]
    exact ⟨ts, h⟩
  · rw [hstep]
    refine ⟨ts, { h with
      stack := fun y hy => h.stack y (List.mem_cons_of_mem _ hy)
      covered := fun y hy => ?_ }⟩
    rcases h.covered y hy with hstack | hdone
    · rcases List.mem_cons.mp hstack with rfl | hrest
      · exact Or.inr (hskip.imp_right Or.inl)
      · exact Or.inl hrest
    · exact Or.inr hdone
  -- the id is looked up: the rows found are added, and their ids, which are `x` again, are pushed
  · have hparent := h.stack x List.mem_cons_self
    rw [h.entries, List.map_append, List.mem_append, not_or] at hnew
    obtain ⟨hE, hadded⟩ := hnew
    have hts : ∀ t ∈ ts, t.1.id ≠ x := by
      rintro t ht rfl
      exact hadded (List.mem_map_of_mem (List.mem_map_of_mem ht))
    rw [hstep, entries_findAndAddFile, if_pos rfl, findAndAddFile_eq]
    refine ⟨ts ++ foundFiles my db x, ?_, ?_, fun t ht => ?_, fun y hy => ?_, fun y hy => ?_⟩
    · rw [h.entries, List.map_append, List.append_assoc]
    · rw [List.map_append, List.nodup_append]
      refine ⟨h.nodup, nodup_foundFiles my hids x, fun a ha b hb => ?_⟩
      obtain ⟨t, ht, rfl⟩ := List.mem_map.mp ha
      obtain ⟨t', ht', rfl⟩ := List.mem_map.mp hb
      rw [(mem_foundFiles.mp ht').2]
      exact hts t ht
    · rcases List.mem_append.mp ht with ht | ht
      · exact h.added t ht
      · obtain ⟨hjoin, rfl⟩ := mem_foundFiles.mp ht
        exact ⟨hjoin, hparent, hzero, hE⟩
    · rcases List.mem_append.mp hy with hy | hy
      · obtain ⟨t, ht, rfl⟩ := List.mem_map.mp (List.mem_reverse.mp hy)
        exact (mem_foundFiles.mp ht).2 ▸ hparent
      · exact h.stack y (List.mem_cons_of_mem _ hy)
    · rcases h.covered y hy with hstack | hzero' | hmem | hnone
      · rcases List.mem_cons.mp hstack with rfl | hrest
        · by_cases hex : ∃ t ∈ db.filesJoin, t.1.id = y
          · obtain ⟨t, ht, hid⟩ := hex
            refine Or.inr (Or.inr (Or.inl (List.mem_map.mpr ⟨diffFile .none t, ?_, hid⟩)))
            exact List.mem_append_right _ (List.mem_map_of_mem (mem_foundFiles.mpr ⟨ht, hid⟩))
          · exact Or.inr (Or.inr (Or.inr fun t ht hid => hex ⟨t, ht, hid⟩))
        · exact Or.inl (List.mem_append_right _ hrest)
      · exact Or.inr (Or.inl hzero')
      · refine Or.inr (Or.inr (Or.inl ?_))
        rw [List.map_append]
        exact List.mem_append_left _ hmem
      · exact Or.inr (Or.inr (Or.inr hnone))

/-- The loop for one group. -/
theorem withParents_searchGroupParents (group : ModelGroup) (d : ModelDiffGroups) :
    WithParents db (d.entries group.id)
      ((searchGroupParents my db group ((d.entries group.id).map ModelDiffFile.parentFileId)
        d).1.entries group.id) := by
  obtain ⟨ts, h⟩ : ∃ ts, ParentsInv db (d.entries group.id)
      ((searchGroupParents my db group ((d.entries group.id).map ModelDiffFile.parentFileId)
        d).1.entries group.id)
      (searchGroupParents my db group ((d.entries group.id).map ModelDiffFile.parentFileId)
        d).2 ts := by
    -- the invariant holds in front of the loop, with nothing added and every parent id on the stack
    refine Function.Iterate.rec
      (fun s : ModelDiffGroups × List ℤ =>
        ∃ ts, ParentsInv db (d.entries group.id) (s.1.entries group.id) s.2 ts)
      ⟨[], (List.append_nil _).symm, List.nodup_nil, fun _ ht => absurd ht List.not_mem_nil,
        fun _ hx => List.mem_reverse.mp hx, fun _ hx => Or.inl (List.mem_reverse.mpr hx)⟩ ?_ _
    rintro s ⟨ts, hs⟩
    exact hs.step my hids
  rw [searchGroupParents_stack] at h
  refine ⟨ts, h.entries, h.nodup, fun t => ⟨h.added t, ?_⟩⟩
  rintro ⟨hjoin, hparent, hzero, hnew⟩
  -- the stack is empty, so the parent id was dealt with
  rcases h.covered _ hparent with hstack | hzero' | hmem | hnone
  · exact absurd hstack List.not_mem_nil
  · exact absurd hzero' hzero
  · rw [h.entries, List.map_append, List.mem_append] at hmem
    obtain ⟨f, hf, hid⟩ := List.mem_map.mp (hmem.resolve_left hnew)
    obtain ⟨t', ht', rfl⟩ := List.mem_map.mp hf
    have heq : t' = t := List.inj_on_of_nodup_map hids (h.added t' ht').1 hjoin hid
    exact heq ▸ ht'
  · exact absurd rfl (hnone t hjoin)

omit hids in
theorem entries_searchGroupParents_of_ne {group : ModelGroup} {k : ℤ} (hk : group.id ≠ k)
    (ids : List ℤ) (d : ModelDiffGroups) :
    (searchGroupParents my db group ids d).1.entries k = d.entries k := by
  apply searchGroupParents_induction (P := fun d' => d'.entries k = d.entries k) _ rfl
  intro fileId d' vIds hd'
  rw [entries_findAndAddFile, if_neg hk, List.append_nil]
  exact hd'

omit hids in
theorem wellFormed_searchGroupParents {d : ModelDiffGroups} (h : d.WellFormed) (group : ModelGroup)
    (ids : List ℤ) : (searchGroupParents my db group ids d).1.WellFormed := by
  apply searchGroupParents_induction _ h
  intro fileId d' vIds hd'
  rw [findAndAddFile_eq]
  exact hd'.foldl _ _ _

/-- One round of the loop over the groups changes one group. -/
theorem searchParentsOf_spec {d : ModelDiffGroups} (h : d.WellFormed) (groupId : ℤ) :
    (searchParentsOf my db d groupId).WellFormed ∧
      WithParents db (d.entries groupId) ((searchParentsOf my db d groupId).entries groupId) ∧
      ∀ k, k ≠ groupId → (searchParentsOf my db d groupId).entries k = d.entries k := by
  unfold searchParentsOf
  cases hg : d.mapGroups[groupId]? with
  | none =>
    refine ⟨h, ?_, fun _ _ => rfl⟩
    -- a group that is not there has no entries
    have hnil : d.entries groupId = [] := by simp [ModelDiffGroups.entries, hg]
    rw [hnil]
    exact ⟨[], rfl, List.nodup_nil, fun t => by simp⟩
  | some g =>
    obtain rfl := h.group_id _ _ hg
    dsimp only
    rw [g.parentFilesIds_eq, ← ModelDiffGroups.entries_of_mem hg]
    exact ⟨wellFormed_searchGroupParents my h _ _, withParents_searchGroupParents my hids g.group d,
      fun k hk => entries_searchGroupParents_of_ne my (Ne.symm hk) _ _⟩

/-- The loop over the groups treats every group by itself. -/
theorem foldl_searchParentsOf_spec {ks : List ℤ} (hks : ks.Nodup) {d : ModelDiffGroups}
    (h : d.WellFormed) :
    (ks.foldl (searchParentsOf my db) d).WellFormed ∧
      (∀ k ∈ ks, WithParents db (d.entries k) ((ks.foldl (searchParentsOf my db) d).entries k)) ∧
      ∀ k, k ∉ ks → (ks.foldl (searchParentsOf my db) d).entries k = d.entries k := by
  induction ks generalizing d with
  | nil => exact ⟨h, fun _ hk => absurd hk List.not_mem_nil, fun _ _ => rfl⟩
  | cons k rest ih =>
    obtain ⟨hk, hrest⟩ := List.nodup_cons.mp hks
    obtain ⟨hwf, hparents, hothers⟩ := searchParentsOf_spec my hids h k
    obtain ⟨hwf', hparents', hothers'⟩ := ih hrest hwf
    rw [List.foldl_cons]
    refine ⟨hwf', fun j hj => ?_, fun j hj => ?_⟩
    · rcases List.mem_cons.mp hj with rfl | hj
      -- the groups after `k` are different from it and leave its entries alone
      · rw [hothers' j hk]
        exact hparents
      · have hne : j ≠ k := fun hjk => hk (hjk ▸ hj)
        rw [← hothers j hne]
        exact hparents' j hj
    · rw [List.mem_cons, not_or] at hj
      rw [hothers' j hj.2, hothers j hj.1]

theorem searchParents_spec {d : ModelDiffGroups} (h : d.WellFormed) :
    (searchParents my db d).WellFormed ∧
      ∀ k, WithParents db (d.entries k) ((searchParents my db d).entries k) := by
  obtain ⟨hwf, hparents, hothers⟩ :=
    foldl_searchParentsOf_spec my hids d.mapGroups.nodup_keys h
  refine ⟨hwf, fun k => ?_⟩
  by_cases hk : k ∈ d.mapGroups.keys
  · exact hparents k hk
  · have hnone : d.mapGroups[k]? = none := by
      rw [Std.TreeMap.mem_keys] at hk
      exact Std.TreeMap.getElem?_eq_none hk
    have hnil : d.entries k = [] := by simp [ModelDiffGroups.entries, hnone]
    unfold searchParents
    rw [hothers k hk, hnil]
    exact ⟨[], rfl, List.nodup_nil, fun t => by simp⟩

end Parents

/-! ### The comments -/

theorem searchComments_foldl (my : MySql) (db : Database) (is : List ℤ) (d : ModelDiffGroups) :
    (is.foldl (fun d i => d.setComments i (getComments my db i)) d).mapGroups = d.mapGroups ∧
      ∀ i, (is.foldl (fun d i => d.setComments i (getComments my db i)) d).mapComments[i]?
        = if i ∈ is then some (getComments my db i) else d.mapComments[i]? := by
  induction is generalizing d with
  | nil => exact ⟨rfl, fun i => by simp⟩
  | cons j rest ih =>
    obtain ⟨hgroups, hcomments⟩ := ih (d.setComments j (getComments my db j))
    rw [List.foldl_cons]
    refine ⟨hgroups, fun i => ?_⟩
    rw [hcomments i, ModelDiffGroups.setComments, Std.TreeMap.getElem?_insert]
    by_cases hi : i ∈ rest
    · simp [hi]
    · by_cases hj : j = i
      · subst hj
        simp
      · simp [hi, hj, Ne.symm hj]

/-- The comments are filed under the define ids of the entries. -/
theorem mapComments_searchComments (my : MySql) (db : Database) {d : ModelDiffGroups}
    (h : d.WellFormed) (i : ℤ) (cs : List ModelComment) :
    (searchComments my db d).mapComments[i]? = some cs ↔
      (∃ k, ∃ f ∈ d.entries k, f.defineFileId = i) ∧ getComments my db i = cs := by
  have hcomments := (searchComments_foldl my db d.fileDefineIds d).2 i
  unfold searchComments
  rw [hcomments, ← h.defineIds]
  by_cases hi : i ∈ d.fileDefineIds <;> simp [hi, h.comments]

theorem entries_searchComments (my : MySql) (db : Database) (d : ModelDiffGroups) (k : ℤ) :
    (searchComments my db d).entries k = d.entries k := by
  have hgroups := (searchComments_foldl my db d.fileDefineIds d).1
  unfold searchComments ModelDiffGroups.entries
  rw [hgroups]

/-! ### The whole diff -/

/-- The rows of one group that are in the first version and not in the second. -/
def diffRows (my : MySql) (db : Database) (left right groupId : ℤ) :
    List (FileRow × DefineFileRow) :=
  ((my.scan (db.groupsJoin.filter fun t => db.differs left right t.1.1)).filter
    fun t => t.1.1.fileGroupId = groupId).map Prod.fst

/-- The entries of one group before the parents are searched. -/
def differing (my : MySql) (db : Database) (left right groupId : ℤ) : List ModelDiffFile :=
  (diffRows my db left right groupId).map (diffFile .missing)
    ++ (diffRows my db right left groupId).map (diffFile .new)

theorem entries_getDiffFiles (my : MySql) (db : Database) (left right : ℤ) (state : DiffState)
    (d : ModelDiffGroups) (k : ℤ) :
    (getDiffFiles my db left right state d).entries k
      = d.entries k ++ (diffRows my db left right k).map (diffFile state) := by
  unfold getDiffFiles diffRows
  rw [ModelDiffGroups.entries_foldl, List.map_map]
  rfl

/-- The groups when the differing rows have been collected. -/
def differingGroups (my : MySql) (db : Database) (left right : ℤ) : ModelDiffGroups :=
  getDiffFiles my db right left .new (getDiffFiles my db left right .missing ModelDiffGroups.new)

theorem wellFormed_differingGroups (my : MySql) (db : Database) (left right : ℤ) :
    (differingGroups my db left right).WellFormed :=
  (ModelDiffGroups.WellFormed.new.foldl _ _ _).foldl _ _ _

theorem entries_differingGroups (my : MySql) (db : Database) (left right k : ℤ) :
    (differingGroups my db left right).entries k = differing my db left right k := by
  unfold differingGroups differing
  rw [entries_getDiffFiles, entries_getDiffFiles, ModelDiffGroups.entries_new, List.nil_append]

theorem getDiff_eq (my : MySql) (db : Database) (left right : ℤ) :
    getDiff my db left right
      = searchComments my db (searchParents my db (differingGroups my db left right)) := rfl

section GetDiff

variable {db : Database} (my : MySql) (hids : (db.filesJoin.map fun t => t.1.id).Nodup)
include hids

/-- **The entries of the diff.** -/
theorem withParents_getDiff (left right k : ℤ) :
    WithParents db (differing my db left right k) ((getDiff my db left right).entries k) := by
  rw [getDiff_eq, entries_searchComments, ← entries_differingGroups]
  exact (searchParents_spec my hids (wellFormed_differingGroups my db left right)).2 k

/-- **The comments of the diff.** -/
theorem mapComments_getDiff (left right i : ℤ) (cs : List ModelComment) :
    (getDiff my db left right).mapComments[i]? = some cs ↔
      (∃ k, ∃ f ∈ (getDiff my db left right).entries k, f.defineFileId = i) ∧
        getComments my db i = cs := by
  have hwf := (searchParents_spec my hids (wellFormed_differingGroups my db left right)).1
  rw [getDiff_eq, mapComments_searchComments my db hwf]
  simp only [entries_searchComments]

/-- Comments are filed under the define ids of the entries. -/
theorem mem_keys_mapComments_getDiff (left right i : ℤ) :
    i ∈ (getDiff my db left right).mapComments.keys ↔
      ∃ k, ∃ f ∈ (getDiff my db left right).entries k, f.defineFileId = i := by
  have hfiled := mapComments_getDiff my hids left right i
  rw [Std.TreeMap.mem_keys, Std.TreeMap.mem_iff_isSome_getElem?, Option.isSome_iff_exists]
  constructor
  · rintro ⟨cs, hcs⟩
    exact ((hfiled cs).mp hcs).1
  · exact fun hi => ⟨_, (hfiled _).mpr ⟨hi, rfl⟩⟩

end GetDiff

end WebDiff
