import WebDiff.Sql.Literals
import WebDiff.Storage.Tables

/-!
# When stored text reads back unchanged

MySQL stores the values of the literals, which are the strings that were given
(`Sql.received_eq`). The readers make a `std::string` of the pointer to a column, so what they
return ends before the first NUL byte. A text reads back unchanged, in every later state, exactly
when it has none (`readsBack_iff`).
-/

namespace WebDiff

open SqlLexer Program Table

/-! ### What MySQL stores -/

/-- The value of the literal that is written for a string. -/
def storedText (value : Bytes) : Bytes :=
  ((literal (prepareStringValue value)).map Prod.fst).getD []

theorem storedText_eq (value : Bytes) : storedText value = value := by
  have hliteral : literal (prepareStringValue value ++ []) = some (value, []) :=
    literal_prepareStringValue value (by simp)
  rw [List.append_nil] at hliteral
  unfold storedText
  rw [hliteral]
  rfl

/-- The statement with the values MySQL reads for its literals. -/
def Sql.received : Sql → Sql
  | .insertVersion name => .insertVersion (storedText name)
  | .insertGroup name => .insertGroup (storedText name)
  | .insertDefineFile filepath filename parentId =>
    .insertDefineFile (storedText filepath) (storedText filename) parentId
  | .insertComment defineFileId comment now =>
    .insertComment defineFileId (storedText comment) now
  | stmt => stmt

theorem Sql.received_eq (stmt : Sql) : stmt.received = stmt := by
  cases stmt <;> simp only [Sql.received, storedText_eq]

/-- The tables after a sequence of statements. -/
def tablesAfter (my : MySql) (stmts : List Sql) : Database :=
  stmts.foldl (fun db stmt => (stmt.received.exec my db).2) Database.empty

theorem tablesAfter_concat (my : MySql) (stmts : List Sql) (stmt : Sql) :
    tablesAfter my (stmts ++ [stmt]) = (stmt.exec my (tablesAfter my stmts)).2 := by
  unfold tablesAfter
  rw [List.foldl_append, List.foldl_cons, List.foldl_nil, stmt.received_eq]

/-! ### What the statements leave as it is -/

/-- The ids of the tables with text columns increase. -/
structure IncreasingIds (db : Database) : Prop where
  versions : Increasing VersionRow.id db.versions
  fileGroups : Increasing FileGroupRow.id db.fileGroups
  defineFiles : Increasing DefineFileRow.id db.defineFiles
  comments : Increasing CommentRow.id db.comments

theorem IncreasingIds.exec {my : MySql} {db : Database} (h : IncreasingIds db) (stmt : Sql) :
    IncreasingIds (stmt.exec my db).2 := by
  cases stmt with
  | insertVersion name =>
    exact { h with versions := h.versions.append (my.lastId_lt_nextId _ _ _) }
  | insertGroup name =>
    exact { h with fileGroups := h.fileGroups.append (my.lastId_lt_nextId _ _ _) }
  | insertDefineFile filepath filename parentId =>
    exact { h with defineFiles := h.defineFiles.append (my.lastId_lt_nextId _ _ _) }
  | insertComment defineFileId comment now =>
    exact { h with comments := h.comments.append (my.lastId_lt_nextId _ _ _) }
  | updateHided id =>
    refine { h with comments := ⟨fun c hc => ?_, ?_⟩ }
    · obtain ⟨old, hold, rfl⟩ := List.mem_map.mp hc
      rw [CommentRow.hide_eq]
      exact h.comments.pos old hold
    -- hiding a comment keeps its id
    · show ((db.comments.map (CommentRow.hide id)).Pairwise _)
      rw [List.pairwise_map]
      simp only [CommentRow.hide_eq]
      exact h.comments.lt
  | _ => exact { h with }

theorem increasingIds_tablesAfter (my : MySql) (stmts : List Sql) :
    IncreasingIds (tablesAfter my stmts) := by
  induction stmts using List.reverseRecOn with
  | nil => exact ⟨Increasing.nil, Increasing.nil, Increasing.nil, Increasing.nil⟩
  | append_singleton stmts stmt ih =>
    rw [tablesAfter_concat]
    exact ih.exec stmt

/-- The rows with texts stay, except that a comment may be hidden. -/
structure KeepsTexts (db db' : Database) (hidden : ℤ → Prop) : Prop where
  versions : db.versions ⊆ db'.versions
  fileGroups : db.fileGroups ⊆ db'.fileGroups
  defineFiles : db.defineFiles ⊆ db'.defineFiles
  comments : ∀ c ∈ db.comments, ¬ hidden c.id → c ∈ db'.comments

theorem keepsTexts_exec (my : MySql) (db : Database) (stmt : Sql) :
    KeepsTexts db (stmt.exec my db).2 fun id => stmt = .updateHided id := by
  cases stmt with
  | insertVersion name =>
    exact ⟨List.subset_append_left _ _, fun _ h => h, fun _ h => h, fun _ h _ => h⟩
  | insertGroup name =>
    exact ⟨fun _ h => h, List.subset_append_left _ _, fun _ h => h, fun _ h _ => h⟩
  | insertDefineFile filepath filename parentId =>
    exact ⟨fun _ h => h, fun _ h => h, List.subset_append_left _ _, fun _ h _ => h⟩
  | insertComment defineFileId comment now =>
    exact ⟨fun _ h => h, fun _ h => h, fun _ h => h, fun _ h _ => List.mem_append_left _ h⟩
  | updateHided id =>
    refine ⟨fun _ h => h, fun _ h => h, fun _ h => h, fun c hc hne => ?_⟩
    have hid : ¬ c.id = id := fun hid => hne (by rw [hid])
    exact List.mem_map.mpr ⟨c, hc, if_neg hid⟩
  | _ => exact ⟨fun _ h => h, fun _ h => h, fun _ h => h, fun _ h _ => h⟩

theorem keepsTexts_tablesAfter (my : MySql) (earlier later : List Sql) :
    KeepsTexts (tablesAfter my earlier) (tablesAfter my (earlier ++ later))
      fun id => .updateHided id ∈ later := by
  induction later using List.reverseRecOn with
  | nil =>
    rw [List.append_nil]
    exact ⟨fun _ h => h, fun _ h => h, fun _ h => h, fun _ h _ => h⟩
  | append_singleton later stmt ih =>
    have hexec := keepsTexts_exec my (tablesAfter my (earlier ++ later)) stmt
    rw [← List.append_assoc, tablesAfter_concat]
    refine ⟨fun _ h => hexec.versions (ih.versions h),
      fun _ h => hexec.fileGroups (ih.fileGroups h),
      fun _ h => hexec.defineFiles (ih.defineFiles h), fun c hc hne => ?_⟩
    rw [List.mem_append, List.mem_singleton, not_or] at hne
    exact hexec.comments c (ih.comments c hc hne.1) (Ne.symm hne.2)

/-! ### Reading a text column -/

/-- The row with the id of `r` is read with the text of `r` exactly when that text has no NUL
byte. -/
theorem exists_text_iff {R : Type} {id : R → ℤ} (text : R → Bytes) {rows : List R}
    (h : Increasing id rows) {r : R} (hr : r ∈ rows) :
    (∃ row ∈ rows, id row = id r ∧ cString (text row) = text r) ↔ 0 ∉ text r := by
  constructor
  · rintro ⟨row, hrow, hid, htext⟩
    obtain rfl := h.eq_of_id_eq hrow hr hid
    exact cString_eq_self_iff.mp htext
  · exact fun h0 => ⟨r, hr, rfl, cString_eq_self h0⟩

theorem mem_getApiVersionsAll {my : MySql} {db : Database} {ver : ModelVersion} :
    ver ∈ getApiVersionsAll my db ↔
      ∃ row ∈ db.versions, row.id = ver.id ∧ cString row.name = ver.name := by
  unfold getApiVersionsAll
  rw [List.mem_map]
  refine exists_congr fun row => and_congr (my.orderBy_perm _ _).mem_iff ?_
  rw [ModelVersion.ext_iff]

theorem mem_getGroupsAll {my : MySql} {db : Database} {gr : ModelGroup} :
    gr ∈ getGroupsAll my db ↔
      ∃ row ∈ db.fileGroups, row.id = gr.id ∧ cString row.name = gr.title := by
  unfold getGroupsAll
  rw [List.mem_map]
  refine exists_congr fun row => and_congr (my.orderBy_perm _ _).mem_iff ?_
  rw [ModelGroup.ext_iff]

/-- The rows `getComments` reads. -/
def visibleComments (db : Database) (defineFileId : ℤ) : List CommentRow :=
  db.comments.filter fun t0 => t0.defineFileId = defineFileId ∧ t0.hided = 0

theorem mem_getComments {my : MySql} {db : Database} {defineFileId id : ℤ} {comment : Bytes} :
    ⟨id, defineFileId, comment⟩ ∈ getComments my db defineFileId ↔
      ∃ row ∈ visibleComments db defineFileId, row.id = id ∧ cString row.comment = comment := by
  unfold getComments
  rw [List.mem_map]
  refine exists_congr fun row => ?_
  rw [(my.orderBy_perm _ _).mem_iff]
  refine and_congr_right fun hrow => ?_
  have hdefine : row.defineFileId = defineFileId :=
    (of_decide_eq_true (List.mem_filter.mp hrow).2).1
  rw [ModelComment.mk.injEq, hdefine]
  simp

/-- What the loop of `getDefineFilesCache` reads from the rows: the key and the id of each. -/
def loadedDefineFiles (my : MySql) (db : Database) : List (Bytes × ℤ) :=
  (my.scan db.defineFiles).map fun row => (cString row.filepath, row.id)

theorem getDefineFilesCache_eq (my : MySql) (db : Database) (cache : Bytes → Option ℤ) :
    getDefineFilesCache my db cache
      = (loadedDefineFiles my db).foldl
          (fun (cache : Bytes → Option ℤ) p => Function.update cache p.1 (some p.2)) cache := by
  unfold getDefineFilesCache loadedDefineFiles
  rw [List.foldl_map]

theorem mem_loadedDefineFiles {my : MySql} {db : Database} {filepath : Bytes} {id : ℤ} :
    (filepath, id) ∈ loadedDefineFiles my db ↔
      ∃ row ∈ db.defineFiles, row.id = id ∧ cString row.filepath = filepath := by
  unfold loadedDefineFiles
  rw [List.mem_map]
  refine exists_congr fun row => and_congr (my.scan_perm _).mem_iff ?_
  rw [Prod.mk.injEq]
  exact and_comm

/-- A key that is loaded is in the map, with the id of the last row that has it. -/
theorem isSome_getDefineFilesCache {my : MySql} {db : Database} {filepath : Bytes} {id : ℤ}
    (h : (filepath, id) ∈ loadedDefineFiles my db) (cache : Bytes → Option ℤ) :
    (getDefineFilesCache my db cache filepath).isSome := by
  rw [getDefineFilesCache_eq]
  -- the induction is on the row read last, which is the one that counts
  generalize loadedDefineFiles my db = rows at h ⊢
  induction rows using List.reverseRecOn with
  | nil => exact absurd h List.not_mem_nil
  | append_singleton rows p ih =>
    rw [List.foldl_append, List.foldl_cons, List.foldl_nil, Function.update_apply]
    split
    · rfl
    · next hne =>
      refine ih ((List.mem_append.mp h).resolve_right fun hp => hne ?_)
      rw [← List.mem_singleton.mp hp]

/-! ### Texts that read back -/

/-- A text written after the statements `earlier` is the one that is read after the statements
`later`: the name of a version or a group, the comment until it is hidden, and the key that is
loaded for the row of a path, which is then in the cache. Another text without NUL byte is not read
as this one. -/
structure ReadsBack (my : MySql) (earlier later : List Sql) (value : Bytes) : Prop where
  version : ⟨(run (Database.step my) (insertVersion value) (tablesAfter my earlier)).1.id, value⟩ ∈
    getApiVersionsAll my (tablesAfter my (earlier ++ .insertVersion value :: later))
  group : ⟨(run (Database.step my) (insertGroup value) (tablesAfter my earlier)).1.id, value⟩ ∈
    getGroupsAll my (tablesAfter my (earlier ++ .insertGroup value :: later))
  comment : ∀ defineFileId now id,
    id = (run (Database.step my) (addComment defineFileId value now)
      (tablesAfter my earlier)).1.id → .updateHided id ∉ later →
    ⟨id, defineFileId, value⟩ ∈ getComments my
      (tablesAfter my (earlier ++ .insertComment defineFileId value now :: later)) defineFileId
  defineFile : ∀ filename parentId,
    (value, (run (Database.step my) (insertDefineFile value filename parentId)
      (tablesAfter my earlier)).1) ∈ loadedDefineFiles my
        (tablesAfter my (earlier ++ .insertDefineFile value filename parentId :: later))
  cached : ∀ filename parentId, (getDefineFilesCache my
    (tablesAfter my (earlier ++ .insertDefineFile value filename parentId :: later))
      (fun _ => none) value).isSome
  distinct : ∀ other : Bytes, 0 ∉ other →
    cString (storedText other) = cString (storedText value) → other = value

section ReadsBack

variable (my : MySql) (earlier later : List Sql) (value : Bytes)

/-- The rows behind a statement and the statements after it. -/
theorem keepsTexts_cons (stmt : Sql) :
    KeepsTexts (stmt.exec my (tablesAfter my earlier)).2 (tablesAfter my (earlier ++ stmt :: later))
      fun id => .updateHided id ∈ later := by
  have hkeeps := keepsTexts_tablesAfter my (earlier ++ [stmt]) later
  rwa [tablesAfter_concat, List.append_assoc] at hkeeps

theorem version_readsBack_iff :
    ⟨(run (Database.step my) (insertVersion value) (tablesAfter my earlier)).1.id, value⟩ ∈
        getApiVersionsAll my (tablesAfter my (earlier ++ .insertVersion value :: later)) ↔
      0 ∉ value := by
  have hrow := (keepsTexts_cons my earlier later (.insertVersion value)).versions
    (List.mem_append_right _ (List.mem_singleton.mpr rfl))
  rw [mem_getApiVersionsAll]
  exact exists_text_iff VersionRow.name (increasingIds_tablesAfter my _).versions hrow

theorem group_readsBack_iff :
    ⟨(run (Database.step my) (insertGroup value) (tablesAfter my earlier)).1.id, value⟩ ∈
        getGroupsAll my (tablesAfter my (earlier ++ .insertGroup value :: later)) ↔
      0 ∉ value := by
  have hrow := (keepsTexts_cons my earlier later (.insertGroup value)).fileGroups
    (List.mem_append_right _ (List.mem_singleton.mpr rfl))
  rw [mem_getGroupsAll]
  exact exists_text_iff FileGroupRow.name (increasingIds_tablesAfter my _).fileGroups hrow

theorem defineFile_readsBack_iff (filename : Bytes) (parentId : ℤ) :
    (value, (run (Database.step my) (insertDefineFile value filename parentId)
        (tablesAfter my earlier)).1) ∈ loadedDefineFiles my
          (tablesAfter my (earlier ++ .insertDefineFile value filename parentId :: later)) ↔
      0 ∉ value := by
  have hrow := (keepsTexts_cons my earlier later
    (.insertDefineFile value filename parentId)).defineFiles
      (List.mem_append_right _ (List.mem_singleton.mpr rfl))
  rw [mem_loadedDefineFiles]
  exact exists_text_iff DefineFileRow.filepath (increasingIds_tablesAfter my _).defineFiles hrow

theorem comment_readsBack_iff (defineFileId now : ℤ) {id : ℤ}
    (hid : id = (run (Database.step my) (addComment defineFileId value now)
      (tablesAfter my earlier)).1.id) (hshown : .updateHided id ∉ later) :
    ⟨id, defineFileId, value⟩ ∈ getComments my
        (tablesAfter my (earlier ++ .insertComment defineFileId value now :: later)) defineFileId ↔
      0 ∉ value := by
  subst hid
  have hrow := (keepsTexts_cons my earlier later (.insertComment defineFileId value now)).comments
    _ (List.mem_append_right _ (List.mem_singleton.mpr rfl)) hshown
  have hids := (increasingIds_tablesAfter my
    (earlier ++ .insertComment defineFileId value now :: later)).comments
  have hvisible : Increasing CommentRow.id (visibleComments (tablesAfter my
      (earlier ++ .insertComment defineFileId value now :: later)) defineFileId) :=
    ⟨fun c hc => hids.pos c (List.mem_filter.mp hc).1, hids.lt.filter _⟩
  rw [mem_getComments]
  exact exists_text_iff CommentRow.comment hvisible
    (List.mem_filter.mpr ⟨hrow, decide_eq_true ⟨rfl, rfl⟩⟩)

/-- **When stored text reads back unchanged.** In every later state, whatever was stored before and
after it, a text reads back unchanged as the name of a version or of a group, as a comment that is
not hidden and as the key of a path, and no other text reads back as it does, if and only if it has
no NUL byte. -/
theorem readsBack_iff : ReadsBack my earlier later value ↔ 0 ∉ value := by
  constructor
  · intro h
    exact (version_readsBack_iff my earlier later value).mp h.version
  · intro h0
    have hloaded := fun filename parentId =>
      (defineFile_readsBack_iff my earlier later value filename parentId).mpr h0
    refine ⟨(version_readsBack_iff my earlier later value).mpr h0,
      (group_readsBack_iff my earlier later value).mpr h0, fun defineFileId now id hid hshown => ?_,
      hloaded, fun filename parentId => ?_, fun other hother heq => ?_⟩
    · exact (comment_readsBack_iff my earlier later value defineFileId now hid hshown).mpr h0
    · exact isSome_getDefineFilesCache (hloaded filename parentId) _
    -- two texts without NUL byte are read as themselves
    · rw [storedText_eq, storedText_eq, cString_eq_self hother, cString_eq_self h0] at heq
      exact heq

end ReadsBack

/-- The path `"/a\u0000b"` is loaded as the key `"/a"`. -/
theorem nulText_not_readsBack : ¬ ReadsBack .innodb [] [] [47, 97, 0, 98] := by
  intro h
  have hloaded : loadedDefineFiles .innodb
      (tablesAfter .innodb [.insertDefineFile [47, 97, 0, 98] [97, 0, 98] 0])
        = [(lit "/a", 1)] := by
    decide
  have hmem := h.defineFile [97, 0, 98] 0
  rw [List.nil_append, hloaded] at hmem
  exact absurd hmem (by decide)

end WebDiff
