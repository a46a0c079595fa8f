import WebDiff.Storage.Footprint
import WebDiff.Storage.PathForest
import WebDiff.Storage.Restart

/-!
# Dying between two statements

Every statement is a transaction of its own, so a process that dies leaves the tables as the
statements before made them. The process that replaces it fills its caches from these tables, and
the client sends the interrupted request again (`Delivery`). The counters of the file rows survive
this unless the process dies between the `INSERT` of a row below another one and the `UPDATE` that
recounts the children of that one (`Op.inWindow`): the next process finds the row in its cache and
does not recount (`counted_deliveries_iff`).

The caches need not be in step for this. A path with a NUL byte is not found again after a restart,
and gets another define row and other file rows, each of which is counted. What has to hold is that
the parent of every new row is a row that exists (`Tallied`).
-/

namespace WebDiff

open Program Table

/-- The statements of `insertFile` behind the `INSERT` of a row that has a parent. -/
def Op.inWindow : Op → Bool
  | .sql (.selectCount parentId) => parentId ≠ 0
  | .sql (.updateAmountOfChildren _ id) => id ≠ 0
  | _ => false

/-- The file rows are counted, and will be: ids increase, parents are older than their children, and
the caches know no file id that does not exist. -/
structure Tallied (w : World) : Prop where
  ids : Increasing FileLink.id w.db.links
  parents : ∀ l ∈ w.db.links, l.parentId < l.id
  cached : ∀ key id, w.caches.fileIds.lookup key = some id → ∃ l ∈ w.db.links, l.id = id
  counted : w.db.Counted

/-- What the loop of `addFile` carries as the id of the parent. -/
def IsParent (w : World) (f : ℤ) : Prop :=
  f = 0 ∨ ∃ l ∈ w.db.links, l.id = f

/-- What is known where the process dies. -/
structure DiesAt (o : Op) (w : World) : Prop where
  outside : o.inWindow = false → Tallied w
  inside : o.inWindow = true → ¬ w.db.Counted

theorem Tallied.empty : Tallied World.empty where
  ids := Increasing.nil
  parents := fun _ hl => absurd hl List.not_mem_nil
  cached := by
    intro key id h
    rw [World.empty, Caches.empty, ModelCacheFilesVersion.lookup_new] at h
    cases h
  counted := fun _ hrow => absurd hrow List.not_mem_nil

theorem Tallied.diesAt {w : World} (h : Tallied w) {o : Op} (ho : o.inWindow = false) :
    DiesAt o w :=
  ⟨fun _ => h, fun ho' => by rw [ho] at ho'; cases ho'⟩

/-! ### Operations on the other tables -/

/-- The operations that leave `webdiff_files` and its cache alone. -/
def Op.KeepsFiles : Op → Prop
  | .putFile _ _ _ _ => False
  | .sql (.insertFile _ _ _ _) => False
  | .sql (.updateAmountOfChildren _ _) => False
  | .sql (.selectCount _) => False
  | _ => True

section KeepsFiles

variable {my : MySql} {w : World}

/-- Such an operation is not in the window, and changes nothing that is tallied. -/
theorem Op.KeepsFiles.step (my : MySql) {o : Op} (ho : o.KeepsFiles) (w : World) :
    o.inWindow = false ∧ (World.step my o w).2.db.files = w.db.files ∧
      (World.step my o w).2.caches.fileIds = w.caches.fileIds := by
  cases o with
  | sql s =>
    cases s with
    | insertFile v g d f => exact ho.elim
    | updateAmountOfChildren amount id => exact ho.elim
    | selectCount parentId => exact ho.elim
    | _ => exact ⟨rfl, rfl, rfl⟩
  | putFile v g d f => exact ho.elim
  | _ => exact ⟨rfl, rfl, rfl⟩

theorem Tallied.of_same_files {w' : World} (h : Tallied w) (hfiles : w'.db.files = w.db.files)
    (hcache : w'.caches.fileIds = w.caches.fileIds) : Tallied w' := by
  have hlinks : w'.db.links = w.db.links := congrArg (List.map FileRow.toFileLink) hfiles
  refine ⟨?_, ?_, ?_, ?_⟩
  · rw [hlinks]
    exact h.ids
  · rw [hlinks]
    exact h.parents
  · rw [hlinks, hcache]
    exact h.cached
  · unfold Database.Counted Database.childCount
    rw [hfiles, hlinks]
    exact h.counted

/-- A program of such operations, wherever it ends. -/
theorem wp_of_keepsFiles {α : Type} {p : Storage α} (hp : p.Uses Op.KeepsFiles) (h : Tallied w)
    {f : ℤ} (hf : IsParent w f) :
    wp (World.step my) Op.isSql p (fun _ w' => Tallied w' ∧ IsParent w' f) DiesAt w := by
  have hstep : ∀ o w, Op.KeepsFiles o → Tallied w ∧ IsParent w f →
      Tallied (World.step my o w).2 ∧ IsParent (World.step my o w).2 f := by
    rintro o w ho ⟨h, hf⟩
    obtain ⟨-, hfiles, hcache⟩ := ho.step my w
    have hlinks : (World.step my o w).2.db.links = w.db.links :=
      congrArg (List.map FileRow.toFileLink) hfiles
    refine ⟨h.of_same_files hfiles hcache, ?_⟩
    unfold IsParent
    rw [hlinks]
    exact hf
  refine wp_mono _ (wp_of_uses _ hstep hp ⟨h, hf⟩) (fun _ _ hpost => hpost) fun o w' hdies => ?_
  exact hdies.2.1.diesAt (hdies.1.step my w').1

end KeepsFiles

/-! ### `findFileOrCreate` -/

section InsertFile

variable {my : MySql} {w : World}

theorem IsParent.le_lastId (h : Tallied w) {f : ℤ} (hf : IsParent w f) :
    f ≤ lastId FileLink.id w.db.links := by
  rcases hf with rfl | ⟨l, hl, rfl⟩
  · exact h.ids.lastId_nonneg
  · exact h.ids.le_lastId hl

/-- Between the `INSERT` and the `UPDATE` the counter of the parent is too small. -/
theorem not_counted_insertFile (h : Tallied w) {f : ℤ} (hf : IsParent w f) (hne : f ≠ 0)
    (v g d : ℤ) : ¬ ((Sql.insertFile v g d f).exec my w.db).2.Counted := by
  intro hcounted
  obtain ⟨l, hl, hid⟩ := hf.resolve_left hne
  obtain ⟨row, hrow, rfl⟩ := List.mem_map.mp hl
  have hold := h.counted row hrow
  have hnew := hcounted row (List.mem_append_left _ hrow)
  rw [childCount_insertFile, if_pos hid.symm] at hnew
  omega

/-- A row without a parent is counted at once. -/
theorem counted_insertFile_root (h : Tallied w) (v g d : ℤ) :
    ((Sql.insertFile v g d 0).exec my w.db).2.Counted := by
  intro row hrow
  refine counted_insertFile my h.ids h.parents h.counted v g d 0 row hrow ?_
  -- every id is positive, that of the new row included
  rcases List.mem_append.mp hrow with hrow | hrow
  · exact ne_of_gt (h.ids.pos _ (List.mem_map_of_mem hrow))
  · rw [List.mem_singleton.mp hrow]
    exact ne_of_gt (lt_of_le_of_lt h.ids.lastId_nonneg (my.lastId_lt_nextId _ _ _))

/-- A new row, as far as ids and caches go. The counters are left to the caller. -/
theorem Tallied.of_insertFile (h : Tallied w) {v g d f : ℤ} (hf : IsParent w f) {db : Database}
    (hlinks : db.links = w.db.links ++ [⟨my.nextId .files FileLink.id w.db.links, v, g, d, f⟩])
    (hcounted : db.Counted) : Tallied ⟨db, w.caches⟩ := by
  have hlast := my.lastId_lt_nextId .files FileLink.id w.db.links
  refine ⟨?_, ?_, ?_, hcounted⟩
  · rw [hlinks]
    exact h.ids.append hlast
  · rw [hlinks]
    intro l hl
    rcases List.mem_append.mp hl with hl | hl
    · exact h.parents l hl
    · rw [List.mem_singleton.mp hl]
      exact lt_of_le_of_lt (hf.le_lastId h) hlast
  · intro key id hlookup
    obtain ⟨l, hl, hid⟩ := h.cached key id hlookup
    rw [hlinks]
    exact ⟨l, List.mem_append_left _ hl, hid⟩

/-- The row is cached under its id. -/
theorem Tallied.putFile (h : Tallied w) {id : ℤ} (hid : ∃ l ∈ w.db.links, l.id = id) (v g d : ℤ) :
    Tallied ⟨w.db, { w.caches with fileIds := w.caches.fileIds.add v g d id }⟩ := by
  refine ⟨h.ids, h.parents, ?_, h.counted⟩
  intro key id' hlookup
  rw [ModelCacheFilesVersion.lookup_add] at hlookup
  split at hlookup
  · obtain rfl := Option.some.inj hlookup
    exact hid
  · exact h.cached key id' hlookup

/-- The counters survive `findFileOrCreate`, and its death outside the window. -/
theorem wp_findFileOrCreate_tallied (h : Tallied w) {f : ℤ} (hf : IsParent w f) (v g d : ℤ) :
    wp (World.step my) Op.isSql (findFileOrCreate v g d f)
      (fun f' w' => Tallied w' ∧ IsParent w' f') DiesAt w := by
  unfold findFileOrCreate Op.perform
  rw [wp_bind, wp_perform]
  refine ⟨fun hsql => absurd hsql (by simp [Op.isSql]), ?_⟩
  show wp _ _ (createFileIfAbsent v g d f (w.caches.fileIds.findFileId v g d)) _ _ w
  rw [ModelCacheFilesVersion.findFileId_eq]
  unfold createFileIfAbsent
  split
  · next hfound =>
    -- a cached id is the id of a row
    cases hlookup : w.caches.fileIds.lookup (v, g, d) with
    | none =>
      rw [hlookup] at hfound
      exact absurd rfl hfound
    | some id => exact ⟨h, Or.inr (h.cached _ _ hlookup)⟩
  · unfold WebDiff.insertFile sql Op.perform
    simp only [wp_bind, wp_perform, wp_pure, World.step]
    -- the tables behind the `INSERT`, and behind the `UPDATE`
    have hinserted := links_insertFile my w.db v g d f
    have hdies : ∀ o : Op, o.inWindow = decide (f ≠ 0) →
        DiesAt o ⟨((Sql.insertFile v g d f).exec my w.db).2, w.caches⟩ := by
      intro o ho
      refine ⟨fun hout => ?_, fun hin => ?_⟩
      · have hzero : f = 0 := by simpa [ho] using hout
        subst hzero
        exact h.of_insertFile hf hinserted (counted_insertFile_root h v g d)
      · have hne : f ≠ 0 := by simpa [ho] using hin
        exact not_counted_insertFile h hf hne v g d
    have hcounted := counted_updateAmount my
      (counted_insertFile my h.ids h.parents h.counted v g d f)
    have hupdated : Tallied ⟨((Sql.updateAmountOfChildren
        (((Sql.insertFile v g d f).exec my w.db).2.childCount f) f).exec my
          ((Sql.insertFile v g d f).exec my w.db).2).2, w.caches⟩ :=
      h.of_insertFile hf ((links_updateAmount _ _ _ _).trans hinserted) hcounted
    refine ⟨fun _ => h.diesAt rfl, fun _ => hdies _ rfl, fun _ => hdies _ rfl,
      fun hsql => absurd hsql (by simp [Op.isSql]), ?_⟩
    have hnew : ∃ l ∈ ((Sql.updateAmountOfChildren
        (((Sql.insertFile v g d f).exec my w.db).2.childCount f) f).exec my
          ((Sql.insertFile v g d f).exec my w.db).2).2.links,
        l.id = my.nextId .files FileLink.id w.db.links := by
      rw [links_updateAmount, hinserted]
      exact ⟨_, List.mem_append_right _ (List.mem_singleton.mpr rfl), rfl⟩
    exact ⟨hupdated.putFile hnew v g d, Or.inr hnew⟩

end InsertFile

/-! ### Uploads -/

section Upload

variable {my : MySql} {w : World}

/-- The loop of `addFile` carries the id of a row, or `0`. -/
theorem wp_addFileLoop_tallied (h : Tallied w) (v g : ℤ) (names : List Bytes) (path : Bytes) (d : ℤ)
    {f : ℤ} (hf : IsParent w f) :
    wp (World.step my) Op.isSql (addFileLoop v g names path d f) (fun _ w' => Tallied w') DiesAt
      w := by
  induction names generalizing w path d f with
  | nil => exact h
  | cons name rest ih =>
    unfold addFileLoop
    split
    · exact ih h path d hf
    · rw [wp_bind]
      have hdefine : (findDefineFileIdOrCreate (path ++ slash :: name) name d).Uses
          Op.KeepsFiles := uses_findDefineFileIdOrCreate trivial trivial fun _ => trivial
      refine wp_mono _ (wp_of_keepsFiles hdefine h hf) (fun d' w' hpost => ?_)
        fun _ _ hdies => hdies
      -- looking up or inserting the path touches no file, and then the file row is the next parent
      obtain ⟨h', hf'⟩ := hpost
      rw [wp_bind]
      exact wp_mono _ (wp_findFileOrCreate_tallied h' hf' v g d')
        (fun f' w'' hpost => ih hpost.1 _ _ hpost.2) fun _ _ hdies => hdies

theorem wp_addFiles_tallied (h : Tallied w) (v g : ℤ) (files : List FileInfo) :
    wp (World.step my) Op.isSql (addFiles v g files) (fun _ w' => Tallied w') DiesAt w := by
  induction files generalizing w with
  | nil => exact h
  | cons file rest ih =>
    have hfile : wp (World.step my) Op.isSql (addFile v g file) (fun _ w' => Tallied w') DiesAt
        w := by
      rw [addFile_eq]
      exact wp_addFileLoop_tallied h v g _ _ _ (Or.inl rfl)
    rw [addFiles, wp_bind]
    exact wp_mono _ hfile (fun _ w' h' => ih h') fun _ _ hdies => hdies

/-- **One upload**, up to its end or to where the process dies. -/
theorem wp_upload_tallied (h : Tallied w) (req : AddRequest) :
    wp (World.step my) Op.isSql (upload req) (fun _ w' => Tallied w') DiesAt w := by
  unfold upload
  rw [wp_bind]
  have hversion : (findVersionOrCreate req.version).Uses Op.KeepsFiles :=
    uses_findVersionOrCreate trivial trivial fun _ => trivial
  refine wp_mono _ (wp_of_keepsFiles hversion h (Or.inl rfl)) (fun ver w₁ h₁ => ?_)
    fun _ _ hdies => hdies
  rw [wp_bind]
  have hgroup : (findGroupOrCreate req.group).Uses Op.KeepsFiles :=
    uses_findGroupOrCreate trivial trivial fun _ => trivial
  refine wp_mono _ (wp_of_keepsFiles hgroup h₁.1 (Or.inl rfl)) (fun gr w₂ h₂ => ?_)
    fun _ _ hdies => hdies
  rw [wp_bind]
  exact wp_mono _ (wp_addFiles_tallied h₂.1 ver.id gr.id req.files) (fun _ w₃ h₃ => h₃)
    fun _ _ hdies => hdies

end Upload

/-! ### Restarting -/

/-- `loadFilesIds` caches ids of rows, whatever the texts of the tables. -/
theorem Tallied.restart (my : MySql) {w : World} (h : Tallied w) : Tallied (w.restart my) := by
  refine ⟨h.ids, h.parents, ?_, h.counted⟩
  intro key id hlookup
  have hloaded : (loadFilesIds my w.db ModelCacheFilesVersion.new).lookup key = some id := hlookup
  rw [lookup_loadFilesIds] at hloaded
  rcases exists_of_foldl_update_eq_some hloaded with ⟨row, hrow, hid⟩ | hnew
  · rw [MySql.mem_scan] at hrow
    exact ⟨row, hrow, hid⟩
  · rw [ModelCacheFilesVersion.lookup_new] at hnew
    cases hnew

/-! ### Sequences of deliveries -/

/-- A request as it reaches the server, and the number of statements after which the process dies,
if it does. -/
abbrev Delivery := AddRequest × Option ℕ

/-- How the request ended: it was answered, or the process died in front of a statement. -/
def Delivery.exec (my : MySql) (d : Delivery) (w : World) :
    Except Op (ModelVersion × ModelGroup) × World :=
  Program.exec (World.step my) Op.isSql (upload d.1) d.2 w

/-- The server after a delivery. A process that dies is replaced by a new one on the same tables,
also when it dies with the last statement behind it. -/
def deliver (my : MySql) (w : World) (d : Delivery) : World :=
  match d.2 with
  | none => (d.exec my w).2
  | some _ => (d.exec my w).2.restart my

/-- The server after a sequence of deliveries. -/
def delivered (my : MySql) (deliveries : List Delivery) : World :=
  deliveries.foldl (deliver my) World.empty

/-- A request that is sent again until the process lives to answer it, with the numbers of
statements after which it dies before that. -/
def sendUntilAnswered (r : AddRequest × List ℕ) : List Delivery :=
  r.2.map (fun n => (r.1, some n)) ++ [(r.1, none)]

/-- The process dies between the `INSERT` of a row that has a parent and the `UPDATE` of its
counter. -/
def Delivery.DiesInWindow (my : MySql) (d : Delivery) (w : World) : Prop :=
  ∃ o, (d.exec my w).1 = .error o ∧ o.inWindow = true

variable {my : MySql}

/-- A process that is not to die answers. -/
theorem Delivery.not_diesInWindow_none (req : AddRequest) (w : World) :
    ¬ Delivery.DiesInWindow my (req, none) w := by
  rintro ⟨o, ho, -⟩
  rw [Delivery.exec, run_eq_exec] at ho
  cases ho

/-- **One delivery.** -/
theorem tallied_deliver {w : World} (h : Tallied w) (d : Delivery) :
    (¬ d.DiesInWindow my w → Tallied (deliver my w d)) ∧
      (d.DiesInWindow my w → ¬ (deliver my w d).db.Counted) := by
  obtain ⟨hreturns, hdies⟩ := wp_exec (World.step my) (wp_upload_tallied h d.1) d.2
  -- a restart keeps the tables
  have hdb : (deliver my w d).db = (d.exec my w).2.db := by
    unfold deliver
    split
    · rfl
    · rfl
  have hdeliver : Tallied (d.exec my w).2 → Tallied (deliver my w d) := by
    intro h'
    unfold deliver
    split
    · exact h'
    · exact h'.restart my
  rw [hdb]
  rcases hexec : d.exec my w with ⟨r, w'⟩
  rw [hexec] at hdeliver
  cases r with
  | ok found =>
    refine ⟨fun _ => hdeliver (hreturns _ w' hexec), ?_⟩
    rintro ⟨o, ho, -⟩
    rw [hexec] at ho
    cases ho
  | error o =>
    have hdiesAt := hdies o w' hexec
    constructor
    · intro hno
      refine hdeliver (hdiesAt.outside ?_)
      by_contra hin
      exact hno ⟨o, by rw [hexec], by simpa using hin⟩
    · rintro ⟨o', ho', hin⟩
      rw [hexec] at ho'
      cases ho'
      exact hdiesAt.inside hin

theorem delivered_concat (pre : List Delivery) (d : Delivery) :
    delivered my (pre ++ [d]) = deliver my (delivered my pre) d := by
  rw [delivered, List.foldl_append]
  rfl

/-- As long as the process never dies in the window, the invariant holds. -/
theorem tallied_delivered {deliveries : List Delivery}
    (hno : ∀ pre d, pre ++ [d] <+: deliveries → ¬ d.DiesInWindow my (delivered my pre)) :
    ∀ pre, pre <+: deliveries → Tallied (delivered my pre) := by
  intro pre hpre
  -- along the prefixes, one delivery at a time
  induction pre using List.reverseRecOn with
  | nil => exact Tallied.empty
  | append_singleton pre d ih =>
    have h := ih ((List.prefix_append _ _).trans hpre)
    rw [delivered_concat]
    exact (tallied_deliver h d).1 (hno pre d hpre)

/-- As long as every counter is right, the invariant holds as well. -/
theorem tallied_of_counted {deliveries : List Delivery}
    (hcounted : ∀ pre, pre <+: deliveries → (delivered my pre).db.Counted) :
    ∀ pre, pre <+: deliveries → Tallied (delivered my pre) := by
  intro pre hpre
  induction pre using List.reverseRecOn with
  | nil => exact Tallied.empty
  | append_singleton pre d ih =>
    have h := ih ((List.prefix_append _ _).trans hpre)
    have hnext := hcounted _ hpre
    rw [delivered_concat] at hnext ⊢
    exact (tallied_deliver h d).1 fun hdies => (tallied_deliver h d).2 hdies hnext

/-- **Crashes and the counters.** In every sequence of deliveries, whatever is sent again and
however often the process dies, the counter of every file row is the number of its children after
each delivery, if and only if the process never dies between the `INSERT` of a row that has a parent
and the `UPDATE` of the counter of that parent. -/
theorem counted_deliveries_iff (my : MySql) (deliveries : List Delivery) :
    (∀ pre, pre <+: deliveries → (delivered my pre).db.Counted) ↔
      ∀ pre d, pre ++ [d] <+: deliveries → ¬ d.DiesInWindow my (delivered my pre) := by
  constructor
  · intro hcounted pre d hpre hdies
    have h := tallied_of_counted hcounted pre ((List.prefix_append _ _).trans hpre)
    refine (tallied_deliver h d).2 hdies ?_
    rw [← delivered_concat]
    exact hcounted _ hpre
  · intro hno pre hpre
    exact (tallied_delivered hno pre hpre).counted

/-- The upload of `a/b`, whose process dies with the `INSERT` of the row of `a/b` behind it. The
request is sent again. -/
def interruptedUpload : AddRequest × List ℕ :=
  (⟨lit "1.0", lit "core", [fileInfo (lit "a/b")]⟩, [8])

/-- The row of `a` keeps the counter `0`, although the row of `a/b` is below it. -/
theorem interruptedUpload_not_counted :
    ¬ (delivered .innodb (sendUntilAnswered interruptedUpload)).db.Counted := by
  intro h
  have hfiles : (delivered .innodb (sendUntilAnswered interruptedUpload)).db.files
      = [⟨⟨1, 1, 1, 1, 0⟩, 0⟩, ⟨⟨2, 1, 1, 2, 1⟩, 0⟩] := by
    decide +kernel
  have hcount := h ⟨⟨1, 1, 1, 1, 0⟩, 0⟩ (by rw [hfiles]; exact List.mem_cons_self)
  unfold Database.childCount Database.links at hcount
  rw [hfiles] at hcount
  exact absurd hcount (by decide)

end WebDiff
