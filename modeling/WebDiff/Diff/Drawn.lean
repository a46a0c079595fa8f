import Mathlib.Algebra.Order.BigOperators.Group.List
import Mathlib.Algebra.Order.Ring.Nat
import WebDiff.Diff.Counts
import WebDiff.Diff.Tree
import WebDiff.Framework.Unfolding
import WebDiff.Model.DiffPage

/-!
# What the page draws

`createsubtree` unfolds the files of a group from the id `0` (`createsubtree_eq`). On any tables it
ends, draws no entry twice, and draws exactly the entries whose parents lead up to `0` through entries
(`page_draws_tree`). The diff goes up one level of parents only, so an entry is drawn exactly when
every directory above it differs or lies right above a path that differs on its side
(`page_draws_iff`); the other entries are in the answer, and nowhere on the page.
-/

namespace WebDiff

open Unfolding

/-! ### `createsubtree` unfolds the files -/

/-- The `parent` of a file of the answer. -/
def parentKey (f : Bytes × Json) : Bytes :=
  (f.2.member (lit "parent")).text

/-- The row of a file behind the keys above it. -/
def pageRow (elid : Bytes) (n : Node (Bytes × Json) Bytes) : PageRow :=
  ⟨elid :: n.1.map fileElid, n.2.1, n.2.2⟩

theorem pageRows_eq (files : Json) (elid : Bytes) (above : List Bytes) (startid : Bytes) :
    pageRows files (elid :: above.map fileElid) startid
      = (children parentKey files.members above startid).map (pageRow elid) := by
  unfold pageRows children
  rw [List.map_map]
  rfl

/-- The recursion of the page is the walk over the files. -/
theorem createsubtree_eq (files : Json) (elid : Bytes) (fuel : ℕ) (above : List Bytes)
    (startid : Bytes) :
    createsubtree files (fuel + 1) (elid :: above.map fileElid) startid
      = (Walk.walk (expand Prod.fst parentKey files.members) fuel
          (children parentKey files.members above startid)).map (List.map (pageRow elid)) := by
  induction fuel generalizing above startid with
  | zero =>
    rw [createsubtree, pageRows_eq]
    apply Walk.visitAll_map
    intro n _
    rfl
  | succ fuel ih =>
    rw [createsubtree, pageRows_eq]
    apply Walk.visitAll_map
    intro n _
    have hprevids : (pageRow elid n).previds ++ [fileElid (pageRow elid n).fid]
        = elid :: (n.1 ++ [n.2.1]).map fileElid := by
      rw [List.map_append]
      rfl
    rw [hprevids]
    exact ih _ _

/-! ### The files of a group -/

/-- The key of an entry in the answer. -/
def entryKey (i : ℤ) : Bytes :=
  lit "id" ++ decimal i

theorem entryKey_injective : Function.Injective entryKey :=
  ModelDiffGroups.decimal_key_injective (lit "id")

/-- The member of `files` made of an entry. -/
def entryMember (e : ModelDiffFile) : Bytes × Json :=
  (entryKey e.id, e.toJson)

theorem parentKey_entryMember (e : ModelDiffFile) :
    parentKey (entryMember e) = entryKey e.parentFileId :=
  rfl

/-- The keys above a row, and the row, in the words of the entries. -/
theorem below_files_iff {E : List ModelDiffFile} {files : Json}
    (hfiles : files.members.Perm (E.map entryMember)) {n : Node (Bytes × Json) Bytes} :
    Below Prod.fst parentKey files.members (lit "id0") n.1 n.2 ↔
      ∃ above e, Below ModelDiffFile.id ModelDiffFile.parentFileId E 0 above e ∧
        n = (above.map entryKey, entryMember e) := by
  have hroot : lit "id0" = entryKey 0 := by decide
  constructor
  · intro h
    obtain ⟨ks, f⟩ := n
    change Below _ _ _ _ ks f at h
    induction h with
    | top hmem hparent =>
      obtain ⟨e, he, rfl⟩ := List.mem_map.mp (hfiles.mem_iff.mp hmem)
      have hzero : e.parentFileId = 0 := entryKey_injective (hparent.trans hroot)
      exact ⟨[], e, .top he hzero, rfl⟩
    | step _ hmem hparent ih =>
      obtain ⟨above, e, hbelow, heq⟩ := ih
      obtain ⟨rfl, rfl⟩ := Prod.mk.inj heq
      obtain ⟨e', he', rfl⟩ := List.mem_map.mp (hfiles.mem_iff.mp hmem)
      have hid : e'.parentFileId = e.id := entryKey_injective hparent
      refine ⟨above ++ [e.id], e', hbelow.step he' hid, ?_⟩
      rw [List.map_append]
      rfl
  · intro h
    obtain ⟨above, e, hbelow, rfl⟩ := h
    exact hbelow.map entryMember entryKey
      (fun e he => hfiles.mem_iff.mpr (List.mem_map_of_mem he)) (fun _ _ => rfl) (fun _ _ => rfl)
      hroot

/-! ### Any tables -/

/-- The rows draw the entries as a tree: each at most once, below the rows of the entries above it,
and exactly those whose parents lead up to `0`. -/
structure DrawsTree (E : List ModelDiffFile) (elid : Bytes) (rows : List PageRow) : Prop where
  once : (rows.map PageRow.fid).Nodup
  below : ∀ row ∈ rows, ∃ above e,
    Below ModelDiffFile.id ModelDiffFile.parentFileId E 0 above e ∧
      row = ⟨elid :: above.map fun i => fileElid (entryKey i), entryKey e.id, e.toJson⟩
  drawn : ∀ e ∈ E, (∃ row ∈ rows, row.fid = entryKey e.id) ↔
    Forest.ReachesRoot ModelDiffFile.id ModelDiffFile.parentFileId E e.id

theorem drawsTree_createsubtree {E : List ModelDiffFile} {files : Json}
    (hfiles : files.members.Perm (E.map entryMember)) (hids : (E.map ModelDiffFile.id).Nodup)
    (hzero : 0 ∉ E.map ModelDiffFile.id) (elid : Bytes) {fuel : ℕ} (hfuel : E.length < fuel) :
    ∃ rows, createsubtree files (fuel + 1) [elid] (lit "id0") = some rows ∧
      DrawsTree E elid rows := by
  have hroot : lit "id0" = entryKey 0 := by decide
  have hmap : (E.map entryMember).map Prod.fst = (E.map ModelDiffFile.id).map entryKey := by
    rw [List.map_map, List.map_map]
    rfl
  have hkeys : (files.members.map Prod.fst).Nodup := by
    rw [(hfiles.map Prod.fst).nodup_iff, hmap]
    exact hids.map entryKey_injective
  have hnew : lit "id0" ∉ files.members.map Prod.fst := by
    intro hmem
    have hmem' := (hfiles.map Prod.fst).mem_iff.mp hmem
    rw [hmap, hroot] at hmem'
    obtain ⟨i, hi, heq⟩ := List.mem_map.mp hmem'
    exact hzero (entryKey_injective heq ▸ hi)
  have hlen : files.members.length < fuel := by
    rw [hfiles.length_eq, List.length_map]
    exact hfuel
  have hmem : ∀ n, n ∈ unfolded Prod.fst parentKey files.members (lit "id0") fuel ↔
      ∃ above e, Below ModelDiffFile.id ModelDiffFile.parentFileId E 0 above e ∧
        n = (above.map entryKey, entryMember e) :=
    fun n => (mem_unfolded_iff hkeys hnew hlen).trans (below_files_iff hfiles)
  refine ⟨(unfolded Prod.fst parentKey files.members (lit "id0") fuel).map (pageRow elid), ?_, ?_,
    fun row hrow => ?_, fun e he => ?_⟩
  · have heq := createsubtree_eq files elid fuel [] (lit "id0")
    have hsome : unfold Prod.fst parentKey files.members (lit "id0") fuel
        = some (unfolded Prod.fst parentKey files.members (lit "id0") fuel) :=
      unfold_eq_some hkeys hnew hlen
    unfold unfold at hsome
    rw [hsome] at heq
    exact heq
  · rw [List.map_map]
    exact nodup_unfolded hkeys hnew hlen
  · obtain ⟨n, hn, rfl⟩ := List.mem_map.mp hrow
    obtain ⟨above, e, hbelow, rfl⟩ := (hmem n).mp hn
    refine ⟨above, e, hbelow, ?_⟩
    unfold pageRow
    rw [List.map_map]
    rfl
  · rw [← exists_below_iff hids hzero he]
    constructor
    · intro h
      obtain ⟨row, hrow, hfid⟩ := h
      obtain ⟨n, hn, rfl⟩ := List.mem_map.mp hrow
      obtain ⟨above, e', hbelow, rfl⟩ := (hmem n).mp hn
      have hid : e'.id = e.id := entryKey_injective hfid
      obtain rfl := List.inj_on_of_nodup_map hids hbelow.mem he hid
      exact ⟨above, hbelow⟩
    · intro h
      obtain ⟨above, hbelow⟩ := h
      exact ⟨_, List.mem_map_of_mem ((hmem _).mpr ⟨above, e, hbelow, rfl⟩), rfl⟩

/-- No file row has the id `0`, which `AUTO_INCREMENT` never gives. -/
def NoRowZero (db : Database) : Prop :=
  ∀ row ∈ db.files, row.id ≠ 0

theorem zero_not_mem_entries {db : Database} (h : PrimaryKeys db) (hzero : NoRowZero db)
    (my : MySql) (left right g : ℤ) :
    0 ∉ ((getDiff my db left right).entries g).map ModelDiffFile.id := by
  have hrow : ∀ t ∈ db.filesJoin, t.1.id ≠ 0 := fun t ht => hzero _ (mem_filesJoin.mp ht).1
  obtain ⟨ts, hE, -, hts⟩ := withParents_getDiff my h.nodup_filesJoin left right g
  intro hmem
  obtain ⟨e, he, hid⟩ := List.mem_map.mp hmem
  rw [hE] at he
  rcases List.mem_append.mp he with he | he
  · obtain ⟨t, ht, hmade⟩ := exists_row_of_mem_differing he
    rw [hmade] at hid
    exact hrow t ht hid
  · obtain ⟨t, ht, rfl⟩ := List.mem_map.mp he
    exact hrow t ((hts t).mp ht).1 hid

/-- What the page draws of a group of a diff. -/
theorem drawsTree_drawGroup {db : Database} (h : PrimaryKeys db) (hzero : NoRowZero db) (my : MySql)
    (left right : ℤ) {g : ℤ} (hg : g ∈ (getDiff my db left right).mapGroups) {fuel : ℕ}
    (hfuel : ((getDiff my db left right).entries g).length + 1 < fuel) :
    ∃ rows, drawGroup (getDiff my db left right).toJson (lit "group" ++ decimal g) fuel
        = some rows ∧
      DrawsTree ((getDiff my db left right).entries g) (lit "group" ++ (lit "group" ++ decimal g))
        rows := by
  have hcounts := (countsOnce_iff _).mpr (nodup_entries h my left right)
  obtain ⟨fuel, rfl⟩ : ∃ n, fuel = n + 1 := ⟨fuel - 1, by omega⟩
  exact drawsTree_createsubtree (hcounts.files g hg) (hcounts.nodup g)
    (zero_not_mem_entries h hzero my left right g) _ (by omega)

/-- No group has more entries than all of them together. -/
theorem ModelDiffGroups.length_entries_le (d : ModelDiffGroups) {g : ℤ} (hg : g ∈ d.mapGroups) :
    (d.entries g).length ≤ d.getFilesLength := by
  rw [getFilesLength_eq]
  exact List.le_sum_of_mem (List.mem_map_of_mem (Std.TreeMap.mem_keys.mpr hg))

/-- **The page draws a tree, whatever the tables hold.** With ids that are primary keys, but any
parents, versions and groups, the page of any two versions is drawn to its end, every entry of a group
at most once and below those it is drawn under, and the entries that are drawn are those whose parents
lead up to `0` through entries. -/
theorem page_draws_tree (my : MySql) (db : Database) (h : PrimaryKeys db) (hzero : NoRowZero db)
    (left right : ℤ) :
    ∃ n, ∀ fuel ≥ n, ∀ g ∈ (getDiff my db left right).mapGroups, ∃ rows,
      drawGroup (getDiff my db left right).toJson (lit "group" ++ decimal g) fuel = some rows ∧
        DrawsTree ((getDiff my db left right).entries g)
          (lit "group" ++ (lit "group" ++ decimal g)) rows := by
  refine ⟨(getDiff my db left right).getFilesLength + 2, fun fuel hfuel g hg => ?_⟩
  have hlen := (getDiff my db left right).length_entries_le hg
  exact drawsTree_drawGroup h hzero my left right hg (by omega)

/-- Two files that are each other's parent are in the answer, and the page ends all the same. -/
theorem page_draws_tree_crossing :
    ∃ n, ∀ fuel ≥ n, ∀ g ∈ (getDiff .innodb crossingParents 1 2).mapGroups, ∃ rows,
      drawGroup (getDiff .innodb crossingParents 1 2).toJson (lit "group" ++ decimal g) fuel
          = some rows ∧
        DrawsTree ((getDiff .innodb crossingParents 1 2).entries g)
          (lit "group" ++ (lit "group" ++ decimal g)) rows :=
  page_draws_tree .innodb crossingParents ⟨by decide, by decide, by decide⟩
    (by unfold NoRowZero; decide) 1 2

/-! ### Which differences are drawn -/

/-- Every directory above the path differs on the side of the version `v`, or lies right above a path
that does. -/
def DirectoriesDrawn (P : PathStore) (left right g v : ℤ) (p : Path) : Prop :=
  ∀ q, q ≠ [] → q <+: p → q ≠ p →
    PathDiffers P left right g v q ∨ HasDifferingChild P left right g v q

theorem directoriesDrawn_concat {P : PathStore} {left right g v : ℤ} {p : Path} {c : Component} :
    DirectoriesDrawn P left right g v (p ++ [c]) ↔
      p = [] ∨ (PathDiffers P left right g v p ∨ HasDifferingChild P left right g v p) ∧
        DirectoriesDrawn P left right g v p := by
  have hne : p ≠ p ++ [c] := fun h => by simpa using congrArg List.length h
  constructor
  · intro h
    by_cases hp : p = []
    · exact Or.inl hp
    · refine Or.inr ⟨h p hp (List.prefix_append _ _) hne, fun q hq hpre hqp => ?_⟩
      apply h q hq (hpre.trans (List.prefix_append _ _))
      intro heq
      exact absurd (heq ▸ hpre).length_le (by simp)
  · intro h q hq hpre hqp
    rcases List.prefix_concat_iff.mp hpre with heq | hpre
    · exact absurd heq hqp
    · rcases h with rfl | ⟨hlast, hrest⟩
      · exact absurd (List.prefix_nil.mp hpre) hq
      · by_cases heq : q = p
        · exact heq ▸ hlast
        · exact hrest q hq hpre heq

section Reached

variable {db : Database} (h : PathForest db) (my : MySql) {left right g : ℤ}
include h

/-- The entries of a group that have the id of a row are made of it. -/
theorem exists_entry_iff (hgroup : ∃ row ∈ db.fileGroups, row.id = g)
    {t : FileRow × DefineFileRow} {p : Path} {c : Component} (hrow : GroupRow db g t p c) :
    (∃ e ∈ (getDiff my db left right).entries g, e.id = t.1.id) ↔
      PathDiffers db.paths left right g t.1.versionId (p ++ [c]) ∨
        HasDifferingChild db.paths left right g t.1.versionId (p ++ [c]) := by
  constructor
  · intro hentry
    obtain ⟨e, he, hid⟩ := hentry
    obtain ⟨t', p', c', hrow', hmade, hstate⟩ := entry_cases h my hgroup he
    have hsame : t'.1.id = t.1.id := (congrArg ModelDiffFile.id hmade).symm.trans hid
    obtain rfl := List.inj_on_of_nodup_map h.nodup_filesJoin hrow'.join hrow.join hsame
    obtain ⟨rfl, rfl⟩ := h.rowAt_unique hrow'.toRowAt hrow.toRowAt
    exact hstate.symm.imp And.right And.right
  · intro hrow'
    cases hrow' with
    | inl hdiff =>
      obtain ⟨e, he, -, hmade⟩ := exists_differing_entry h my hgroup hrow hdiff
      exact ⟨e, he, congrArg ModelDiffFile.id hmade⟩
    | inr hchild => exact ⟨_, parent_entry_mem h my hgroup hrow hchild, rfl⟩

/-- An entry with the id of a row has its parent. -/
theorem parentFileId_of_id (hgroup : ∃ row ∈ db.fileGroups, row.id = g)
    {t : FileRow × DefineFileRow} {p : Path} {c : Component} (hrow : GroupRow db g t p c)
    {e : ModelDiffFile} (he : e ∈ (getDiff my db left right).entries g) (hid : e.id = t.1.id) :
    e.parentFileId = t.1.parentId := by
  obtain ⟨t', _, _, hrow', hmade, -⟩ := entry_cases h my hgroup he
  have hsame : t'.1.id = t.1.id := (congrArg ModelDiffFile.id hmade).symm.trans hid
  obtain rfl := List.inj_on_of_nodup_map h.nodup_filesJoin hrow'.join hrow.join hsame
  exact congrArg ModelDiffFile.parentFileId hmade

/-- The parents of a row lead up to the root where the rows above it have entries. -/
theorem reachesRoot_iff (hgroup : ∃ row ∈ db.fileGroups, row.id = g)
    {t : FileRow × DefineFileRow} {p : Path} {c : Component} (hrow : GroupRow db g t p c) :
    Forest.ReachesRoot ModelDiffFile.id ModelDiffFile.parentFileId
        ((getDiff my db left right).entries g) t.1.parentId ↔
      DirectoriesDrawn db.paths left right g t.1.versionId (p ++ [c]) := by
  induction p using List.reverseRecOn generalizing t c with
  | nil =>
    rw [directoriesDrawn_concat]
    rcases hrow.parent with ⟨-, hzero⟩ | hfile
    · rw [hzero]
      exact iff_of_true .root (Or.inl rfl)
    · exact absurd rfl (h.ne_nil_of_hasFile hfile)
  | append_singleton q x ih =>
    have hne : q ++ [x] ≠ [] := List.append_ne_nil_of_right_ne_nil _ (List.cons_ne_nil _ _)
    obtain ⟨s, q', x', hsrow, hpath, hv, hid⟩ := GroupRow.parent_row h hrow hne
    obtain ⟨rfl, rfl⟩ := List.append_singleton_inj.mp hpath
    rw [directoriesDrawn_concat, or_iff_right hne, ← hv, ← hid, ← ih hsrow,
      ← exists_entry_iff h my hgroup hsrow]
    -- an entry of the row above has the parent of the row above
    have hids := nodup_entries h.primaryKeys my left right g
    have hup : ∀ e ∈ (getDiff my db left right).entries g, e.id = s.1.id →
        (Forest.ReachesRoot ModelDiffFile.id ModelDiffFile.parentFileId
            ((getDiff my db left right).entries g) s.1.id ↔
          Forest.ReachesRoot ModelDiffFile.id ModelDiffFile.parentFileId
            ((getDiff my db left right).entries g) s.1.parentId) := by
      intro e he hsame
      have hparent := parentFileId_of_id h my hgroup hsrow he hsame
      rw [← hsame, ← hparent]
      exact Forest.reachesRoot_id_iff hids he (hsame ▸ ne_of_gt (h.hasFile_pos hsrow.file))
    constructor
    · intro hreaches
      obtain ⟨e, he, hsame⟩ : ∃ e ∈ (getDiff my db left right).entries g, e.id = s.1.id := by
        generalize hi : s.1.id = i at hreaches
        cases hreaches with
        | root => exact absurd hi (ne_of_gt (h.hasFile_pos hsrow.file))
        | up he _ => exact ⟨_, he, rfl⟩
      exact ⟨⟨e, he, hsame⟩, (hup e he hsame).mp hreaches⟩
    · intro hentry
      obtain ⟨⟨e, he, hsame⟩, hreaches⟩ := hentry
      exact (hup e he hsame).mpr hreaches

end Reached

theorem PathForest.noRowZero {db : Database} (h : PathForest db) : NoRowZero db := by
  intro row hrow hid
  have hpos := h.keyed.fileIds.pos row.toFileLink (List.mem_map_of_mem hrow)
  exact absurd hid (ne_of_gt hpos)

/-- **What the page leaves out.** After any calls, the page of any two versions is drawn to its end.
An entry of a group is on it, once, exactly when every directory above its path differs on its side or
lies right above a path that does. -/
theorem page_draws_iff (my : MySql) (calls : List Call) (left right : ℤ) :
    ∃ n, ∀ fuel ≥ n, ∀ g ∈ (getDiff my (reached my calls).db left right).mapGroups, ∃ rows,
      drawGroup (getDiff my (reached my calls).db left right).toJson (lit "group" ++ decimal g) fuel
          = some rows ∧
        (rows.map PageRow.fid).Nodup ∧
        ∀ e ∈ (getDiff my (reached my calls).db left right).entries g, ∀ v p,
          (reached my calls).db.HasFile v g p e.id →
            ((∃ row ∈ rows, row.fid = entryKey e.id) ↔
              DirectoriesDrawn (callPaths calls) left right g v p) := by
  obtain ⟨h, hpaths⟩ := paths_reached my calls
  refine ⟨(getDiff my (reached my calls).db left right).getFilesLength + 2, fun fuel hfuel g hg => ?_⟩
  have hlen := (getDiff my (reached my calls).db left right).length_entries_le hg
  obtain ⟨rows, hsome, hdraws⟩ := @drawsTree_drawGroup _ h.primaryKeys h.noRowZero my left right
    g hg fuel (by omega)
  refine ⟨rows, hsome, hdraws.once, fun e he v p hfile => ?_⟩
  have hgroup : ∃ row ∈ (reached my calls).db.fileGroups, row.id = g := by
    by_contra hnone
    rw [entries_eq_nil h my hnone] at he
    exact List.not_mem_nil he
  obtain ⟨t, q, c, hrow, hmade, -⟩ := entry_cases h my hgroup he
  have hid : e.id = t.1.id := congrArg ModelDiffFile.id hmade
  have hparent : e.parentFileId = t.1.parentId := congrArg ModelDiffFile.parentFileId hmade
  obtain ⟨rfl, -, rfl⟩ := h.hasFile_path hrow.file (hid ▸ hfile)
  rw [hdraws.drawn e he, ← hpaths, ← reachesRoot_iff h my hgroup hrow, ← hparent]
  apply Forest.reachesRoot_id_iff (nodup_entries h.primaryKeys my left right g) he
  exact hid ▸ ne_of_gt (h.hasFile_pos hrow.file)

end WebDiff
