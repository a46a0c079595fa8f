import WebDiff.Browser.Shown
import WebDiff.Diff.Rows
import WebDiff.Model.Answers

/-!
# The listing and the diff of one file

`getFiles` and `getDiff` read the same joined rows, each into a model of its own. Both set the id,
the name and the number of children (`namedAlike_of_same_row`). The query of `getFiles` does not
select `define_file_id`, so the listing shows the `-1` of the constructor where the diff shows the
id of a row, and a comment added under the define id of the listing is in no diff
(`described_never_alike`).
-/

namespace WebDiff

open Program Table

/-- The objects of the listing and of the diff agree on the id, the name and the number of children
of a file. -/
structure NamedAlike (file : ModelFile) (e : ModelDiffFile) : Prop where
  id : ∃ n, file.toJson.member (lit "file_id") = .numberInteger n ∧
    e.toJson.member (lit "id") = .string (lit "id" ++ decimal n)
  name : file.toJson.member (lit "title") = e.toJson.member (lit "filename")
  amountOfChildren : file.toJson.member (lit "amount_of_children")
    = e.toJson.member (lit "amount_of_children")

/-- A comment added now under the define id `d` is in the diff, under the define id `d'`. -/
def CommentShown (my : MySql) (events : List Event) (left right d d' : ℤ) (text : Bytes)
    (now : ℤ) : Prop :=
  ∃ cs, (getDiff my (afterEvents my (events ++ [.addComment d text now])).db left
      right).mapComments[d']? = some cs ∧
    ⟨(run (World.step my) (addComment d text now) (afterEvents my events)).1.id, d, cString text⟩
      ∈ cs

/-- The two objects describe the file alike, and a comment added under the define id of the listing
is shown with the file in the diff. -/
structure DescribedAlike (my : MySql) (events : List Event) (left right : ℤ) (file : ModelFile)
    (e : ModelDiffFile) : Prop extends NamedAlike file e where
  defineId : file.toJson.member (lit "def_file_id") = e.toJson.member (lit "define_file_id")
  comment : ∀ text now,
    CommentShown my events left right file.defineFileId e.defineFileId text now

/-- What the object of the listing says. -/
theorem ModelFile.member_toJson (file : ModelFile) :
    file.toJson.member (lit "file_id") = .numberInteger file.id ∧
      file.toJson.member (lit "def_file_id") = .numberInteger file.defineFileId ∧
      file.toJson.member (lit "title") = .string file.title ∧
      file.toJson.member (lit "amount_of_children") = .numberInteger file.amountOfChildren :=
  ⟨rfl, rfl, rfl, rfl⟩

/-- What the object of the diff says. -/
theorem ModelDiffFile.member_toJson (e : ModelDiffFile) :
    e.toJson.member (lit "id") = .string (lit "id" ++ decimal e.id) ∧
      e.toJson.member (lit "define_file_id") = .numberInteger e.defineFileId ∧
      e.toJson.member (lit "filename") = .string e.filename ∧
      e.toJson.member (lit "amount_of_children") = .numberInteger e.amountOfChildren :=
  ⟨rfl, rfl, rfl, rfl⟩

/-- Objects made of one row agree on what both queries select. -/
theorem namedAlike_of_same_row (t : FileRow × DefineFileRow) (state : DiffState) :
    NamedAlike (listedFile t) (diffFile state t) := by
  obtain ⟨hid, -, htitle, hamount⟩ := (listedFile t).member_toJson
  obtain ⟨hid', -, hfilename, hamount'⟩ := (diffFile state t).member_toJson
  exact ⟨⟨t.1.id, hid, hid'⟩, htitle.trans hfilename.symm, hamount.trans hamount'.symm⟩

section Forest

variable {db : Database} (h : PathForest db) {my : MySql}
include h

/-- A file that is in the listing and in the diff is one row of the join. -/
theorem PathForest.same_row {left right v g p g' : ℤ} {file : ModelFile} {e : ModelDiffFile}
    (hfile : file ∈ getFiles my db v g p) (he : e ∈ (getDiff my db left right).entries g')
    (hid : file.id = e.id) :
    ∃ t ∈ db.filesJoin, file = listedFile t ∧ e = diffFile e.state t := by
  obtain ⟨t, ht, -, -, -, rfl⟩ := mem_getFiles.mp hfile
  obtain ⟨t', ht', hmade⟩ := h.exists_row_of_mem_entries he
  rw [hmade] at hid
  obtain rfl := List.inj_on_of_nodup_map h.nodup_filesJoin ht ht' hid
  exact ⟨t, ht, rfl, hmade⟩

/-- The diff shows define ids of rows. -/
theorem PathForest.defineFileId_pos {left right g : ℤ} {e : ModelDiffFile}
    (he : e ∈ (getDiff my db left right).entries g) : 0 < e.defineFileId := by
  obtain ⟨t, ht, hmade⟩ := h.exists_row_of_mem_entries he
  obtain ⟨-, hdefine, hid⟩ := mem_filesJoin.mp ht
  have hpos := h.keyed.defineFileIds.pos t.2 hdefine
  rw [hid] at hpos
  rw [hmade]
  exact hpos

end Forest

/-- A comment is shown under its own define id, and only if that is the id of a row. -/
theorem commentShown_pos {my : MySql} {events : List Event} {left right d d' : ℤ} {text : Bytes}
    {now : ℤ} (h : CommentShown my events left right d d' text now) : d = d' ∧ 0 < d := by
  obtain ⟨cs, hcs, hmem⟩ := h
  have hforest := (history_afterEvents my (events ++ [.addComment d text now])).forest
  obtain ⟨⟨g, e, he, rfl⟩, rfl⟩ := (mapComments_getDiff my hforest.nodup_filesJoin _ _ _ _).mp hcs
  -- the query selects the comments of one define id
  obtain ⟨row, hrow, hmade⟩ := List.mem_map.mp hmem
  rw [(my.orderBy_perm _ _).mem_iff, List.mem_filter, decide_eq_true_eq] at hrow
  have hd : d = e.defineFileId := (congrArg ModelComment.defineFileId hmade).symm.trans hrow.2.1
  exact ⟨hd, hd ▸ hforest.defineFileId_pos he⟩

/-- **The listing leaves out the define id.** Whenever a file is in a listing and in a diff, the two
objects agree on its id, its name and its number of children, and never on its define id: the
listing says `-1`, and a comment added under that define id is in no diff. -/
theorem described_never_alike (my : MySql) (events : List Event) (left right v g p g' : ℤ)
    {file : ModelFile} {e : ModelDiffFile}
    (hfile : file ∈ getFiles my (afterEvents my events).db v g p)
    (he : e ∈ (getDiff my (afterEvents my events).db left right).entries g')
    (hid : file.id = e.id) :
    ¬ DescribedAlike my events left right file e ∧ NamedAlike file e ∧
      file.toJson.member (lit "def_file_id") = .numberInteger (-1) ∧
      (∃ n, 0 < n ∧ e.toJson.member (lit "define_file_id") = .numberInteger n) ∧
      ∀ d' text now, ¬ CommentShown my events left right file.defineFileId d' text now := by
  have h := (history_afterEvents my events).forest
  obtain ⟨t, -, rfl, hmade⟩ := h.same_row hfile he hid
  have hpos := h.defineFileId_pos he
  have hhidden : ∀ d' text now,
      ¬ CommentShown my events left right (listedFile t).defineFileId d' text now := by
    intro d' text now hshown
    have hdefine : (0 : ℤ) < -1 := (commentShown_pos hshown).2
    omega
  have hnamed : NamedAlike (listedFile t) e := by
    rw [hmade]
    exact namedAlike_of_same_row t e.state
  refine ⟨?_, hnamed, (listedFile t).member_toJson.2.1, ⟨_, hpos, e.member_toJson.2.1⟩, hhidden⟩
  intro halike
  exact hhidden _ [] 0 (halike.comment [] 0)

/-- Two versions of one group, with one file each. -/
def twoVersions : List Event :=
  [.upload ⟨lit "1.0", lit "core", [fileInfo (lit "a")]⟩,
    .upload ⟨lit "1.1", lit "core", [fileInfo (lit "b")]⟩]

/-- The file `a` in the listing of the first version. -/
def listedA : ModelFile := ⟨1, 1, 1, -1, 0, lit "a"⟩

/-- The file `a` in the diff. -/
def missingA : ModelDiffFile := ⟨1, 0, 1, 0, lit "a", lit "/a", .missing⟩

theorem mem_listing_twoVersions :
    listedA ∈ getFiles .innodb (afterEvents .innodb twoVersions).db 1 1 0 := by
  decide +kernel

theorem mem_diff_twoVersions :
    missingA ∈ (getDiff .innodb (afterEvents .innodb twoVersions).db 1 2).entries 1 := by
  decide +kernel

theorem described_never_alike_twoVersions :
    ¬ DescribedAlike .innodb twoVersions 1 2 listedA missingA ∧ NamedAlike listedA missingA ∧
      listedA.toJson.member (lit "def_file_id") = .numberInteger (-1) ∧
      (∃ n, 0 < n ∧ missingA.toJson.member (lit "define_file_id") = .numberInteger n) ∧
      ∀ d' text now, ¬ CommentShown .innodb twoVersions 1 2 listedA.defineFileId d' text now :=
  described_never_alike .innodb twoVersions 1 2 1 1 0 1 mem_listing_twoVersions
    mem_diff_twoVersions rfl

/-- The listing and the diff name different define ids for the file `a`. -/
theorem listedA_defineId :
    listedA ∈ getFiles .innodb (afterEvents .innodb twoVersions).db 1 1 0 ∧
      missingA ∈ (getDiff .innodb (afterEvents .innodb twoVersions).db 1 2).entries 1 ∧
      listedA.id = missingA.id ∧ ¬ DescribedAlike .innodb twoVersions 1 2 listedA missingA := by
  refine ⟨mem_listing_twoVersions, mem_diff_twoVersions, rfl, fun h => ?_⟩
  have hdefine : Json.numberInteger (-1) = .numberInteger 1 := h.defineId
  exact absurd (Json.numberInteger.inj hdefine) (by decide)

end WebDiff
