import WebDiff.Model.Storage

/-!
# What an upload can touch

The operations an upload performs, whatever its lookups answer (`Op.OfUpload`): it inserts no
version and no group but its own, no path with a byte that is not in the request, and no comment.
What such operations leave alone, an upload leaves alone (`Program.run_of_uses`).
-/

namespace WebDiff

open Program

/-- The operations of `addFile`, where `P` holds of every path it stores. -/
def Op.OfAddFile (P : Bytes → Prop) : Op → Prop
  | .findDefineFile _ => True
  | .putDefineFile _ _ => True
  | .findFile _ _ _ => True
  | .putFile _ _ _ _ => True
  | .sql (.insertDefineFile filepath _ _) => P filepath
  | .sql (.insertFile _ _ _ _) => True
  | .sql (.selectCount _) => True
  | .sql (.updateAmountOfChildren _ _) => True
  | _ => False

/-- The byte separates components or occurs in the path of a file of the request. -/
def AddRequest.HasByte (req : AddRequest) (b : UInt8) : Prop :=
  b = slash ∨ ∃ file ∈ req.files, b ∈ file.filePath

/-- The operations of an upload. -/
def Op.OfUpload (req : AddRequest) : Op → Prop
  | .findVersion _ => True
  | .pushVersion _ => True
  | .findGroup _ => True
  | .pushGroup _ => True
  | .sql (.insertVersion name) => name = req.version
  | .sql (.insertGroup name) => name = req.group
  | o => o.OfAddFile fun path => ∀ b ∈ path, req.HasByte b

/-- An operation of `addFile` on a path made of the bytes of the request. -/
theorem Op.OfAddFile.ofUpload {req : AddRequest} {o : Op}
    (h : o.OfAddFile fun path => ∀ b ∈ path, req.HasByte b) : o.OfUpload req := by
  cases o with
  | sql s =>
    cases s with
    | insertVersion name => exact h.elim
    | insertGroup name => exact h.elim
    | _ => exact h
  | findVersion name => trivial
  | pushVersion ver => trivial
  | findGroup title => trivial
  | pushGroup gr => trivial
  | _ => exact h

/-! ### The lookups of an upload -/

section Lookups

variable {A : Op → Prop}

theorem uses_findVersionOrCreate {version : Bytes} (hfind : A (.findVersion version))
    (hinsert : A (.sql (.insertVersion version))) (hpush : ∀ ver, A (.pushVersion ver)) :
    (findVersionOrCreate version).Uses A := by
  refine uses_bind (uses_perform hfind) fun found => ?_
  cases found with
  | some ver => exact uses_pure ver
  | none =>
    exact uses_bind (uses_bind (uses_perform hinsert) fun id => uses_pure _) fun ver =>
      uses_bind (uses_perform (hpush ver)) fun _ => uses_pure ver

theorem uses_findGroupOrCreate {group : Bytes} (hfind : A (.findGroup group))
    (hinsert : A (.sql (.insertGroup group))) (hpush : ∀ gr, A (.pushGroup gr)) :
    (findGroupOrCreate group).Uses A := by
  refine uses_bind (uses_perform hfind) fun found => ?_
  cases found with
  | some gr => exact uses_pure gr
  | none =>
    exact uses_bind (uses_bind (uses_perform hinsert) fun id => uses_pure _) fun gr =>
      uses_bind (uses_perform (hpush gr)) fun _ => uses_pure gr

theorem uses_findDefineFileIdOrCreate {path name : Bytes} {parent : ℤ}
    (hfind : A (.findDefineFile path)) (hinsert : A (.sql (.insertDefineFile path name parent)))
    (hput : ∀ id, A (.putDefineFile path id)) :
    (findDefineFileIdOrCreate path name parent).Uses A := by
  refine uses_bind (uses_perform hfind) fun found => ?_
  cases found with
  | some id => exact uses_pure id
  | none =>
    exact uses_bind (uses_perform hinsert) fun id =>
      uses_bind (uses_perform (hput id)) fun _ => uses_pure id

end Lookups

/-! ### Files -/

section AddFile

variable {P : Bytes → Prop}

theorem uses_findFileOrCreate (v g d f : ℤ) :
    (findFileOrCreate v g d f).Uses (Op.OfAddFile P) := by
  refine uses_bind (uses_perform trivial) fun fileId => ?_
  unfold createFileIfAbsent
  split
  · exact uses_pure fileId
  · refine uses_bind ?_ fun id => uses_bind (uses_perform trivial) fun _ => uses_pure id
    exact uses_bind (uses_perform trivial) fun _ => uses_bind (uses_perform trivial) fun _ =>
      uses_bind (uses_perform trivial) fun _ => uses_pure _

theorem uses_addFileLoop (v g : ℤ) (names : List Bytes)
    (hP : ∀ path, P path → ∀ name ∈ names, P (path ++ slash :: name)) {path : Bytes}
    (hpath : P path) (d f : ℤ) : (addFileLoop v g names path d f).Uses (Op.OfAddFile P) := by
  induction names generalizing path d f with
  | nil => exact uses_pure ()
  | cons name rest ih =>
    have hrest : ∀ path, P path → ∀ n ∈ rest, P (path ++ slash :: n) := fun path hpath n hn =>
      hP path hpath n (List.mem_cons_of_mem _ hn)
    have hnew := hP path hpath name List.mem_cons_self
    unfold addFileLoop
    split
    · exact ih hrest hpath d f
    · exact uses_bind (uses_findDefineFileIdOrCreate trivial hnew fun _ => trivial) fun d' =>
        uses_bind (uses_findFileOrCreate v g d' f) fun f' => ih hrest hnew d' f'

end AddFile

theorem uses_addFile {req : AddRequest} {file : FileInfo} (h : file ∈ req.files) (v g : ℤ) :
    (addFile v g file).Uses (Op.OfAddFile fun path => ∀ b ∈ path, req.HasByte b) := by
  rw [addFile_eq, FileInfo.path, pathOf_map_val]
  refine uses_addFileLoop v g _ (fun path hpath name hname b hb => ?_)
    (fun _ hb => absurd hb List.not_mem_nil) 0 0
  rcases List.mem_append.mp hb with hb | hb
  · exact hpath b hb
  · rcases List.mem_cons.mp hb with hb | hb
    · exact Or.inl hb
    · exact Or.inr ⟨file, h, mem_pathComponents_bytes hname hb⟩

theorem uses_addFiles {req : AddRequest} {files : List FileInfo} (h : files ⊆ req.files)
    (v g : ℤ) :
    (addFiles v g files).Uses (Op.OfAddFile fun path => ∀ b ∈ path, req.HasByte b) := by
  induction files with
  | nil => exact uses_pure ()
  | cons file rest ih =>
    exact uses_bind (uses_addFile (h List.mem_cons_self) v g) fun _ =>
      ih fun f hf => h (List.mem_cons_of_mem _ hf)

/-- **The footprint of an upload.** -/
theorem uses_upload (req : AddRequest) : (upload req).Uses (Op.OfUpload req) := by
  refine uses_bind (uses_findVersionOrCreate trivial rfl fun _ => trivial) fun ver =>
    uses_bind (uses_findGroupOrCreate trivial rfl fun _ => trivial) fun gr => ?_
  -- a path of `addFile` is made of the bytes of the request
  have hfiles := uses_addFiles (List.Subset.refl req.files) ver.id gr.id
  exact uses_bind (hfiles.mono fun _ h => h.ofUpload) fun _ => uses_pure _

end WebDiff
