import WebDiff.Diff.Renaming
import WebDiff.Storage.Reupload

/-!
# Uploads have set semantics

What a sequence of uploads leaves behind depends on its contents only (`uploads_set_semantics`): up
to a renaming of ids, the tables and every diff are the same for all sequences that upload the same
paths to the same versions and groups.
-/

namespace WebDiff

open Program Table

/-- Uploads write no comments. -/
theorem comments_uploaded (my : MySql) (reqs : List AddRequest) :
    (uploaded my reqs).db.comments = [] := by
  unfold uploaded
  induction reqs using List.reverseRecOn with
  | nil => rfl
  | append_singleton reqs req ih =>
    rw [List.map_append, List.map_singleton, afterEvents_concat_db]
    simp only [Event.program, run_bind, run_pure]
    rw [(upload_frame my _ req).comments]
    exact ih

/-- **Set semantics.** Two sequences of uploads with the same contents, on servers that may give
different ids, leave tables that are equal up to a renaming of ids, and so are the diffs of any two
versions. And a request that uploads nothing but paths that are there already, or directories on the
way to such paths, executes no `INSERT` and no `UPDATE` on the two tables of files. -/
theorem uploads_set_semantics (my my' : MySql) (reqs reqs' : List AddRequest)
    (h : requestContents reqs = requestContents reqs') :
    (∃ ρ : Renaming, ρ.Renames (uploaded my reqs).db (uploaded my' reqs').db ∧
      ∀ left ∈ (uploaded my reqs).db.versions, ∀ right ∈ (uploaded my reqs).db.versions,
        SameDiff ρ (getDiff my (uploaded my reqs).db left.id right.id)
          (getDiff my' (uploaded my' reqs').db (ρ.version left.id) (ρ.version right.id))) ∧
    ∀ req : AddRequest, (∀ file ∈ req.files, file.path ≠ [] →
        file.path ∈ (requestContents reqs).paths req.version req.group) →
      ∀ x ∈ trace (World.step my) (upload req) (uploaded my reqs), x.1.writesFiles = false := by
  have hist := history_uploaded my reqs
  have hist' := history_uploaded my' reqs'
  have hcontents : (uploaded my reqs).db.contents = (uploaded my' reqs').db.contents := by
    rw [hist.contents_eq, hist'.contents_eq, h]
  have hρ := renames_of_contents hist.referential hist'.referential hcontents
  refine ⟨⟨_, hρ, fun left hleft right hright => ?_⟩, fun req hstored => ?_⟩
  · exact sameDiff_of_renames hρ hist.referential hist'.referential my my' ⟨left, hleft, rfl⟩
      ⟨right, hright, rfl⟩ (comments_uploaded my reqs) (comments_uploaded my' reqs')
  · have hsynced : Synced (uploaded my reqs) := synced_afterEvents my _
    rw [(agree_upload hsynced req).trace]
    exact upload_stored_writes_nothing my hist hstored

/-- Two files of a directory in one request. -/
def oneRequest : List AddRequest :=
  [⟨lit "1.0", lit "core", [fileInfo (lit "lib/a"), fileInfo (lit "lib/b")]⟩]

/-- The same files in two requests, in the other order and one of them twice. -/
def twoRequests : List AddRequest :=
  [⟨lit "1.0", lit "core", [fileInfo (lit "lib/b"), fileInfo (lit "lib/b")]⟩,
    ⟨lit "1.0", lit "core", [fileInfo (lit "lib/a")]⟩]

theorem uploads_set_semantics_twoRequests :
    (∃ ρ : Renaming, ρ.Renames (uploaded .innodb oneRequest).db (uploaded .innodb twoRequests).db ∧
      ∀ left ∈ (uploaded .innodb oneRequest).db.versions,
        ∀ right ∈ (uploaded .innodb oneRequest).db.versions,
        SameDiff ρ (getDiff .innodb (uploaded .innodb oneRequest).db left.id right.id)
          (getDiff .innodb (uploaded .innodb twoRequests).db (ρ.version left.id)
            (ρ.version right.id))) ∧
    ∀ req : AddRequest, (∀ file ∈ req.files, file.path ≠ [] →
        file.path ∈ (requestContents oneRequest).paths req.version req.group) →
      ∀ x ∈ trace (World.step .innodb) (upload req) (uploaded .innodb oneRequest),
        x.1.writesFiles = false := by
  refine uploads_set_semantics .innodb .innodb oneRequest twoRequests
    (requestContents_congr ?_ ?_ ?_)
  · intro name
    simp [oneRequest, twoRequests]
  · intro name
    simp [oneRequest, twoRequests]
  · intro version group filePath
    simp only [Uploaded, oneRequest, twoRequests, List.mem_cons, List.not_mem_nil, or_false,
      exists_eq_or_imp, exists_eq_left, fileInfo, or_self, ← and_or_left]
    rw [or_comm]

end WebDiff
