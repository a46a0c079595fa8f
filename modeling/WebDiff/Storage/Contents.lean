import WebDiff.Storage.History

/-!
# The contents of the tables

What the tables say when ids are left out: which version names and group names there are, and which
paths every version has in every group (`Database.contents`). A sequence of requests has contents of
its own (`requestContents`), which do not depend on their order, on repetitions or on how the files
are split into requests (`requestContents_congr`), and these are the contents of the tables it
leaves behind (`History.contents_eq`).
-/

namespace WebDiff

open Table

/-- Names of versions and groups, and the paths under them. -/
@[ext] structure Contents where
  versions : Set Bytes
  groups : Set Bytes
  paths : Bytes → Bytes → Set Path

/-- The contents of the tables. -/
def Database.contents (db : Database) : Contents where
  versions := {name | ∃ v, ⟨v, name⟩ ∈ db.versions}
  groups := {name | ∃ g, ⟨g, name⟩ ∈ db.fileGroups}
  paths version group := {p | ∃ v g, ⟨v, version⟩ ∈ db.versions ∧ ⟨g, group⟩ ∈ db.fileGroups ∧
    p ∈ db.paths v g}

/-- The contents of a sequence of requests: the uploaded paths, with the directories on the way to
them. -/
def requestContents (reqs : List AddRequest) : Contents where
  versions := {name | ∃ req ∈ reqs, req.version = name}
  groups := {name | ∃ req ∈ reqs, req.group = name}
  paths version group := {p | ∃ req ∈ reqs, req.version = version ∧ req.group = group ∧
    p ∈ filesPaths req.files}

/-- The path was uploaded to the version and group, as the text `filePath`. -/
def Uploaded (reqs : List AddRequest) (version group filePath : Bytes) : Prop :=
  ∃ req ∈ reqs, req.version = version ∧ req.group = group ∧
    ∃ file ∈ req.files, file.filePath = filePath

theorem mem_requestContents_paths {reqs : List AddRequest} {version group : Bytes} {p : Path} :
    p ∈ (requestContents reqs).paths version group ↔
      ∃ filePath, Uploaded reqs version group filePath ∧ p ∈ Path.prefixes (pathOf filePath) := by
  constructor
  · rintro ⟨req, hreq, hv, hg, file, hfile, hp⟩
    exact ⟨file.filePath, ⟨req, hreq, hv, hg, file, hfile, rfl⟩, hp⟩
  · rintro ⟨_, ⟨req, hreq, hv, hg, file, hfile, rfl⟩, hp⟩
    exact ⟨req, hreq, hv, hg, file, hfile, hp⟩

/-- Requests that name the same versions and groups, and upload the same paths to them, have the
same contents. -/
theorem requestContents_congr {reqs reqs' : List AddRequest}
    (hversions : ∀ name, (∃ req ∈ reqs, req.version = name) ↔ ∃ req ∈ reqs', req.version = name)
    (hgroups : ∀ name, (∃ req ∈ reqs, req.group = name) ↔ ∃ req ∈ reqs', req.group = name)
    (hpaths : ∀ version group filePath,
      Uploaded reqs version group filePath ↔ Uploaded reqs' version group filePath) :
    requestContents reqs = requestContents reqs' := by
  refine Contents.ext (Set.ext hversions) (Set.ext hgroups) ?_
  funext version group
  ext p
  simp only [mem_requestContents_paths, hpaths]

/-- **The tables have the contents of the requests.** -/
theorem History.contents_eq {db : Database} {reqs : List AddRequest} (h : History db reqs) :
    db.contents = requestContents reqs := by
  refine Contents.ext ?_ ?_ ?_
  · ext name
    constructor
    · rintro ⟨v, hv⟩
      exact h.versionNames _ hv
    · rintro ⟨req, hreq, rfl⟩
      exact h.versions req hreq
  · ext name
    constructor
    · rintro ⟨g, hg⟩
      exact h.groupNames _ hg
    · rintro ⟨req, hreq, rfl⟩
      exact h.groups req hreq
  · funext version group
    ext p
    simp only [Database.contents, requestContents, h.paths, requestPaths, Set.mem_ofPred_eq]
    constructor
    · rintro ⟨v, g, hv, hg, req, hreq, hv', hg', hp⟩
      -- a version id has one name, and so has a group id
      have hversion : req.version = version := congrArg VersionRow.name
        (h.forest.keyed.versionIds.eq_of_id_eq hv' hv rfl)
      have hgroup : req.group = group := congrArg FileGroupRow.name
        (h.forest.keyed.groupIds.eq_of_id_eq hg' hg rfl)
      exact ⟨req, hreq, hversion, hgroup, hp⟩
    · rintro ⟨req, hreq, rfl, rfl, hp⟩
      obtain ⟨v, hv⟩ := h.versions req hreq
      obtain ⟨g, hg⟩ := h.groups req hreq
      exact ⟨v, g, hv, hg, req, hreq, hv, hg, hp⟩

/-- Tables that are a forest of paths, and in which every id a row refers to has a row. -/
structure Referential (db : Database) : Prop where
  forest : PathForest db
  version : ∀ {v g : ℤ} {p : Path}, p ∈ db.paths v g → ∃ name, ⟨v, name⟩ ∈ db.versions
  group : ∀ {v g : ℤ} {p : Path}, p ∈ db.paths v g → ∃ name, ⟨g, name⟩ ∈ db.fileGroups
  defined : ∀ p ∈ db.definedPaths, ∃ v g, p ∈ db.paths v g

theorem History.referential {db : Database} {reqs : List AddRequest} (h : History db reqs) :
    Referential db where
  forest := h.forest
  version := by
    intro v g p hp
    rw [h.paths] at hp
    obtain ⟨req, -, hv, -, -⟩ := hp
    exact ⟨_, hv⟩
  group := by
    intro v g p hp
    rw [h.paths] at hp
    obtain ⟨req, -, -, hg, -⟩ := hp
    exact ⟨_, hg⟩
  defined := h.defined

section Referential

variable {db : Database} (h : Referential db) {v g : ℤ} {version group : Bytes}
  (hv : ⟨v, version⟩ ∈ db.versions) (hg : ⟨g, group⟩ ∈ db.fileGroups)
include h hv hg

/-- The paths of two ids are those of their names. -/
theorem Referential.mem_contents_iff {p : Path} :
    p ∈ db.contents.paths version group ↔ p ∈ db.paths v g := by
  constructor
  · rintro ⟨v', g', hv', hg', hp⟩
    rwa [h.forest.version_id hv hv', h.forest.group_id hg hg']
  · exact fun hp => ⟨v, g, hv, hg, hp⟩

end Referential

end WebDiff
