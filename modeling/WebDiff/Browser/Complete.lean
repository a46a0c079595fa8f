import WebDiff.Browser.Shown

/-!
# Browsing shows every path once

The page lists every file row of a version and group exactly once, in finitely many steps
(`visits_perm`). Its titles are file names read as C strings, so they spell the paths exactly when
no uploaded path has a NUL byte (`browse_complete_iff`).
-/

namespace WebDiff

open Table

/-- The page shows the paths `S` of a version and group: every file row once, under titles that
spell its path, with a counter that is the number of entries below it; and the number of entries is
the one reported for the group. -/
structure BrowsesExactly (my : MySql) (db : Database) (v g : ℤ) (S : Set Path)
    (visits : List Entry) : Prop where
  once : (visits.map fun x => x.file.id).Perm
    ((db.links.filter fun l => l.versionId = v ∧ l.fileGroupId = g).map FileLink.id)
  titles : ∀ x ∈ visits, ∃ p ∈ S, db.HasFile v g p x.file.id ∧
    joinNames x.titles = joinNames (p.map Subtype.val)
  paths : ∀ p ∈ S, ∃ x ∈ visits, db.HasFile v g p x.file.id
  amountOfChildren : ∀ x ∈ visits,
    x.file.amountOfChildren = (getFiles my db v g x.file.id).length
  amountOfFiles : ∀ G ∈ getGroups my db v, G.id = g → G.amountOfFiles = visits.length
  reported : visits ≠ [] → ∃ G ∈ getGroups my db v, G.id = g

/-! ### The walk -/

open Classical in
/-- The path of a file id. -/
noncomputable def Database.pathOfFile (db : Database) (v g f : ℤ) : Path :=
  if hf : ∃ p, db.HasFile v g p f then hf.choose else []

/-- The invariant of the walk: the entry shows a path. -/
def ShowsPath (db : Database) (v g : ℤ) (x : Entry) : Prop :=
  ∃ p, x.Shows db v g p

/-- The entries of the page with enough fuel. -/
def visits (my : MySql) (db : Database) (v g : ℤ) (n : ℕ) : List Entry :=
  Walk.visits (expandEntry my db v g) n (showFiles [] (getFiles my db v g 0))

/-- How far the id of an entry is from the last id. It falls from an entry to those below. -/
def toLastId (db : Database) (x : Entry) : ℕ :=
  (lastId FileLink.id db.links - x.file.id).toNat

section Walk

variable {db : Database} (h : PathForest db)
include h

theorem PathForest.pathOfFile_eq {v g : ℤ} {p : Path} {f : ℤ} (hf : db.HasFile v g p f) :
    db.pathOfFile v g f = p := by
  have hex : ∃ q, db.HasFile v g q f := ⟨p, hf⟩
  rw [Database.pathOfFile, dif_pos hex]
  exact (h.hasFile_path hex.choose_spec hf).2.2

theorem PathForest.toLastId_lt {v g : ℤ} {p : Path} {c : Component} {x y : Entry}
    (hx : x.Shows db v g p) (hy : y.Shows db v g (p ++ [c])) : toLastId db y < toLastId db x := by
  obtain ⟨l, hl, hid, hparent⟩ := h.paths_parent hy.file
  obtain ⟨q, e, hs⟩ := h.files l hl
  have hparentId : l.parentId = x.file.id := by
    rcases hparent with ⟨rfl, -⟩ | hparent
    · exact absurd rfl (h.ne_nil_of_hasFile hx.file)
    · exact h.hasFile_id hparent hx.file
  have hlt := hs.parentId_lt
  have hle := h.keyed.fileIds.le_lastId hl
  unfold toLastId
  omega

theorem PathForest.toLastId_lt_fuel {v g : ℤ} {p : Path} {x : Entry} (hx : x.Shows db v g p)
    {n : ℕ} (hn : (lastId FileLink.id db.links).toNat < n) : toLastId db x < n := by
  have hpos := h.hasFile_pos hx.file
  unfold toLastId
  omega

/-- The entries the page begins with. -/
theorem PathForest.shows_roots (my : MySql) (v g : ℤ) :
    ∀ x ∈ showFiles [] (getFiles my db v g 0), ∃ c, x.Shows db v g [c] :=
  h.shows_getFiles my (db.fileId_root v g)

theorem PathForest.walk_hypotheses (my : MySql) (v g : ℤ) {n : ℕ}
    (hn : (lastId FileLink.id db.links).toNat < n) :
    (∀ x, ShowsPath db v g x → ∀ y ∈ expandEntry my db v g x, ShowsPath db v g y) ∧
    (∀ x, ShowsPath db v g x → ∀ y ∈ expandEntry my db v g x, toLastId db y < toLastId db x) ∧
    ∀ x ∈ showFiles [] (getFiles my db v g 0), ShowsPath db v g x ∧ toLastId db x < n := by
  refine ⟨fun x ⟨p, hx⟩ y hy => ?_, fun x ⟨p, hx⟩ y hy => ?_, fun x hx => ?_⟩
  · obtain ⟨c, hy⟩ := h.shows_expandEntry my hx y hy
    exact ⟨_, hy⟩
  · obtain ⟨c, hy⟩ := h.shows_expandEntry my hx y hy
    exact h.toLastId_lt hx hy
  · obtain ⟨c, hx⟩ := h.shows_roots my v g x hx
    exact ⟨⟨_, hx⟩, h.toLastId_lt_fuel hx hn⟩

section Visits

variable (my : MySql) (v g : ℤ) {n : ℕ} (hn : (lastId FileLink.id db.links).toNat < n)
include hn

theorem PathForest.browse_eq_some : browse my db v g n = some (visits my db v g n) := by
  obtain ⟨hP, hmeasure, hroots⟩ := h.walk_hypotheses my v g hn
  exact Walk.walk_eq_some hP hmeasure hroots

theorem PathForest.shows_visits : ∀ x ∈ visits my db v g n, ShowsPath db v g x := by
  obtain ⟨hP, hmeasure, hroots⟩ := h.walk_hypotheses my v g hn
  exact Walk.forall_visits hP hmeasure hroots

/-- Every path is shown: the entry of the path above is expanded. -/
theorem PathForest.exists_visit {p : Path} {f : ℤ} (hf : db.HasFile v g p f) :
    ∃ x ∈ visits my db v g n, x.file.id = f := by
  obtain ⟨hP, hmeasure, hroots⟩ := h.walk_hypotheses my v g hn
  induction p using List.reverseRecOn generalizing f with
  | nil => exact absurd rfl (h.ne_nil_of_hasFile hf)
  | append_singleton p c ih =>
    obtain ⟨l, -, -, hparent⟩ := h.paths_parent hf
    rcases hparent with ⟨rfl, -⟩ | hparent
    -- a path of one component is among the roots
    · obtain ⟨x, hx, hid⟩ := h.exists_mem_getFiles my (db.fileId_root v g) hf
      exact ⟨x, Walk.roots_subset n _ hx, hid⟩
    -- the entry of the directory is shown, and expanding it shows this one
    · obtain ⟨x, hx, hid⟩ := ih hparent
      obtain ⟨q, hshows⟩ := h.shows_visits my v g hn x hx
      obtain ⟨-, -, rfl⟩ := h.hasFile_path hshows.file (hid ▸ hparent)
      obtain ⟨y, hy, hid'⟩ := h.exists_mem_getFiles my (Or.inr hshows.file) hf
      rw [← h.expandEntry_eq my hshows] at hy
      exact ⟨y, Walk.expand_subset hP hmeasure hroots hx hy, hid'⟩

/-- No file row is shown twice. -/
theorem PathForest.nodup_visits : ((visits my db v g n).map fun x => x.file.id).Nodup := by
  obtain ⟨hP, hmeasure, hroots⟩ := h.walk_hypotheses my v g hn
  -- an entry is labelled with its path
  have hlabel : ∀ {x : Entry} {p : Path}, x.Shows db v g p →
      db.pathOfFile v g x.file.id = p := fun hx => h.pathOfFile_eq hx.file
  have hsiblings : ∀ (titles : List Bytes) (f : ℤ),
      (∀ x ∈ showFiles titles (getFiles my db v g f), ShowsPath db v g x) →
      ((showFiles titles (getFiles my db v g f)).map
        fun x => db.pathOfFile v g x.file.id).Nodup := by
    intro titles f hshows
    have hids : ((showFiles titles (getFiles my db v g f)).map fun x => x.file.id).Nodup := by
      have hnodup := h.nodup_getFiles my v g f
      rwa [showFiles, List.map_map]
    refine List.Nodup.map_on (fun x hx y hy heq => ?_) hids.of_map
    obtain ⟨p, hp⟩ := hshows x hx
    obtain ⟨q, hq⟩ := hshows y hy
    obtain rfl : p = q := (hlabel hp).symm.trans (heq.trans (hlabel hq))
    exact List.inj_on_of_nodup_map hids hx hy (h.hasFile_id hp.file hq.file)
  have hnodup := Walk.nodup_visits hP hmeasure (fun x => db.pathOfFile v g x.file.id)
    (fun x ⟨p, hx⟩ y hy => by
      obtain ⟨c, hy⟩ := h.shows_expandEntry my hx y hy
      exact ⟨c, by rw [hlabel hy, hlabel hx]⟩)
    (fun x ⟨p, hx⟩ => by
      have hinherit := hP x ⟨p, hx⟩
      rw [h.expandEntry_eq my hx] at hinherit ⊢
      exact hsiblings _ _ hinherit)
    [] hroots
    (fun x hx => by
      obtain ⟨c, hx⟩ := h.shows_roots my v g x hx
      exact ⟨c, hlabel hx⟩)
    (hsiblings _ _ fun x hx => (hroots x hx).1)
  have hmap : ((visits my db v g n).map fun x => db.pathOfFile v g x.file.id)
      = ((visits my db v g n).map fun x => x.file.id).map (db.pathOfFile v g) := by
    rw [List.map_map]
    rfl
  exact (hmap ▸ hnodup).of_map

/-- **Every row once.** -/
theorem PathForest.visits_perm : ((visits my db v g n).map fun x => x.file.id).Perm
    ((db.links.filter fun l => l.versionId = v ∧ l.fileGroupId = g).map FileLink.id) := by
  refine (List.perm_ext_iff_of_nodup (h.nodup_visits my v g hn)
    (h.keyed.fileIds.nodup_map.sublist (List.filter_sublist.map _))).mpr fun f => ?_
  simp only [List.mem_map, List.mem_filter, decide_eq_true_eq]
  constructor
  · rintro ⟨x, hx, rfl⟩
    obtain ⟨p, hshows⟩ := h.shows_visits my v g hn x hx
    obtain ⟨l, hl, hv, hg, -, hid⟩ := hshows.file
    exact ⟨l, ⟨hl, hv, hg⟩, hid⟩
  · rintro ⟨l, ⟨hl, rfl, rfl⟩, rfl⟩
    obtain ⟨p, c, hs⟩ := h.files l hl
    exact h.exists_visit my _ _ hn ⟨l, hl, rfl, rfl, hs.defineFileId, rfl⟩

end Visits

end Walk

/-! ### The titles -/

theorem mem_joinNames_of_mem {b : UInt8} {names : List Bytes} {name : Bytes} (hname : name ∈ names)
    (hb : b ∈ name) : b ∈ joinNames names := by
  induction names with
  | nil => exact absurd hname List.not_mem_nil
  | cons first rest ih =>
    cases rest with
    | nil => exact List.mem_singleton.mp hname ▸ hb
    | cons next rest =>
      rcases List.mem_cons.mp hname with rfl | hname
      · exact List.mem_append_left _ hb
      · exact List.mem_append_right _ (List.mem_cons_of_mem _ (ih hname))

/-- The titles of a path spell it when no name has a NUL byte. -/
theorem joinNames_shownTitles_iff (p : Path) :
    joinNames (shownTitles p) = joinNames (p.map Subtype.val) ↔ ∀ c ∈ p, 0 ∉ c.val := by
  constructor
  · intro heq c hc h0
    have hmem : 0 ∈ joinNames (shownTitles p) :=
      heq ▸ mem_joinNames_of_mem (List.mem_map_of_mem hc) h0
    rcases mem_joinNames _ hmem with h0 | ⟨title, htitle, h0⟩
    · exact absurd h0 (by decide)
    · obtain ⟨e, -, rfl⟩ := List.mem_map.mp htitle
      exact not_mem_cString _ h0
  · intro hnul
    have hsame : shownTitles p = p.map Subtype.val :=
      List.map_congr_left fun c hc => cString_eq_self (hnul c hc)
    rw [hsame]

/-- With enough fuel the page shows the paths of a version and group, titles apart; the titles are
right when no path has a NUL byte. -/
theorem PathForest.browsesExactly_iff {db : Database} (h : PathForest db) (my : MySql) (v g : ℤ)
    (hgroup : ∀ p ∈ db.paths v g, ∃ row ∈ db.fileGroups, row.id = g) {n : ℕ}
    (hn : (lastId FileLink.id db.links).toNat < n) :
    BrowsesExactly my db v g (db.paths v g) (visits my db v g n) ↔
      ∀ p ∈ db.paths v g, ∀ c ∈ p, 0 ∉ c.val := by
  constructor
  · rintro hexact p ⟨f, hf⟩
    obtain ⟨x, hx, rfl⟩ := h.exists_visit my v g hn hf
    obtain ⟨q, hshows⟩ := h.shows_visits my v g hn x hx
    -- the titles are read up to a NUL byte, so one that is right has none
    obtain ⟨r, -, hr, htitles⟩ := hexact.titles x hx
    obtain rfl := (h.hasFile_path hf hshows.file).2.2
    obtain rfl := (h.hasFile_path hf hr).2.2
    exact (joinNames_shownTitles_iff p).mp (hshows.titles ▸ htitles)
  · intro hnul
    have hperm := h.visits_perm my v g hn
    refine ⟨hperm, fun x hx => ?_, fun p ⟨f, hf⟩ => ?_, fun x hx => ?_, fun G hG hid => ?_,
      fun hne => ?_⟩
    · obtain ⟨p, hshows⟩ := h.shows_visits my v g hn x hx
      refine ⟨p, ⟨_, hshows.file⟩, hshows.file, ?_⟩
      rw [hshows.titles]
      exact (joinNames_shownTitles_iff p).mpr (hnul p ⟨_, hshows.file⟩)
    · obtain ⟨x, hx, rfl⟩ := h.exists_visit my v g hn hf
      exact ⟨x, hx, hf⟩
    · obtain ⟨p, hshows⟩ := h.shows_visits my v g hn x hx
      rw [hshows.amountOfChildren, h.length_getFiles my hshows.file]
    -- `amount_of_files` counts the rows that are shown
    · have hlength := hperm.length_eq
      rw [List.length_map, List.length_map] at hlength
      rw [h.amountOfFiles_getGroups my hG, hid, hlength]
    · obtain ⟨x, hx⟩ := List.exists_mem_of_ne_nil _ hne
      obtain ⟨p, hshows⟩ := h.shows_visits my v g hn x hx
      have hrow := hgroup p ⟨_, hshows.file⟩
      obtain ⟨l, hl, hv, hg, -, -⟩ := hshows.file
      exact exists_mem_getGroups my hl hv hg hrow

/-- **Browsing.** After any sequence of uploads the walk over a version and group ends, and shows
exactly the uploaded paths, if and only if none of them has a NUL byte. -/
theorem browse_complete_iff (my : MySql) (reqs : List AddRequest) (v g : ℤ) :
    (∃ n, ∀ fuel ≥ n, ∃ shown, browse my (uploaded my reqs).db v g fuel = some shown ∧
        BrowsesExactly my (uploaded my reqs).db v g (requestPaths (uploaded my reqs).db reqs v g)
          shown) ↔
      ∀ p ∈ requestPaths (uploaded my reqs).db reqs v g, ∀ c ∈ p, 0 ∉ c.val := by
  have hist := history_uploaded my reqs
  have h := hist.forest
  rw [← hist.paths]
  have hshown : ∀ {n}, (lastId FileLink.id (uploaded my reqs).db.links).toNat < n →
      (BrowsesExactly my (uploaded my reqs).db v g ((uploaded my reqs).db.paths v g)
          (visits my (uploaded my reqs).db v g n) ↔
        ∀ p ∈ (uploaded my reqs).db.paths v g, ∀ c ∈ p, 0 ∉ c.val) := fun hn =>
    h.browsesExactly_iff my v g (fun p hp => hist.exists_group hp) hn
  constructor
  · rintro ⟨n, hbrowse⟩
    -- as much fuel as both sides ask for
    have hn : (lastId FileLink.id (uploaded my reqs).db.links).toNat
        < n + (lastId FileLink.id (uploaded my reqs).db.links).toNat + 1 := by omega
    obtain ⟨shown, hsome, hexact⟩ := hbrowse
      (n + (lastId FileLink.id (uploaded my reqs).db.links).toNat + 1) (by omega)
    rw [h.browse_eq_some my v g hn] at hsome
    obtain rfl := Option.some.inj hsome
    exact (hshown hn).mp hexact
  · intro hnul
    refine ⟨(lastId FileLink.id (uploaded my reqs).db.links).toNat + 1, fun fuel hfuel => ?_⟩
    exact ⟨_, h.browse_eq_some my v g (by omega), (hshown (by omega)).mpr hnul⟩

/-- The upload of `'a'`, NUL, `'b'`, `'/'`, `'c'`. -/
def nulDirectory : List AddRequest :=
  [⟨lit "1.0", lit "core", [fileInfo [97, 0, 98, 47, 99]]⟩]

/-- The page shows the file as `"a/c"`. -/
theorem nulDirectory_not_browsed :
    ¬ ∃ n, ∀ fuel ≥ n, ∃ shown,
      browse .innodb (uploaded .innodb nulDirectory).db 1 1 fuel = some shown ∧
        BrowsesExactly .innodb (uploaded .innodb nulDirectory).db 1 1
          (requestPaths (uploaded .innodb nulDirectory).db nulDirectory 1 1) shown := by
  rintro ⟨n, hbrowse⟩
  have h := (history_uploaded .innodb nulDirectory).forest
  have hn : (lastId FileLink.id (uploaded .innodb nulDirectory).db.links).toNat < n + 3 := by
    have hlast : lastId FileLink.id (uploaded .innodb nulDirectory).db.links = 2 := by decide
    omega
  obtain ⟨shown, hsome, hexact⟩ := hbrowse (n + 3) (by omega)
  rw [h.browse_eq_some .innodb 1 1 hn] at hsome
  obtain rfl := Option.some.inj hsome
  have hpath : pathOf [97, 0, 98, 47, 99] ∈
      requestPaths (uploaded .innodb nulDirectory).db nulDirectory 1 1 :=
    ⟨_, List.mem_singleton.mpr rfl, by decide, by decide, _, List.mem_singleton.mpr rfl, by decide,
      List.prefix_rfl⟩
  obtain ⟨x, hx, hfile⟩ := hexact.paths _ hpath
  obtain ⟨q, hshows⟩ := h.shows_visits .innodb 1 1 hn x hx
  obtain ⟨p, -, hp, htitles⟩ := hexact.titles x hx
  obtain rfl := (h.hasFile_path hfile hshows.file).2.2
  obtain rfl := (h.hasFile_path hfile hp).2.2
  have hshown : x.titles = [lit "a", lit "c"] := hshows.titles.trans (by decide)
  rw [hshown] at htitles
  exact absurd htitles (by decide)

end WebDiff
