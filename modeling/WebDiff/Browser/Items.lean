import WebDiff.Browser.Complete
import WebDiff.Model.BrowserPage

/-!
# What the items of the page stand for

The ids of the `subtree`s are different for different items (`versionElid_ne`, `groupElid_inj`,
`subfileElid_inj`). `IsInside` says that an item stands for something that is stored right below
what another item stands for. It stays true when the tables grow, and what the server answers to the
click on an item are items inside it, without repetition and with none missing (`served`).
-/

namespace WebDiff

open Outline Separated Table

/-! ### Ids -/

theorem underscore_not_mem_decimal (n : ℤ) : 95 ∉ decimal n := by
  have hdigits : ∀ k, 95 ∉ digits k := fun k hmem =>
    absurd (isDigit_of_mem_digits hmem) (by decide)
  cases n with
  | ofNat k =>
    rw [decimal_ofNat]
    exact hdigits k
  | negSucc k =>
    rw [decimal_negSucc, List.mem_cons, not_or]
    exact ⟨by decide, hdigits (k + 1)⟩

/-- The ids are numbers behind separators, but for the first separator. -/
theorem groupElid_eq (v g : ℤ) :
    groupElid v g = lit "group" ++ (render 95 ([v, g].map decimal)).tail := by
  simp [groupElid, render, lit]

theorem subfileElid_eq (v g f : ℤ) :
    subfileElid v g f = lit "group" ++ (render 95 ([v, g, f].map decimal)).tail := by
  simp [subfileElid, render, lit]

theorem decimals_inj {n n' : ℤ} {ns ns' : List ℤ}
    (h : lit "group" ++ (render 95 ((n :: ns).map decimal)).tail
      = lit "group" ++ (render 95 ((n' :: ns').map decimal)).tail) : n :: ns = n' :: ns' := by
  have hsep : ∀ ms : List ℤ, ∀ part ∈ ms.map decimal, 95 ∉ part := by
    intro ms part hpart
    obtain ⟨m, -, rfl⟩ := List.mem_map.mp hpart
    exact underscore_not_mem_decimal m
  have hrender : render 95 ((n :: ns).map decimal) = render 95 ((n' :: ns').map decimal) :=
    congrArg (95 :: ·) (List.append_cancel_left h)
  have hmap := render_injective (hsep _) (hsep _) hrender
  exact List.map_injective_iff.mpr (fun _ _ => decimal_injective) hmap

theorem versionElid_inj {v v' : ℤ} (h : versionElid v = versionElid v') : v = v' :=
  decimal_injective (List.append_cancel_left h)

theorem groupElid_inj {v g v' g' : ℤ} (h : groupElid v g = groupElid v' g') : v = v' ∧ g = g' := by
  rw [groupElid_eq, groupElid_eq] at h
  obtain ⟨hv, hg⟩ := List.cons.inj (decimals_inj h)
  exact ⟨hv, List.singleton_inj.mp hg⟩

theorem subfileElid_inj {v g f v' g' f' : ℤ} (h : subfileElid v g f = subfileElid v' g' f') :
    v = v' ∧ g = g' ∧ f = f' := by
  rw [subfileElid_eq, subfileElid_eq] at h
  obtain ⟨hv, htail⟩ := List.cons.inj (decimals_inj h)
  obtain ⟨hg, hf⟩ := List.cons.inj htail
  exact ⟨hv, hg, List.singleton_inj.mp hf⟩

theorem groupElid_ne_subfileElid (v g v' g' f : ℤ) : groupElid v g ≠ subfileElid v' g' f := by
  intro h
  rw [groupElid_eq, subfileElid_eq] at h
  have hlength : 2 = 3 := congrArg List.length (decimals_inj h)
  exact absurd hlength (by decide)

/-- The first letters differ. -/
theorem versionElid_ne (v v' g f : ℤ) :
    versionElid v ≠ groupElid v' g ∧ versionElid v ≠ subfileElid v' g f := by
  have hversion : (versionElid v).head? = some 118 := rfl
  have hgroup : (groupElid v' g).head? = some 103 := rfl
  have hfile : (subfileElid v' g f).head? = some 103 := rfl
  refine ⟨fun h => ?_, fun h => ?_⟩
  · rw [h, hgroup] at hversion
    exact absurd hversion (by decide)
  · rw [h, hfile] at hversion
    exact absurd hversion (by decide)

/-! ### Items inside items -/

/-- The item is a stored version. -/
def IsVersion (db : Database) : TreeItem → Prop
  | .version v name => ⟨v, name⟩ ∈ db.versions
  | _ => False

/-- The items inside this one are those of the paths with one more component than `p`. -/
def TreeItem.IsAt (db : Database) (v g : ℤ) (p : Path) : TreeItem → Prop
  | .version _ _ => False
  | .group v' g' _ _ => v' = v ∧ g' = g ∧ p = []
  | .file v' g' f _ _ => v' = v ∧ g' = g ∧ db.HasFile v g p f

/-- `COUNT(*)` in `getGroups`. -/
def Database.amountOfFiles (db : Database) (v g : ℤ) : ℕ :=
  db.links.countP fun l => l.versionId = v ∧ l.fileGroupId = g

/-- The group, with a number of files it had between `db₀` and `db`. -/
structure GroupShown (db₀ db : Database) (v g : ℤ) (title : Bytes) (amountOfFiles : ℤ) : Prop where
  title : ∃ row ∈ db.fileGroups, row.id = g ∧ cString row.name = title
  least : db₀.amountOfFiles v g ≤ amountOfFiles
  most : amountOfFiles ≤ db.amountOfFiles v g

/-- The file of the path `p ++ [c]`, with a number of children it had between `db₀` and `db`. -/
structure FileShown (db₀ db : Database) (v g : ℤ) (p : Path) (c : Component) (f : ℤ)
    (title : Bytes) (amountOfChildren : ℤ) : Prop where
  file : db.HasFile v g (p ++ [c]) f
  title : cString c.val = title
  least : db₀.childCount f ≤ amountOfChildren
  most : amountOfChildren ≤ db.childCount f

/-- The second item stands for something right below what the first one stands for, and there is a
plus in front of the first. -/
inductive IsInside (db₀ db : Database) : TreeItem → TreeItem → Prop
  | group {v g n : ℤ} {name title : Bytes} : GroupShown db₀ db v g title n →
      IsInside db₀ db (.version v name) (.group v g title n)
  | file {a : TreeItem} {v g f n : ℤ} {p : Path} {c : Component} {title : Bytes} :
      a.request.isSome → a.IsAt db v g p → FileShown db₀ db v g p c f title n →
      IsInside db₀ db a (.file v g f title n)

/-- What these tables have right below what the item stands for. -/
inductive Needs (db₀ : Database) : TreeItem → Bytes → Prop
  | group {l : FileLink} {name : Bytes} : l ∈ db₀.links →
      Needs db₀ (.version l.versionId name) (groupElid l.versionId l.fileGroupId)
  | file {a : TreeItem} {v g f : ℤ} {p : Path} {c : Component} : a.IsAt db₀ v g p →
      db₀.HasFile v g (p ++ [c]) f → Needs db₀ a (subfileElid v g f)

theorem IsInside.request {db₀ db : Database} {a b : TreeItem} (h : IsInside db₀ db a b) :
    a.request.isSome := by
  cases h with
  | group _ => rfl
  | file hplus _ _ => exact hplus

theorem IsInside.least {db₀ db : Database} {a : TreeItem} {v g f n : ℤ} {title : Bytes}
    (h : IsInside db₀ db a (.file v g f title n)) : db₀.childCount f ≤ n := by
  cases h with
  | file _ _ h => exact h.least

theorem Needs.of_file {db₀ : Database} {v g k n : ℤ} {title e : Bytes}
    (h : Needs db₀ (.file v g k title n) e) : ∃ p c f, db₀.HasFile v g p k ∧
      db₀.HasFile v g (p ++ [c]) f ∧ subfileElid v g f = e := by
  cases h with
  | file hat hf =>
    obtain ⟨rfl, rfl, hp⟩ := hat
    exact ⟨_, _, _, hp, hf, rfl⟩

section Grows

variable {db₀ db db' : Database} (hgrows : db.Grows db')
include hgrows

theorem IsVersion.mono {a : TreeItem} (h : IsVersion db a) : IsVersion db' a := by
  cases a with
  | version v name => exact hgrows.versions h
  | group v g title n => exact h
  | file v g f title n => exact h

theorem TreeItem.IsAt.mono {a : TreeItem} {v g : ℤ} {p : Path} (h : a.IsAt db v g p) :
    a.IsAt db' v g p := by
  cases a with
  | version v' name => exact h
  | group v' g' title n => exact h
  | file v' g' f title n => exact ⟨h.1, h.2.1, h.2.2.mono hgrows⟩

/-- No row is lost, so no number falls. -/
theorem countP_links_le (hkeyed : Keyed db) (q : FileLink → Bool) :
    db.links.countP q ≤ db'.links.countP q :=
  (List.subperm_of_subset hkeyed.fileIds.nodup hgrows.links).countP_le q

theorem GroupShown.mono (hkeyed : Keyed db) {v g n : ℤ} {title : Bytes}
    (h : GroupShown db₀ db v g title n) : GroupShown db₀ db' v g title n := by
  obtain ⟨row, hrow, hid, htitle⟩ := h.title
  have hcount : db.amountOfFiles v g ≤ db'.amountOfFiles v g := countP_links_le hgrows hkeyed _
  exact ⟨⟨row, hgrows.fileGroups hrow, hid, htitle⟩, h.least,
    h.most.trans (Int.ofNat_le.mpr hcount)⟩

theorem FileShown.mono (hkeyed : Keyed db) {v g f n : ℤ} {p : Path} {c : Component} {title : Bytes}
    (h : FileShown db₀ db v g p c f title n) : FileShown db₀ db' v g p c f title n := by
  have hcount : db.childCount f ≤ db'.childCount f := countP_links_le hgrows hkeyed _
  exact ⟨h.file.mono hgrows, h.title, h.least, h.most.trans (Int.ofNat_le.mpr hcount)⟩

theorem IsInside.mono (hkeyed : Keyed db) {a b : TreeItem} (h : IsInside db₀ db a b) :
    IsInside db₀ db' a b := by
  cases h with
  | group h => exact .group (h.mono hgrows hkeyed)
  | file hplus hat h => exact .file hplus (hat.mono hgrows) (h.mono hgrows hkeyed)

end Grows

/-! ### The ids tell the items apart -/

theorem elid_ne_of_isVersion {db₀ db : Database} {a b c : TreeItem} (ha : IsVersion db a)
    (hc : IsInside db₀ db b c) : a.elid ≠ c.elid := by
  cases a with
  | version v name =>
    cases hc with
    | group _ => exact (versionElid_ne _ _ _ 0).1
    | file _ _ _ => exact (versionElid_ne _ _ _ _).2
  | group v g title n => exact ha.elim
  | file v g f title n => exact ha.elim

theorem TreeItem.isAt_of_elid_eq_group {db : Database} {a : TreeItem} {v g : ℤ}
    (h : a.elid = groupElid v g) : a.IsAt db v g [] := by
  cases a with
  | version v' name => exact absurd h (versionElid_ne v' v g 0).1
  | group v' g' title n =>
    obtain ⟨rfl, rfl⟩ := groupElid_inj h
    exact ⟨rfl, rfl, rfl⟩
  | file v' g' f title n => exact absurd h.symm (groupElid_ne_subfileElid _ _ _ _ _)

theorem TreeItem.isAt_of_elid_eq_file {db : Database} {a : TreeItem} {v g f : ℤ} {p : Path}
    (hf : db.HasFile v g p f) (h : a.elid = subfileElid v g f) : a.IsAt db v g p := by
  cases a with
  | version v' name => exact absurd h (versionElid_ne v' v g f).2
  | group v' g' title n => exact absurd h (groupElid_ne_subfileElid _ _ _ _ _)
  | file v' g' f' title n =>
    obtain ⟨rfl, rfl, rfl⟩ := subfileElid_inj h
    exact ⟨rfl, rfl, hf⟩

section Forest

variable {db : Database} (h : PathForest db)
include h

theorem PathForest.isAt_inj {a : TreeItem} {v g v' g' : ℤ} {p q : Path} (hp : a.IsAt db v g p)
    (hq : a.IsAt db v' g' q) : v = v' ∧ g = g' ∧ p = q := by
  cases a with
  | version _ _ => exact hp.elim
  | group _ _ _ _ =>
    obtain ⟨rfl, rfl, rfl⟩ := hp
    obtain ⟨rfl, rfl, rfl⟩ := hq
    exact ⟨rfl, rfl, rfl⟩
  | file _ _ _ _ _ =>
    obtain ⟨rfl, rfl, hp⟩ := hp
    obtain ⟨rfl, rfl, hq⟩ := hq
    exact h.hasFile_path hp hq

theorem PathForest.elid_eq_of_isAt {a b : TreeItem} {v g : ℤ} {p : Path} (ha : a.IsAt db v g p)
    (hb : b.IsAt db v g p) : a.elid = b.elid := by
  cases a with
  | version _ _ => exact ha.elim
  | group _ _ _ _ =>
    obtain ⟨rfl, rfl, rfl⟩ := ha
    cases b with
    | version _ _ => exact hb.elim
    | group _ _ _ _ =>
      obtain ⟨rfl, rfl, -⟩ := hb
      rfl
    | file _ _ _ _ _ => exact absurd rfl (h.ne_nil_of_hasFile hb.2.2)
  | file _ _ _ _ _ =>
    obtain ⟨rfl, rfl, ha⟩ := ha
    cases b with
    | version _ _ => exact hb.elim
    | group _ _ _ _ => exact absurd hb.2.2 (h.ne_nil_of_hasFile ha)
    | file _ _ _ _ _ =>
      obtain ⟨rfl, rfl, hb⟩ := hb
      rw [TreeItem.elid, TreeItem.elid, h.hasFile_id ha hb]

/-- The id of an item determines the id of the item around it. -/
theorem PathForest.elid_around {db₀ : Database} {a b c d : TreeItem} (hc : IsInside db₀ db a c)
    (hd : IsInside db₀ db b d) (heq : c.elid = d.elid) : a.elid = b.elid := by
  cases hc with
  | group _ =>
    cases hd with
    | group _ =>
      obtain ⟨rfl, -⟩ := groupElid_inj heq
      rfl
    | file _ _ _ => exact absurd heq (groupElid_ne_subfileElid _ _ _ _ _)
  | file _ ha hc =>
    cases hd with
    | group _ => exact absurd heq.symm (groupElid_ne_subfileElid _ _ _ _ _)
    | file _ hb hd =>
      obtain ⟨rfl, rfl, rfl⟩ := subfileElid_inj heq
      obtain ⟨hp, -⟩ := List.append_singleton_inj.mp (h.hasFile_path hc.file hd.file).2.2
      exact h.elid_eq_of_isAt ha (hp ▸ hb)

end Forest

/-! ### What the server answers -/

/-- The items are right inside `a`, none is repeated, and none is missing. -/
structure Lists (db₀ db : Database) (a : TreeItem) (items : List TreeItem) : Prop where
  inside : ∀ b ∈ items, IsInside db₀ db a b
  nodup : (items.map TreeItem.elid).Nodup
  complete : ∀ e, Needs db₀ a e → ∃ b ∈ items, b.elid = e

theorem Lists.mono {db₀ db db' : Database} (hgrows : db.Grows db') (hkeyed : Keyed db)
    {a : TreeItem} {items : List TreeItem} (h : Lists db₀ db a items) : Lists db₀ db' a items :=
  ⟨fun b hb => (h.inside b hb).mono hgrows hkeyed, h.nodup, h.complete⟩

/-- The file of the item has a row. -/
def TreeItem.Known (db : Database) : TreeItem → Prop
  | .file v g f _ _ => ∃ p, db.HasFile v g p f
  | _ => True

theorem TreeItem.Known.mono {db db' : Database} (hgrows : db.Grows db') {a : TreeItem}
    (h : a.Known db) : a.Known db' := by
  cases a with
  | version v name => trivial
  | group v g title n => trivial
  | file v g f title n =>
    obtain ⟨p, hp⟩ := h
    exact ⟨p, hp.mono hgrows⟩

theorem IsVersion.known {db : Database} {a : TreeItem} (h : IsVersion db a) : a.Known db := by
  cases a with
  | version v name => trivial
  | group v g title n => trivial
  | file v g f title n => exact h.elim

theorem IsInside.known {db₀ db : Database} {a b : TreeItem} (h : IsInside db₀ db a b) :
    b.Known db := by
  cases h with
  | group _ => trivial
  | file _ _ h => exact ⟨_, h.file⟩

theorem map_filterMap_sublist {α β : Type} {f : α → Option β} {k : β → α}
    (hk : ∀ a b, f a = some b → k b = a) (as : List α) : ((as.filterMap f).map k).Sublist as := by
  induction as with
  | nil => exact List.Sublist.refl _
  | cons a rest ih =>
    cases hfa : f a with
    | none =>
      rw [List.filterMap_cons_none hfa]
      exact ih.cons a
    | some b =>
      rw [List.filterMap_cons_some hfa, List.map_cons, hk a b hfa]
      exact ih.cons_cons a

theorem nodup_getGroups (my : MySql) (db : Database) (v : ℤ) :
    ((getGroups my db v).map ModelGroupForVersion.id).Nodup := by
  have hids : (my.scan ((db.filesOfVersion v).map fun t => t.1.fileGroupId).dedup).Nodup :=
    (my.scan_perm _).nodup_iff.mpr (List.nodup_dedup _)
  refine hids.sublist (map_filterMap_sublist (fun g G hG => ?_) _)
  obtain ⟨t, -, rfl⟩ := Option.map_eq_some_iff.mp hG
  rfl

section Served

variable (my : MySql) {w : World} {reqs : List AddRequest} (hist : History w.db reqs)
  {db₀ : Database} (hkeyed : Keyed db₀) (hgrows : db₀.Grows w.db)
include hist hkeyed hgrows

theorem served_groups (v : ℤ) (name : Bytes) :
    Lists db₀ w.db (.version v name)
      ((BrowseRequest.groups v).items ((BrowseRequest.groups v).answer my w)) := by
  have hitems : (BrowseRequest.groups v).items ((BrowseRequest.groups v).answer my w)
      = (getGroups my w.db v).map fun G => .group v G.id G.title G.amountOfFiles :=
    List.map_map
  rw [hitems]
  refine ⟨fun b hb => ?_, ?_, fun e he => ?_⟩
  · obtain ⟨G, hG, rfl⟩ := List.mem_map.mp hb
    have hamount : G.amountOfFiles = w.db.amountOfFiles v G.id := by
      rw [hist.forest.amountOfFiles_getGroups my hG, ← List.countP_eq_length_filter]
      rfl
    have hcount : db₀.amountOfFiles v G.id ≤ w.db.amountOfFiles v G.id :=
      countP_links_le hgrows hkeyed _
    refine .group ⟨?_, hamount ▸ Int.ofNat_le.mpr hcount, hamount.le⟩
    obtain ⟨g, -, hfind⟩ := List.mem_filterMap.mp hG
    obtain ⟨t, ht, rfl⟩ := Option.map_eq_some_iff.mp hfind
    have hgroup : t.1.fileGroupId = g := by simpa using List.find?_some ht
    obtain ⟨-, hrow, hid, -⟩ := mem_filesOfVersion.mp (List.mem_of_find?_eq_some ht)
    exact ⟨t.2, hrow, hid.trans hgroup, rfl⟩
  · have hmap : (((getGroups my w.db v).map ModelGroupForVersion.id).map (groupElid v)).Nodup :=
      (nodup_getGroups my w.db v).map fun _ _ heq => (groupElid_inj heq).2
    rw [List.map_map] at hmap ⊢
    exact hmap
  · cases he with
    | @group l name hl =>
      have hl := hgrows.links hl
      obtain ⟨p, c, hs⟩ := hist.forest.files l hl
      have hpath : p ++ [c] ∈ w.db.paths l.versionId l.fileGroupId :=
        ⟨l.id, l, hl, rfl, rfl, hs.defineFileId, rfl⟩
      obtain ⟨G, hG, hid⟩ := exists_mem_getGroups my hl rfl rfl (hist.exists_group hpath)
      refine ⟨_, List.mem_map_of_mem hG, ?_⟩
      rw [TreeItem.elid, hid]
    | file hat _ => exact hat.elim

/-- An item with a plus for files, at the path `p`. -/
theorem served_files {a : TreeItem} {v g k : ℤ} {p : Path}
    (hplus : a.request = some (.files v g k)) (hat : a.IsAt w.db v g p)
    (hk : w.db.FileId v g p k) :
    Lists db₀ w.db a
      ((BrowseRequest.files v g k).items ((BrowseRequest.files v g k).answer my w)) := by
  have hitems : (BrowseRequest.files v g k).items ((BrowseRequest.files v g k).answer my w)
      = (getFiles my w.db v g k).map fun f => .file v g f.id f.title f.amountOfChildren :=
    List.map_map
  rw [hitems]
  refine ⟨fun b hb => ?_, ?_, fun e he => ?_⟩
  · obtain ⟨f, hf, rfl⟩ := List.mem_map.mp hb
    obtain ⟨c, hshows⟩ := hist.forest.shows_getFiles my hk _ (List.mem_map_of_mem hf)
    have htitle : shownTitles p ++ [f.title] = shownTitles (p ++ [c]) := hshows.titles
    have hamount : f.amountOfChildren = w.db.childCount f.id := hshows.amountOfChildren
    have hcount : db₀.childCount f.id ≤ w.db.childCount f.id := countP_links_le hgrows hkeyed _
    rw [shownTitles, shownTitles, List.map_append] at htitle
    refine .file (by rw [hplus]; rfl) hat ⟨hshows.file, ?_, ?_, hamount.le⟩
    · exact (List.singleton_inj.mp (List.append_cancel_left htitle)).symm
    · rw [hamount]
      exact Int.ofNat_le.mpr hcount
  · have hmap : (((getFiles my w.db v g k).map ModelFile.id).map (subfileElid v g)).Nodup :=
      (hist.forest.nodup_getFiles my v g k).map fun _ _ heq => (subfileElid_inj heq).2.2
    rw [List.map_map] at hmap ⊢
    exact hmap
  · cases he with
    | group _ => exact hat.elim
    | @file _ v' g' f p' c hat' hf =>
      obtain ⟨rfl, rfl, rfl⟩ := hist.forest.isAt_inj hat (hat'.mono hgrows)
      obtain ⟨x, hx, hid⟩ := hist.forest.exists_mem_getFiles my hk (hf.mono hgrows)
      obtain ⟨file, hfile, rfl⟩ := List.mem_map.mp hx
      refine ⟨_, List.mem_map_of_mem hfile, ?_⟩
      rw [TreeItem.elid, ← hid]

/-- **The answer to a click.** -/
theorem served {a : TreeItem} {req : BrowseRequest} (hplus : a.request = some req)
    (hknown : a.Known w.db) : Lists db₀ w.db a (req.items (req.answer my w)) := by
  cases a with
  | version v name =>
    obtain rfl := Option.some.inj hplus
    exact served_groups my hist hkeyed hgrows v name
  | group v g title n =>
    obtain rfl := Option.some.inj hplus
    exact served_files my hist hkeyed hgrows hplus ⟨rfl, rfl, rfl⟩ (w.db.fileId_root v g)
  | file v g f title n =>
    obtain ⟨p, hp⟩ := hknown
    have hrequest : (if n > 0 then some (BrowseRequest.files v g f) else none) = some req := hplus
    obtain ⟨-, hreq⟩ := Option.ite_none_right_eq_some.mp hrequest
    obtain rfl := Option.some.inj hreq
    exact served_files my hist hkeyed hgrows hplus ⟨rfl, rfl, hp⟩ (Or.inr hp)

end Served

end WebDiff
