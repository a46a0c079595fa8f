import WebDiff.Browser.Items

/-!
# Browsing while others upload

Whatever is clicked on the page, and however the requests and answers of the page and the requests
of others interleave, the page shows stored things where they are stored, and each at most once.
What is open shows all that was there when the page was loaded (`BrowserSound`, `browser_page`).
-/

namespace WebDiff

open Outline Program

/-! ### Growing tables -/

theorem grows_event (my : MySql) (events : List Event) (e : Event) :
    (afterEvents my events).db.Grows (afterEvents my (events ++ [e])).db := by
  rw [afterEvents_concat_db]
  cases e with
  | upload req =>
    obtain ⟨v, g, hstores, -, -⟩ := stores_upload my (history_afterEvents my events).forest req
    simp only [Event.program, run_bind, run_pure]
    exact hstores.grows
  -- requests about comments change no other table
  | addComment d comment now => exact ⟨fun _ h => h, fun _ h => h, fun _ h => h, fun _ h => h⟩
  | hideComment id => exact ⟨fun _ h => h, fun _ h => h, fun _ h => h, fun _ h => h⟩

theorem grows_events (my : MySql) (events later : List Event) :
    (afterEvents my events).db.Grows (afterEvents my (events ++ later)).db := by
  induction later using List.reverseRecOn with
  | nil =>
    rw [List.append_nil]
    exact Database.Grows.refl _
  | append_singleton later e ih =>
    rw [← List.append_assoc]
    exact ih.trans (grows_event my _ e)

/-! ### The steps -/

section Equations

variable (my : MySql) {s : BrowserPage} {n k : ℕ} {req : BrowseRequest}

theorem BrowserPage.step_click {r : Row TreeItem} (hr : (s.doc.find? fun r => r.key = k) = some r)
    (hplus : r.content.request.isSome) : s.step my (.click k) = s.toggle r.content.elid := by
  simp only [BrowserPage.step, hr, if_pos hplus]

theorem BrowserPage.step_serve (hn : s.requests[n]? = some (k, req)) :
    s.step my (.serve n) = { s with
      requests := s.requests.eraseIdx n
      answers := s.answers ++ [(k, req, req.answer my s.world)] } := by
  simp only [BrowserPage.step, hn]

theorem BrowserPage.step_done {list : Json} (hn : s.answers[n]? = some (k, req, list)) :
    s.step my (.done n) = { s with
      doc := fill k s.next (req.items list) s.doc
      next := s.next + (req.items list).length
      answers := s.answers.eraseIdx n } := by
  simp only [BrowserPage.step, hn]

theorem BrowserPage.toggle_open {elid : Bytes} {r : Row TreeItem}
    (hr : (s.doc.find? fun r => r.content.elid = elid) = some r) (hopen : IsOpen s.doc r.key) :
    s.toggle elid = { s with doc := close r.key s.doc } := by
  simp only [BrowserPage.toggle, hr, if_pos hopen]

theorem BrowserPage.toggle_closed {elid : Bytes} {r : Row TreeItem}
    (hr : (s.doc.find? fun r => r.content.elid = elid) = some r) (hclosed : ¬ IsOpen s.doc r.key)
    (hrequest : r.content.request = some req) :
    s.toggle elid = { s with requests := s.requests ++ [(r.key, req)] } := by
  simp only [BrowserPage.toggle, hr, if_neg hclosed, hrequest]

end Equations

/-! ### The invariant -/

/-- What is still on the page under the key is the item, and no other row will get the key. -/
structure Targets (doc : List (Row TreeItem)) (next k : ℕ) (a : TreeItem) : Prop where
  lt : k < next
  content : ∀ y ∈ doc, y.key = k → y.content = a

theorem Targets.close {doc : List (Row TreeItem)} {next k : ℕ} {a : TreeItem}
    (h : Targets doc next k a) (k' : ℕ) : Targets (close k' doc) next k a :=
  ⟨h.lt, fun y hy => h.content y (mem_close.mp hy).1⟩

theorem Targets.fill {doc : List (Row TreeItem)} {next k : ℕ} {a : TreeItem}
    (h : Targets doc next k a) (k' : ℕ) (items : List TreeItem) :
    Targets (fill k' next items doc) (next + items.length) k a := by
  refine ⟨Nat.lt_add_right _ h.lt, fun y hy hkey => ?_⟩
  rcases mem_fill.mp hy with ⟨hy, -⟩ | ⟨x, -, -, -, hy⟩
  · exact h.content y hy hkey
  · have hle := (of_mem_rows hy).2.1
    rw [hkey] at hle
    exact absurd h.lt (Nat.not_lt.mpr hle)

/-- Whatever the page shows is stored where it is shown, and so is what it is about to show. -/
structure BrowserSound (my : MySql) (events : List Event) (s : BrowserPage) : Prop where
  world : ∃ later, s.world = afterEvents my (events ++ later)
  built : Built (IsVersion s.world.db) (IsInside (afterEvents my events).db s.world.db) s.next s.doc
  apart : Apart TreeItem.elid s.doc
  covers : Covers (Needs (afterEvents my events).db) TreeItem.elid s.doc
  versions : ∀ row ∈ (afterEvents my events).db.versions,
    ∃ r ∈ s.doc, r.above = [] ∧ r.content = .version row.id row.name
  requests : ∀ x ∈ s.requests, ∃ a, Targets s.doc s.next x.1 a ∧ a.request = some x.2 ∧
    a.Known s.world.db
  answers : ∀ x ∈ s.answers, ∃ a, Targets s.doc s.next x.1 a ∧
    Lists (afterEvents my events).db s.world.db a (x.2.1.items x.2.2)

section Steps

variable {my : MySql} {events : List Event} {s : BrowserPage} (h : BrowserSound my events s)
include h

theorem BrowserSound.history : ∃ later, History s.world.db (uploads later) := by
  obtain ⟨later, hworld⟩ := h.world
  exact ⟨events ++ later, hworld ▸ history_afterEvents my _⟩

theorem BrowserSound.grows : (afterEvents my events).db.Grows s.world.db := by
  obtain ⟨later, hworld⟩ := h.world
  exact hworld ▸ grows_events my events later

/-- Everything on the page has a row. -/
theorem BrowserSound.known {r : Row TreeItem} (hr : r ∈ s.doc) : r.content.Known s.world.db := by
  rcases h.built.nested r hr with ⟨-, hversion⟩ | ⟨y, -, -, hinside⟩
  · exact hversion.known
  · exact hinside.known

/-- No id is used twice. -/
theorem BrowserSound.nodup_elids : (s.doc.map fun r => r.content.elid).Nodup := by
  obtain ⟨later, hist⟩ := h.history
  exact h.built.nodup_idents h.apart (fun _ _ _ => elid_ne_of_isVersion)
    fun _ _ _ _ => hist.forest.elid_around

/-- What lies inside an item is taken away. -/
theorem BrowserSound.close (k : ℕ) : BrowserSound my events { s with doc := close k s.doc } where
  world := h.world
  built := h.built.close k
  apart := h.apart.close k
  covers := h.covers.close k
  versions := by
    intro row hrow
    obtain ⟨r, hr, habove, hcontent⟩ := h.versions row hrow
    refine ⟨r, mem_close.mpr ⟨hr, ?_⟩, habove, hcontent⟩
    rw [habove]
    exact List.not_mem_nil
  requests := by
    intro x hx
    obtain ⟨a, htargets, hrequest⟩ := h.requests x hx
    exact ⟨a, htargets.close k, hrequest⟩
  answers := by
    intro x hx
    obtain ⟨a, htargets, hlists⟩ := h.answers x hx
    exact ⟨a, htargets.close k, hlists⟩

/-- A click on the plus of an item. -/
theorem BrowserSound.toggle (elid : Bytes) : BrowserSound my events (s.toggle elid) := by
  cases hfind : s.doc.find? fun r => r.content.elid = elid with
  | none =>
    unfold BrowserPage.toggle
    rw [hfind]
    exact h
  | some subel =>
    have hsubel := List.mem_of_find?_eq_some hfind
    by_cases hopen : IsOpen s.doc subel.key
    · rw [BrowserPage.toggle_open hfind hopen]
      exact h.close subel.key
    cases hrequest : subel.content.request with
    | none =>
      simp only [BrowserPage.toggle, hfind, if_neg hopen, hrequest]
      exact h
    | some req =>
      rw [BrowserPage.toggle_closed hfind hopen hrequest]
      refine { h with requests := fun x hx => ?_ }
      rcases List.mem_append.mp hx with hx | hx
      · exact h.requests x hx
      · obtain rfl := List.mem_singleton.mp hx
        have htargets : Targets s.doc s.next subel.key subel.content :=
          ⟨h.built.bound subel hsubel, fun y hy hkey =>
            congrArg Row.content (h.built.eq_of_key_eq hy hsubel hkey)⟩
        exact ⟨subel.content, htargets, hrequest, h.known hsubel⟩

theorem BrowserSound.click (k : ℕ) : BrowserSound my events (s.step my (.click k)) := by
  unfold BrowserPage.step
  simp only
  split
  · exact h
  · split
    · exact h.toggle _
    · exact h

/-- The server answers a request of the page. -/
theorem BrowserSound.serve (n : ℕ) : BrowserSound my events (s.step my (.serve n)) := by
  cases hn : s.requests[n]? with
  | none =>
    simp only [BrowserPage.step, hn]
    exact h
  | some x =>
    rw [BrowserPage.step_serve my hn]
    obtain ⟨a, htargets, hrequest, hknown⟩ := h.requests x (List.mem_of_getElem? hn)
    obtain ⟨later, hist⟩ := h.history
    refine { h with
      requests := fun y hy => h.requests y (List.eraseIdx_subset hy)
      answers := fun y hy => ?_ }
    rcases List.mem_append.mp hy with hy | hy
    · exact h.answers y hy
    · obtain rfl := List.mem_singleton.mp hy
      exact ⟨a, htargets, served my hist (history_afterEvents my events).forest.keyed h.grows
        hrequest hknown⟩

/-- What is put into a `subtree` that is still there. -/
theorem BrowserSound.fill {y : Row TreeItem} (hy : y ∈ s.doc) {items : List TreeItem}
    (hlists : Lists (afterEvents my events).db s.world.db y.content items)
    (answers : List (ℕ × BrowseRequest × Json)) (hanswers : answers ⊆ s.answers) :
    BrowserSound my events { s with
      doc := fill y.key s.next items s.doc
      next := s.next + items.length
      answers := answers } where
  world := h.world
  built := h.built.fill hy hlists.inside
  apart := h.apart.fill h.built hy hlists.nodup
  covers := h.covers.fill h.built hy hlists.complete
  versions := by
    intro row hrow
    obtain ⟨r, hr, habove, hcontent⟩ := h.versions row hrow
    refine ⟨r, mem_fill.mpr (Or.inl ⟨hr, ?_⟩), habove, hcontent⟩
    rw [habove]
    exact List.not_mem_nil
  requests := by
    intro x hx
    obtain ⟨a, htargets, hrequest⟩ := h.requests x hx
    exact ⟨a, htargets.fill y.key items, hrequest⟩
  answers := by
    intro x hx
    obtain ⟨a, htargets, hanswer⟩ := h.answers x (hanswers hx)
    exact ⟨a, htargets.fill y.key items, hanswer⟩

/-- An answer arrives, and is put into its `subtree` if that is still there. -/
theorem BrowserSound.done (n : ℕ) : BrowserSound my events (s.step my (.done n)) := by
  cases hn : s.answers[n]? with
  | none =>
    simp only [BrowserPage.step, hn]
    exact h
  | some x =>
    obtain ⟨k, req, list⟩ := x
    rw [BrowserPage.step_done my hn]
    obtain ⟨a, htargets, hlists⟩ := h.answers _ (List.mem_of_getElem? hn)
    by_cases hk : ∃ y ∈ s.doc, y.key = k
    · obtain ⟨y, hy, rfl⟩ := hk
      obtain rfl := htargets.content y hy rfl
      exact h.fill hy hlists _ List.eraseIdx_subset
    · have hgone : ∀ y ∈ s.doc, y.key ≠ k := fun y hy hkey => hk ⟨y, hy, hkey⟩
      have hle : s.next ≤ s.next + (req.items list).length := Nat.le_add_right _ _
      rw [h.built.fill_absent hgone]
      exact
        { h with
          built := h.built.next_le hle
          requests := fun x hx => by
            obtain ⟨b, hb, hrequest⟩ := h.requests x hx
            exact ⟨b, ⟨Nat.lt_of_lt_of_le hb.lt hle, hb.content⟩, hrequest⟩
          answers := fun x hx => by
            obtain ⟨b, hb, hanswer⟩ := h.answers x (List.eraseIdx_subset hx)
            exact ⟨b, ⟨Nat.lt_of_lt_of_le hb.lt hle, hb.content⟩, hanswer⟩ }

/-- A request of somebody else. -/
theorem BrowserSound.other (e : Event) : BrowserSound my events (s.step my (.other e)) := by
  obtain ⟨later, hworld⟩ := h.world
  have hnext : (s.step my (.other e)).world = afterEvents my (events ++ (later ++ [e])) := by
    rw [← List.append_assoc, afterEvents_concat, ← hworld]
    rfl
  have hgrows : s.world.db.Grows (s.step my (.other e)).world.db := by
    rw [hnext, hworld, ← List.append_assoc]
    exact grows_event my _ e
  obtain ⟨_, hist⟩ := h.history
  have hkeyed := hist.forest.keyed
  exact
    { world := ⟨later ++ [e], hnext⟩
      built := h.built.mono (fun _ hv => hv.mono hgrows) fun _ _ hi => hi.mono hgrows hkeyed
      apart := h.apart
      covers := h.covers
      versions := h.versions
      requests := fun x hx => by
        obtain ⟨a, htargets, hrequest, hknown⟩ := h.requests x hx
        exact ⟨a, htargets, hrequest, hknown.mono hgrows⟩
      answers := fun x hx => by
        obtain ⟨a, htargets, hlists⟩ := h.answers x hx
        exact ⟨a, htargets, hlists.mono hgrows hkeyed⟩ }

theorem BrowserSound.step (e : BrowserEvent) : BrowserSound my events (s.step my e) := by
  cases e with
  | click k => exact h.click k
  | serve n => exact h.serve n
  | done n => exact h.done n
  | fail n => exact { h with answers := fun x hx => h.answers x (List.eraseIdx_subset hx) }
  | other e => exact h.other e

theorem BrowserSound.steps (es : List BrowserEvent) : BrowserSound my events (s.steps my es) := by
  induction es generalizing s with
  | nil => exact h
  | cons e rest ih => exact ih (h.step e)

end Steps

/-- The page right after it was loaded. -/
theorem BrowserSound.loaded (my : MySql) (events : List Event) :
    BrowserSound my events (.loaded (afterEvents my events)) := by
  have hsynced := synced_afterEvents my events
  have hitems : versionItems (.array
      ((afterEvents my events).caches.getVersionsAll.map ModelVersion.toJson))
        = (afterEvents my events).caches.versions.map fun ver => .version ver.id ver.name :=
    List.map_map
  unfold BrowserPage.loaded
  rw [hitems]
  refine ⟨⟨[], by rw [List.append_nil]⟩, built_rows fun a ha => ?_, apart_rows ?_, covers_rows _,
    fun row hrow => ?_, fun x hx => absurd hx List.not_mem_nil,
    fun x hx => absurd hx List.not_mem_nil⟩
  · obtain ⟨ver, hver, rfl⟩ := List.mem_map.mp ha
    obtain ⟨row, hrow, rfl⟩ := List.mem_map.mp (hsynced.cached.versions.mem_iff.mp hver)
    exact hrow
  · have hids : ((afterEvents my events).caches.versions.map ModelVersion.id).Nodup := by
      rw [(hsynced.cached.versions.map ModelVersion.id).nodup_iff, List.map_map]
      exact hsynced.keyed.versionIds.nodup_map
    have hmap := hids.map fun _ _ heq => versionElid_inj heq
    rw [List.map_map] at hmap ⊢
    exact hmap
  · have hver := hsynced.cached.versions.mem_iff.mpr (List.mem_map_of_mem hrow)
    obtain ⟨r, hr, hcontent⟩ := exists_mem_rows [] 0
      (List.mem_map_of_mem (f := fun ver : ModelVersion => TreeItem.version ver.id ver.name) hver)
    exact ⟨r, hr, (of_mem_rows hr).1, hcontent⟩

/-! ### What the page shows -/

def TreeItem.title : TreeItem → Bytes
  | version _ name => name
  | group _ _ title _ => title
  | file _ _ _ title _ => title

/-- In these tables, the item is stored, and is called so on the way from the versions to it. -/
def TreeItem.Spelled (db : Database) (titles : List Bytes) : TreeItem → Prop
  | version v name => ⟨v, name⟩ ∈ db.versions ∧ titles = [name]
  | group v g _ n => ∃ name, ⟨v, name⟩ ∈ db.versions ∧ ∃ row ∈ db.fileGroups, row.id = g ∧
      titles = [name, cString row.name] ∧ n ≤ db.amountOfFiles v g
  | file v g f _ n => ∃ name, ⟨v, name⟩ ∈ db.versions ∧ ∃ row ∈ db.fileGroups, row.id = g ∧
      ∃ p, db.HasFile v g p f ∧ titles = name :: cString row.name :: shownTitles p ∧
        n ≤ db.childCount f

/-- By induction on the way. -/
theorem spelled_of_way {db₀ db : Database} (h : PathForest db) {as : List TreeItem}
    (hway : Way (IsVersion db) (IsInside db₀ db) as) :
    ∀ a ∈ as.getLast?, a.Spelled db (as.map TreeItem.title) := by
  induction hway with
  | @outermost a ha =>
    intro b hb
    obtain rfl := Option.some.inj hb
    cases a with
    | version v name => exact ⟨ha, rfl⟩
    | group v g title n => exact ha.elim
    | file v g f title n => exact ha.elim
  | @inside as a b hway hinside ih =>
    intro x hx
    have hlast : (as ++ [a, b]).getLast? = some b := by simp
    rw [hlast] at hx
    obtain rfl := Option.some.inj hx
    have htitles : (as ++ [a, b]).map TreeItem.title
        = (as ++ [a]).map TreeItem.title ++ [b.title] := by simp
    have ha : a.Spelled db ((as ++ [a]).map TreeItem.title) := ih a (by simp)
    rw [htitles]
    cases hinside with
    | group hshown =>
      obtain ⟨hversion, hname⟩ := ha
      obtain ⟨row, hrow, hid, htitle⟩ := hshown.title
      refine ⟨_, hversion, row, hrow, hid, ?_, hshown.most⟩
      rw [hname, htitle]
      rfl
    | @file _ v g f n p c title hplus hat hshown =>
      have hcomponent : (TreeItem.file v g f title n).title = cString c.val := hshown.title.symm
      rw [hcomponent]
      cases a with
      | version _ _ => exact hat.elim
      | group _ _ _ _ =>
        obtain ⟨rfl, rfl, rfl⟩ := hat
        obtain ⟨name, hversion, row, hrow, hid, hname, -⟩ := ha
        refine ⟨name, hversion, row, hrow, hid, _, hshown.file, ?_, hshown.most⟩
        rw [hname]
        rfl
      | file _ _ _ _ _ =>
        obtain ⟨rfl, rfl, hp⟩ := hat
        obtain ⟨name, hversion, row, hrow, hid, q, hq, hname, -⟩ := ha
        obtain ⟨-, -, rfl⟩ := h.hasFile_path hq hp
        refine ⟨name, hversion, row, hrow, hid, _, hshown.file, ?_, hshown.most⟩
        rw [hname, shownTitles, shownTitles, List.map_append]
        rfl

section Shown

variable {my : MySql} {events : List Event} {s : BrowserPage} (h : BrowserSound my events s)
include h

theorem BrowserSound.spelled {r : Row TreeItem} (hr : r ∈ s.doc) :
    ∃ ys : List (Row TreeItem), (∀ y ∈ ys, y ∈ s.doc) ∧ ys.map Row.key = r.above ∧
      r.content.Spelled s.world.db (ys.map (fun y => y.content.title) ++ [r.content.title]) := by
  obtain ⟨later, hist⟩ := h.history
  obtain ⟨ys, hys, hkeys, hway⟩ := h.built.exists_way hr
  refine ⟨ys, hys, hkeys, ?_⟩
  have hspelled := spelled_of_way hist.forest hway r.content (by simp)
  rw [List.map_append, List.map_map] at hspelled
  exact hspelled

/-- There is a plus in front of everything that had something below it. -/
theorem BrowserSound.plus {r : Row TreeItem} (hr : r ∈ s.doc) {e : Bytes}
    (he : Needs (afterEvents my events).db r.content e) : r.content.request.isSome := by
  have h₀ := (history_afterEvents my events).forest
  have hnested := h.built.nested r hr
  revert hnested he
  cases r.content with
  | version v name => exact fun _ _ => rfl
  | group v g title n => exact fun _ _ => rfl
  | file v g k title n =>
    intro he hnested
    obtain ⟨p, c, f, hp, hf, -⟩ := he.of_file
    -- the counter was right when the file was listed
    have hleast : (afterEvents my events).db.childCount k ≤ n := by
      rcases hnested with ⟨-, hversion⟩ | ⟨y, -, -, hinside⟩
      · exact hversion.elim
      · exact hinside.least
    obtain ⟨l, hl, -, hparent⟩ := h₀.paths_parent hf
    have hk : l.parentId = k := by
      rcases hparent with ⟨rfl, -⟩ | hparent
      · exact absurd rfl (h₀.ne_nil_of_hasFile hp)
      · exact h₀.hasFile_id hparent hp
    have hpos : 0 < (afterEvents my events).db.childCount k :=
      List.countP_pos_iff.mpr ⟨l, hl, decide_eq_true hk⟩
    have hn : n > 0 := by omega
    show (if n > 0 then some (BrowseRequest.files v g k) else none).isSome
    rw [if_pos hn]
    rfl

/-- What is open has a plus. -/
theorem BrowserSound.plus_of_open {r : Row TreeItem} (hr : r ∈ s.doc) (hopen : IsOpen s.doc r.key) :
    r.content.request.isSome := by
  obtain ⟨x, hx, hin⟩ := hopen
  obtain ⟨y, hy, habove, hinside⟩ := h.built.exists_inside hr hx hin
  exact hinside.request

/-- A row is found by its key and by the id of its `subtree`. -/
theorem BrowserSound.find {r : Row TreeItem} (hr : r ∈ s.doc) :
    (s.doc.find? fun x => x.key = r.key) = some r ∧
      (s.doc.find? fun x => x.content.elid = r.content.elid) = some r :=
  ⟨(Table.find?_key_eq_some_iff h.built.keys _ r).mpr ⟨hr, rfl⟩,
    (Table.find?_key_eq_some_iff h.nodup_elids _ r).mpr ⟨hr, rfl⟩⟩

/-- A click on an open item takes away what lies inside it. -/
theorem BrowserSound.click_open {r : Row TreeItem} (hr : r ∈ s.doc) (hopen : IsOpen s.doc r.key) :
    s.step my (.click r.key) = { s with doc := Outline.close r.key s.doc } := by
  obtain ⟨hkey, helid⟩ := h.find hr
  rw [BrowserPage.step_click my hkey (h.plus_of_open hr hopen), BrowserPage.toggle_open helid hopen]

/-- A click on a closed one opens it, when the server has handled the request and the answer has
arrived. -/
theorem BrowserSound.click_closed {r : Row TreeItem} (hr : r ∈ s.doc)
    (hclosed : ¬ IsOpen s.doc r.key) {req : BrowseRequest}
    (hrequest : r.content.request = some req) :
    (s.steps my [.click r.key, .serve s.requests.length, .done s.answers.length]).doc
      = Outline.fill r.key s.next (req.items (req.answer my s.world)) s.doc := by
  obtain ⟨hkey, helid⟩ := h.find hr
  have hplus : r.content.request.isSome := by rw [hrequest]; rfl
  unfold BrowserPage.steps
  simp only [List.foldl_cons, List.foldl_nil]
  rw [BrowserPage.step_click my hkey hplus, BrowserPage.toggle_closed helid hclosed hrequest,
    BrowserPage.step_serve my (List.getElem?_concat_length ..),
    BrowserPage.step_done my (List.getElem?_concat_length ..)]

/-- What was below an item when the page was loaded is inside it as soon as it is open. -/
theorem BrowserSound.exists_row {r : Row TreeItem} (hr : r ∈ s.doc)
    (hopen : ∀ y ∈ s.doc, y.content.request.isSome → IsOpen s.doc y.key) {e : Bytes}
    (he : Needs (afterEvents my events).db r.content e) : ∃ x ∈ s.doc, x.content.elid = e := by
  obtain ⟨x, hx, -, helid⟩ := h.covers r hr (hopen r hr (h.plus hr he)) e he
  exact ⟨x, hx, helid⟩

/-- **With everything open, everything is shown** that was there when the page was loaded. By
induction on the path. -/
theorem BrowserSound.all_open
    (hopen : ∀ y ∈ s.doc, y.content.request.isSome → IsOpen s.doc y.key) {v g : ℤ} {p : Path}
    {f : ℤ} (hf : (afterEvents my events).db.HasFile v g p f) :
    ∃ r ∈ s.doc, r.content.elid = subfileElid v g f := by
  have hist₀ := history_afterEvents my events
  induction p using List.reverseRecOn generalizing f with
  | nil => exact absurd rfl (hist₀.forest.ne_nil_of_hasFile hf)
  | append_singleton p c ih =>
    obtain ⟨l, -, -, ⟨rfl, -⟩ | hparent⟩ := hist₀.forest.paths_parent hf
    · -- the group is inside its version
      have hpath : [] ++ [c] ∈ (afterEvents my events).db.paths v g := ⟨f, hf⟩
      rw [hist₀.paths] at hpath
      obtain ⟨req, -, hversion, -, -⟩ := hpath
      obtain ⟨r, hr, -, hcontent⟩ := h.versions _ hversion
      have hlinked := hf
      obtain ⟨link, hlink, rfl, rfl, -, -⟩ := hlinked
      obtain ⟨x, hx, helid⟩ := h.exists_row hr hopen (hcontent ▸ Needs.group hlink)
      exact h.exists_row hx hopen (.file (TreeItem.isAt_of_elid_eq_group helid) hf)
    · obtain ⟨x, hx, helid⟩ := ih hparent
      exact h.exists_row hx hopen (.file (TreeItem.isAt_of_elid_eq_file hparent helid) hf)

end Shown

/-- What can be said of a page that was loaded when the tables were `db₀`. -/
structure BrowserPage.Shows (my : MySql) (db₀ : Database) (s : BrowserPage) : Prop where
  /-- nothing is shown twice -/
  once : (s.doc.map fun r => r.content.elid).Nodup
  /-- everything is stored, where it is shown and under the titles of the items around it -/
  stored : ∀ r ∈ s.doc, ∃ ys : List (Row TreeItem), (∀ y ∈ ys, y ∈ s.doc) ∧
    ys.map Row.key = r.above ∧
    r.content.Spelled s.world.db (ys.map (fun y => y.content.title) ++ [r.content.title])
  /-- what has something below it has a plus, and what is open shows all of it -/
  complete : ∀ r ∈ s.doc, ∀ e, Needs db₀ r.content e → r.content.request.isSome ∧
    (IsOpen s.doc r.key → ∃ x ∈ s.doc, x.above = r.above ++ [r.key] ∧ x.content.elid = e)
  /-- with everything open, every path is shown -/
  all : (∀ r ∈ s.doc, r.content.request.isSome → IsOpen s.doc r.key) →
    ∀ v g p f, db₀.HasFile v g p f → ∃ r ∈ s.doc, r.content.elid = subfileElid v g f
  /-- a click on what is open closes it -/
  closes : ∀ r ∈ s.doc, IsOpen s.doc r.key →
    (s.step my (.click r.key)).doc = close r.key s.doc
  /-- a click on what is closed opens it with what is stored now -/
  opens : ∀ r ∈ s.doc, ¬ IsOpen s.doc r.key → ∀ req, r.content.request = some req →
    (s.steps my [.click r.key, .serve s.requests.length, .done s.answers.length]).doc
      = fill r.key s.next (req.items (req.answer my s.world)) s.doc

end WebDiff
