import WebDiff.Diff.Comments
import WebDiff.Diff.Drawn
import WebDiff.Model.PageComments

/-!
# The comments on the page

The page is drawn once, with the comments there are (`mem_drawComments`), and changed from then on by
the answers to its own requests, which are served and arrive in any order. Whatever is clicked, and
whatever anybody else does meanwhile, it shows only what is stored (`PageSound`).
-/

namespace WebDiff

open Program Table

/-! ### What the page is drawn with -/

/-- Every row is drawn for a member of `files`. -/
theorem mem_files_of_createsubtree {files : Json} {fuel : ℕ} {previds : List Bytes} {startid : Bytes}
    {rows : List PageRow} (h : createsubtree files fuel previds startid = some rows) :
    ∀ row ∈ rows, (row.fid, row.fileinfo) ∈ files.members := by
  induction fuel generalizing previds startid rows with
  | zero => cases h
  | succ fuel ih =>
    unfold createsubtree at h
    have hroots : ∀ row ∈ pageRows files previds startid, (row.fid, row.fileinfo) ∈ files.members := by
      intro row hrow
      obtain ⟨f, hf, rfl⟩ := List.mem_map.mp hrow
      exact (List.mem_filter.mp hf).1
    -- the rows of one level, each followed by what is below it
    generalize pageRows files previds startid = roots at h hroots
    induction roots generalizing rows with
    | nil =>
      cases h
      exact fun row hrow => absurd hrow List.not_mem_nil
    | cons root rest ihrest =>
      simp only [Walk.visitAll, Option.bind_eq_bind, Option.bind_eq_some_iff, Option.pure_def,
        Option.some.injEq] at h
      obtain ⟨inner, hinner, others, hothers, rfl⟩ := h
      intro row hrow
      rcases List.mem_append.mp hrow with hrow | hrow
      · rcases List.mem_cons.mp hrow with rfl | hrow
        · exact hroots _ List.mem_cons_self
        · exact ih hinner row hrow
      · exact ihrest hothers (fun r hr => hroots r (List.mem_cons_of_mem _ hr)) row hrow

theorem exists_group_of_drawGroups {result : Json} {fuel : ℕ} {groups : List (Bytes × Json)}
    {rows : List PageRow} (h : drawGroups result fuel groups = some rows) :
    ∀ row ∈ rows, ∃ g ∈ groups, (row.fid, row.fileinfo) ∈
      (((result.member (lit "groups")).member g.1).member (lit "files")).members := by
  induction groups generalizing rows with
  | nil =>
    cases h
    exact fun row hrow => absurd hrow List.not_mem_nil
  | cons g rest ih =>
    simp only [drawGroups, Option.bind_eq_bind, Option.bind_eq_some_iff, Option.pure_def,
      Option.some.injEq] at h
    obtain ⟨drawn, hdrawn, others, hothers, rfl⟩ := h
    intro row hrow
    rcases List.mem_append.mp hrow with hrow | hrow
    · exact ⟨g, List.mem_cons_self, mem_files_of_createsubtree hdrawn row hrow⟩
    · obtain ⟨g', hg', hmem⟩ := ih hothers row hrow
      exact ⟨g', List.mem_cons_of_mem _ hg', hmem⟩

theorem drawGroups_isSome {result : Json} {fuel : ℕ} {groups : List (Bytes × Json)}
    (h : ∀ g ∈ groups, (drawGroup result g.1 fuel).isSome) :
    (drawGroups result fuel groups).isSome := by
  induction groups with
  | nil => rfl
  | cons g rest ih =>
    obtain ⟨drawn, hdrawn⟩ := Option.isSome_iff_exists.mp (h g List.mem_cons_self)
    obtain ⟨others, hothers⟩ := Option.isSome_iff_exists.mp
      (ih fun g' hg' => h g' (List.mem_cons_of_mem _ hg'))
    unfold drawGroups
    rw [hdrawn, hothers]
    rfl

namespace ModelDiffGroups

/-- The comments of the JSON are those of the map. -/
theorem member_comments {d : ModelDiffGroups} {i : ℤ} {cs : List ModelComment}
    (h : d.mapComments[i]? = some cs) :
    (d.toJson.member (lit "comments")).member (lit "dfid" ++ decimal i)
      = .array (cs.map ModelComment.toJson) := by
  have hcomments : ((d.putGroups (Json.null.put (lit "groups") .null)).put (lit "comments")
      .null).isSubscriptable := by
    rw [Json.isSubscriptable_put, putGroups, isSubscriptable_foldl_putIn]
    rfl
  have hmember : d.toJson.member (lit "comments")
      = d.mapComments.toList.foldl (fun j c => j.put (lit "dfid" ++ decimal c.1)
          (.array (c.2.map ModelComment.toJson))) .null := by
    show (d.putComments _).member _ = _
    rw [putComments, member_foldl_putIn _ _ _ _ _ hcomments, if_pos rfl,
      Json.member_put ((Json.isSubscriptable_put _ _ _).symm.trans hcomments), if_pos rfl]
  have hkeys : (d.mapComments.toList.map fun c => lit "dfid" ++ decimal c.1).Nodup := by
    have hnodup : (d.mapComments.toList.map Prod.fst).Nodup := by
      rw [Std.TreeMap.map_fst_toList_eq_keys]
      exact d.mapComments.nodup_keys
    have hmap := hnodup.map (decimal_key_injective (lit "dfid"))
    rwa [List.map_map] at hmap
  have hperm : (d.toJson.member (lit "comments")).members.Perm
      (d.mapComments.toList.map fun c => (lit "dfid" ++ decimal c.1,
        Json.array (c.2.map ModelComment.toJson))) := by
    rw [hmember]
    exact Json.members_foldl_put _ rfl hkeys fun _ _ _ hm => absurd hm List.not_mem_nil
  refine Json.member_eq_of_mem ?_ (hperm.mem_iff.mpr (List.mem_map.mpr
    ⟨(i, cs), Std.TreeMap.mem_toList_iff_getElem?_eq_some.mpr h, rfl⟩))
  rw [(hperm.map Prod.fst).nodup_iff, List.map_map]
  exact hkeys

end ModelDiffGroups

/-- The `div` made of a comment. -/
def ModelComment.div (c : ModelComment) : CommentDiv :=
  ⟨c.id, c.comment⟩

/-- An entry is drawn with the comments of its define id. -/
theorem contentComments_entry {d : ModelDiffGroups} {e : ModelDiffFile} {cs : List ModelComment}
    (h : d.mapComments[e.defineFileId]? = some cs) :
    contentComments d.toJson e.toJson = ⟨e.defineFileId, cs.map ModelComment.div⟩ := by
  have hdefine : (e.toJson.member (lit "define_file_id")).number = e.defineFileId := rfl
  unfold contentComments
  simp only [hdefine, ModelDiffGroups.member_comments h, Json.items, List.map_map]
  rfl

section Drawn

variable (my : MySql) (events : List Event) (left right : ℤ)

/-- The answer to `/api/diff/` after these requests. -/
abbrev diffAfter : Json :=
  (getDiff my (afterEvents my events).db left right).toJson

/-- The page is drawn to its end. -/
theorem exists_drawGroups : ∃ n, ∀ fuel ≥ n, ∃ rows,
    drawGroups (diffAfter my events left right) fuel
      ((diffAfter my events left right).member (lit "groups")).members = some rows := by
  have h := (history_afterEvents my events).forest
  refine ⟨(getDiff my (afterEvents my events).db left right).getFilesLength + 2, fun fuel hfuel => ?_⟩
  refine Option.isSome_iff_exists.mp (drawGroups_isSome fun g hg => ?_)
  obtain ⟨G, hG, rfl⟩ := List.mem_map.mp ((ModelDiffGroups.members_groups _).mem_iff.mp hg)
  have hmem : G.1 ∈ (getDiff my (afterEvents my events).db left right).mapGroups :=
    Std.TreeMap.mem_iff_isSome_getElem?.mpr (Option.isSome_iff_exists.mpr
      ⟨_, Std.TreeMap.mem_toList_iff_getElem?_eq_some.mp hG⟩)
  have hlen := (getDiff my (afterEvents my events).db left right).length_entries_le hmem
  have henough : ((getDiff my (afterEvents my events).db left right).entries G.1).length + 1 < fuel := by
    omega
  obtain ⟨rows, hrows, -⟩ :=
    drawsTree_drawGroup h.primaryKeys h.noRowZero my left right hmem henough
  exact Option.isSome_iff_exists.mpr ⟨rows, hrows⟩

/-- The page is drawn with the comments there are. -/
theorem mem_drawComments {fuel : ℕ} {rows : List PageRow}
    (hrows : drawGroups (diffAfter my events left right) fuel
      ((diffAfter my events left right).member (lit "groups")).members = some rows) :
    ∀ div ∈ drawComments (diffAfter my events left right) rows,
      div.comments = (getComments my (afterEvents my events).db div.defineFileId).map
        ModelComment.div := by
  have h := (history_afterEvents my events).forest
  have hcounts := (countsOnce_iff _).mpr (nodup_entries h.primaryKeys my left right)
  intro div hdiv
  obtain ⟨row, hrow, hdiv⟩ := List.mem_flatMap.mp hdiv
  obtain ⟨g, hg, hfile⟩ := exists_group_of_drawGroups hrows row hrow
  obtain ⟨G, hG, rfl⟩ := List.mem_map.mp ((ModelDiffGroups.members_groups _).mem_iff.mp hg)
  have hmem : G.1 ∈ (getDiff my (afterEvents my events).db left right).mapGroups :=
    Std.TreeMap.mem_iff_isSome_getElem?.mpr (Option.isSome_iff_exists.mpr
      ⟨_, Std.TreeMap.mem_toList_iff_getElem?_eq_some.mp hG⟩)
  obtain ⟨e, he, heq⟩ := List.mem_map.mp ((hcounts.files G.1 hmem).mem_iff.mp hfile)
  have hinfo : row.fileinfo = e.toJson := (congrArg Prod.snd heq).symm
  have hcs := (mapComments_getDiff my h.nodup_filesJoin left right e.defineFileId _).mpr
    ⟨⟨G.1, e, he, rfl⟩, rfl⟩
  have hdiv : div = contentComments (diffAfter my events left right) row.fileinfo := by
    simpa using hdiv
  rw [hdiv, hinfo, contentComments_entry hcs]

end Drawn

/-! ### What the server does meanwhile -/

/-- The row without its flag. -/
def CommentRow.written (row : CommentRow) : CommentRow :=
  { row with hided := 0 }

/-- The rows are still there, apart from their flags, and new ones behind them. -/
def Kept (old new : List CommentRow) : Prop :=
  old.map CommentRow.written <+: new.map CommentRow.written

theorem Kept.refl (rows : List CommentRow) : Kept rows rows :=
  List.prefix_refl _

theorem Kept.trans {a b c : List CommentRow} (h : Kept a b) (h' : Kept b c) : Kept a c :=
  List.IsPrefix.trans h h'

theorem Kept.exists_row {old new : List CommentRow} (h : Kept old new) {row : CommentRow}
    (hrow : row ∈ old) : ∃ row' ∈ new, row'.written = row.written := by
  have hmem := h.subset (List.mem_map_of_mem (f := CommentRow.written) hrow)
  obtain ⟨row', hrow', heq⟩ := List.mem_map.mp hmem
  exact ⟨row', hrow', heq⟩

/-- The comments behind a request. -/
theorem comments_event (my : MySql) (events : List Event) (e : Event) :
    (afterEvents my (events ++ [e])).db.comments =
      match e with
      | .upload _ => (afterEvents my events).db.comments
      | .addComment d text now =>
        (afterEvents my events).db.comments ++
          [⟨my.nextId .comments CommentRow.id (afterEvents my events).db.comments, d, text, now, 0⟩]
      | .hideComment id => (afterEvents my events).db.comments.map (CommentRow.hide id) := by
  rw [afterEvents_concat_db]
  cases e with
  | upload req =>
    simp only [Event.program, run_bind, run_pure]
    exact (upload_frame my _ req).comments
  | addComment d text now => rfl
  | hideComment id => rfl

theorem written_hide (id : ℤ) (row : CommentRow) : (row.hide id).written = row.written := by
  rw [CommentRow.hide_eq]
  rfl

theorem kept_event (my : MySql) (events : List Event) (e : Event) :
    Kept (afterEvents my events).db.comments (afterEvents my (events ++ [e])).db.comments := by
  rw [comments_event]
  unfold Kept
  cases e with
  | upload req => exact List.prefix_refl _
  | addComment d text now =>
    simp only [List.map_append]
    exact List.prefix_append _ _
  | hideComment id =>
    simp only [List.map_map]
    have hsame : ∀ rows : List CommentRow,
        rows.map CommentRow.written = rows.map (CommentRow.written ∘ CommentRow.hide id) :=
      fun rows => List.map_congr_left fun row _ => (written_hide id row).symm
    exact hsame _ ▸ List.prefix_refl _

/-- The request of the page, as the server sees it. -/
def PageRequest.event (now : ℤ) : PageRequest → Event
  | .commentAdd defineFileId comment => .addComment defineFileId comment now
  | .commentHide commentId => .hideComment commentId

/-- What is answered to the request. -/
def PageRequest.answer (my : MySql) (rows : List CommentRow) : PageRequest → PageAnswer
  | .commentAdd defineFileId comment =>
    .commentAdd defineFileId ⟨my.nextId .comments CommentRow.id rows, defineFileId, comment⟩
  | .commentHide commentId => .commentHide commentId

theorem run_pageRequest (my : MySql) (events : List Event) (req : PageRequest) (now : ℤ) :
    run (World.step my) (req.program now) (afterEvents my events)
      = (req.answer my (afterEvents my events).db.comments,
        afterEvents my (events ++ [req.event now])) := by
  rw [afterEvents_concat]
  cases req with
  | commentAdd d text => rfl
  | commentHide id => rfl

/-! ### One step -/

section Step

variable (my : MySql) (s : CommentsPage)

theorem CommentsDiv.done_commentAdd (div : CommentsDiv) (d : ℤ) (result : ModelComment) :
    div.done (.commentAdd d result) =
      if div.defineFileId = d then
        { div with comments := ⟨result.id, result.comment⟩ :: div.comments }
      else div :=
  rfl

theorem CommentsDiv.done_commentHide (div : CommentsDiv) (id : ℤ) :
    div.done (.commentHide id)
      = { div with comments := div.comments.filter fun c => c.commentId ≠ id } :=
  rfl

theorem CommentsPage.step_clickAdd (d : ℤ) (text : Bytes) :
    s.step my (.clickAdd d text) = s ∨
      s.step my (.clickAdd d text) = { s with requests := s.requests ++ [.commentAdd d text] } := by
  by_cases h : text ≠ [] ∧ ∃ div ∈ s.divs, div.defineFileId = d
  · exact Or.inr (if_pos h)
  · exact Or.inl (if_neg h)

theorem CommentsPage.step_clickHide (id : ℤ) :
    s.step my (.clickHide id) = s ∨
      (∃ div ∈ s.divs, ∃ c ∈ div.comments, c.commentId = id) ∧
        s.step my (.clickHide id) = { s with requests := s.requests ++ [.commentHide id] } := by
  by_cases h : ∃ div ∈ s.divs, ∃ c ∈ div.comments, c.commentId = id
  · exact Or.inr ⟨h, if_pos h⟩
  · exact Or.inl (if_neg h)

theorem CommentsPage.step_serve {events : List Event} (hworld : s.world = afterEvents my events)
    (n : ℕ) (now : ℤ) :
    s.step my (.serve n now) = s ∨
      ∃ req ∈ s.requests, s.step my (.serve n now) =
        { s with
          requests := s.requests.eraseIdx n
          answers := s.answers ++ [req.answer my s.world.db.comments]
          world := afterEvents my (events ++ [req.event now]) } := by
  cases hreq : s.requests[n]? with
  | none =>
    left
    simp only [CommentsPage.step, hreq]
  | some req =>
    right
    refine ⟨req, List.mem_of_getElem? hreq, ?_⟩
    simp only [CommentsPage.step, hreq, hworld, run_pageRequest]

theorem CommentsPage.step_done (n : ℕ) :
    s.step my (.done n) = s ∨
      ∃ answer, s.answers[n]? = some answer ∧ s.step my (.done n) =
        { s with
          divs := s.divs.map fun div => div.done answer
          answers := s.answers.eraseIdx n } := by
  cases hanswer : s.answers[n]? with
  | none =>
    left
    simp only [CommentsPage.step, hanswer]
  | some answer =>
    right
    refine ⟨answer, rfl, ?_⟩
    simp only [CommentsPage.step, hanswer]

theorem CommentsPage.step_other {events : List Event} (hworld : s.world = afterEvents my events)
    (e : Event) :
    s.step my (.other e) = { s with world := afterEvents my (events ++ [e]) } := by
  rw [afterEvents_concat, ← hworld]
  rfl

end Step

/-! ### The answers that are under way -/

/-- The id in the answer to a `comment-add`. -/
def PageAnswer.addedId : PageAnswer → Option ℤ
  | .commentAdd _ result => some result.id
  | .commentHide _ => none

/-- The comments that are stored and not shown yet. -/
def addedIds (answers : List PageAnswer) : List ℤ :=
  answers.filterMap PageAnswer.addedId

theorem addedIds_concat (answers : List PageAnswer) (answer : PageAnswer) :
    addedIds (answers ++ [answer]) = addedIds answers ++ addedIds [answer] :=
  List.filterMap_append

/-- An answer arrives, and the others are still under way. -/
theorem perm_eraseIdx {answers : List PageAnswer} {n : ℕ} {answer : PageAnswer}
    (h : answers[n]? = some answer) : answers.Perm (answer :: answers.eraseIdx n) := by
  obtain ⟨hn, rfl⟩ := List.getElem?_eq_some_iff.mp h
  exact (List.getElem_cons_eraseIdx_perm hn).symm

theorem addedIds_eraseIdx {answers : List PageAnswer} {n : ℕ} {answer : PageAnswer}
    (h : answers[n]? = some answer) :
    (addedIds answers).Perm (addedIds [answer] ++ addedIds (answers.eraseIdx n)) := by
  have hperm : (addedIds answers).Perm (addedIds (answer :: answers.eraseIdx n)) :=
    (perm_eraseIdx h).filterMap _
  have hcons : addedIds (answer :: answers.eraseIdx n)
      = addedIds [answer] ++ addedIds (answers.eraseIdx n) := by
    unfold addedIds
    rw [← List.filterMap_append, List.singleton_append]
  rwa [hcons] at hperm

theorem addedIds_eraseIdx_sublist (answers : List PageAnswer) (n : ℕ) :
    (addedIds (answers.eraseIdx n)).Sublist (addedIds answers) :=
  (List.eraseIdx_sublist _ _).filterMap _

section Served

variable {my : MySql} {events : List Event}

/-- An id that is answered is the one of a row that was not there before. -/
theorem addedIds_answer (req : PageRequest) {id : ℤ}
    (h : id ∈ addedIds [req.answer my (afterEvents my events).db.comments]) :
    ∀ row ∈ (afterEvents my events).db.comments, row.id < id := by
  intro row hrow
  cases req with
  | commentAdd d text =>
    have hid : id = my.nextId .comments CommentRow.id (afterEvents my events).db.comments :=
      List.mem_singleton.mp h
    rw [hid]
    exact lt_of_le_of_lt ((comments_afterEvents my events).1.le_lastId hrow)
      (my.lastId_lt_nextId _ _ _)
  | commentHide id' => exact absurd h List.not_mem_nil

/-- An answered comment is stored. -/
theorem exists_answered_row (req : PageRequest) (now : ℤ) {d : ℤ} {result : ModelComment}
    (h : req.answer my (afterEvents my events).db.comments = .commentAdd d result) :
    ∃ row ∈ (afterEvents my (events ++ [req.event now])).db.comments, row.id = result.id ∧
      row.defineFileId = d ∧ row.comment = result.comment := by
  cases req with
  | commentAdd d' text =>
    obtain ⟨rfl, rfl⟩ := PageAnswer.commentAdd.inj h
    rw [PageRequest.event, comments_event]
    exact ⟨_, List.mem_append_right _ List.mem_cons_self, rfl, rfl, rfl⟩
  | commentHide id => cases h

end Served

/-! ### What is shown is stored -/

/-- Every comment in the `div` is stored under its define id, with its text up to a NUL byte. It is
there once, and is not going to be added. -/
structure CommentsDiv.Sound (rows : List CommentRow) (added : List ℤ) (div : CommentsDiv) : Prop where
  stored : ∀ c ∈ div.comments, ∃ row ∈ rows, row.id = c.commentId ∧
    row.defineFileId = div.defineFileId ∧ cString row.comment = cString c.comment
  once : (div.comments.map CommentDiv.commentId).Nodup
  shown : ∀ c ∈ div.comments, c.commentId ∉ added

/-- The page shows what is stored, the same in all `div`s of a definition, and what is going to be
added is stored too. -/
structure PageSound (my : MySql) (s : CommentsPage) : Prop where
  history : ∃ events, s.world = afterEvents my events
  divs : ∀ div ∈ s.divs, div.Sound s.world.db.comments (addedIds s.answers)
  alike : ∀ div ∈ s.divs, ∀ div' ∈ s.divs, div.defineFileId = div'.defineFileId → div = div'
  answered : ∀ d result, .commentAdd d result ∈ s.answers → ∃ row ∈ s.world.db.comments,
    row.id = result.id ∧ row.defineFileId = d ∧ row.comment = result.comment
  added : (addedIds s.answers).Nodup

theorem CommentsDiv.Sound.kept {rows rows' : List CommentRow} {added added' : List ℤ}
    {div : CommentsDiv} (h : div.Sound rows added) (hkept : Kept rows rows')
    (hadded : ∀ id ∈ added', id ∈ added ∨ ∀ row ∈ rows, row.id < id) : div.Sound rows' added' := by
  refine ⟨fun c hc => ?_, h.once, fun c hc hid => ?_⟩
  · obtain ⟨row, hrow, hid, hdefine, htext⟩ := h.stored c hc
    obtain ⟨row', hrow', heq⟩ := hkept.exists_row hrow
    obtain ⟨hid', hdefine', htext', -⟩ := CommentRow.mk.inj heq
    exact ⟨row', hrow', hid'.trans hid, hdefine'.trans hdefine, htext' ▸ htext⟩
  · rcases hadded _ hid with hold | hnew
    · exact h.shown c hc hold
    · obtain ⟨row, hrow, heq, -⟩ := h.stored c hc
      have hlt := hnew row hrow
      omega

@[simp] theorem CommentsDiv.defineFileId_done (div : CommentsDiv) (answer : PageAnswer) :
    (div.done answer).defineFileId = div.defineFileId := by
  cases answer with
  | commentAdd d result =>
    rw [CommentsDiv.done_commentAdd]
    split
    · rfl
    · rfl
  | commentHide id => rfl

/-- The comments in the `div` when an answer has arrived. -/
theorem CommentsDiv.mem_done {div : CommentsDiv} {answer : PageAnswer} {c : CommentDiv}
    (h : c ∈ (div.done answer).comments) :
    c ∈ div.comments ∧ answer ≠ .commentHide c.commentId ∨
      ∃ result, answer = .commentAdd div.defineFileId result ∧ c = ⟨result.id, result.comment⟩ := by
  cases answer with
  | commentAdd d result =>
    rw [CommentsDiv.done_commentAdd] at h
    split at h
    · next hdefine =>
      rcases List.mem_cons.mp h with rfl | h
      · exact Or.inr ⟨result, by rw [hdefine], rfl⟩
      · exact Or.inl ⟨h, fun heq => by cases heq⟩
    · exact Or.inl ⟨h, fun heq => by cases heq⟩
  | commentHide id =>
    obtain ⟨hmem, hne⟩ := List.mem_filter.mp h
    refine Or.inl ⟨hmem, fun heq => ?_⟩
    rw [PageAnswer.commentHide.inj heq] at hne
    simp at hne

theorem PageSound.done {my : MySql} {s : CommentsPage} (h : PageSound my s) {n : ℕ}
    {answer : PageAnswer} (hanswer : s.answers[n]? = some answer) :
    PageSound my { s with
      divs := s.divs.map fun div => div.done answer, answers := s.answers.eraseIdx n } := by
  have hperm := addedIds_eraseIdx hanswer
  have hnodup := hperm.nodup_iff.mp h.added
  have hmem : answer ∈ s.answers := List.mem_of_getElem? hanswer
  refine ⟨h.history, fun div hdiv => ?_, fun div hdiv div' hdiv' hdefine => ?_,
    fun d result hr => h.answered d result (List.mem_of_mem_eraseIdx hr),
    h.added.sublist (addedIds_eraseIdx_sublist _ _)⟩
  · obtain ⟨old, hold, rfl⟩ := List.mem_map.mp hdiv
    have hsound := h.divs old hold
    refine ⟨fun c hc => ?_, ?_, fun c hc hid => ?_⟩
    · rw [CommentsDiv.defineFileId_done]
      rcases CommentsDiv.mem_done hc with ⟨hc, -⟩ | ⟨result, rfl, rfl⟩
      · exact hsound.stored c hc
      · obtain ⟨row, hrow, hid, hdefine, htext⟩ := h.answered _ _ hmem
        exact ⟨row, hrow, hid, hdefine, congrArg cString htext⟩
    · cases answer with
      | commentAdd d result =>
        rw [CommentsDiv.done_commentAdd]
        split
        · refine List.nodup_cons.mpr ⟨fun hid => ?_, hsound.once⟩
          obtain ⟨c, hc, heq⟩ := List.mem_map.mp hid
          refine hsound.shown c hc (hperm.mem_iff.mpr (List.mem_append_left _ ?_))
          exact List.mem_singleton.mpr heq
        · exact hsound.once
      | commentHide id => exact hsound.once.sublist (List.filter_sublist.map _)
    · rcases CommentsDiv.mem_done hc with ⟨hc, -⟩ | ⟨result, rfl, rfl⟩
      · exact hsound.shown c hc ((addedIds_eraseIdx_sublist _ _).subset hid)
      · exact (List.nodup_append.mp hnodup).2.2 result.id (List.mem_singleton.mpr rfl) _ hid rfl
  · obtain ⟨old, hold, rfl⟩ := List.mem_map.mp hdiv
    obtain ⟨old', hold', rfl⟩ := List.mem_map.mp hdiv'
    rw [CommentsDiv.defineFileId_done, CommentsDiv.defineFileId_done] at hdefine
    rw [h.alike old hold old' hold' hdefine]

/-- The server handles a request of somebody. -/
theorem PageSound.served {my : MySql} {s : CommentsPage} (h : PageSound my s) {events : List Event}
    (hworld : s.world = afterEvents my events) (e : Event) :
    PageSound my { s with world := afterEvents my (events ++ [e]) } := by
  have hkept : Kept s.world.db.comments (afterEvents my (events ++ [e])).db.comments := by
    rw [hworld]
    exact kept_event my events e
  refine ⟨⟨_, rfl⟩, fun div hdiv => (h.divs div hdiv).kept hkept fun id hid => Or.inl hid, h.alike,
    fun d result hr => ?_, h.added⟩
  obtain ⟨row, hrow, hid, hdefine, htext⟩ := h.answered d result hr
  obtain ⟨row', hrow', heq⟩ := hkept.exists_row hrow
  obtain ⟨hid', hdefine', htext', -⟩ := CommentRow.mk.inj heq
  exact ⟨row', hrow', hid'.trans hid, hdefine'.trans hdefine, htext'.trans htext⟩

/-- An id that is going to be added is the one of a row. -/
theorem PageSound.exists_added_row {my : MySql} {s : CommentsPage} (h : PageSound my s) {id : ℤ}
    (hid : id ∈ addedIds s.answers) : ∃ row ∈ s.world.db.comments, row.id = id := by
  obtain ⟨answer, hanswer, heq⟩ := List.mem_filterMap.mp hid
  cases answer with
  | commentAdd d result =>
    obtain ⟨row, hrow, hrowid, -⟩ := h.answered d result hanswer
    exact ⟨row, hrow, hrowid.trans (Option.some.inj heq)⟩
  | commentHide id' => cases heq

/-- The server answers a request of the page. -/
theorem PageSound.answers {my : MySql} {s : CommentsPage} (h : PageSound my s) {events : List Event}
    (hworld : s.world = afterEvents my events) {n : ℕ} (req : PageRequest) (now : ℤ) :
    PageSound my { s with
      requests := s.requests.eraseIdx n
      answers := s.answers ++ [req.answer my s.world.db.comments]
      world := afterEvents my (events ++ [req.event now]) } := by
  have hserved := h.served hworld (req.event now)
  have hnew : ∀ id ∈ addedIds [req.answer my s.world.db.comments],
      ∀ row ∈ s.world.db.comments, row.id < id := by
    rw [hworld]
    exact fun id hid => addedIds_answer req hid
  refine ⟨hserved.history, fun div hdiv => ?_, hserved.alike, fun d result hr => ?_, ?_⟩
  · rw [addedIds_concat]
    have hkept : Kept s.world.db.comments
        (afterEvents my (events ++ [req.event now])).db.comments := by
      rw [hworld]
      exact kept_event my events _
    refine (h.divs div hdiv).kept hkept fun id hid => ?_
    exact (List.mem_append.mp hid).imp_right fun hid => hnew id hid
  · rcases List.mem_append.mp hr with hr | hr
    · exact hserved.answered d result hr
    · refine exists_answered_row req now ?_
      rw [← hworld]
      exact (List.mem_singleton.mp hr).symm
  · rw [addedIds_concat]
    have hone : (addedIds [req.answer my s.world.db.comments]).Nodup := by
      cases req with
      | commentAdd d text => exact List.nodup_singleton _
      | commentHide id => exact List.nodup_nil
    refine List.nodup_append.mpr ⟨h.added, hone, fun id hid id' hid' => ?_⟩
    obtain ⟨row, hrow, rfl⟩ := h.exists_added_row hid
    exact ne_of_lt (hnew id' hid' row hrow)

/-- **One step.** The page goes on showing only what is stored. -/
theorem PageSound.step {my : MySql} {s : CommentsPage} (h : PageSound my s) (e : PageEvent) :
    PageSound my (s.step my e) := by
  obtain ⟨events, hworld⟩ := h.history
  cases e with
  | clickAdd d text =>
    rcases s.step_clickAdd my d text with heq | heq
    · rw [heq]
      exact h
    · rw [heq]
      exact ⟨h.history, h.divs, h.alike, h.answered, h.added⟩
  | clickHide id =>
    rcases s.step_clickHide my id with heq | ⟨-, heq⟩
    · rw [heq]
      exact h
    · rw [heq]
      exact ⟨h.history, h.divs, h.alike, h.answered, h.added⟩
  | serve n now =>
    rcases s.step_serve my hworld n now with heq | ⟨req, -, heq⟩
    · rw [heq]
      exact h
    · rw [heq]
      exact h.answers hworld req now
  | done n =>
    rcases s.step_done my n with heq | ⟨answer, hanswer, heq⟩
    · rw [heq]
      exact h
    · rw [heq]
      exact h.done hanswer
  | fail n =>
    have hsub := addedIds_eraseIdx_sublist s.answers n
    exact ⟨h.history, fun div hdiv => (h.divs div hdiv).kept (Kept.refl _)
        fun id hid => Or.inl (hsub.subset hid), h.alike,
      fun d result hr => h.answered d result (List.mem_of_mem_eraseIdx hr), h.added.sublist hsub⟩
  | other e =>
    rw [s.step_other my hworld]
    exact h.served hworld e

theorem CommentsPage.steps_concat (my : MySql) (s : CommentsPage) (events : List PageEvent)
    (e : PageEvent) : s.steps my (events ++ [e]) = (s.steps my events).step my e := by
  unfold CommentsPage.steps
  rw [List.foldl_append]
  rfl

theorem PageSound.steps {my : MySql} {s : CommentsPage} (h : PageSound my s)
    (events : List PageEvent) : PageSound my (s.steps my events) := by
  induction events using List.reverseRecOn with
  | nil => exact h
  | append_singleton events e ih =>
    rw [CommentsPage.steps_concat]
    exact ih.step e

end WebDiff
