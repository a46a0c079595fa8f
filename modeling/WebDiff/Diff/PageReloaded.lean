import Mathlib.Data.List.Pairwise
import WebDiff.Diff.PageComments

/-!
# The page and a page that is loaded again

While nobody else writes comments and no answer gets lost, the page and the tables differ only by the
answers that are still under way (`PageCurrent`). As soon as there are none, every `div` shows what the
page would show if it were loaded again, and in the same order where the answers came in order
(`page_comments`).
-/

namespace WebDiff

open Program Table

/-! ### What is stored is shown -/

/-- Nobody else writes comments, and no answer gets lost. -/
def PageEvent.Undisturbed : PageEvent → Prop
  | .fail _ => False
  | .other (.upload _) => True
  | .other _ => False
  | _ => True

/-- The page and the tables differ by the answers that are under way. -/
structure PageCurrent (s : CommentsPage) : Prop where
  /-- what is being hidden is stored, and its addition has been answered -/
  asked : ∀ id, .commentHide id ∈ s.requests ∨ .commentHide id ∈ s.answers →
    (∃ row ∈ s.world.db.comments, row.id = id) ∧ id ∉ addedIds s.answers
  hidden : ∀ id, .commentHide id ∈ s.answers → ∀ row ∈ s.world.db.comments, row.id = id →
    row.hided ≠ 0
  added : ∀ id ∈ addedIds s.answers, ∀ row ∈ s.world.db.comments, row.id = id → row.hided = 0
  shown : ∀ div ∈ s.divs, ∀ c ∈ div.comments, ∀ row ∈ s.world.db.comments, row.id = c.commentId →
    row.hided = 0 ∨ .commentHide c.commentId ∈ s.answers
  visible : ∀ row ∈ s.world.db.comments, row.hided = 0 → row.id ∉ addedIds s.answers →
    ∀ div ∈ s.divs, div.defineFileId = row.defineFileId → ∃ c ∈ div.comments, c.commentId = row.id

section Current

variable {my : MySql} {s : CommentsPage}

/-- A click on a comment that is shown. -/
theorem PageCurrent.clickHide (h : PageCurrent s) (hsound : PageSound my s) {id : ℤ}
    (hshown : ∃ div ∈ s.divs, ∃ c ∈ div.comments, c.commentId = id) :
    PageCurrent { s with requests := s.requests ++ [.commentHide id] } := by
  refine ⟨fun id' hid' => ?_, h.hidden, h.added, h.shown, h.visible⟩
  rcases hid' with hid' | hid'
  · rcases List.mem_append.mp hid' with hid' | hid'
    · exact h.asked id' (Or.inl hid')
    · obtain rfl := PageRequest.commentHide.inj (List.mem_singleton.mp hid')
      obtain ⟨div, hdiv, c, hc, rfl⟩ := hshown
      obtain ⟨row, hrow, hid, -⟩ := (hsound.divs div hdiv).stored c hc
      exact ⟨⟨row, hrow, hid⟩, (hsound.divs div hdiv).shown c hc⟩
  · exact h.asked id' (Or.inr hid')

/-- The server stores a comment, and the answer is under way. -/
theorem PageCurrent.addComment (h : PageCurrent s) {events : List Event}
    (hworld : s.world = afterEvents my events) {n : ℕ} (d : ℤ) (text : Bytes) (now : ℤ) :
    PageCurrent { s with
      requests := s.requests.eraseIdx n
      answers := s.answers ++ [(PageRequest.commentAdd d text).answer my s.world.db.comments]
      world := afterEvents my (events ++ [.addComment d text now]) } := by
  let new : CommentRow :=
    ⟨my.nextId .comments CommentRow.id s.world.db.comments, d, text, now, 0⟩
  have hrows : (afterEvents my (events ++ [.addComment d text now])).db.comments
      = s.world.db.comments ++ [new] := by
    rw [comments_event]
    simp only [new, hworld]
  have hadded : addedIds (s.answers ++ [(PageRequest.commentAdd d text).answer my
      s.world.db.comments]) = addedIds s.answers ++ [new.id] := addedIds_concat _ _
  have hlt : ∀ row ∈ s.world.db.comments, row.id < new.id := by
    intro row hrow
    rw [hworld] at hrow
    have hanswer := @addedIds_answer my events (.commentAdd d text) _
      (List.mem_singleton.mpr rfl) row hrow
    rwa [← hworld] at hanswer
  have hhide : ∀ id, PageAnswer.commentHide id ∈ s.answers ++
      [(PageRequest.commentAdd d text).answer my s.world.db.comments] →
        .commentHide id ∈ s.answers := by
    intro id hid
    rcases List.mem_append.mp hid with hid | hid
    · exact hid
    · cases List.mem_singleton.mp hid
  have hold : ∀ row, row ∈ s.world.db.comments ++ [new] →
      row ∈ s.world.db.comments ∨ row = new := by
    intro row hrow
    exact (List.mem_append.mp hrow).imp_right List.mem_singleton.mp
  refine ⟨fun id hid => ?_, fun id hid row hrow hrowid => ?_, fun id hid row hrow hrowid => ?_,
    fun div hdiv c hc row hrow hrowid => ?_, fun row hrow hvisible hnot div hdiv hdefine => ?_⟩
  · obtain ⟨⟨row, hrow, rfl⟩, hnot⟩ :=
      h.asked id (hid.imp (fun hid => List.mem_of_mem_eraseIdx hid) (hhide id))
    simp only [hrows, hadded]
    refine ⟨⟨row, List.mem_append_left _ hrow, rfl⟩, fun hmem => ?_⟩
    rcases List.mem_append.mp hmem with hmem | hmem
    · exact hnot hmem
    · exact absurd (List.mem_singleton.mp hmem) (ne_of_lt (hlt row hrow))
  · simp only [hrows] at hrow
    obtain ⟨⟨row', hrow', rfl⟩, -⟩ := h.asked id (Or.inr (hhide id hid))
    rcases hold row hrow with hrow | rfl
    · exact h.hidden _ (hhide _ hid) row hrow hrowid
    · exact absurd hrowid (ne_of_gt (hlt row' hrow'))
  · simp only [hrows, hadded] at hrow hid
    rcases hold row hrow with hrow | rfl
    · rcases List.mem_append.mp hid with hid | hid
      · exact h.added id hid row hrow hrowid
      · rw [List.mem_singleton.mp hid] at hrowid
        exact absurd hrowid (ne_of_lt (hlt row hrow))
    · rfl
  · simp only [hrows] at hrow
    rcases hold row hrow with hrow | rfl
    · exact (h.shown div hdiv c hc row hrow hrowid).imp_right fun hid => List.mem_append_left _ hid
    · exact Or.inl rfl
  · simp only [hrows, hadded] at hrow hnot
    rcases hold row hrow with hrow | rfl
    · exact h.visible row hrow hvisible (fun hmem => hnot (List.mem_append_left _ hmem)) div hdiv
        hdefine
    · exact absurd (List.mem_append_right _ (List.mem_singleton.mpr rfl)) hnot

/-- The server hides a comment, and the answer is under way. -/
theorem PageCurrent.hideComment (h : PageCurrent s) {events : List Event}
    (hworld : s.world = afterEvents my events) {n : ℕ} {id : ℤ}
    (hreq : .commentHide id ∈ s.requests) :
    PageCurrent { s with
      requests := s.requests.eraseIdx n
      answers := s.answers ++ [.commentHide id]
      world := afterEvents my (events ++ [.hideComment id]) } := by
  have hrows : (afterEvents my (events ++ [.hideComment id])).db.comments
      = s.world.db.comments.map (CommentRow.hide id) := by
    rw [comments_event, hworld]
  have hadded : addedIds (s.answers ++ [.commentHide id]) = addedIds s.answers := by
    rw [addedIds_concat]
    exact List.append_nil _
  have hid' : ∀ row : CommentRow, (row.hide id).id = row.id := by
    intro row
    rw [CommentRow.hide_eq]
  have hflag : ∀ row : CommentRow, (row.hide id).hided = if id = row.id then 1 else row.hided := by
    intro row
    rw [CommentRow.hide_eq]
  refine ⟨fun i hi => ?_, fun i hi row hrow hrowid => ?_, fun i hi row hrow hrowid => ?_,
    fun div hdiv c hc row hrow hrowid => ?_, fun row hrow hvisible hnot div hdiv hdefine => ?_⟩
  · have hold : .commentHide i ∈ s.requests ∨ .commentHide i ∈ s.answers := by
      rcases hi with hi | hi
      · exact Or.inl (List.mem_of_mem_eraseIdx hi)
      · rcases List.mem_append.mp hi with hi | hi
        · exact Or.inr hi
        · obtain rfl := PageAnswer.commentHide.inj (List.mem_singleton.mp hi)
          exact Or.inl hreq
    obtain ⟨⟨row, hrow, rfl⟩, hnot⟩ := h.asked i hold
    simp only [hrows, hadded]
    exact ⟨⟨row.hide id, List.mem_map_of_mem hrow, hid' row⟩, hnot⟩
  · simp only [hrows] at hrow
    obtain ⟨row, hmem, rfl⟩ := List.mem_map.mp hrow
    rw [hid'] at hrowid
    rw [hflag]
    by_cases hsame : id = row.id
    · rw [if_pos hsame]
      exact one_ne_zero
    · rw [if_neg hsame]
      rcases List.mem_append.mp hi with hi | hi
      · exact h.hidden i hi row hmem hrowid
      · obtain rfl := PageAnswer.commentHide.inj (List.mem_singleton.mp hi)
        exact absurd hrowid.symm hsame
  · simp only [hrows, hadded] at hrow hi
    obtain ⟨row, hmem, rfl⟩ := List.mem_map.mp hrow
    rw [hid'] at hrowid
    rw [hflag, if_neg]
    · exact h.added i hi row hmem hrowid
    · intro hsame
      exact (h.asked id (Or.inl hreq)).2 (hsame ▸ hrowid ▸ hi)
  · simp only [hrows] at hrow
    obtain ⟨row, hmem, rfl⟩ := List.mem_map.mp hrow
    rw [hid'] at hrowid
    rw [hflag]
    by_cases hsame : id = row.id
    · right
      rw [← hrowid, ← hsame]
      exact List.mem_append_right _ (List.mem_singleton.mpr rfl)
    · rw [if_neg hsame]
      exact (h.shown div hdiv c hc row hmem hrowid).imp_right fun hc => List.mem_append_left _ hc
  · simp only [hrows, hadded] at hrow hnot
    obtain ⟨row, hmem, rfl⟩ := List.mem_map.mp hrow
    rw [hid'] at hnot ⊢
    rw [hflag] at hvisible
    have hne : id ≠ row.id := by
      intro hsame
      rw [if_pos hsame] at hvisible
      exact one_ne_zero hvisible
    rw [if_neg hne] at hvisible
    refine h.visible row hmem hvisible hnot div hdiv ?_
    rw [hdefine, CommentRow.hide_eq]

/-- An answer arrives. -/
theorem PageCurrent.done (h : PageCurrent s) (hsound : PageSound my s) {n : ℕ} {answer : PageAnswer}
    (hanswer : s.answers[n]? = some answer) :
    PageCurrent { s with
      divs := s.divs.map fun div => div.done answer, answers := s.answers.eraseIdx n } := by
  obtain ⟨events, hworld⟩ := hsound.history
  have hids : Increasing CommentRow.id s.world.db.comments := by
    rw [hworld]
    exact (comments_afterEvents my events).1
  have hperm := perm_eraseIdx hanswer
  have hadded := addedIds_eraseIdx hanswer
  have hsub := addedIds_eraseIdx_sublist s.answers n
  have hmem : answer ∈ s.answers := List.mem_of_getElem? hanswer
  refine ⟨fun id hid => ?_, fun id hid => h.hidden id (List.mem_of_mem_eraseIdx hid),
    fun id hid => h.added id (hsub.subset hid), fun div hdiv c hc row hrow hrowid => ?_,
    fun row hrow hvisible hnot div hdiv hdefine => ?_⟩
  · obtain ⟨hstored, hnot⟩ := h.asked id (hid.imp_right fun hid => List.mem_of_mem_eraseIdx hid)
    exact ⟨hstored, fun hid => hnot (hsub.subset hid)⟩
  · obtain ⟨old, hold, rfl⟩ := List.mem_map.mp hdiv
    rcases CommentsDiv.mem_done hc with ⟨hc, hne⟩ | ⟨result, rfl, rfl⟩
    · refine (h.shown old hold c hc row hrow hrowid).imp_right fun hhide => ?_
      exact (List.mem_cons.mp (hperm.mem_iff.mp hhide)).resolve_left (Ne.symm hne)
    -- the comment that is added now has not been hidden
    · refine Or.inl (h.added result.id (hadded.mem_iff.mpr ?_) row hrow hrowid)
      exact List.mem_append_left _ (List.mem_singleton.mpr rfl)
  · obtain ⟨old, hold, rfl⟩ := List.mem_map.mp hdiv
    rw [CommentsDiv.defineFileId_done] at hdefine
    cases answer with
    | commentAdd d result =>
      rw [CommentsDiv.done_commentAdd]
      by_cases hsame : row.id = result.id
      · -- the row of the answer
        obtain ⟨row', hrow', hid', hd, -⟩ := hsound.answered d result hmem
        obtain rfl := hids.eq_of_id_eq hrow hrow' (hsame.trans hid'.symm)
        rw [if_pos (hdefine.trans hd)]
        exact ⟨_, List.mem_cons_self, hsame.symm⟩
      · have hold' : row.id ∉ addedIds s.answers := by
          intro hid
          rcases List.mem_append.mp (hadded.mem_iff.mp hid) with hid | hid
          · exact hsame (List.mem_singleton.mp hid)
          · exact hnot hid
        obtain ⟨c, hc, hcid⟩ := h.visible row hrow hvisible hold' old hold hdefine
        split
        · exact ⟨c, List.mem_cons_of_mem _ hc, hcid⟩
        · exact ⟨c, hc, hcid⟩
    | commentHide id =>
      have hold' : row.id ∉ addedIds s.answers := by
        intro hid
        rcases List.mem_append.mp (hadded.mem_iff.mp hid) with hid | hid
        · exact List.not_mem_nil hid
        · exact hnot hid
      obtain ⟨c, hc, hcid⟩ := h.visible row hrow hvisible hold' old hold hdefine
      refine ⟨c, List.mem_filter.mpr ⟨hc, decide_eq_true fun heq => ?_⟩, hcid⟩
      exact h.hidden id hmem row hrow (hcid.symm.trans heq) hvisible

/-- **One step.** The page and the tables go on differing by the answers under way only. -/
theorem PageCurrent.step (h : PageCurrent s) (hsound : PageSound my s) {e : PageEvent}
    (he : e.Undisturbed) : PageCurrent (s.step my e) := by
  obtain ⟨events, hworld⟩ := hsound.history
  cases e with
  | clickAdd d text =>
    rcases s.step_clickAdd my d text with heq | heq
    · rw [heq]
      exact h
    · rw [heq]
      refine ⟨fun id hid => h.asked id (hid.imp_left fun hid => ?_), h.hidden, h.added, h.shown,
        h.visible⟩
      rcases List.mem_append.mp hid with hid | hid
      · exact hid
      · cases List.mem_singleton.mp hid
  | clickHide id =>
    rcases s.step_clickHide my id with heq | ⟨hshown, heq⟩
    · rw [heq]
      exact h
    · rw [heq]
      exact h.clickHide hsound hshown
  | serve n now =>
    rcases s.step_serve my hworld n now with heq | ⟨req, hreq, heq⟩
    · rw [heq]
      exact h
    · rw [heq]
      cases req with
      | commentAdd d text => exact h.addComment hworld d text now
      | commentHide id => exact h.hideComment hworld hreq
  | done n =>
    rcases s.step_done my n with heq | ⟨answer, hanswer, heq⟩
    · rw [heq]
      exact h
    · rw [heq]
      exact h.done hsound hanswer
  | fail n => exact he.elim
  | other e =>
    rw [s.step_other my hworld]
    cases e with
    | upload req =>
      have hrows : (afterEvents my (events ++ [.upload req])).db.comments = s.world.db.comments := by
        rw [comments_event, hworld]
      refine ⟨?_, ?_, ?_, ?_, ?_⟩ <;> simp only [hrows]
      · exact h.asked
      · exact h.hidden
      · exact h.added
      · exact h.shown
      · exact h.visible
    | addComment d text now => exact he.elim
    | hideComment id => exact he.elim

theorem PageCurrent.steps (h : PageCurrent s) (hsound : PageSound my s) {events : List PageEvent}
    (hevents : ∀ e ∈ events, e.Undisturbed) : PageCurrent (s.steps my events) := by
  induction events using List.reverseRecOn with
  | nil => exact h
  | append_singleton events e ih =>
    rw [CommentsPage.steps_concat]
    exact (ih fun e' he' => hevents e' (List.mem_append_left _ he')).step (hsound.steps events)
      (hevents e (List.mem_append_right _ List.mem_cons_self))

end Current

/-! ### In which order -/

/-- The answers arrive in the order in which the server sent them. -/
def PageEvent.InOrder : PageEvent → Prop
  | .done n => n = 0
  | _ => True

/-- In every `div` the latest comment is the first, and what is going to be added is later still. -/
structure PageOrdered (s : CommentsPage) : Prop where
  sorted : ∀ div ∈ s.divs, (div.comments.map CommentDiv.commentId).Pairwise (· > ·)
  later : ∀ div ∈ s.divs, ∀ c ∈ div.comments, ∀ id ∈ addedIds s.answers, c.commentId < id
  added : (addedIds s.answers).Pairwise (· < ·)

section Ordered

variable {my : MySql} {s : CommentsPage}

theorem PageOrdered.done (h : PageOrdered s) {answer : PageAnswer} (hanswer : s.answers[0]? = some answer) :
    PageOrdered { s with
      divs := s.divs.map fun div => div.done answer, answers := s.answers.eraseIdx 0 } := by
  obtain ⟨rest, hrest⟩ : ∃ rest, s.answers = answer :: rest := by
    cases hs : s.answers with
    | nil =>
      rw [hs] at hanswer
      cases hanswer
    | cons first rest =>
      rw [hs] at hanswer
      exact ⟨rest, by rw [Option.some.inj hanswer]⟩
  have hadded : addedIds s.answers = addedIds [answer] ++ addedIds rest := by
    rw [hrest, ← List.singleton_append]
    exact List.filterMap_append
  have herase : s.answers.eraseIdx 0 = rest := by
    rw [hrest]
    rfl
  have hincreasing := h.added
  rw [hadded] at hincreasing
  have hlater := fun div hdiv c hc id (hid : id ∈ addedIds rest) =>
    h.later div hdiv c hc id (hadded ▸ List.mem_append_right _ hid)
  refine ⟨fun div hdiv => ?_, fun div hdiv c hc id hid => ?_, ?_⟩
  · obtain ⟨old, hold, rfl⟩ := List.mem_map.mp hdiv
    cases answer with
    | commentAdd d result =>
      rw [CommentsDiv.done_commentAdd]
      split
      · refine List.pairwise_cons.mpr ⟨fun id hid => ?_, h.sorted old hold⟩
        obtain ⟨c, hc, rfl⟩ := List.mem_map.mp hid
        refine h.later old hold c hc result.id ?_
        rw [hadded]
        exact List.mem_append_left _ (List.mem_singleton.mpr rfl)
      · exact h.sorted old hold
    | commentHide id => exact (h.sorted old hold).sublist (List.filter_sublist.map _)
  · obtain ⟨old, hold, rfl⟩ := List.mem_map.mp hdiv
    simp only [herase] at hid
    rcases CommentsDiv.mem_done hc with ⟨hc, -⟩ | ⟨result, rfl, rfl⟩
    · exact hlater old hold c hc id hid
    · exact (List.pairwise_append.mp hincreasing).2.2 result.id (List.mem_singleton.mpr rfl) id hid
  · simp only [herase]
    exact (List.pairwise_append.mp hincreasing).2.1

theorem PageOrdered.step (h : PageOrdered s) (hsound : PageSound my s) {e : PageEvent}
    (he : e.InOrder) : PageOrdered (s.step my e) := by
  obtain ⟨events, hworld⟩ := hsound.history
  cases e with
  | clickAdd d text =>
    rcases s.step_clickAdd my d text with heq | heq
    · rw [heq]
      exact h
    · rw [heq]
      exact ⟨h.sorted, h.later, h.added⟩
  | clickHide id =>
    rcases s.step_clickHide my id with heq | ⟨-, heq⟩
    · rw [heq]
      exact h
    · rw [heq]
      exact ⟨h.sorted, h.later, h.added⟩
  | serve n now =>
    rcases s.step_serve my hworld n now with heq | ⟨req, -, heq⟩
    · rw [heq]
      exact h
    · rw [heq]
      have hnew : ∀ id ∈ addedIds [req.answer my s.world.db.comments],
          ∀ row ∈ s.world.db.comments, row.id < id := by
        rw [hworld]
        exact fun id hid => addedIds_answer req hid
      refine ⟨h.sorted, fun div hdiv c hc id hid => ?_, ?_⟩
      · rw [addedIds_concat] at hid
        rcases List.mem_append.mp hid with hid | hid
        · exact h.later div hdiv c hc id hid
        · obtain ⟨row, hrow, hrowid, -⟩ := (hsound.divs div hdiv).stored c hc
          exact hrowid ▸ hnew id hid row hrow
      · rw [addedIds_concat]
        have hone : (addedIds [req.answer my s.world.db.comments]).Pairwise (· < ·) := by
          cases req with
          | commentAdd d text => exact List.pairwise_singleton _ _
          | commentHide id => exact List.Pairwise.nil
        refine List.pairwise_append.mpr ⟨h.added, hone, fun id hid id' hid' => ?_⟩
        obtain ⟨row, hrow, rfl⟩ := hsound.exists_added_row hid
        exact hnew id' hid' row hrow
  | done n =>
    obtain rfl : n = 0 := he
    rcases s.step_done my 0 with heq | ⟨answer, hanswer, heq⟩
    · rw [heq]
      exact h
    · rw [heq]
      exact h.done hanswer
  | fail n =>
    have hsub := addedIds_eraseIdx_sublist s.answers n
    exact ⟨h.sorted, fun div hdiv c hc id hid => h.later div hdiv c hc id (hsub.subset hid),
      h.added.sublist hsub⟩
  | other e => exact ⟨h.sorted, h.later, h.added⟩

theorem PageOrdered.steps (h : PageOrdered s) (hsound : PageSound my s) {events : List PageEvent}
    (hevents : ∀ e ∈ events, e.InOrder) : PageOrdered (s.steps my events) := by
  induction events using List.reverseRecOn with
  | nil => exact h
  | append_singleton events e ih =>
    rw [CommentsPage.steps_concat]
    exact (ih fun e' he' => hevents e' (List.mem_append_left _ he')).step (hsound.steps events)
      (hevents e (List.mem_append_right _ List.mem_cons_self))

end Ordered

/-! ### The page and a page that is loaded now -/

/-- What the `div` shows. A text is read back up to a NUL byte. -/
def CommentsDiv.shown (div : CommentsDiv) : List (ℤ × Bytes) :=
  div.comments.map fun c => (c.commentId, cString c.comment)

/-- What a page that is loaded now shows for the definition. -/
def reloaded (my : MySql) (db : Database) (defineFileId : ℤ) : List (ℤ × Bytes) :=
  (getComments my db defineFileId).map fun c => (c.id, c.comment)

/-- The comments were written at different times, each later than those before. -/
def Dated (rows : List CommentRow) : Prop :=
  rows.Pairwise fun a b => a.dtCreated < b.dtCreated

theorem Kept.dated {old new : List CommentRow} (h : Kept old new) (hnew : Dated new) : Dated old := by
  have hmap : (new.map CommentRow.written).Pairwise fun a b => a.dtCreated < b.dtCreated :=
    List.pairwise_map.mpr hnew
  have hold : (old.map CommentRow.written).Pairwise fun a b => a.dtCreated < b.dtCreated :=
    hmap.sublist h.sublist
  exact (List.pairwise_map (f := CommentRow.written)).mp hold

/-- The latest of two rows is the one with the greater id. -/
theorem Dated.lt_iff {rows : List CommentRow} (h : Dated rows) (hids : Increasing CommentRow.id rows)
    {a b : CommentRow} (ha : a ∈ rows) (hb : b ∈ rows) : a.id < b.id ↔ a.dtCreated < b.dtCreated := by
  let Agree : CommentRow → CommentRow → Prop := fun a b =>
    (a.id < b.id ↔ a.dtCreated < b.dtCreated) ∧ (b.id < a.id ↔ b.dtCreated < a.dtCreated)
  have hsymm : Std.Symm Agree := ⟨fun _ _ hab => ⟨hab.2, hab.1⟩⟩
  have hboth : rows.Pairwise Agree := by
    refine (hids.lt.and h).imp fun hab => ⟨iff_of_true hab.1 hab.2, ?_⟩
    exact iff_of_false (lt_asymm hab.1) (lt_asymm hab.2)
  by_cases heq : a = b
  · rw [heq]
    exact iff_of_false (lt_irrefl _) (lt_irrefl _)
  · exact (hboth.forall ha hb heq).1

/-- The comments of a definition, the latest first. -/
theorem getComments_sorted {my : MySql} {db : Database} (hids : Increasing CommentRow.id db.comments)
    (hdated : Dated db.comments) (d : ℤ) :
    ((getComments my db d).map ModelComment.id).Pairwise (· > ·) := by
  obtain ⟨rows, heq, hnodup, hsorted, hmem⟩ := getComments_eq my db d hids
  rw [heq, List.map_map]
  refine List.pairwise_map.mpr ((hsorted.and (List.pairwise_map.mp hnodup)).imp_of_mem ?_)
  intro a b ha hb hab
  have hle := (hdated.lt_iff hids ((hmem a).mp ha).1 ((hmem b).mp hb).1).not.mpr (not_lt.mpr hab.1)
  exact lt_of_le_of_ne (not_lt.mp hle) (Ne.symm hab.2)

section Loaded

variable {my : MySql} {events : List Event} {divs : List CommentsDiv}

/-- The page right after it was drawn. -/
theorem PageSound.loaded (hdivs : ∀ div ∈ divs, div.comments =
      (getComments my (afterEvents my events).db div.defineFileId).map ModelComment.div) :
    PageSound my ⟨divs, [], [], afterEvents my events⟩ := by
  have hids := (comments_afterEvents my events).1
  refine ⟨⟨events, rfl⟩, fun div hdiv => ⟨fun c hc => ?_, ?_, fun _ _ => List.not_mem_nil⟩,
    fun div hdiv div' hdiv' hdefine => ?_, fun _ _ hr => absurd hr List.not_mem_nil, List.nodup_nil⟩
  · obtain ⟨rows, heq, -, -, hmem⟩ := getComments_eq my _ div.defineFileId hids
    rw [hdivs div hdiv, heq, List.map_map] at hc
    obtain ⟨row, hrow, rfl⟩ := List.mem_map.mp hc
    obtain ⟨hrow, hdefine, -⟩ := (hmem row).mp hrow
    exact ⟨row, hrow, rfl, hdefine, (cString_eq_self (not_mem_cString _)).symm⟩
  · obtain ⟨rows, heq, hnodup, -, -⟩ := getComments_eq my _ div.defineFileId hids
    rw [hdivs div hdiv, heq, List.map_map, List.map_map]
    exact hnodup
  · obtain ⟨d, comments⟩ := div
    obtain ⟨d', comments'⟩ := div'
    obtain rfl : d = d' := hdefine
    exact congrArg (CommentsDiv.mk d) ((hdivs _ hdiv).trans (hdivs _ hdiv').symm)

theorem PageCurrent.loaded (hdivs : ∀ div ∈ divs, div.comments =
      (getComments my (afterEvents my events).db div.defineFileId).map ModelComment.div) :
    PageCurrent ⟨divs, [], [], afterEvents my events⟩ := by
  have hids := (comments_afterEvents my events).1
  refine ⟨fun _ hid => ?_, fun _ hid => absurd hid List.not_mem_nil,
    fun _ hid => absurd hid List.not_mem_nil, fun div hdiv c hc row hrow hrowid => ?_,
    fun row hrow hvisible _ div hdiv hdefine => ?_⟩
  · exact absurd hid (by simp)
  · obtain ⟨rows, heq, -, -, hmem⟩ := getComments_eq my _ div.defineFileId hids
    rw [hdivs div hdiv, heq, List.map_map] at hc
    obtain ⟨row', hrow', rfl⟩ := List.mem_map.mp hc
    obtain ⟨hrow', -, hvisible⟩ := (hmem row').mp hrow'
    obtain rfl := hids.eq_of_id_eq hrow hrow' hrowid
    exact Or.inl hvisible
  · obtain ⟨rows, heq, -, -, hmem⟩ := getComments_eq my _ div.defineFileId hids
    rw [hdivs div hdiv, heq, List.map_map]
    exact ⟨_, List.mem_map_of_mem ((hmem row).mpr ⟨hrow, hdefine.symm, hvisible⟩), rfl⟩

theorem PageOrdered.loaded (hdivs : ∀ div ∈ divs, div.comments =
      (getComments my (afterEvents my events).db div.defineFileId).map ModelComment.div)
    (hdated : Dated (afterEvents my events).db.comments) :
    PageOrdered ⟨divs, [], [], afterEvents my events⟩ := by
  refine ⟨fun div hdiv => ?_, fun _ _ _ _ _ hid => absurd hid List.not_mem_nil, List.Pairwise.nil⟩
  have hsorted := @getComments_sorted my _ (comments_afterEvents my events).1 hdated div.defineFileId
  rw [hdivs div hdiv, List.map_map]
  exact hsorted

end Loaded

/-- The server keeps the comments it had. -/
theorem PageSound.kept_step {my : MySql} {s : CommentsPage} (h : PageSound my s) (e : PageEvent) :
    Kept s.world.db.comments (s.step my e).world.db.comments := by
  obtain ⟨events, hworld⟩ := h.history
  have hkept := fun e => hworld ▸ kept_event my events e
  cases e with
  | clickAdd d text =>
    rcases s.step_clickAdd my d text with heq | heq <;>
      · rw [heq]
        exact Kept.refl _
  | clickHide id =>
    rcases s.step_clickHide my id with heq | ⟨-, heq⟩ <;>
      · rw [heq]
        exact Kept.refl _
  | serve n now =>
    rcases s.step_serve my hworld n now with heq | ⟨req, -, heq⟩
    · rw [heq]
      exact Kept.refl _
    · rw [heq]
      exact hkept _
  | done n =>
    rcases s.step_done my n with heq | ⟨answer, -, heq⟩ <;>
      · rw [heq]
        exact Kept.refl _
  | fail n => exact Kept.refl _
  | other e =>
    rw [s.step_other my hworld]
    exact hkept e

theorem PageSound.kept_steps {my : MySql} {s : CommentsPage} (h : PageSound my s)
    (events : List PageEvent) : Kept s.world.db.comments (s.steps my events).world.db.comments := by
  induction events using List.reverseRecOn with
  | nil => exact Kept.refl _
  | append_singleton events e ih =>
    rw [CommentsPage.steps_concat]
    exact ih.trans ((h.steps events).kept_step e)

/-- Without an answer under way the page shows what is stored. -/
theorem shown_perm_reloaded {my : MySql} {s : CommentsPage} (hsound : PageSound my s)
    (hcurrent : PageCurrent s) (hquiet : s.answers = []) {div : CommentsDiv} (hdiv : div ∈ s.divs) :
    div.shown.Perm (reloaded my s.world.db div.defineFileId) := by
  obtain ⟨history, hworld⟩ := hsound.history
  have hids : Increasing CommentRow.id s.world.db.comments := by
    rw [hworld]
    exact (comments_afterEvents my history).1
  obtain ⟨rows, heq, hnodup, -, hmem⟩ := getComments_eq my s.world.db div.defineFileId hids
  have hreloaded : reloaded my s.world.db div.defineFileId
      = rows.map fun row => (row.id, cString row.comment) := by
    unfold reloaded
    rw [heq, List.map_map]
    rfl
  have hdivSound := hsound.divs div hdiv
  have hfst : (div.shown.map Prod.fst).Nodup := by
    unfold CommentsDiv.shown
    rw [List.map_map]
    exact hdivSound.once
  have hfst' : ((reloaded my s.world.db div.defineFileId).map Prod.fst).Nodup := by
    rw [hreloaded, List.map_map]
    exact hnodup
  refine (List.perm_ext_iff_of_nodup hfst.of_map hfst'.of_map).mpr fun x => ?_
  rw [hreloaded]
  constructor
  · intro hx
    obtain ⟨c, hc, rfl⟩ := List.mem_map.mp hx
    obtain ⟨row, hrow, hid, hdefine, htext⟩ := hdivSound.stored c hc
    have hvisible : row.hided = 0 := by
      rcases hcurrent.shown div hdiv c hc row hrow hid with hvisible | hhide
      · exact hvisible
      · rw [hquiet] at hhide
        exact absurd hhide List.not_mem_nil
    refine List.mem_map.mpr ⟨row, (hmem row).mpr ⟨hrow, hdefine, hvisible⟩, ?_⟩
    rw [hid, htext]
  · intro hx
    obtain ⟨row, hrow, rfl⟩ := List.mem_map.mp hx
    obtain ⟨hrow, hdefine, hvisible⟩ := (hmem row).mp hrow
    have hnot : row.id ∉ addedIds s.answers := by
      rw [hquiet]
      exact List.not_mem_nil
    obtain ⟨c, hc, hid⟩ := hcurrent.visible row hrow hvisible hnot div hdiv hdefine.symm
    obtain ⟨row', hrow', hid', -, htext⟩ := hdivSound.stored c hc
    obtain rfl := hids.eq_of_id_eq hrow' hrow (hid'.trans hid)
    exact List.mem_map.mpr ⟨c, hc, by rw [hid, htext]⟩

end WebDiff
