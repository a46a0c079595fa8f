import WebDiff.Diff.Rows
import WebDiff.Storage.History

/-!
# Comments and their history

A comment is visible when some request of the history added it and no later request hid its id
(`Posted`). The rows of `webdiff_define_files_comments` that are not hidden are the visible comments
(`mem_comments_iff`), and the diff files them under the define ids of its entries
(`comments_follow_history`).
-/

namespace WebDiff

open Program Table

/-- The request at the end of `pre` added the comment `c`, apart from its flag. -/
def AddedAfter (my : MySql) (pre : List Event) (c : CommentRow) : Prop :=
  (run (World.step my) (addComment c.defineFileId c.comment c.dtCreated)
    (afterEvents my pre)).1.id = c.id

/-- The comment was added, and its flag says whether it was hidden since. -/
def Written (my : MySql) (events : List Event) (c : CommentRow) : Prop :=
  ∃ pre post, events = pre ++ .addComment c.defineFileId c.comment c.dtCreated :: post ∧
    AddedAfter my pre c ∧ c.hided = if Event.hideComment c.id ∈ post then 1 else 0

/-- The comment was added and has not been hidden since. -/
def Posted (my : MySql) (events : List Event) (c : CommentRow) : Prop :=
  ∃ pre post, events = pre ++ .addComment c.defineFileId c.comment c.dtCreated :: post ∧
    AddedAfter my pre c ∧ Event.hideComment c.id ∉ post

/-- Where an event stands in a history that is one longer. -/
theorem concat_eq_append_cons_iff {α : Type} {l pre post : List α} {a x : α} :
    l ++ [a] = pre ++ x :: post ↔
      (post = [] ∧ l = pre ∧ a = x) ∨ ∃ post', post = post' ++ [a] ∧ l = pre ++ x :: post' := by
  -- the event `x` is the last one, or the last one is behind it
  rcases List.eq_nil_or_concat' post with rfl | ⟨post', b, rfl⟩
  · constructor
    · intro h
      obtain ⟨rfl, hlast⟩ := List.append_singleton_inj.mp h
      exact Or.inl ⟨rfl, rfl, hlast⟩
    · rintro (⟨-, rfl, rfl⟩ | ⟨post', h, -⟩)
      · rfl
      · exact absurd h.symm (List.append_ne_nil_of_right_ne_nil _ (List.cons_ne_nil _ _))
  · constructor
    · intro h
      have h' : l ++ [a] = (pre ++ x :: post') ++ [b] := by simpa using h
      obtain ⟨rfl, rfl⟩ := List.append_singleton_inj.mp h'
      exact Or.inr ⟨post', rfl, rfl⟩
    · rintro (⟨h, -⟩ | ⟨post'', h, rfl⟩)
      · exact absurd h (List.append_ne_nil_of_right_ne_nil _ (List.cons_ne_nil _ _))
      · rw [h]
        simp

section Written

variable {my : MySql} {events : List Event} {c : CommentRow}

/-- One more request. -/
theorem written_concat (e : Event) :
    Written my (events ++ [e]) c ↔
      (e = .addComment c.defineFileId c.comment c.dtCreated ∧ AddedAfter my events c ∧
        c.hided = 0) ∨
      ∃ hided, Written my events { c with hided := hided } ∧
        c.hided = if e = .hideComment c.id then 1 else hided := by
  constructor
  · rintro ⟨pre, post, hsplit, hadded, hhided⟩
    rcases concat_eq_append_cons_iff.mp hsplit with ⟨rfl, rfl, rfl⟩ | ⟨post', rfl, rfl⟩
    · exact Or.inl ⟨rfl, hadded, by simpa using hhided⟩
    -- the comment was added before `e`, which can hide it
    · refine Or.inr ⟨if Event.hideComment c.id ∈ post' then 1 else 0,
        ⟨pre, post', rfl, hadded, rfl⟩, ?_⟩
      rw [hhided]
      by_cases he : e = .hideComment c.id
      · simp [he]
      · simp [he, Ne.symm he]
  · rintro (⟨rfl, hadded, hhided⟩ | ⟨hided, ⟨pre, post, rfl, hadded, hflag⟩, hhided⟩)
    · exact ⟨events, [], rfl, hadded, by simpa using hhided⟩
    · refine ⟨pre, post ++ [e], by simp, hadded, ?_⟩
      dsimp only at hflag
      rw [hhided, hflag]
      by_cases he : e = .hideComment c.id
      · simp [he]
      · simp [he, Ne.symm he]

theorem posted_iff_written : Posted my events c ↔ Written my events { c with hided := 0 } := by
  refine exists_congr fun pre => exists_congr fun post => and_congr_right fun _ =>
    and_congr_right fun _ => ?_
  by_cases h : Event.hideComment c.id ∈ post <;> simp [h]

end Written

/-- The rows are the comments that were added, with their flags. -/
theorem comments_afterEvents (my : MySql) (events : List Event) :
    Increasing CommentRow.id (afterEvents my events).db.comments ∧
      ∀ c, c ∈ (afterEvents my events).db.comments ↔ Written my events c := by
  induction events using List.reverseRecOn with
  | nil =>
    refine ⟨Increasing.nil, fun c => ⟨fun h => absurd h List.not_mem_nil, ?_⟩⟩
    rintro ⟨pre, post, hsplit, -⟩
    exact absurd hsplit.symm (List.append_ne_nil_of_right_ne_nil _ (List.cons_ne_nil _ _))
  | append_singleton events e ih =>
    obtain ⟨hids, hmem⟩ := ih
    rw [afterEvents_concat_db]
    cases e with
    | upload req =>
      simp only [Event.program, run_bind, run_pure]
      rw [(upload_frame my _ req).comments]
      refine ⟨hids, fun c => ?_⟩
      rw [hmem, written_concat]
      simp
    | addComment d text now =>
      refine ⟨hids.append (my.lastId_lt_nextId _ _ _), fun c => ?_⟩
      rw [written_concat]
      change c ∈ (afterEvents my events).db.comments ++ [_] ↔ _
      rw [List.mem_append, List.mem_singleton, hmem, or_comm]
      refine or_congr ?_ ?_
      · -- the new row is the one the request describes, under the id it got
        constructor
        · rintro rfl
          exact ⟨rfl, rfl, rfl⟩
        · rintro ⟨hevent, hadded, hhided⟩
          cases c with
          | mk id d' text' now' hided =>
            cases hevent
            cases hhided
            cases hadded
            rfl
      · simp
    | hideComment id =>
      -- hiding rewrites the flag of one row
      have hmap : (run (Database.step my) (Event.hideComment id).program
          (afterEvents my events).db).2.comments
            = (afterEvents my events).db.comments.map (CommentRow.hide id) := rfl
      rw [hmap]
      refine ⟨⟨fun c hc => ?_, ?_⟩, fun c => ?_⟩
      · obtain ⟨old, hold, rfl⟩ := List.mem_map.mp hc
        rw [CommentRow.hide_eq]
        exact hids.pos old hold
      · rw [List.pairwise_map]
        simp only [CommentRow.hide_eq]
        exact hids.lt
      · rw [written_concat, List.mem_map]
        simp only [reduceCtorEq, false_and, false_or, Event.hideComment.injEq]
        constructor
        · rintro ⟨old, hold, rfl⟩
          rw [CommentRow.hide_eq]
          exact ⟨old.hided, (hmem old).mp hold, rfl⟩
        · rintro ⟨hided, hwritten, hflag⟩
          refine ⟨{ c with hided := hided }, (hmem _).mpr hwritten, ?_⟩
          rw [CommentRow.hide_eq]
          exact congrArg (fun flag => { c with hided := flag }) hflag.symm

/-- The rows that are not hidden are the visible comments. -/
theorem mem_comments_iff (my : MySql) (events : List Event) (c : CommentRow) :
    (c ∈ (afterEvents my events).db.comments ∧ c.hided = 0) ↔
      Posted my events c ∧ c.hided = 0 := by
  refine and_congr_left fun hhided => ?_
  rw [(comments_afterEvents my events).2, posted_iff_written]
  have hsame : { c with hided := 0 } = c :=
      congrArg (fun flag => { c with hided := flag }) hhided.symm
  rw [hsame]

/-- The comments the diff lists for a define id. -/
theorem getComments_eq (my : MySql) (db : Database) (defineFileId : ℤ)
    (hids : Increasing CommentRow.id db.comments) :
    ∃ rows : List CommentRow,
      getComments my db defineFileId
        = rows.map (fun c => ⟨c.id, c.defineFileId, cString c.comment⟩) ∧
      (rows.map CommentRow.id).Nodup ∧
      rows.Pairwise (fun a b => b.dtCreated ≤ a.dtCreated) ∧
      ∀ c, c ∈ rows ↔ c ∈ db.comments ∧ c.defineFileId = defineFileId ∧ c.hided = 0 := by
  have hperm := my.orderBy_perm (fun a b : CommentRow => b.dtCreated ≤ a.dtCreated)
    (db.comments.filter fun t0 => t0.defineFileId = defineFileId ∧ t0.hided = 0)
  refine ⟨_, rfl, ?_, ?_, fun c => ?_⟩
  -- `ORDER BY` permutes the rows that the `WHERE` selects
  · rw [(hperm.map _).nodup_iff]
    exact hids.nodup_map.sublist (List.filter_sublist.map _)
  · have htrans : ∀ a b c : CommentRow, decide (b.dtCreated ≤ a.dtCreated) = true →
        decide (c.dtCreated ≤ b.dtCreated) = true → decide (c.dtCreated ≤ a.dtCreated) = true := by
      intro a b c hab hbc
      rw [decide_eq_true_eq] at hab hbc ⊢
      exact hbc.trans hab
    have htotal : ∀ a b : CommentRow, (decide (b.dtCreated ≤ a.dtCreated)
        || decide (a.dtCreated ≤ b.dtCreated)) = true := by
      intro a b
      rw [Bool.or_eq_true, decide_eq_true_eq, decide_eq_true_eq]
      exact le_total _ _
    exact (List.pairwise_mergeSort htrans htotal _).imp fun hab => of_decide_eq_true hab
  · rw [hperm.mem_iff, List.mem_filter, decide_eq_true_eq]

/-- **Comments follow their history.** After any sequence of requests, the diff of two versions
files comments under the define ids of its entries and no others; under a define id it lists the
comments that were added for it and not hidden since, each once and the latest first; and hiding one
comment leaves every other comment as visible as it was. -/
theorem comments_follow_history (my : MySql) (events : List Event) (left right : ℤ) :
    (∀ i, i ∈ (getDiff my (afterEvents my events).db left right).mapComments ↔
      ∃ g, ∃ e ∈ (getDiff my (afterEvents my events).db left right).entries g,
        e.defineFileId = i) ∧
    (∀ i cs, (getDiff my (afterEvents my events).db left right).mapComments[i]? = some cs →
      ∃ rows : List CommentRow,
        cs = rows.map (fun c => ⟨c.id, c.defineFileId, cString c.comment⟩) ∧
        (rows.map CommentRow.id).Nodup ∧
        rows.Pairwise (fun a b => b.dtCreated ≤ a.dtCreated) ∧
        ∀ c, c ∈ rows ↔ c.defineFileId = i ∧ Posted my events c ∧ c.hided = 0) ∧
    ∀ commentId c, c.id ≠ commentId →
      ((c ∈ (afterEvents my (events ++ [.hideComment commentId])).db.comments ∧ c.hided = 0) ↔
        c ∈ (afterEvents my events).db.comments ∧ c.hided = 0) := by
  have hids := (history_afterEvents my events).forest.nodup_filesJoin
  have hcomments := mapComments_getDiff my hids left right
  refine ⟨fun i => ?_, fun i cs hcs => ?_, fun commentId c hne => ?_⟩
  · rw [Std.TreeMap.mem_iff_isSome_getElem?, Option.isSome_iff_exists]
    constructor
    · rintro ⟨cs, hcs⟩
      exact ((hcomments i cs).mp hcs).1
    · intro hi
      exact ⟨_, (hcomments i _).mpr ⟨hi, rfl⟩⟩
  · obtain ⟨-, rfl⟩ := (hcomments i cs).mp hcs
    obtain ⟨rows, heq, hnodup, hsorted, hmem⟩ :=
      getComments_eq my (afterEvents my events).db i (comments_afterEvents my events).1
    refine ⟨rows, heq, hnodup, hsorted, fun c => ?_⟩
    rw [hmem, ← mem_comments_iff]
    exact and_left_comm
  -- the event that hides one comment is not about another one
  · rw [mem_comments_iff, mem_comments_iff, posted_iff_written, posted_iff_written, written_concat]
    refine and_congr_left fun _ => ?_
    simp only [reduceCtorEq, false_and, false_or, Event.hideComment.injEq, Ne.symm hne, if_false]
    constructor
    · rintro ⟨hided, hwritten, hflag⟩
      exact hflag ▸ hwritten
    · exact fun hwritten => ⟨0, hwritten, rfl⟩

end WebDiff
