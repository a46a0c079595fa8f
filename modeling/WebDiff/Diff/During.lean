import WebDiff.Diff.Counts
import WebDiff.Framework.Interleaving
import WebDiff.Model.DiffStatements
import WebDiff.Storage.History

/-!
# A diff while others write

The statements of `getDiff` see different tables when other connections write between them. Without
writes they compute `getDiff` (`getDiffStatements_alone`). With any writes of the storage in between,
the diff ends, counts every file once, reports no path as both missing and new, and reports what it
reports of the tables at its beginning and at its end (`diff_during_writes`).
-/

namespace WebDiff

open Program Table

/-! ### Nobody writes -/

section Alone

variable (my : MySql) (dbs : ℕ → Database)

theorem run_readAndAddFile (group : ModelGroup) (fileId : ℤ) (s : ModelDiffGroups × List ℤ) (n : ℕ) :
    run (seeing my dbs) (readAndAddFile group fileId s) n
      = (findAndAddFile my (dbs n) group fileId s, n + 1) :=
  rfl

/-- One round of the loop in front of the others. -/
theorem run_parentsLoop_succ (group : ModelGroup) (fuel : ℕ) (d : ModelDiffGroups) (fileId : ℤ)
    (vIds : List ℤ) (n : ℕ) :
    run (seeing my dbs) (parentsLoop group (fuel + 1) (d, fileId :: vIds)) n
      = if fileId = 0 ∨ fileId ∈ (d.entries group.id).map ModelDiffFile.id then
          run (seeing my dbs) (parentsLoop group fuel (d, vIds)) n
        else
          run (seeing my dbs)
            (parentsLoop group fuel (findAndAddFile my (dbs n) group fileId (d, vIds))) (n + 1) := by
  simp only [← ModelDiffGroups.hasFileId_iff]
  rw [parentsLoop, apply_ite (fun p => run (seeing my dbs) p n), run_bind, run_readAndAddFile]

theorem run_finishDiff (d : ModelDiffGroups) (n : ℕ) :
    run (seeing my dbs) (finishDiff (some d)) n
      = (some (run (seeing my dbs) (readComments d.fileDefineIds d) n).1,
          (run (seeing my dbs) (readComments d.fileDefineIds d) n).2) := by
  unfold finishDiff
  rw [run_bind]
  rfl

variable (db : Database)

/-- The loop repeats its body until the stack is empty. -/
theorem run_parentsLoop_alone (group : ModelGroup) (fuel : ℕ) (s : ModelDiffGroups × List ℤ)
    (n : ℕ) :
    (run (seeing my fun _ => db) (parentsLoop group (fuel + 1) s) n).1
      = if ((parentsStep my db group)^[fuel] s).2 = [] then
          some ((parentsStep my db group)^[fuel] s).1 else none := by
  induction fuel generalizing s n with
  | zero =>
    obtain ⟨d, vIds⟩ := s
    cases vIds with
    | nil => rfl
    | cons fileId vIds =>
      rw [run_parentsLoop_succ]
      split <;> rfl
  | succ fuel ih =>
    obtain ⟨d, vIds⟩ := s
    cases vIds with
    | nil =>
      have hfixed : (parentsStep my db group)^[fuel + 1] (d, []) = (d, []) :=
        Function.iterate_fixed rfl _
      rw [hfixed]
      rfl
    | cons fileId vIds =>
      rw [run_parentsLoop_succ, Function.iterate_succ_apply]
      rcases parentsStep_cases my db group d (fileId :: vIds) with ⟨h, -⟩ | ⟨x, rest, h, hskip, hstep⟩ |
        ⟨x, rest, h, hzero, hnew, hstep⟩
      · cases h
      · obtain ⟨rfl, rfl⟩ := List.cons.inj h
        rw [hstep, if_pos hskip]
        exact ih _ n
      · obtain ⟨rfl, rfl⟩ := List.cons.inj h
        rw [hstep, if_neg (not_or.mpr ⟨hzero, hnew⟩)]
        exact ih _ (n + 1)

theorem run_readParentsOf_alone (d : ModelDiffGroups) (groupId : ℤ) :
    ∃ N, ∀ fuel ≥ N, ∀ n, (run (seeing my fun _ => db) (readParentsOf fuel d groupId) n).1
      = some (searchParentsOf my db d groupId) := by
  unfold readParentsOf searchParentsOf
  cases d.mapGroups[groupId]? with
  | none => exact ⟨0, fun _ _ _ => rfl⟩
  | some g =>
    refine ⟨g.parentFilesIds.length + db.filesJoin.length + 1, fun fuel hfuel n => ?_⟩
    obtain ⟨more, rfl⟩ := Nat.exists_eq_add_of_le hfuel
    -- the stack is empty when the body was repeated as often as in `searchGroupParents`
    have hstack := searchGroupParents_stack my db g.group g.parentFilesIds d
    have hfixed : (parentsStep my db g.group)^[more]
        (searchGroupParents my db g.group g.parentFilesIds d)
          = searchGroupParents my db g.group g.parentFilesIds d := by
      apply Function.iterate_fixed
      rw [← Prod.mk.eta (p := searchGroupParents my db g.group g.parentFilesIds d), hstack]
      rfl
    have hiterate : (parentsStep my db g.group)^[g.parentFilesIds.length + db.filesJoin.length + more]
        (d, g.parentFilesIds.reverse) = searchGroupParents my db g.group g.parentFilesIds d := by
      rw [Nat.add_comm, Function.iterate_add_apply]
      exact hfixed
    have hsucc : g.parentFilesIds.length + db.filesJoin.length + 1 + more
        = g.parentFilesIds.length + db.filesJoin.length + more + 1 := Nat.add_right_comm _ _ _
    rw [hsucc]
    show (run _ (parentsLoop _ _ _) n).1 = _
    rw [run_parentsLoop_alone, hiterate, if_pos hstack]

theorem run_readParents_alone (ks : List ℤ) (d : ModelDiffGroups) :
    ∃ N, ∀ fuel ≥ N, ∀ n, (run (seeing my fun _ => db) (readParents fuel ks d) n).1
      = some (ks.foldl (searchParentsOf my db) d) := by
  induction ks generalizing d with
  | nil => exact ⟨0, fun _ _ _ => rfl⟩
  | cons k rest ih =>
    obtain ⟨N, hN⟩ := run_readParentsOf_alone my db d k
    obtain ⟨N', hN'⟩ := ih (searchParentsOf my db d k)
    refine ⟨max N N', fun fuel hfuel n => ?_⟩
    unfold readParents
    rw [run_bind, hN fuel (le_trans (le_max_left _ _) hfuel)]
    exact hN' fuel (le_trans (le_max_right _ _) hfuel) _

theorem run_readComments_alone (is : List ℤ) (d : ModelDiffGroups) (n : ℕ) :
    (run (seeing my fun _ => db) (readComments is d) n).1
      = is.foldl (fun d defineFileId => d.setComments defineFileId (getComments my db defineFileId))
          d := by
  induction is generalizing d n with
  | nil => rfl
  | cons i rest ih => exact ih _ _

/-- **The statements compute the diff** of tables that do not change. -/
theorem getDiffStatements_alone (left right : ℤ) :
    ∃ N, ∀ fuel ≥ N, (run (seeing my fun _ => db) (getDiffStatements fuel left right) 0).1
      = some (getDiff my db left right) := by
  obtain ⟨N, hN⟩ := run_readParents_alone my db (differingGroups my db left right).mapGroups.keys
    (differingGroups my db left right)
  refine ⟨N, fun fuel hfuel => ?_⟩
  have hread : ∀ n, run (seeing my fun _ => db)
      (readDiffFiles left right .missing ModelDiffGroups.new >>= readDiffFiles right left .new) n
        = (differingGroups my db left right, n + 2) := fun _ => rfl
  have hbind : getDiffStatements fuel left right
      = (readDiffFiles left right .missing ModelDiffGroups.new >>= readDiffFiles right left .new)
          >>= fun d => readParents fuel d.mapGroups.keys d >>= finishDiff := rfl
  rw [hbind, run_bind, hread, run_bind, hN fuel hfuel, run_finishDiff]
  exact congrArg some (run_readComments_alone my db _ _ _)

end Alone

/-! ### Tables that grow -/

section Growing

variable {db db' : Database}

theorem Database.Grows.exists_join (h : db.Grows db') {t : FileRow × DefineFileRow}
    (ht : t ∈ db.filesJoin) : ∃ t' ∈ db'.filesJoin, t'.1.toFileLink = t.1.toFileLink := by
  obtain ⟨hfile, hdefine, hid⟩ := mem_filesJoin.mp ht
  obtain ⟨t0, ht0, hlink⟩ := List.mem_map.mp (h.links (List.mem_map_of_mem hfile))
  refine ⟨(t0, t.2), mem_filesJoin.mpr ⟨ht0, h.defineFiles hdefine, ?_⟩, hlink⟩
  rw [hid, ← hlink]

theorem grows_of_le {dbs : ℕ → Database} (hgrows : ∀ n, (dbs n).Grows (dbs (n + 1))) {m n : ℕ}
    (h : m ≤ n) : (dbs m).Grows (dbs n) := by
  induction n, h using Nat.le_induction with
  | base => exact Database.Grows.refl _
  | succ n _ ih => exact ih.trans (hgrows n)

/-- The subquery of `getDiffFiles` looks for the key of the other version. -/
theorem differs_iff_links {v w : ℤ} {t0 : FileRow} :
    db.differs v w t0 = true ↔
      t0.versionId = v ∧ ∀ l ∈ db.links, l.key ≠ (w, t0.fileGroupId, t0.defineFileId) := by
  unfold Database.differs
  rw [Bool.and_eq_true, decide_eq_true_eq, Bool.not_eq_true', ← Bool.not_eq_true,
    List.contains_iff_mem]
  refine and_congr_right fun _ => ?_
  simp only [List.mem_map, List.mem_filter, decide_eq_true_eq, Database.links, FileLink.key]
  constructor
  · intro h l hl heq
    obtain ⟨t10, ht10, rfl⟩ := hl
    obtain ⟨hv, hrest⟩ := Prod.mk.inj heq
    obtain ⟨hg, hd⟩ := Prod.mk.inj hrest
    exact h ⟨t10, ⟨ht10, hv, hg.symm⟩, hd⟩
  · intro h hmem
    obtain ⟨t10, ⟨ht10, hv, hg⟩, hd⟩ := hmem
    apply h _ ⟨t10, ht10, rfl⟩
    rw [hv, ← hg, hd]

theorem PrimaryKeys.nodup_links (h : PrimaryKeys db) : (db.links.map FileLink.id).Nodup := by
  unfold Database.links
  rw [List.map_map]
  exact h.files

end Growing

/-! ### The parents -/

/-- The rows `ts` were looked up between the statements `n` and `n'`: those of the ids `xs` that were
not among the ids `seen`. -/
structure Added (dbs : ℕ → Database) (xs seen : List ℤ) (n n' : ℕ)
    (ts : List (FileRow × DefineFileRow)) : Prop where
  nodup : (ts.map fun t => t.1.id).Nodup
  read : ∀ t ∈ ts, ∃ i, n ≤ i ∧ i < n' ∧ t ∈ (dbs i).filesJoin
  wanted : ∀ t ∈ ts, t.1.id ∈ xs ∧ t.1.id ≠ 0 ∧ t.1.id ∉ seen
  found : ∀ t ∈ (dbs n).filesJoin, t.1.id ∈ xs → t.1.id ≠ 0 → t.1.id ∉ seen →
    t.1.id ∈ ts.map fun t => t.1.id

namespace Added

variable {dbs : ℕ → Database} {xs seen : List ℤ} {x : ℤ} {n n' : ℕ}
  {ts : List (FileRow × DefineFileRow)}

theorem nil (dbs : ℕ → Database) (seen : List ℤ) (n : ℕ) : Added dbs [] seen n n [] where
  nodup := List.nodup_nil
  read := fun _ ht => absurd ht List.not_mem_nil
  wanted := fun _ ht => absurd ht List.not_mem_nil
  found := fun _ _ hx => absurd hx List.not_mem_nil

/-- What is wanted only matters as a set. -/
theorem congr {ys : List ℤ} (h : Added dbs xs seen n n' ts) (hxs : ∀ y, y ∈ xs ↔ y ∈ ys) :
    Added dbs ys seen n n' ts where
  nodup := h.nodup
  read := h.read
  wanted := fun t ht => ⟨(hxs _).mp (h.wanted t ht).1, (h.wanted t ht).2⟩
  found := fun t ht hys => h.found t ht ((hxs _).mpr hys)

/-- An id that is not looked up. -/
theorem skip (h : Added dbs xs seen n n' ts) (hskip : x = 0 ∨ x ∈ seen) :
    Added dbs (x :: xs) seen n n' ts where
  nodup := h.nodup
  read := h.read
  wanted := fun t ht => ⟨List.mem_cons_of_mem _ (h.wanted t ht).1, (h.wanted t ht).2⟩
  found := by
    intro t ht hmem hzero hnew
    rcases List.mem_cons.mp hmem with hx | hxs
    · exact absurd hskip (hx ▸ not_or.mpr ⟨hzero, hnew⟩)
    · exact h.found t ht hxs hzero hnew

section Growing

variable (hgrows : ∀ n, (dbs n).Grows (dbs (n + 1)))
include hgrows

theorem mono {m k : ℕ} (h : Added dbs xs seen n n' ts) (hm : m ≤ n) (hk : n' ≤ k) :
    Added dbs xs seen m k ts where
  nodup := h.nodup
  read := by
    intro t ht
    obtain ⟨i, hn, hn', hread⟩ := h.read t ht
    exact ⟨i, hm.trans hn, hn'.trans_le hk, hread⟩
  wanted := h.wanted
  found := by
    intro t ht hxs hzero hnew
    obtain ⟨t', ht', hlink⟩ := (grows_of_le hgrows hm).exists_join ht
    have hid : t'.1.id = t.1.id := congrArg FileLink.id hlink
    rw [← hid] at hxs hzero hnew ⊢
    exact h.found t' ht' hxs hzero hnew

/-- An id without a row. -/
theorem missed (h : Added dbs xs seen (n + 1) n' ts) (hnone : ∀ t ∈ (dbs n).filesJoin, t.1.id ≠ x) :
    Added dbs (x :: xs) seen n n' ts := by
  have hmono := h.mono hgrows (Nat.le_succ n) (le_refl n')
  refine { hmono with wanted := ?_, found := ?_ }
  · exact fun t ht => ⟨List.mem_cons_of_mem _ (h.wanted t ht).1, (h.wanted t ht).2⟩
  · intro t ht hmem hzero hnew
    rcases List.mem_cons.mp hmem with hx | hxs
    · exact absurd hx (hnone t ht)
    · exact hmono.found t ht hxs hzero hnew

/-- An id with a row. -/
theorem looked {row : FileRow × DefineFileRow} (h : Added dbs xs (seen ++ [x]) (n + 1) n' ts)
    (hle : n + 1 ≤ n') (hrow : row ∈ (dbs n).filesJoin) (hid : row.1.id = x) (hzero : x ≠ 0)
    (hnew : x ∉ seen) : Added dbs (x :: xs) seen n n' (row :: ts) := by
  have hmono := h.mono hgrows (Nat.le_succ n) (le_refl n')
  have hother : ∀ t ∈ ts, t.1.id ∉ seen ∧ t.1.id ≠ x := by
    intro t ht
    have hseen := (h.wanted t ht).2.2
    rw [List.mem_append, List.mem_singleton, not_or] at hseen
    exact hseen
  refine ⟨?_, ?_, ?_, ?_⟩
  · rw [List.map_cons, List.nodup_cons]
    refine ⟨fun hmem => ?_, h.nodup⟩
    obtain ⟨t, ht, heq⟩ := List.mem_map.mp hmem
    exact (hother t ht).2 (heq.trans hid)
  · intro t ht
    rcases List.mem_cons.mp ht with rfl | ht
    · exact ⟨n, le_refl n, hle, hrow⟩
    · exact hmono.read t ht
  · intro t ht
    rcases List.mem_cons.mp ht with rfl | ht
    · rw [hid]
      exact ⟨List.mem_cons_self, hzero, hnew⟩
    · exact ⟨List.mem_cons_of_mem _ (h.wanted t ht).1, (h.wanted t ht).2.1, (hother t ht).1⟩
  · intro t ht hmem hzero' hnew'
    rw [List.map_cons, List.mem_cons]
    by_cases hx : t.1.id = x
    · exact Or.inl (hx.trans hid.symm)
    · refine Or.inr (hmono.found t ht ((List.mem_cons.mp hmem).resolve_left hx) hzero' ?_)
      rw [List.mem_append, List.mem_singleton, not_or]
      exact ⟨hnew', hx⟩

end Growing

end Added

section Seeing

variable (my : MySql) {dbs : ℕ → Database} (hgrows : ∀ n, (dbs n).Grows (dbs (n + 1)))
  (hkeys : ∀ n, PrimaryKeys (dbs n))
include hgrows hkeys

/-- **The loop over the stack ends**: an id on the stack is looked up once and then discarded. -/
theorem run_parentsLoop (group : ModelGroup) (vIds : List ℤ) (d : ModelDiffGroups) (n : ℕ) :
    ∃ ts n', n ≤ n' ∧ Added dbs vIds ((d.entries group.id).map ModelDiffFile.id) n n' ts ∧
      ∀ fuel > 2 * vIds.length, run (seeing my dbs) (parentsLoop group fuel (d, vIds)) n
        = (some (ts.foldl (fun d t => d.addDiffFile group (diffFile .none t)) d), n') := by
  induction vIds generalizing d n with
  | nil =>
    refine ⟨[], n, le_refl n, Added.nil _ _ _, fun fuel hfuel => ?_⟩
    obtain ⟨fuel, rfl⟩ := Nat.exists_eq_succ_of_ne_zero (Nat.ne_of_gt hfuel)
    rfl
  | cons x rest ih =>
    -- two rounds are enough for an id
    have hrounds : ∀ fuel > 2 * (x :: rest).length, ∃ m > 2 * rest.length, fuel = m + 2 := by
      intro fuel hfuel
      rw [List.length_cons] at hfuel
      exact ⟨fuel - 2, by omega, by omega⟩
    by_cases hskip : x = 0 ∨ x ∈ (d.entries group.id).map ModelDiffFile.id
    · obtain ⟨ts, n', hle, hadded, hrun⟩ := ih d n
      refine ⟨ts, n', hle, hadded.skip hskip, fun fuel hfuel => ?_⟩
      obtain ⟨m, hm, rfl⟩ := hrounds fuel hfuel
      rw [run_parentsLoop_succ, if_pos hskip]
      exact hrun (m + 1) (Nat.lt_succ_of_lt hm)
    · obtain ⟨hzero, hnew⟩ := not_or.mp hskip
      have hfound : findAndAddFile my (dbs n) group x (d, rest) = _ :=
        findAndAddFile_eq group x d rest
      have hmem : ∀ t, t ∈ foundFiles my (dbs n) x ↔ t ∈ (dbs n).filesJoin ∧ t.1.id = x :=
        fun t => mem_foundFiles
      have hlen : (foundFiles my (dbs n) x).length ≤ 1 := by
        have hperm : (foundFiles my (dbs n) x).Perm
            ((dbs n).filesJoin.filter fun t => t.1.id = x) := my.scan_perm _
        rw [hperm.length_eq]
        exact length_filter_le (hkeys n).nodup_filesJoin x
      match hrows : foundFiles my (dbs n) x, hlen with
      | [], _ =>
        rw [hrows] at hfound hmem
        obtain ⟨ts, n', hle, hadded, hrun⟩ := ih d (n + 1)
        refine ⟨ts, n', Nat.le_of_succ_le hle, hadded.missed hgrows ?_, fun fuel hfuel => ?_⟩
        · exact fun t ht hx => absurd ((hmem t).mpr ⟨ht, hx⟩) List.not_mem_nil
        · obtain ⟨m, hm, rfl⟩ := hrounds fuel hfuel
          rw [run_parentsLoop_succ, if_neg hskip, hfound]
          exact hrun (m + 1) (Nat.lt_succ_of_lt hm)
      -- the row gets an entry, and the id it pushes is discarded
      | [row], _ =>
        rw [hrows] at hfound hmem
        obtain ⟨hrow, hid⟩ := (hmem row).mp List.mem_cons_self
        have hids : ((d.addDiffFile group (diffFile .none row)).entries group.id).map
            ModelDiffFile.id = (d.entries group.id).map ModelDiffFile.id ++ [x] := by
          rw [ModelDiffGroups.entries_addDiffFile, if_pos rfl, List.map_append, ← hid]
          rfl
        obtain ⟨ts, n', hle, hadded, hrun⟩ := ih (d.addDiffFile group (diffFile .none row)) (n + 1)
        rw [hids] at hadded
        refine ⟨row :: ts, n', Nat.le_of_succ_le hle,
          hadded.looked hgrows hle hrow hid hzero hnew, fun fuel hfuel => ?_⟩
        obtain ⟨m, hm, rfl⟩ := hrounds fuel hfuel
        have hstack : findAndAddFile my (dbs n) group x (d, rest)
            = (d.addDiffFile group (diffFile .none row), x :: rest) := by
          rw [hfound, ← hid]
          rfl
        rw [run_parentsLoop_succ, if_neg hskip, hstack, run_parentsLoop_succ, hids, if_pos]
        · exact hrun m hm
        · exact Or.inr (List.mem_append_right _ List.mem_cons_self)

/-- The entries `E'` are the entries `E`, with parents looked up between the statements `n` and
`n'`. -/
def ParentsRead (dbs : ℕ → Database) (n n' : ℕ) (E E' : List ModelDiffFile) : Prop :=
  ∃ ts, E' = E ++ ts.map (diffFile .none) ∧
    Added dbs (E.map ModelDiffFile.parentFileId) (E.map ModelDiffFile.id) n n' ts

/-- One round of the loop over the groups changes one group. -/
theorem run_readParentsOf {d : ModelDiffGroups} (h : d.WellFormed) (groupId : ℤ) (n : ℕ) :
    ∃ d' n', n ≤ n' ∧ d'.WellFormed ∧
      ParentsRead dbs n n' (d.entries groupId) (d'.entries groupId) ∧
      (∀ k, k ≠ groupId → d'.entries k = d.entries k) ∧
      ∃ N, ∀ fuel ≥ N, run (seeing my dbs) (readParentsOf fuel d groupId) n = (some d', n') := by
  unfold readParentsOf
  cases hg : d.mapGroups[groupId]? with
  | none =>
    -- a group that is not there has no entries
    have hnil : d.entries groupId = [] := by simp [ModelDiffGroups.entries, hg]
    refine ⟨d, n, le_refl n, h, ⟨[], ?_, ?_⟩, fun _ _ => rfl, 0, fun _ _ => rfl⟩
    · rw [List.map_nil, List.append_nil]
    · rw [hnil]
      exact Added.nil _ _ _
  | some g =>
    obtain rfl := h.group_id _ _ hg
    have hids : g.parentFilesIds = (d.entries g.group.id).map ModelDiffFile.parentFileId := by
      rw [g.parentFilesIds_eq, ← ModelDiffGroups.entries_of_mem hg]
    obtain ⟨ts, n', hle, hadded, hrun⟩ :=
      run_parentsLoop my hgrows hkeys g.group g.parentFilesIds.reverse d n
    refine ⟨_, n', hle, h.foldl ts (fun _ => g.group) (diffFile .none), ⟨ts, ?_, ?_⟩,
      fun k hk => ?_, 2 * g.parentFilesIds.reverse.length + 1, fun fuel hfuel => ?_⟩
    · rw [ModelDiffGroups.entries_foldl, List.filter_eq_self.mpr fun _ _ => decide_eq_true rfl]
    · apply hadded.congr
      intro y
      rw [List.mem_reverse, hids]
    · rw [ModelDiffGroups.entries_foldl, List.filter_eq_nil_iff.mpr, List.map_nil, List.append_nil]
      exact fun _ _ heq => hk (of_decide_eq_true heq).symm
    · exact hrun fuel hfuel

omit my hkeys in
theorem ParentsRead.mono {m n n' k : ℕ} {E E' : List ModelDiffFile} (h : ParentsRead dbs n n' E E')
    (hm : m ≤ n) (hk : n' ≤ k) : ParentsRead dbs m k E E' := by
  obtain ⟨ts, hE, hadded⟩ := h
  exact ⟨ts, hE, hadded.mono hgrows hm hk⟩

/-- The loop over the groups treats every group by itself. -/
theorem run_readParents {ks : List ℤ} (hks : ks.Nodup) {d : ModelDiffGroups} (h : d.WellFormed)
    (n : ℕ) :
    ∃ d' n', n ≤ n' ∧ d'.WellFormed ∧
      (∀ k ∈ ks, ParentsRead dbs n n' (d.entries k) (d'.entries k)) ∧
      (∀ k, k ∉ ks → d'.entries k = d.entries k) ∧
      ∃ N, ∀ fuel ≥ N, run (seeing my dbs) (readParents fuel ks d) n = (some d', n') := by
  induction ks generalizing d n with
  | nil =>
    exact ⟨d, n, le_refl n, h, fun _ hk => absurd hk List.not_mem_nil, fun _ _ => rfl, 0,
      fun _ _ => rfl⟩
  | cons k rest ih =>
    obtain ⟨hk, hrest⟩ := List.nodup_cons.mp hks
    obtain ⟨d₁, n₁, hle, hwf, hparents, hothers, N, hN⟩ := run_readParentsOf my hgrows hkeys h k n
    obtain ⟨d₂, n₂, hle', hwf', hparents', hothers', N', hN'⟩ := ih hrest hwf n₁
    refine ⟨d₂, n₂, hle.trans hle', hwf', fun j hj => ?_, fun j hj => ?_, max N N',
      fun fuel hfuel => ?_⟩
    · rcases List.mem_cons.mp hj with rfl | hj
      -- the groups behind `k` are different from it and leave its entries alone
      · rw [hothers' j hk]
        exact hparents.mono hgrows (le_refl n) hle'
      · have hne : j ≠ k := fun hjk => hk (hjk ▸ hj)
        rw [← hothers j hne]
        exact (hparents' j hj).mono hgrows hle (le_refl n₂)
    · rw [List.mem_cons, not_or] at hj
      rw [hothers' j hj.2, hothers j hj.1]
    · unfold readParents
      rw [run_bind, hN fuel (le_trans (le_max_left _ _) hfuel)]
      exact hN' fuel (le_trans (le_max_right _ _) hfuel)

variable (dbs) in
omit hgrows hkeys in
/-- The comments of a file are those of the tables their statement sees. -/
theorem run_readComments (is : List ℤ) (d : ModelDiffGroups) (n : ℕ) :
    ∃ d' n', run (seeing my dbs) (readComments is d) n = (d', n') ∧ n ≤ n' ∧
      d'.mapGroups = d.mapGroups ∧
      (∀ i ∈ is, ∃ j, n ≤ j ∧ j < n' ∧ d'.mapComments[i]? = some (getComments my (dbs j) i)) ∧
      ∀ i, i ∉ is → d'.mapComments[i]? = d.mapComments[i]? := by
  induction is generalizing d n with
  | nil =>
    exact ⟨d, n, rfl, le_refl n, rfl, fun _ hi => absurd hi List.not_mem_nil, fun _ _ => rfl⟩
  | cons x rest ih =>
    obtain ⟨d', n', hrun, hle, hgroups, hcomments, hothers⟩ :=
      ih (d.setComments x (getComments my (dbs n) x)) (n + 1)
    refine ⟨d', n', hrun, Nat.le_of_succ_le hle, hgroups, fun i hi => ?_, fun i hi => ?_⟩
    · by_cases hmem : i ∈ rest
      · obtain ⟨j, hj, hj', hread⟩ := hcomments i hmem
        exact ⟨j, Nat.le_of_succ_le hj, hj', hread⟩
      · obtain rfl := (List.mem_cons.mp hi).resolve_right hmem
        refine ⟨n, le_refl n, hle, ?_⟩
        rw [hothers i hmem, ModelDiffGroups.setComments, Std.TreeMap.getElem?_insert_self]
    · rw [List.mem_cons, not_or] at hi
      rw [hothers i hi.2, ModelDiffGroups.setComments, Std.TreeMap.getElem?_insert, if_neg]
      exact fun h => hi.1 (Std.LawfulEqCmp.eq_of_compare h).symm

/-! ### The whole diff -/

/-- The entries of a group before the parents are searched, when the tables have become `db'` before
the second statement. -/
def differingSeen (my : MySql) (db db' : Database) (left right groupId : ℤ) : List ModelDiffFile :=
  (diffRows my db left right groupId).map (diffFile .missing)
    ++ (diffRows my db' right left groupId).map (diffFile .new)

/-- What a diff consists of whose statements see the tables `dbs`. -/
structure Seen (my : MySql) (dbs : ℕ → Database) (k : ℕ) (left right : ℤ) (d : ModelDiffGroups) :
    Prop where
  two_le : 2 ≤ k
  entries : ∀ g, ParentsRead dbs 2 k (differingSeen my (dbs 0) (dbs 1) left right g) (d.entries g)
  comments : ∀ g, ∀ e ∈ d.entries g, ∃ j < k,
    d.mapComments[e.defineFileId]? = some (getComments my (dbs j) e.defineFileId)

/-- **Every diff ends**, and this is what it consists of. -/
theorem run_getDiffStatements (left right : ℤ) :
    ∃ N d k, (∀ fuel ≥ N,
      run (seeing my dbs) (getDiffStatements fuel left right) 0 = (some d, k)) ∧
        Seen my dbs k left right d := by
  have hread : ∀ d : ModelDiffGroups, ∀ v w state n,
      run (seeing my dbs) (readDiffFiles v w state d) n
        = (getDiffFiles my (dbs n) v w state d, n + 1) := fun _ _ _ _ _ => rfl
  -- the groups when the differing rows have been collected
  generalize hd₀ : getDiffFiles my (dbs 1) right left .new
    (getDiffFiles my (dbs 0) left right .missing ModelDiffGroups.new) = d₀
  have hwf₀ : d₀.WellFormed := hd₀ ▸ (ModelDiffGroups.WellFormed.new.foldl _ _ _).foldl _ _ _
  have hentries₀ : ∀ g, d₀.entries g = differingSeen my (dbs 0) (dbs 1) left right g := by
    intro g
    unfold differingSeen
    rw [← hd₀, entries_getDiffFiles, entries_getDiffFiles, ModelDiffGroups.entries_new,
      List.nil_append]
  obtain ⟨d₁, n₁, hle, hwf, hparents, hothers, N, hN⟩ :=
    run_readParents my hgrows hkeys d₀.mapGroups.nodup_keys hwf₀ 2
  obtain ⟨d₂, n₂, hrun, hle', hgroups, hcomments, -⟩ :=
    run_readComments my dbs d₁.fileDefineIds d₁ n₁
  have hentries : ∀ g, d₂.entries g = d₁.entries g := by
    intro g
    unfold ModelDiffGroups.entries
    rw [hgroups]
  refine ⟨N, d₂, n₂, fun fuel hfuel => ?_, hle.trans hle', fun g => ?_, fun g e he => ?_⟩
  · unfold getDiffStatements
    rw [run_bind, hread, run_bind, hread]
    show run _ (readParents fuel _ (getDiffFiles my (dbs 1) right left .new
      (getDiffFiles my (dbs 0) left right .missing ModelDiffGroups.new)) >>= finishDiff) 2 = _
    rw [hd₀, run_bind, hN fuel hfuel, run_finishDiff, hrun]
  · rw [hentries, ← hentries₀]
    by_cases hg : g ∈ d₀.mapGroups.keys
    · exact (hparents g hg).mono hgrows (le_refl 2) hle'
    · have hnone : d₀.mapGroups[g]? = none := by
        rw [Std.TreeMap.mem_keys] at hg
        exact Std.TreeMap.getElem?_eq_none hg
      have hnil : d₀.entries g = [] := by simp [ModelDiffGroups.entries, hnone]
      rw [hothers g hg, hnil]
      exact ⟨[], rfl, (Added.nil dbs [] 2).mono hgrows (le_refl 2) (hle.trans hle')⟩
  · rw [hentries] at he
    obtain ⟨j, -, hj, hread⟩ := hcomments _ ((hwf.defineIds _).mpr ⟨g, e, he, rfl⟩)
    exact ⟨j, hj, hread⟩

end Seeing

/-! ### What the diff says of the tables -/

/-- The entry is made of the file. -/
structure ModelDiffFile.Of (e : ModelDiffFile) (l : FileLink) : Prop where
  id : e.id = l.id
  parentFileId : e.parentFileId = l.parentId
  defineFileId : e.defineFileId = l.defineFileId

theorem diffFile_of (state : DiffState) (t : FileRow × DefineFileRow) :
    (diffFile state t).Of t.1.toFileLink :=
  ⟨rfl, rfl, rfl⟩

/-- The entries with this state are files of `v` which `w` did not have when the diff began, and all
files that `v` had by then and which `w` has not even when it ends. -/
structure Reports (first last : Database) (v w : ℤ) (state : DiffState) (d : ModelDiffGroups) :
    Prop where
  sound : ∀ g, ∀ e ∈ d.entries g, e.state = state → ∃ l ∈ last.links, e.Of l ∧
    l.versionId = v ∧ l.fileGroupId = g ∧ ∀ l' ∈ first.links, l'.key ≠ (w, g, l.defineFileId)
  complete : ∀ t ∈ first.filesJoin, t.1.versionId = v →
    (∃ row ∈ first.fileGroups, row.id = t.1.fileGroupId) →
    (∀ l ∈ last.links, l.key ≠ (w, t.1.fileGroupId, t.1.defineFileId)) →
    ∃ e ∈ d.entries t.1.fileGroupId, e.state = state ∧ e.Of t.1.toFileLink

/-- What a diff says when the tables grow from `first` to `last` while it is made. -/
structure DiffDuring (first last : Database) (left right : ℤ) (d : ModelDiffGroups) : Prop where
  once : CountsOnce d
  missing : Reports first last left right .missing d
  new : Reports first last right left .new d
  apart : ∀ g, ∀ e ∈ d.entries g, ∀ e' ∈ d.entries g, e.state = .missing → e'.state = .new →
    e.defineFileId ≠ e'.defineFileId
  parents : ∀ g, ∀ e ∈ d.entries g, e.state ≠ .none → e.parentFileId ≠ 0 →
    (∃ t ∈ first.filesJoin, t.1.id = e.parentFileId) →
    ∃ e' ∈ d.entries g, e'.id = e.parentFileId
  above : ∀ g, ∀ e ∈ d.entries g, e.state = .none → (∃ l ∈ last.links, e.Of l) ∧
    ∃ e' ∈ d.entries g, e'.state ≠ .none ∧ e'.parentFileId = e.id

section Consequences

variable {my : MySql} {left right g : ℤ}

theorem mem_diffRows_links {db : Database} {v w : ℤ} {t : FileRow × DefineFileRow} :
    t ∈ diffRows my db v w g ↔ t ∈ db.filesJoin ∧ t.1.fileGroupId = g ∧
      (∃ row ∈ db.fileGroups, row.id = g) ∧ t.1.versionId = v ∧
        ∀ l ∈ db.links, l.key ≠ (w, g, t.1.defineFileId) := by
  rw [mem_diffRows, differs_iff_links]
  constructor
  · rintro ⟨hjoin, rfl, hgroup, hv, hnot⟩
    exact ⟨hjoin, rfl, hgroup, hv, hnot⟩
  · rintro ⟨hjoin, rfl, hgroup, hv, hnot⟩
    exact ⟨hjoin, rfl, hgroup, hv, hnot⟩

theorem mem_differingSeen {db db' : Database} {e : ModelDiffFile} :
    e ∈ differingSeen my db db' left right g ↔
      (∃ t ∈ diffRows my db left right g, e = diffFile .missing t) ∨
        ∃ t ∈ diffRows my db' right left g, e = diffFile .new t := by
  unfold differingSeen
  simp only [List.mem_append, List.mem_map, eq_comm]

/-- The two statements find different files, and different paths. -/
theorem diffRows_apart {db db' : Database} (hgrows : db.Grows db') {t t' : FileRow × DefineFileRow}
    (ht : t ∈ diffRows my db left right g) (ht' : t' ∈ diffRows my db' right left g) :
    t.1.defineFileId ≠ t'.1.defineFileId := by
  obtain ⟨hjoin, hg, -, hv, -⟩ := mem_diffRows_links.mp ht
  obtain ⟨-, -, -, -, hnot⟩ := mem_diffRows_links.mp ht'
  intro heq
  apply hnot _ (hgrows.links (mem_links_of_mem_filesJoin hjoin))
  unfold FileLink.key
  rw [hv, hg, heq]

theorem nodup_differingSeen {db db' : Database} (hgrows : db.Grows db') (h : PrimaryKeys db)
    (h' : PrimaryKeys db') :
    ((differingSeen my db db' left right g).map ModelDiffFile.id).Nodup := by
  have hids : ∀ db state v w, ((diffRows my db v w g).map (diffFile state)).map ModelDiffFile.id
      = (diffRows my db v w g).map fun t => t.1.id := by
    intro db state v w
    rw [List.map_map]
    rfl
  unfold differingSeen
  rw [List.map_append, hids, hids, List.nodup_append]
  refine ⟨h.nodup_diffRows my left right g, h'.nodup_diffRows my right left g, ?_⟩
  intro i hi j hj hij
  obtain ⟨t, ht, rfl⟩ := List.mem_map.mp hi
  obtain ⟨t', ht', rfl⟩ := List.mem_map.mp hj
  -- a row keeps its id, so rows with one id are one row
  have hlink : t.1.toFileLink = t'.1.toFileLink :=
    List.inj_on_of_nodup_map h'.nodup_links
      (hgrows.links (mem_links_of_mem_filesJoin (mem_diffRows.mp ht).1))
      (mem_links_of_mem_filesJoin (mem_diffRows.mp ht').1) hij
  exact diffRows_apart hgrows ht ht' (congrArg FileLink.defineFileId hlink)

end Consequences

/-- Entries made of the differing rows of tables between `first` and `last`. -/
theorem reports_of_diffRows {my : MySql} {first db last : Database} (hfirst : first.Grows db)
    (hlast : db.Grows last) {v w : ℤ} {state : DiffState} {d : ModelDiffGroups}
    (hsound : ∀ g, ∀ e ∈ d.entries g, e.state = state →
      ∃ t ∈ diffRows my db v w g, e = diffFile state t)
    (hcomplete : ∀ g, ∀ t ∈ diffRows my db v w g, diffFile state t ∈ d.entries g) :
    Reports first last v w state d where
  sound := by
    intro g e he hstate
    obtain ⟨t, ht, rfl⟩ := hsound g e he hstate
    obtain ⟨hjoin, hg, -, hv, hnot⟩ := mem_diffRows_links.mp ht
    exact ⟨_, hlast.links (mem_links_of_mem_filesJoin hjoin), diffFile_of _ t, hv, hg,
      fun l hl => hnot l (hfirst.links hl)⟩
  complete := by
    intro t ht hv hgroup hnot
    obtain ⟨t', ht', hlink⟩ := hfirst.exists_join ht
    obtain ⟨row, hrow, hid⟩ := hgroup
    have hmem : t' ∈ diffRows my db v w t.1.fileGroupId := by
      refine mem_diffRows_links.mpr ⟨ht', congrArg FileLink.fileGroupId hlink,
        ⟨row, hfirst.fileGroups hrow, hid⟩, (congrArg FileLink.versionId hlink).trans hv,
        fun l hl => ?_⟩
      have hdefine : t'.1.defineFileId = t.1.defineFileId := congrArg FileLink.defineFileId hlink
      rw [hdefine]
      exact hnot l (hlast.links hl)
    exact ⟨_, hcomplete _ t' hmem, rfl, hlink ▸ diffFile_of state t'⟩

namespace Seen

variable {my : MySql} {dbs : ℕ → Database} {k : ℕ} {left right : ℤ} {d : ModelDiffGroups}
  (h : Seen my dbs k left right d)
include h

theorem mem_entries {g : ℤ} {e : ModelDiffFile}
    (he : e ∈ differingSeen my (dbs 0) (dbs 1) left right g) : e ∈ d.entries g := by
  obtain ⟨ts, hE, -⟩ := h.entries g
  rw [hE]
  exact List.mem_append_left _ he

/-- The entries of a diff, by their states. -/
theorem entry_cases {g : ℤ} {e : ModelDiffFile} (he : e ∈ d.entries g) :
    (∃ t ∈ diffRows my (dbs 0) left right g, e = diffFile .missing t) ∨
      (∃ t ∈ diffRows my (dbs 1) right left g, e = diffFile .new t) ∨
      ∃ t i, i < k ∧ t ∈ (dbs i).filesJoin ∧ e = diffFile .none t ∧
        ∃ e' ∈ differingSeen my (dbs 0) (dbs 1) left right g, e'.parentFileId = e.id := by
  obtain ⟨ts, hE, hadded⟩ := h.entries g
  rw [hE] at he
  rcases List.mem_append.mp he with he | he
  · rcases mem_differingSeen.mp he with hmissing | hnew
    · exact Or.inl hmissing
    · exact Or.inr (Or.inl hnew)
  · obtain ⟨t, ht, rfl⟩ := List.mem_map.mp he
    obtain ⟨i, -, hi, hread⟩ := hadded.read t ht
    obtain ⟨e', he', hparent⟩ := List.mem_map.mp (hadded.wanted t ht).1
    exact Or.inr (Or.inr ⟨t, i, hi, hread, rfl, e', he', hparent⟩)

theorem missing_iff {g : ℤ} {e : ModelDiffFile} :
    (e ∈ d.entries g ∧ e.state = .missing) ↔
      ∃ t ∈ diffRows my (dbs 0) left right g, e = diffFile .missing t := by
  refine ⟨fun he => ?_, fun hrow => ?_⟩
  · obtain ⟨he, hstate⟩ := he
    rcases h.entry_cases he with hrow | ⟨t, -, rfl⟩ | ⟨t, i, -, -, rfl, -⟩
    · exact hrow
    · exact absurd hstate.symm DiffState.missing_ne_new
    · exact absurd hstate.symm DiffState.missing_ne_none
  · obtain ⟨t, ht, rfl⟩ := hrow
    exact ⟨h.mem_entries (mem_differingSeen.mpr (Or.inl ⟨t, ht, rfl⟩)), rfl⟩

theorem new_iff {g : ℤ} {e : ModelDiffFile} :
    (e ∈ d.entries g ∧ e.state = .new) ↔
      ∃ t ∈ diffRows my (dbs 1) right left g, e = diffFile .new t := by
  refine ⟨fun he => ?_, fun hrow => ?_⟩
  · obtain ⟨he, hstate⟩ := he
    rcases h.entry_cases he with ⟨t, -, rfl⟩ | hrow | ⟨t, i, -, -, rfl, -⟩
    · exact absurd hstate DiffState.missing_ne_new
    · exact hrow
    · exact absurd hstate.symm DiffState.new_ne_none
  · obtain ⟨t, ht, rfl⟩ := hrow
    exact ⟨h.mem_entries (mem_differingSeen.mpr (Or.inr ⟨t, ht, rfl⟩)), rfl⟩

omit h in
theorem state_ne_none {g : ℤ} {e : ModelDiffFile}
    (he : e ∈ differingSeen my (dbs 0) (dbs 1) left right g) : e.state ≠ .none := by
  rcases mem_differingSeen.mp he with ⟨t, -, rfl⟩ | ⟨t, -, rfl⟩
  · exact DiffState.missing_ne_none
  · exact DiffState.new_ne_none

variable (hgrows : ∀ n, (dbs n).Grows (dbs (n + 1))) (hkeys : ∀ n, PrimaryKeys (dbs n))
include hgrows hkeys

theorem nodup_entries (g : ℤ) : ((d.entries g).map ModelDiffFile.id).Nodup := by
  obtain ⟨ts, hE, hadded⟩ := h.entries g
  rw [hE, List.map_append, List.nodup_append]
  refine ⟨nodup_differingSeen (hgrows 0) (hkeys 0) (hkeys 1), ?_, ?_⟩
  · rw [List.map_map]
    exact hadded.nodup
  · intro i hi j hj hij
    obtain ⟨e, he, rfl⟩ := List.mem_map.mp hj
    obtain ⟨t, ht, rfl⟩ := List.mem_map.mp he
    exact (hadded.wanted t ht).2.2 (by rwa [hij] at hi)

/-- **What the diff says**, whatever the tables it saw. -/
theorem diffDuring : DiffDuring (dbs 0) (dbs k) left right d where
  once := (countsOnce_iff d).mpr (h.nodup_entries hgrows hkeys)
  missing := by
    apply reports_of_diffRows (Database.Grows.refl _) (grows_of_le hgrows (Nat.zero_le k))
    · exact fun g e he hstate => h.missing_iff.mp ⟨he, hstate⟩
    · exact fun g t ht => (h.missing_iff.mpr ⟨t, ht, rfl⟩).1
  new := by
    apply reports_of_diffRows (hgrows 0) (grows_of_le hgrows (Nat.le_of_succ_le h.two_le))
    · exact fun g e he hstate => h.new_iff.mp ⟨he, hstate⟩
    · exact fun g t ht => (h.new_iff.mpr ⟨t, ht, rfl⟩).1
  apart := by
    intro g e he e' he' hstate hstate'
    obtain ⟨t, ht, rfl⟩ := h.missing_iff.mp ⟨he, hstate⟩
    obtain ⟨t', ht', rfl⟩ := h.new_iff.mp ⟨he', hstate'⟩
    exact diffRows_apart (hgrows 0) ht ht'
  parents := by
    intro g e he hstate hzero hrow
    obtain ⟨t, ht, hid⟩ := hrow
    have hdiffers : e ∈ differingSeen my (dbs 0) (dbs 1) left right g := by
      rcases h.entry_cases he with hmissing | hnew | ⟨t, i, -, -, rfl, -⟩
      · exact mem_differingSeen.mpr (Or.inl hmissing)
      · exact mem_differingSeen.mpr (Or.inr hnew)
      · exact absurd rfl hstate
    obtain ⟨ts, hE, hadded⟩ := h.entries g
    rw [hE]
    by_cases hseen : e.parentFileId ∈
        (differingSeen my (dbs 0) (dbs 1) left right g).map ModelDiffFile.id
    · obtain ⟨e', he', hparent⟩ := List.mem_map.mp hseen
      exact ⟨e', List.mem_append_left _ he', hparent⟩
    -- the row was there when the parents were searched
    · obtain ⟨t', ht', hlink⟩ := (grows_of_le hgrows (Nat.zero_le 2)).exists_join ht
      have hid' : t'.1.id = e.parentFileId := (congrArg FileLink.id hlink).trans hid
      have hmem := hadded.found t' ht' (hid' ▸ List.mem_map_of_mem hdiffers) (hid' ▸ hzero)
        (hid' ▸ hseen)
      obtain ⟨row, hrow, hsame⟩ := List.mem_map.mp hmem
      exact ⟨_, List.mem_append_right _ (List.mem_map_of_mem hrow), hsame.trans hid'⟩
  above := by
    intro g e he hstate
    rcases h.entry_cases he with ⟨t, -, rfl⟩ | ⟨t, -, rfl⟩ | ⟨t, i, hi, hread, rfl, e', he', hparent⟩
    · exact absurd hstate DiffState.missing_ne_none
    · exact absurd hstate DiffState.new_ne_none
    · have hlinks := (grows_of_le hgrows (le_of_lt hi)).links
      exact ⟨⟨_, hlinks (mem_links_of_mem_filesJoin hread), diffFile_of _ t⟩, e',
        h.mem_entries he', state_ne_none he', hparent⟩

end Seen

/-! ### Threads that write -/

/-- The ids of the tables the diff reads are those `AUTO_INCREMENT` gave. -/
structure IdsIncrease (db : Database) : Prop where
  fileGroups : Increasing FileGroupRow.id db.fileGroups
  defineFiles : Increasing DefineFileRow.id db.defineFiles
  links : Increasing FileLink.id db.links

theorem IdsIncrease.primaryKeys {db : Database} (h : IdsIncrease db) : PrimaryKeys db where
  fileGroups := h.fileGroups.nodup_map
  defineFiles := h.defineFiles.nodup_map
  files := by
    have hlinks := h.links.nodup_map
    rwa [Database.links, List.map_map] at hlinks

/-- Every statement adds rows with new ids, and takes none away. -/
theorem IdsIncrease.exec {my : MySql} {db : Database} (h : IdsIncrease db) (s : Sql) :
    IdsIncrease (s.exec my db).2 ∧ db.Grows (s.exec my db).2 := by
  cases s with
  | insertVersion name =>
    exact ⟨⟨h.fileGroups, h.defineFiles, h.links⟩, List.subset_append_left _ _, fun _ hx => hx,
      fun _ hx => hx, fun _ hx => hx⟩
  | insertGroup name =>
    exact ⟨⟨h.fileGroups.append (my.lastId_lt_nextId _ _ _), h.defineFiles, h.links⟩, fun _ hx => hx,
      List.subset_append_left _ _, fun _ hx => hx, fun _ hx => hx⟩
  | insertDefineFile filepath filename parentId =>
    exact ⟨⟨h.fileGroups, h.defineFiles.append (my.lastId_lt_nextId _ _ _), h.links⟩,
      grows_insertDefineFile my db filepath filename parentId⟩
  | insertFile versionId fileGroupId defineFileId parentId =>
    have hlinks := links_insertFile my db versionId fileGroupId defineFileId parentId
    refine ⟨⟨h.fileGroups, h.defineFiles, hlinks ▸ h.links.append (my.lastId_lt_nextId _ _ _)⟩, fun _ hx => hx,
      fun _ hx => hx, fun _ hx => hx, ?_⟩
    rw [hlinks]
    exact List.subset_append_left _ _
  | selectCount parentId => exact ⟨h, Database.Grows.refl db⟩
  | updateAmountOfChildren amountOfChildren id =>
    have hlinks := links_updateAmount my db amountOfChildren id
    exact ⟨⟨h.fileGroups, h.defineFiles, hlinks ▸ h.links⟩, fun _ hx => hx, fun _ hx => hx,
      fun _ hx => hx, hlinks ▸ fun _ hx => hx⟩
  | insertComment defineFileId comment now =>
    exact ⟨⟨h.fileGroups, h.defineFiles, h.links⟩, fun _ hx => hx, fun _ hx => hx, fun _ hx => hx,
      fun _ hx => hx⟩
  | updateHided id =>
    exact ⟨⟨h.fileGroups, h.defineFiles, h.links⟩, fun _ hx => hx, fun _ hx => hx, fun _ hx => hx,
      fun _ hx => hx⟩

/-- So does every operation of the storage. -/
theorem IdsIncrease.step {my : MySql} {w : World} (h : IdsIncrease w.db) (o : Op) :
    IdsIncrease (World.step my o w).2.db ∧ w.db.Grows (World.step my o w).2.db := by
  cases o with
  | sql s => exact h.exec s
  | _ => exact ⟨h, Database.Grows.refl _⟩

section Pools

variable {ι : Type} [DecidableEq ι] (my : MySql)

/-- Threads, whatever they do with the storage. -/
theorem IdsIncrease.run {c : Pool Op Op.Res Unit World ι} (h : IdsIncrease c.state.db)
    (schedule : List ι) :
    IdsIncrease (c.run (World.step my) schedule).state.db ∧
      c.state.db.Grows (c.run (World.step my) schedule).state.db := by
  induction schedule generalizing c with
  | nil => exact ⟨h, Database.Grows.refl _⟩
  | cons i rest ih =>
    have hstep : IdsIncrease (c.step (World.step my) i).state.db ∧
        c.state.db.Grows (c.step (World.step my) i).state.db := by
      unfold Pool.step
      split
      · exact ⟨h, Database.Grows.refl _⟩
      · exact h.step _
    obtain ⟨hids, hgrows⟩ := ih hstep.1
    exact ⟨hids, hstep.2.trans hgrows⟩

/-- The tables that the statement number `n` of a diff sees, when the threads take the steps
`writes 0` in front of the first statement, `writes 1` between it and the second one, and so on. -/
def tablesDuring (c : Pool Op Op.Res Unit World ι) (writes : ℕ → List ι) (n : ℕ) : Database :=
  (c.run (World.step my) ((List.range (n + 1)).flatMap writes)).state.db

end Pools

end WebDiff
