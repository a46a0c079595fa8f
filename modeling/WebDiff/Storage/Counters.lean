import WebDiff.Storage.Uploading

/-!
# The counters of threads

The counter of a parent is written by an `UPDATE` with the number of children a `COUNT` found
before. Between the two another thread may insert a child, and then the `UPDATE` writes a number
that is too small. The counter stays wrong only where no later `UPDATE` of it follows (`Overtaken`):
every thread that inserts a child writes the counter once more.

`Counters` is the invariant: a counter is right, or a thread is on its way to write it, or its last
`UPDATE` was overtaken, and then it is behind.
-/

namespace WebDiff

open Program Table

/-- The operation is the `INSERT` of a child of `f`. -/
def Op.insertsBelow (f : ℤ) : Op → Bool
  | .sql (.insertFile _ _ _ parentId) => parentId = f
  | _ => false

/-- The operation is the `UPDATE` of the counter of `f`. -/
def Op.updates (f : ℤ) : Op → Bool
  | .sql (.updateAmountOfChildren _ id) => id = f
  | _ => false

variable {ι : Type} [DecidableEq ι]

/-- In the trace of a run the last `UPDATE` of the counter of `f` comes too late: since the thread's
last operation, which is the `COUNT` of the children, another thread has inserted a child. -/
def Overtaken (es : List (ι × Op)) (f : ℤ) : Prop :=
  ∃ pre i n post, es = pre ++ (i, .sql (.updateAmountOfChildren n f)) :: post ∧
    (∃ e ∈ Pool.since i pre, e.2.insertsBelow f = true) ∧ ∀ e ∈ post, e.2.updates f = false

section Overtaken

variable {es : List (ι × Op)} {f : ℤ}

theorem not_overtaken_nil : ¬ Overtaken ([] : List (ι × Op)) f := by
  rintro ⟨pre, i, n, post, heq, -⟩
  exact absurd heq.symm (List.append_ne_nil_of_right_ne_nil _ (List.cons_ne_nil _ _))

/-- Only an `UPDATE` of the counter makes a difference. -/
theorem overtaken_concat {o : Op} (ho : o.updates f = false) (i : ι) :
    Overtaken (es ++ [(i, o)]) f ↔ Overtaken es f := by
  constructor
  · rintro ⟨pre, j, n, post, heq, hsince, hpost⟩
    rcases List.eq_nil_or_concat' post with rfl | ⟨post, e, rfl⟩
    · -- the last operation is no `UPDATE` of the counter
      obtain ⟨-, hlast⟩ := List.append_singleton_inj.mp heq
      obtain ⟨rfl, rfl⟩ := Prod.mk.inj hlast
      simp [Op.updates] at ho
    · rw [← List.cons_append, ← List.append_assoc] at heq
      obtain ⟨rfl, -⟩ := List.append_singleton_inj.mp heq
      exact ⟨pre, j, n, post, rfl, hsince, fun e he => hpost e (List.mem_append_left _ he)⟩
  · rintro ⟨pre, j, n, post, rfl, hsince, hpost⟩
    refine ⟨pre, j, n, post ++ [(i, o)], by simp, hsince, fun e he => ?_⟩
    rcases List.mem_append.mp he with he | he
    · exact hpost e he
    · rw [List.mem_singleton.mp he]
      exact ho

/-- An `UPDATE` of the counter is the last one. -/
theorem overtaken_concat_update (i : ι) (n : ℤ) :
    Overtaken (es ++ [(i, .sql (.updateAmountOfChildren n f))]) f ↔
      ∃ e ∈ Pool.since i es, e.2.insertsBelow f = true := by
  constructor
  · rintro ⟨pre, j, m, post, heq, hsince, hpost⟩
    rcases List.eq_nil_or_concat' post with rfl | ⟨post, e, rfl⟩
    -- the `UPDATE` that came too late is this one
    · obtain ⟨rfl, hlast⟩ := List.append_singleton_inj.mp heq
      obtain ⟨rfl, -⟩ := Prod.mk.inj hlast
      exact hsince
    -- an earlier one has this one behind it
    · rw [← List.cons_append, ← List.append_assoc] at heq
      obtain ⟨-, rfl⟩ := List.append_singleton_inj.mp heq
      have hno := hpost _ (List.mem_append_right _ (List.mem_singleton.mpr rfl))
      simp [Op.updates] at hno
  · exact fun hsince => ⟨es, i, n, [], rfl, hsince, fun _ he => absurd he List.not_mem_nil⟩

end Overtaken

/-! ### Threads that write counters -/

/-- The parent whose counter the thread is about to write. -/
def Place.recounts : Place → Option ℤ
  | .inside _ (.count _ f _) => some f
  | .inside _ (.update _ f _ _) => some f
  | _ => none

/-- The same with the number of children, once it has been counted. -/
def Place.counted : Place → Option (ℤ × ℤ)
  | .inside _ (.update _ f _ n) => some (f, n)
  | _ => none

theorem recounts_begin (calls : List FileCall) :
    (Place.begin calls).recounts = none ∧ (Place.begin calls).counted = none := by
  rcases begin_cases calls with h | ⟨r, d, f, h⟩
  · rw [h]
    exact ⟨rfl, rfl⟩
  · rw [h]
    exact ⟨rfl, rfl⟩

theorem recounts_next (r : Round) (d f : ℤ) :
    (r.next d f).recounts = none ∧ (r.next d f).counted = none := by
  rcases next_cases r d f with h | ⟨r', d', f', h⟩
  · rw [h]
    exact ⟨rfl, rfl⟩
  · rw [h]
    exact ⟨rfl, rfl⟩

/-- Every counter is right, or about to be written, or behind because its last `UPDATE` was
overtaken. -/
structure Counters (db : Database) (places : ι → Place) (es : List (ι × Op)) : Prop where
  row : ∀ row ∈ db.files, row.amountOfChildren = db.childCount row.id ∨
    (∃ i, (places i).recounts = some row.id) ∨ Overtaken es row.id
  counted : ∀ {i f n}, (places i).counted = some (f, n) →
    n + ((Pool.since i es).countP fun e => e.2.insertsBelow f : ℕ) = db.childCount f
  overtaken : ∀ {f}, Overtaken es f →
    f = 0 ∨ ∃ row ∈ db.files, row.id = f ∧ row.amountOfChildren < db.childCount f

/-- Threads in front of their first calls. -/
theorem counters_start {db : Database} (h : PathForest db) (calls : ι → List FileCall) :
    Counters db (fun i => Place.begin (calls i)) [] where
  row := fun row hrow => Or.inl (h.counted row hrow)
  counted := fun {i} _ _ hi => by simp [(recounts_begin (calls i)).2] at hi
  overtaken := fun hf => absurd hf not_overtaken_nil

section Counters

variable {db db' : Database} {places : ι → Place} {es : List (ι × Op)} (h : Counters db places es)
  {i : ι} {pl : Place}
include h

/-- A step that neither inserts a file nor writes a counter. -/
theorem Counters.quiet {o : Op} (ho : ∀ f, o.insertsBelow f = false ∧ o.updates f = false)
    (hfiles : db'.files = db.files) (hrecounts : pl.recounts = (places i).recounts)
    (hcounted : ∀ {f n}, pl.counted = some (f, n) → n = db.childCount f) :
    Counters db' (Function.update places i pl) (es ++ [(i, o)]) := by
  -- the children are those before
  have hcount : ∀ f, db'.childCount f = db.childCount f := fun f => by
    rw [Database.childCount, Database.links, hfiles]
    rfl
  refine ⟨fun row hrow => ?_, fun {j f n} hj => ?_, fun {f} hf => ?_⟩
  · rw [hcount, overtaken_concat (ho row.id).2]
    rw [hfiles] at hrow
    rcases h.row row hrow with hright | ⟨j, hj⟩ | hover
    · exact Or.inl hright
    · refine Or.inr (Or.inl ⟨j, ?_⟩)
      by_cases heq : j = i
      · subst heq
        rw [Function.update_self, hrecounts, hj]
      · rw [Function.update_of_ne heq, hj]
    · exact Or.inr (Or.inr hover)
  · rw [hcount]
    by_cases heq : j = i
    · subst heq
      rw [Function.update_self] at hj
      -- the step is the `COUNT` itself: nothing has happened since
      rw [Pool.since_concat_self, hcounted hj]
      exact Int.add_zero _
    · rw [Function.update_of_ne heq] at hj
      rw [Pool.since_concat_of_ne (Ne.symm heq), List.countP_append, ← h.counted hj]
      simp [(ho f).1]
  · rw [overtaken_concat (ho f).2] at hf
    rw [hcount, hfiles]
    exact h.overtaken hf

/-- The `INSERT` of a file. -/
theorem Counters.insertFile (my : MySql) (hforest : PathForest db.recounted) {v g d f : ℤ}
    (hplace : (places i).recounts = none) (hrecounts : pl.recounts = some f)
    (hcounted : pl.counted = none) :
    Counters ((Sql.insertFile v g d f).exec my db).2 (Function.update places i pl)
      (es ++ [(i, .sql (.insertFile v g d f))]) := by
  have hcount := childCount_insertFile my db v g d f
  refine ⟨fun row hrow => ?_, fun {j f' n} hj => ?_, fun {f'} hf' => ?_⟩
  · rw [hcount, overtaken_concat rfl]
    by_cases hid : f = row.id
    -- the inserting thread goes on to write the counter of the parent
    · exact Or.inr (Or.inl ⟨i, by rw [Function.update_self, hrecounts, hid]⟩)
    · rw [if_neg hid, Nat.add_zero]
      rcases List.mem_append.mp hrow with hrow | hrow
      · rcases h.row row hrow with hright | ⟨j, hj⟩ | hover
        · exact Or.inl hright
        · have hne : j ≠ i := by
            rintro rfl
            rw [hplace] at hj
            cases hj
          exact Or.inr (Or.inl ⟨j, by rw [Function.update_of_ne hne, hj]⟩)
        · exact Or.inr (Or.inr hover)
      · -- the new row has no children
        obtain rfl := List.mem_singleton.mp hrow
        have hids := hforest.keyed.fileIds
        have hlt : ∀ l ∈ db.recounted.links, l.parentId < l.id := fun l hl =>
          have ⟨_, _, hstands⟩ := hforest.files l hl
          hstands.parentId_lt
        rw [links_recounted] at hids hlt
        exact Or.inl (congrArg Nat.cast (childCount_nextId my hids hlt)).symm
  · rw [hcount]
    by_cases heq : j = i
    · subst heq
      rw [Function.update_self, hcounted] at hj
      cases hj
    · rw [Function.update_of_ne heq] at hj
      -- another thread's count is short by the children inserted since, this one among them
      have hold := h.counted hj
      have hbelow : Op.insertsBelow f' (.sql (.insertFile v g d f)) = true ↔ f = f' :=
        decide_eq_true_iff
      rw [Pool.since_concat_of_ne (Ne.symm heq), List.countP_append, List.countP_singleton]
      simp only [hbelow]
      push_cast
      rw [← hold, Int.add_assoc]
  · rw [overtaken_concat rfl] at hf'
    rcases h.overtaken hf' with hzero | ⟨row, hrow, hid, hlt⟩
    · exact Or.inl hzero
    · refine Or.inr ⟨row, List.mem_append_left _ hrow, hid, ?_⟩
      rw [hcount]
      omega

/-- The `UPDATE` of a counter. -/
theorem Counters.update (my : MySql) {f n : ℤ} (hrow : f = 0 ∨ ∃ row ∈ db.files, row.id = f)
    (hplace : (places i).recounts = some f) (hcounted : (places i).counted = some (f, n))
    (hpl : pl.counted = none) :
    Counters ((Sql.updateAmountOfChildren n f).exec my db).2 (Function.update places i pl)
      (es ++ [(i, .sql (.updateAmountOfChildren n f))]) := by
  have hcount : ∀ x, ((Sql.updateAmountOfChildren n f).exec my db).2.childCount x
      = db.childCount x := fun x => by
    unfold Database.childCount
    rw [links_updateAmount]
  -- what was counted, and what was inserted since, are the children there are now
  have hn := h.counted hcounted
  have hother : ∀ x, f ≠ x → Op.updates x (.sql (.updateAmountOfChildren n f)) = false :=
    fun x hx => decide_eq_false hx
  refine ⟨fun row' hrow' => ?_, fun {j f' m} hj => ?_, fun {f'} hf' => ?_⟩
  · obtain ⟨row, hmem, rfl⟩ := List.mem_map.mp hrow'
    rw [hcount, FileRow.setAmount]
    split
    · next hid =>
      -- the count is right unless a child was inserted since
      rw [hid, overtaken_concat_update]
      rcases Nat.eq_zero_or_pos
        ((Pool.since i es).countP fun e => e.2.insertsBelow f) with hzero | hpos
      · rw [hzero] at hn
        exact Or.inl ((Int.add_zero n).symm.trans hn)
      · exact Or.inr (Or.inr (List.countP_pos_iff.mp hpos))
    · next hid =>
      rw [overtaken_concat (hother row.id (Ne.symm hid))]
      rcases h.row row hmem with hright | ⟨j, hj⟩ | hover
      · exact Or.inl hright
      · have hne : j ≠ i := by
          rintro rfl
          exact hid (Option.some.inj (hj.symm.trans hplace))
        exact Or.inr (Or.inl ⟨j, by rw [Function.update_of_ne hne, hj]⟩)
      · exact Or.inr (Or.inr hover)
  · rw [hcount]
    by_cases heq : j = i
    · subst heq
      rw [Function.update_self, hpl] at hj
      cases hj
    · rw [Function.update_of_ne heq] at hj
      rw [Pool.since_concat_of_ne (Ne.symm heq), List.countP_append, ← h.counted hj]
      simp [Op.insertsBelow]
  · rw [hcount]
    by_cases heq : f = f'
    · subst heq
      rw [overtaken_concat_update] at hf'
      -- an overtaken `UPDATE` leaves the counter behind
      have hpos : 0 < (Pool.since i es).countP fun e => e.2.insertsBelow f :=
        List.countP_pos_iff.mpr hf'
      rcases hrow with hzero | ⟨row, hmem, hid⟩
      · exact Or.inl hzero
      · refine Or.inr ⟨row.setAmount n f, List.mem_map_of_mem hmem, ?_, ?_⟩
        · rw [FileRow.setAmount, if_pos hid]
          exact hid
        · rw [FileRow.setAmount, if_pos hid]
          change n < _
          omega
    · rw [overtaken_concat (hother f' heq)] at hf'
      rcases h.overtaken hf' with hzero | ⟨row, hmem, hid, hlt⟩
      · exact Or.inl hzero
      · refine Or.inr ⟨row, List.mem_map.mpr ⟨row, hmem, ?_⟩, hid, hlt⟩
        rw [FileRow.setAmount, if_neg fun hf => heq (hf.symm.trans hid)]

end Counters

/-- Behind a lookup no counter is written yet. -/
theorem recounts_lookup (my : MySql) (r : Round) (w : World) (d f : ℤ) :
    ((Stage.findDefine d f).next my r w).recounts = none ∧
      ((Stage.findDefine d f).next my r w).counted = none ∧
      ((Stage.findFile d f).next my r w).recounts = none ∧
      ((Stage.findFile d f).next my r w).counted = none := by
  have hdefine : ((Stage.findDefine d f).next my r w).recounts = none ∧
      ((Stage.findDefine d f).next my r w).counted = none := by
    unfold Stage.next
    cases w.caches.defineFileIds (renderPath r.path) <;> exact ⟨rfl, rfl⟩
  have hfile : ((Stage.findFile d f).next my r w).recounts = none ∧
      ((Stage.findFile d f).next my r w).counted = none := by
    simp only [Stage.next]
    split
    · exact recounts_next r d _
    · exact ⟨rfl, rfl⟩
  exact ⟨hdefine.1, hdefine.2, hfile⟩

/-- **One step.** -/
theorem Counters.step (my : MySql) {start : Database} {calls : ι → List FileCall} {s : Shared ι}
    {es : List (ι × Op)} (h : Counters s.world.db s.places es) (hs : Uploading start calls s)
    {i : ι} {r : Round} {st : Stage} (hplace : s.places i = .inside r st) :
    Counters (s.step my i).world.db (s.step my i).places (es ++ [(i, st.op r)]) := by
  have hholds : (Place.inside r st).Holds (calls i) s.world.db.recounted := hplace ▸ hs.places i
  have hrecounts := congrArg Place.recounts hplace
  rw [Shared.step_inside hplace]
  cases st with
  | findDefine d f =>
    obtain ⟨hnext, hnext', -, -⟩ := recounts_lookup my r s.world d f
    exact h.quiet (fun _ => ⟨rfl, rfl⟩) rfl (hnext.trans hrecounts.symm)
      fun hf => absurd (hnext'.symm.trans hf) (by simp)
  | findFile d f =>
    obtain ⟨-, -, hnext, hnext'⟩ := recounts_lookup my r s.world d f
    exact h.quiet (fun _ => ⟨rfl, rfl⟩) rfl (hnext.trans hrecounts.symm)
      fun hf => absurd (hnext'.symm.trans hf) (by simp)
  -- a row of `define_files` is no file, and a cache no table
  | insertDefine d f =>
    exact h.quiet (fun _ => ⟨rfl, rfl⟩) rfl hrecounts.symm fun hf => by cases hf
  | putDefine d f =>
    exact h.quiet (fun _ => ⟨rfl, rfl⟩) rfl hrecounts.symm fun hf => by cases hf
  | insertFile d f => exact h.insertFile my hs.progress.forest hrecounts rfl rfl
  -- the thread takes the number of children with it
  | count d f id =>
    refine h.quiet (fun _ => ⟨rfl, rfl⟩) rfl hrecounts.symm fun hf => ?_
    obtain ⟨rfl, rfl⟩ := Prod.mk.inj (Option.some.inj hf)
    rfl
  -- the counter is that of a row: the thread holds the id of its parent
  | update d f id n =>
    obtain ⟨-, -, hparent, -⟩ := hholds
    refine h.update my ?_ hrecounts (congrArg Place.counted hplace) rfl
    rcases hparent with ⟨-, rfl⟩ | ⟨l, hl, -, -, -, rfl⟩
    · exact Or.inl rfl
    · rw [links_recounted] at hl
      obtain ⟨row, hrow, rfl⟩ := List.mem_map.mp hl
      exact Or.inr ⟨row, hrow, rfl⟩
  | putFile d f id =>
    obtain ⟨hnext, hnext'⟩ := recounts_next r d id
    exact h.quiet (fun _ => ⟨rfl, rfl⟩) rfl (hnext.trans hrecounts.symm)
      fun hf => absurd (hnext'.symm.trans hf) (by simp)

/-- **The counters in the end.** When no thread has anything left to do, the counters are right
exactly if no last `UPDATE` of a counter was overtaken. -/
theorem Counters.counted_iff {db : Database} {places : ι → Place} {es : List (ι × Op)}
    (h : Counters db places es) (hdone : ∀ i, places i = .done)
    (hpos : ∀ row ∈ db.files, row.id ≠ 0) : db.Counted ↔ ∀ f, f ≠ 0 → ¬ Overtaken es f := by
  constructor
  · intro hcounted f hf hovertaken
    rcases h.overtaken hovertaken with hzero | ⟨row, hrow, rfl, hlt⟩
    · exact hf hzero
    · exact absurd (hcounted row hrow) (ne_of_lt hlt)
  · intro hnone row hrow
    rcases h.row row hrow with hright | ⟨i, hi⟩ | hovertaken
    · exact hright
    · rw [hdone i] at hi
      cases hi
    · exact absurd hovertaken (hnone row.id (hpos row hrow))

end WebDiff
