import Mathlib.Tactic.TFAE
import WebDiff.Framework.Interleaving
import WebDiff.Framework.Reservations

/-!
# Threads whose programs find or create

A program that looks up a key in the cache and misses it inserts a row for the key, and then puts
the id of the row into the cache. It looks up nothing and inserts nothing else in between. `action`
says which operations do so, and a program that keeps to this order `Follows` it; whatever else it
does may be anything.

Several threads run such programs, and their operations interleave in any order. In the end no key
has two rows, and the cache reflects the table, exactly if no thread looked up a key that another
one owed the cache (`reflects_iff_noClash`).
-/

namespace Reservation

open Program

/-- What an operation means for the table and the cache. -/
inductive Action (K : Type)
  | lookup (k : K)
  | insert (k : K)
  | put (k : K) (n : ℤ)
  | other

/-- What an operation that answered an id, or none, makes of the claim of its thread. -/
inductive Moves {K : Type} :
    Option (K × Option ℤ) → Action K → Option ℤ → Option (K × Option ℤ) → Prop
  | miss {k : K} : Moves none (.lookup k) none (some (k, none))
  | hit {k : K} {n : ℤ} : Moves none (.lookup k) (some n) none
  | insert {k : K} {n : ℤ} : Moves (some (k, none)) (.insert k) (some n) (some (k, some n))
  | put {k : K} {n : ℤ} {x : Option ℤ} : Moves (some (k, some n)) (.put k n) x none
  | other {claim : Option (K × Option ℤ)} {x : Option ℤ} : Moves claim .other x claim

variable {Op : Type} {Res : Op → Type} {α β S R K ι : Type}

/-! ### Programs that keep to the order -/

section Follows

variable (action : Op → Action K) (answer : (o : Op) → Res o → Option ℤ)

/-- The program keeps to the order, from a claim on, and ends without one. -/
def Follows : Program Op Res α → Option (K × Option ℤ) → Prop
  | .ret _, claim => claim = none
  | .step o p, claim => ∀ r, ∃ claim', Moves claim (action o) (answer o r) claim' ∧
      Follows (p r) claim'

/-- The program comes to the row of the key, or to its id in the cache, before it looks up
anything. -/
def Owes (k : K) : Program Op Res α → Prop
  | .ret _ => False
  | .step o p => action o = .insert k ∨ (∃ n, action o = .put k n) ∨
      action o = .other ∧ ∀ r, Owes k (p r)

variable {action answer}

theorem follows_pure (a : α) : Follows action answer (pure a : Program Op Res α) none := rfl

theorem follows_bind {p : Program Op Res α} {f : α → Program Op Res β}
    {claim : Option (K × Option ℤ)} (hp : Follows action answer p claim)
    (hf : ∀ a, Follows action answer (f a) none) : Follows action answer (p >>= f) claim := by
  show Follows action answer (p.bind f) claim
  induction p generalizing claim with
  | ret a =>
    obtain rfl : claim = none := hp
    exact hf a
  | step o p ih =>
    intro r
    obtain ⟨claim', hmoves, hrest⟩ := hp r
    exact ⟨claim', hmoves, ih r hrest⟩

/-- A program that has nothing to do with the table, in front of one that keeps to the order. -/
theorem follows_bind_of_uses {p : Program Op Res α} {f : α → Program Op Res β}
    {claim : Option (K × Option ℤ)} (hp : p.Uses fun o => action o = .other)
    (hf : ∀ a, Follows action answer (f a) claim) : Follows action answer (p >>= f) claim := by
  show Follows action answer (p.bind f) claim
  induction p with
  | ret a => exact hf a
  | step o p ih =>
    intro r
    refine ⟨claim, ?_, ih r (hp.2 r)⟩
    rw [hp.1]
    exact .other

theorem follows_of_uses {p : Program Op Res α} (hp : p.Uses fun o => action o = .other) :
    Follows action answer p none := by
  induction p with
  | ret a => rfl
  | step o p ih =>
    intro r
    refine ⟨none, ?_, ih r (hp.2 r)⟩
    rw [hp.1]
    exact .other

/-- A program owes the key it claims. -/
theorem Follows.owes (I : Interp Op Res S) (s : S) {p : Program Op Res α} {k : K} {x : Option ℤ}
    (h : Follows action answer p (some (k, x))) : Owes action k p := by
  induction p generalizing x with
  | ret a => exact nomatch h
  | step o p ih =>
    obtain ⟨claim, hmoves, -⟩ := h (I o s).1
    have hother : action o = .other → ∀ r, Owes action k (p r) := by
      intro ho r
      obtain ⟨claim, hmoves, hrest⟩ := h r
      rw [ho] at hmoves
      cases hmoves
      exact ih r hrest
    show action o = .insert k ∨ (∃ n, action o = .put k n) ∨
      action o = .other ∧ ∀ r, Owes action k (p r)
    generalize action o = a, answer o (I o s).1 = y at *
    cases hmoves with
    | insert => exact Or.inl rfl
    | put => exact Or.inr (Or.inl ⟨_, rfl⟩)
    | other => exact Or.inr (Or.inr ⟨rfl, hother rfl⟩)

/-- And no other. -/
theorem Follows.claim_of_owes (I : Interp Op Res S) (s : S) {p : Program Op Res α} {k : K}
    {claim : Option (K × Option ℤ)} (h : Follows action answer p claim) (howes : Owes action k p) :
    ∃ x, claim = some (k, x) := by
  induction p with
  | ret a => exact howes.elim
  | step o p ih =>
    obtain ⟨claim', hmoves, hrest⟩ := h (I o s).1
    generalize answer o (I o s).1 = y at hmoves
    rcases howes with ho | ⟨n, ho⟩ | ⟨ho, howes⟩
    · rw [ho] at hmoves
      cases hmoves
      exact ⟨none, rfl⟩
    · rw [ho] at hmoves
      cases hmoves
      exact ⟨some n, rfl⟩
    · rw [ho] at hmoves
      cases hmoves
      exact ih _ hrest (howes _)

end Follows

/-! ### What the operations do -/

/-- The operations do to the rows and to the cache what they mean, where the invariant holds. -/
structure Interprets (I : Interp Op Res S) (key : R → K) (id : R → ℤ) (rows : S → List R)
    (cache : S → K → Option ℤ) (action : Op → Action K) (answer : (o : Op) → Res o → Option ℤ)
    (Inv : S → Prop) [DecidableEq K] : Prop where
  keeps : ∀ o s, Inv s → Inv (I o s).2
  lookup : ∀ o s k, action o = .lookup k → answer o (I o s).1 = cache s k ∧
    rows (I o s).2 = rows s ∧ cache (I o s).2 = cache s
  insert : ∀ o s k, action o = .insert k → ∃ r, key r = k ∧ answer o (I o s).1 = some (id r) ∧
    rows (I o s).2 = rows s ++ [r] ∧ cache (I o s).2 = cache s
  put : ∀ o s k n, action o = .put k n → rows (I o s).2 = rows s ∧
    (Inv s → (∃ r ∈ rows s, id r = n) → cache s k = none →
      cache (I o s).2 = Function.update (cache s) k (some n))
  other : ∀ o s, action o = .other → rows (I o s).2 = rows s ∧ cache (I o s).2 = cache s

/-- No key has two rows, and the cache holds exactly the rows. -/
structure Reflects (key : R → K) (id : R → ℤ) (rows : List R) (cache : K → Option ℤ) : Prop where
  nodup : (rows.map key).Nodup
  cached : ∀ k n, cache k = some n ↔ ∃ r ∈ rows, key r = k ∧ id r = n

/-! ### A list as a cache -/

section ListCache

variable {M : Type} [DecidableEq K] {name : M → K} {id : M → ℤ} {ms : List M}

/-- A list that is scanned for the first element of a key, and asked for its id. -/
def listCache (name : M → K) (id : M → ℤ) (ms : List M) (k : K) : Option ℤ :=
  (ms.find? fun m => name m = k).map id

/-- An element behind a list that has none of its key. -/
theorem listCache_append {m : M} (h : listCache name id ms (name m) = none) :
    listCache name id (ms ++ [m])
      = Function.update (listCache name id ms) (name m) (some (id m)) := by
  funext k
  have hfind : ms.find? (fun m' => name m' = name m) = none := Option.map_eq_none_iff.mp h
  unfold listCache
  rw [List.find?_append, Function.update_apply]
  by_cases heq : k = name m
  · rw [if_pos heq, heq, hfind]
    simp
  · rw [if_neg heq]
    simp [Ne.symm heq]

/-- Where no key occurs twice, every element is found. -/
theorem listCache_eq_some_iff (hnodup : (ms.map name).Nodup) {k : K} {n : ℤ} :
    listCache name id ms k = some n ↔ ∃ m ∈ ms, name m = k ∧ id m = n := by
  unfold listCache
  rw [Option.map_eq_some_iff]
  constructor
  · intro ⟨m, hm, hid⟩
    exact ⟨m, List.mem_of_find?_eq_some hm, by simpa using List.find?_some hm, hid⟩
  · rintro ⟨m, hm, rfl, rfl⟩
    obtain ⟨m', hm'⟩ : ∃ m', ms.find? (fun m' => name m' = name m) = some m' := by
      rw [← Option.isSome_iff_exists, List.find?_isSome]
      exact ⟨m, hm, by simp⟩
    have hname : name m' = name m := by simpa using List.find?_some hm'
    have heq : m' = m :=
      List.inj_on_of_nodup_map hnodup (List.mem_of_find?_eq_some hm') hm hname
    exact ⟨m', hm', by rw [heq]⟩

end ListCache

/-- The thread is about to look up a key that another thread owes. -/
def Clash (action : Op → Action K) (c : Pool Op Res α S ι) (i : ι) : Prop :=
  ∃ k, (∃ o, c.next i = some o ∧ action o = .lookup k) ∧
    ∃ j, j ≠ i ∧ Owes action k (c.threads j)

/-- No step of the run is a clash. -/
def NoClash [DecidableEq ι] (I : Interp Op Res S) (action : Op → Action K)
    (c : Pool Op Res α S ι) (schedule : List ι) : Prop :=
  ∀ before i, before ++ [i] <+: schedule → ¬ Clash action (c.run I before) i

theorem noClash_concat [DecidableEq ι] {I : Interp Op Res S} {action : Op → Action K}
    {c : Pool Op Res α S ι} {schedule : List ι} {i : ι} :
    NoClash I action c (schedule ++ [i]) ↔
      NoClash I action c schedule ∧ ¬ Clash action (c.run I schedule) i := by
  constructor
  · intro h
    exact ⟨fun before j hpre => h before j (hpre.trans (List.prefix_append _ _)),
      h schedule i (List.prefix_refl _)⟩
  · intro ⟨h, hlast⟩ before j hpre
    cases List.prefix_concat_iff.mp hpre with
    | inl heq =>
      obtain ⟨rfl, rfl⟩ := List.append_singleton_inj.mp heq
      exact hlast
    | inr hpre => exact h before j hpre

/-! ### Steps of the threads -/

section Steps

variable [DecidableEq ι] [DecidableEq K] {I : Interp Op Res S} {key : R → K} {id : R → ℤ}
  {rows : S → List R} {cache : S → K → Option ℤ} {action : Op → Action K}
  {answer : (o : Op) → Res o → Option ℤ} {Inv : S → Prop} {c : Pool Op Res α S ι}

/-- The threads keep to the order, and nothing is inserted twice. -/
structure Quiet (key : R → K) (id : R → ℤ) (rows : S → List R) (cache : S → K → Option ℤ)
    (action : Op → Action K) (answer : (o : Op) → Res o → Option ℤ) (Inv : S → Prop)
    (c : Pool Op Res α S ι) (claims : Claims ι K) : Prop where
  follows : ∀ j, Follows action answer (c.threads j) (claims j)
  reserved : Reserved key id (rows c.state) (cache c.state) claims
  nodup : ((rows c.state).map key).Nodup
  inv : Inv c.state

/-- The threads keep to the order, and a key has two rows or will have them. -/
structure Doubled (key : R → K) (rows : S → List R) (action : Op → Action K)
    (answer : (o : Op) → Res o → Option ℤ) (c : Pool Op Res α S ι) (claims : Claims ι K) (k : K) :
    Prop where
  follows : ∀ j, Follows action answer (c.threads j) (claims j)
  crowded : Crowded key (rows c.state) claims k

omit [DecidableEq K] in
/-- A step of a thread that has not finished. -/
theorem follows_step {claims : Claims ι K}
    (hfollows : ∀ j, Follows action answer (c.threads j) (claims j)) {i : ι} {o : Op}
    {p : Res o → Program Op Res α} (hi : c.threads i = .step o p) :
    ∃ claim, Moves (claims i) (action o) (answer o (I o c.state).1) claim ∧
      (c.step I i).state = (I o c.state).2 ∧
      ∀ j, Follows action answer ((c.step I i).threads j) (Function.update claims i claim j) := by
  have hstep : c.step I i
      = ⟨(I o c.state).2, Function.update c.threads i (p (I o c.state).1)⟩ := by
    unfold Pool.step
    rw [hi]
  have hthread := hfollows i
  rw [hi] at hthread
  obtain ⟨claim, hmoves, hrest⟩ := hthread (I o c.state).1
  refine ⟨claim, hmoves, by rw [hstep], fun j => ?_⟩
  rw [hstep]
  show Follows action answer (Function.update c.threads i (p (I o c.state).1) j)
    (Function.update claims i claim j)
  by_cases hj : j = i
  · rw [hj, Function.update_self, Function.update_self]
    exact hrest
  · rw [Function.update_of_ne hj, Function.update_of_ne hj]
    exact hfollows j

/-- **A step** that is no clash. -/
theorem Quiet.step (hI : Interprets I key id rows cache action answer Inv) {claims : Claims ι K}
    (h : Quiet key id rows cache action answer Inv c claims) {i : ι} (hclash : ¬ Clash action c i) :
    ∃ claims, Quiet key id rows cache action answer Inv (c.step I i) claims := by
  cases hi : c.threads i with
  | ret a =>
    have hstep : c.step I i = c := by
      unfold Pool.step
      rw [hi]
    rw [hstep]
    exact ⟨claims, h⟩
  | step o p =>
    obtain ⟨claim, hmoves, hstate, hfollows⟩ := follows_step (I := I) h.follows hi
    have hinv : Inv (c.step I i).state := hstate ▸ hI.keeps o _ h.inv
    -- what is left is what the operation does to the rows and to the claims
    suffices hrest : Reserved key id (rows (I o c.state).2) (cache (I o c.state).2)
        (Function.update claims i claim) ∧ ((rows (I o c.state).2).map key).Nodup by
      refine ⟨_, hfollows, ?_, ?_, hinv⟩
      · rw [hstate]
        exact hrest.1
      · rw [hstate]
        exact hrest.2
    generalize hclaim : claims i = x, ho : action o = a, hanswer : answer o (I o c.state).1 = y
      at hmoves
    cases hmoves with
    | @miss k =>
      obtain ⟨hfound, hrows, hcache⟩ := hI.lookup o c.state k ho
      rw [hrows, hcache]
      refine ⟨h.reserved.miss hclaim (hfound.symm.trans hanswer) ?_, h.nodup⟩
      -- whoever claims the key owes it
      intro j x hne hj
      have hfollows := h.follows j
      rw [hj] at hfollows
      exact hclash ⟨k, ⟨o, by unfold Pool.next; rw [hi], ho⟩, j, hne, hfollows.owes I c.state⟩
    | hit =>
      obtain ⟨-, hrows, hcache⟩ := hI.lookup o c.state _ ho
      rw [hrows, hcache]
      exact ⟨h.reserved.stay hclaim, h.nodup⟩
    | insert =>
      obtain ⟨r, rfl, hid, hrows, hcache⟩ := hI.insert o c.state _ ho
      obtain rfl := Option.some.inj (hid.symm.trans hanswer)
      have hfresh := h.reserved.fresh hclaim
      rw [hrows, hcache]
      refine ⟨h.reserved.insert hclaim, ?_⟩
      rw [List.map_append, List.map_singleton, List.nodup_append]
      refine ⟨h.nodup, List.nodup_singleton _, ?_⟩
      intro k hk k' hk' heq
      obtain ⟨r', hr', rfl⟩ := List.mem_map.mp hk
      exact hfresh r' hr' (heq.trans (List.mem_singleton.mp hk'))
    | put =>
      obtain ⟨hrows, hcache⟩ := hI.put o c.state _ _ ho
      obtain ⟨r, hr, -, hid⟩ := h.reserved.inserted hclaim
      rw [hrows, hcache h.inv ⟨r, hr, hid⟩ (h.reserved.absent hclaim)]
      exact ⟨h.reserved.put hclaim, h.nodup⟩
    | other =>
      obtain ⟨hrows, hcache⟩ := hI.other o c.state ho
      rw [hrows, hcache]
      exact ⟨h.reserved.stay hclaim, h.nodup⟩

/-- **A clash** doubles its key. -/
theorem Quiet.doubled (hI : Interprets I key id rows cache action answer Inv) {claims : Claims ι K}
    (h : Quiet key id rows cache action answer Inv c claims) {i : ι} (hclash : Clash action c i) :
    ∃ claims k, Doubled key rows action answer (c.step I i) claims k := by
  obtain ⟨k, ⟨o, hnext, ho⟩, j, hne, howes⟩ := hclash
  obtain ⟨x, hj⟩ := (h.follows j).claim_of_owes I c.state howes
  cases hi : c.threads i with
  | ret a =>
    unfold Pool.next at hnext
    rw [hi] at hnext
    exact nomatch hnext
  | step o' p =>
    obtain rfl : o' = o := by
      unfold Pool.next at hnext
      rw [hi] at hnext
      exact Option.some.inj hnext
    obtain ⟨claim, hmoves, hstate, hfollows⟩ := follows_step (I := I) h.follows hi
    obtain ⟨hfound, hrows, -⟩ := hI.lookup o' c.state k ho
    -- a claimed key is not in the cache, so the lookup misses
    rw [ho, hfound, h.reserved.absent hj] at hmoves
    refine ⟨_, k, hfollows, ?_⟩
    rw [hstate, hrows]
    generalize claims i = y at hmoves
    cases hmoves
    exact h.reserved.crowded hne hj

/-- Once a key is doubled it stays so. -/
theorem Doubled.step (hI : Interprets I key id rows cache action answer Inv) {claims : Claims ι K}
    {k : K} (h : Doubled key rows action answer c claims k) (i : ι) :
    ∃ claims, Doubled key rows action answer (c.step I i) claims k := by
  cases hi : c.threads i with
  | ret a =>
    have hstep : c.step I i = c := by
      unfold Pool.step
      rw [hi]
    rw [hstep]
    exact ⟨claims, h⟩
  | step o p =>
    obtain ⟨claim, hmoves, hstate, hfollows⟩ := follows_step (I := I) h.follows hi
    refine ⟨_, hfollows, ?_⟩
    rw [hstate]
    generalize hclaim : claims i = x, ho : action o = a, hanswer : answer o (I o c.state).1 = y
      at hmoves
    cases hmoves with
    | miss =>
      rw [(hI.lookup o c.state _ ho).2.1]
      exact h.crowded.update (by rw [hclaim]; exact fun h => nomatch h) _
    | hit =>
      rw [(hI.lookup o c.state _ ho).2.1]
      exact h.crowded.update (by rw [hclaim]; exact fun h => nomatch h) _
    | insert =>
      obtain ⟨r, rfl, -, hrows, -⟩ := hI.insert o c.state _ ho
      rw [hrows]
      exact h.crowded.insert hclaim _
    | put =>
      rw [(hI.put o c.state _ _ ho).1]
      exact h.crowded.update (by rw [hclaim]; exact fun h => nomatch h) _
    | other =>
      rw [(hI.other o c.state ho).1, ← hclaim, Function.update_eq_self]
      exact h.crowded

/-! ### Runs of the threads -/

/-- **Every run** is quiet without a clash, and has doubled a key with one. -/
theorem quiet_or_doubled (hI : Interprets I key id rows cache action answer Inv)
    {claims : Claims ι K} (h : Quiet key id rows cache action answer Inv c claims)
    (schedule : List ι) :
    (NoClash I action c schedule →
      ∃ claims, Quiet key id rows cache action answer Inv (c.run I schedule) claims) ∧
    (¬ NoClash I action c schedule →
      ∃ claims k, Doubled key rows action answer (c.run I schedule) claims k) := by
  induction schedule using List.reverseRecOn with
  | nil =>
    refine ⟨fun _ => ⟨claims, h⟩, fun hclash => absurd (fun before i hpre => ?_) hclash⟩
    exact absurd (List.prefix_nil.mp hpre) (List.append_ne_nil_of_right_ne_nil _ (by simp))
  | append_singleton schedule i ih =>
    have hrun : c.run I (schedule ++ [i]) = (c.run I schedule).step I i := by
      unfold Pool.run
      rw [List.foldl_append]
      rfl
    rw [noClash_concat, hrun]
    constructor
    · intro ⟨hbefore, hlast⟩
      obtain ⟨claims, hquiet⟩ := ih.1 hbefore
      exact hquiet.step hI hlast
    · intro hclash
      by_cases hbefore : NoClash I action c schedule
      -- the first clash is this step, and a key doubled before stays so
      · obtain ⟨claims, hquiet⟩ := ih.1 hbefore
        exact hquiet.doubled hI (by_contra fun hlast => hclash ⟨hbefore, hlast⟩)
      · obtain ⟨claims, k, hdoubled⟩ := ih.2 hbefore
        obtain ⟨claims, hdoubled⟩ := hdoubled.step hI i
        exact ⟨claims, k, hdoubled⟩

omit [DecidableEq ι] [DecidableEq K] in
/-- A thread that has finished claims nothing. -/
theorem claim_of_finished {claims : Claims ι K}
    (hfollows : ∀ j, Follows action answer (c.threads j) (claims j)) (hfinished : c.Finished)
    (j : ι) : claims j = none := by
  have hthread := hfollows j
  have hnext := hfinished j
  unfold Pool.next at hnext
  cases hj : c.threads j with
  | ret a =>
    rw [hj] at hthread
    exact hthread
  | step o p =>
    rw [hj] at hnext
    exact nomatch hnext

/-- **In the end** no key has two rows, and the cache reflects the table, exactly if there was no
clash. -/
theorem reflects_iff_noClash (hI : Interprets I key id rows cache action answer Inv)
    (hfollows : ∀ j, Follows action answer (c.threads j) none)
    (hstart : Reflects key id (rows c.state) (cache c.state)) (hinv : Inv c.state)
    {schedule : List ι} (hfinished : (c.run I schedule).Finished) :
    [NoClash I action c schedule,
      ((rows (c.run I schedule).state).map key).Nodup,
      Reflects key id (rows (c.run I schedule).state) (cache (c.run I schedule).state)].TFAE := by
  have hquiet : Quiet key id rows cache action answer Inv c fun _ => none :=
    ⟨hfollows, Reserved.start hstart.cached fun _ => rfl, hstart.nodup, hinv⟩
  obtain ⟨hwithout, hwith⟩ := quiet_or_doubled hI hquiet schedule
  tfae_have 1 → 3 := by
    intro hclash
    obtain ⟨claims, hquiet⟩ := hwithout hclash
    have hclaims := claim_of_finished hquiet.follows hfinished
    refine ⟨hquiet.nodup, fun k n => ⟨hquiet.reserved.cached, ?_⟩⟩
    rintro ⟨r, hr, rfl, rfl⟩
    cases hquiet.reserved.row r hr with
    | inl hcache => exact hcache
    | inr hclaim =>
      obtain ⟨i, hi⟩ := hclaim
      rw [hclaims i] at hi
      exact nomatch hi
  tfae_have 3 → 2 := Reflects.nodup
  tfae_have 2 → 1 := by
    intro hend
    by_contra hclash
    obtain ⟨claims, k, hdoubled⟩ := hwith hclash
    exact hdoubled.crowded.not_nodup (claim_of_finished hdoubled.follows hfinished) hend
  tfae_finish

end Steps

end Reservation
