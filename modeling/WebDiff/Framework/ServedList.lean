import Mathlib.Data.List.Induction
import Mathlib.Data.List.Nodup
import Mathlib.Order.Basic
import Mathlib.Tactic.Common

/-!
# Lists served from memory

A table keeps named rows, and a list in memory keeps a model of every row. The list is filled in two
ways: a name that is not in it yet is appended to both, and a reload replaces it by the result of a
query that sorts the rows by name. Some names come out of the query changed; `clean` are those that
do not. The list is what the query would return, after every step, exactly when every name that
arrives is clean, and known or not below any name that arrived before it (`agrees_iff`).
-/

namespace ServedList

variable {R M N S : Type}

/-- The rows of the table, and the list in memory. -/
structure Listed (R M : Type) where
  rows : List R
  cached : List M

/-- Every name arrived before, or is not below any name that did. -/
def InOrder (le : N → N → Prop) (names : List N) : Prop :=
  ∀ before n, before ++ [n] <+: names → n ∈ before ∨ ∀ n' ∈ before, le n' n

/-- The query permutes the models of rows with clean names and sorts them, and returns clean names
only. -/
structure Sorts (toModel : R → M) (name : M → N) (le : N → N → Prop) (clean : N → Prop)
    (query : List R → List M) : Prop where
  perm : ∀ rows, (∀ r ∈ rows, clean (name (toModel r))) →
    (query rows).Perm (rows.map toModel)
  sorted : ∀ rows, (∀ r ∈ rows, clean (name (toModel r))) →
    (query rows).Pairwise fun a b => le (name a) (name b)
  clean : ∀ rows, ∀ m ∈ query rows, clean (name m)

/-- One step: a name arrives and is found, or is new, or the list is reloaded. -/
inductive Step (toModel : R → M) (name : M → N) (query : List R → List M) :
    Listed R M → Option N → Listed R M → Prop
  | found {l : Listed R M} {n : N} (h : ∃ m ∈ l.cached, name m = n) :
    Step toModel name query l (some n) l
  | created {l : Listed R M} (r : R) (h : ∀ m ∈ l.cached, name m ≠ name (toModel r)) :
    Step toModel name query l (some (name (toModel r)))
      ⟨l.rows ++ [r], l.cached ++ [toModel r]⟩
  | reloaded {l : Listed R M} : Step toModel name query l none ⟨l.rows, query l.rows⟩

section Search

variable {toModel : R → M} {name : M → N} {query : List R → List M} {l : Listed R M} [DecidableEq N]

/-- A search by name that finds a model. -/
theorem Step.of_find?_eq_some {n : N} {m : M}
    (h : (l.cached.find? fun m => name m = n) = some m) : Step toModel name query l (some n) l := by
  have hname : name m = n := by simpa using List.find?_some h
  exact Step.found ⟨m, List.mem_of_find?_eq_some h, hname⟩

/-- A search by name that finds nothing, and a row with that name appended. -/
theorem Step.of_find?_eq_none (r : R)
    (h : (l.cached.find? fun m => name m = name (toModel r)) = none) :
    Step toModel name query l (some (name (toModel r))) ⟨l.rows ++ [r], l.cached ++ [toModel r]⟩ :=
  Step.created r fun m hm heq => List.find?_eq_none.mp h m hm (decide_eq_true heq)

end Search

section InOrder

variable {le : N → N → Prop} {names : List N} {n : N}

theorem InOrder.nil : InOrder le ([] : List N) := by
  intro before n hpre
  have hnil : before ++ [n] = [] := List.prefix_nil.mp hpre
  exact absurd hnil (List.append_ne_nil_of_right_ne_nil _ (List.cons_ne_nil _ _))

theorem inOrder_concat :
    InOrder le (names ++ [n]) ↔ InOrder le names ∧ (n ∈ names ∨ ∀ n' ∈ names, le n' n) := by
  constructor
  · intro h
    exact ⟨fun before n' hpre => h before n' (hpre.trans (List.prefix_append _ _)),
      h names n (List.prefix_refl _)⟩
  · rintro ⟨h, hlast⟩ before n' hpre
    rcases List.prefix_concat_iff.mp hpre with heq | hpre
    · obtain ⟨rfl, rfl⟩ := List.append_singleton_inj.mp heq
      exact hlast
    · exact h before n' hpre

/-- Clean names in order, and one that may arrive behind them. -/
theorem clean_inOrder_append {clean : N → Prop} (a : Option N) :
    (∀ n ∈ names ++ a.toList, clean n) ∧ InOrder le (names ++ a.toList) ↔
      ((∀ n ∈ names, clean n) ∧ InOrder le names) ∧
        ∀ n ∈ a, clean n ∧ (n ∈ names ∨ ∀ n' ∈ names, le n' n) := by
  cases a with
  | none => simp
  | some n =>
    simp only [Option.toList_some, inOrder_concat, List.forall_mem_append, List.mem_singleton,
      forall_eq, Option.mem_def, Option.some.injEq, forall_eq']
    exact and_and_and_comm

end InOrder

/-- A property of all prefixes of a longer list. -/
theorem forall_prefix_concat {P : List S → Prop} {steps : List S} {x : S} :
    (∀ before, before <+: steps ++ [x] → P before) ↔
      (∀ before, before <+: steps → P before) ∧ P (steps ++ [x]) := by
  constructor
  · exact fun h => ⟨fun before hpre => h before (hpre.trans (List.prefix_append _ _)),
      h _ (List.prefix_refl _)⟩
  · rintro ⟨h, hlast⟩ before hpre
    rcases List.prefix_concat_iff.mp hpre with rfl | hpre
    · exact hlast
    · exact h before hpre

section Agreement

variable {toModel : R → M} {name : M → N} {le : N → N → Prop} {clean : N → Prop}
  {query : List R → List M}

/-- While all names are clean and in order, the list holds the models of the rows, sorted. -/
structure Kept (toModel : R → M) (name : M → N) (le : N → N → Prop) (clean : N → Prop)
    (l : Listed R M) (names : List N) : Prop where
  perm : l.cached.Perm (l.rows.map toModel)
  nodup : (l.cached.map name).Nodup
  sorted : l.cached.Pairwise fun a b => le (name a) (name b)
  clean : ∀ m ∈ l.cached, clean (name m)
  names : ∀ n, n ∈ names ↔ ∃ m ∈ l.cached, name m = n

theorem Kept.empty : Kept toModel name le clean ⟨[], []⟩ [] where
  perm := List.Perm.refl _
  nodup := List.nodup_nil
  sorted := List.Pairwise.nil
  clean := fun _ h => absurd h List.not_mem_nil
  names := fun n => by simp

variable {l : Listed R M} {names : List N}

theorem Kept.clean_rows (h : Kept toModel name le clean l names) :
    ∀ r ∈ l.rows, clean (name (toModel r)) := by
  intro r hr
  have hcached : toModel r ∈ l.cached := h.perm.mem_iff.mpr (List.mem_map_of_mem hr)
  exact h.clean _ hcached

/-- A sorted list is what the query returns: names are different, and the order is antisymmetric. -/
theorem Kept.cached_eq (h : Kept toModel name le clean l names)
    (hanti : ∀ a b, le a b → le b a → a = b) (hquery : Sorts toModel name le clean query) :
    l.cached = query l.rows := by
  have hperm := h.perm.trans (hquery.perm l.rows h.clean_rows).symm
  apply hperm.eq_of_pairwise _ h.sorted (hquery.sorted l.rows h.clean_rows)
  intro a b ha hb hab hba
  have hname : name a = name b := hanti _ _ hab hba
  exact List.inj_on_of_nodup_map h.nodup ha (hperm.mem_iff.mpr hb) hname

/-- A reload keeps everything. -/
theorem Kept.reload (h : Kept toModel name le clean l names)
    (hquery : Sorts toModel name le clean query) :
    Kept toModel name le clean ⟨l.rows, query l.rows⟩ names := by
  have hperm := hquery.perm l.rows h.clean_rows
  have hcached := hperm.trans h.perm.symm
  refine ⟨hperm, (hcached.map name).nodup_iff.mpr h.nodup, hquery.sorted l.rows h.clean_rows,
    hquery.clean l.rows, ?_⟩
  intro n
  rw [h.names]
  simp only [hcached.mem_iff]

/-- A new name keeps everything when it is clean and not below the others. -/
theorem Kept.create (h : Kept toModel name le clean l names) {r : R}
    (hnew : ∀ m ∈ l.cached, name m ≠ name (toModel r)) (hclean : clean (name (toModel r)))
    (hle : ∀ n' ∈ names, le n' (name (toModel r))) :
    Kept toModel name le clean ⟨l.rows ++ [r], l.cached ++ [toModel r]⟩
      (names ++ [name (toModel r)]) where
  perm := by
    rw [List.map_append]
    exact h.perm.append (List.Perm.refl _)
  nodup := by
    rw [List.map_append, List.map_singleton]
    refine h.nodup.append (List.nodup_singleton _) ?_
    rw [List.disjoint_singleton]
    intro hmem
    obtain ⟨m, hm, heq⟩ := List.mem_map.mp hmem
    exact hnew m hm heq
  sorted := by
    refine List.pairwise_append.mpr ⟨h.sorted, List.pairwise_singleton _ _, ?_⟩
    intro a ha b hb
    rw [List.mem_singleton.mp hb]
    exact hle _ ((h.names _).mpr ⟨a, ha, rfl⟩)
  clean := by
    intro m hm
    rcases List.mem_append.mp hm with hm | hm
    · exact h.clean m hm
    · exact List.mem_singleton.mp hm ▸ hclean
  names := by
    intro n
    simp only [List.mem_append, List.mem_singleton, h.names, or_and_right, exists_or,
      exists_eq_left]
    exact or_congr Iff.rfl eq_comm

/-- A known name changes nothing. -/
theorem Kept.find (h : Kept toModel name le clean l names) {n : N}
    (hn : ∃ m ∈ l.cached, name m = n) : Kept toModel name le clean l (names ++ [n]) := by
  refine { h with names := fun n' => ?_ }
  rw [List.mem_append, List.mem_singleton, h.names]
  exact or_iff_left_of_imp fun heq => heq ▸ hn

/-- **One step.** From a list that is kept, the list agrees with the query after the step exactly
when the name that arrives, if one does, is clean and in order; and then the list is kept. -/
theorem Step.agrees_iff {l' : Listed R M} {a : Option N} (hstep : Step toModel name query l a l')
    (h : Kept toModel name le clean l names) (hanti : ∀ a b, le a b → le b a → a = b)
    (hquery : Sorts toModel name le clean query) :
    (l'.cached = query l'.rows ↔
      ∀ n ∈ a, clean n ∧ (n ∈ names ∨ ∀ n' ∈ names, le n' n)) ∧
    (l'.cached = query l'.rows → Kept toModel name le clean l' (names ++ a.toList)) := by
  cases hstep with
  | reloaded =>
    refine ⟨⟨?_, fun _ => rfl⟩, ?_⟩
    · intro _ n hn
      cases hn
    · intro _
      rw [Option.toList_none, List.append_nil]
      exact h.reload hquery
  | @found n hn =>
    refine ⟨⟨?_, fun _ => h.cached_eq hanti hquery⟩, fun _ => h.find hn⟩
    intro _ n' hn'
    obtain rfl := Option.some.inj hn'
    obtain ⟨m, hm, hname⟩ := hn
    exact ⟨hname ▸ h.clean m hm, Or.inl ((h.names _).mpr ⟨m, hm, hname⟩)⟩
  | created r hnew =>
    -- agreement says that the new name comes out of the query, behind the others
    have hforth : l.cached ++ [toModel r] = query (l.rows ++ [r]) →
        clean (name (toModel r)) ∧ ∀ n' ∈ names, le n' (name (toModel r)) := by
      intro heq
      have hlast : toModel r ∈ l.cached ++ [toModel r] :=
        List.mem_append_right _ (List.mem_singleton.mpr rfl)
      have hclean : clean (name (toModel r)) := hquery.clean _ _ (heq ▸ hlast)
      have hrows : ∀ r' ∈ l.rows ++ [r], clean (name (toModel r')) := by
        intro r' hr'
        rcases List.mem_append.mp hr' with hr' | hr'
        · exact h.clean_rows r' hr'
        · exact List.mem_singleton.mp hr' ▸ hclean
      have hsorted := hquery.sorted _ hrows
      rw [← heq, List.pairwise_append] at hsorted
      refine ⟨hclean, ?_⟩
      intro n' hn'
      obtain ⟨m, hm, rfl⟩ := (h.names n').mp hn'
      exact hsorted.2.2 m hm _ (List.mem_singleton.mpr rfl)
    refine ⟨⟨?_, ?_⟩, ?_⟩
    · intro heq n hn
      obtain rfl := Option.some.inj hn
      exact ⟨(hforth heq).1, Or.inr (hforth heq).2⟩
    · intro hok
      obtain ⟨hclean, hknown | hle⟩ := hok _ rfl
      · obtain ⟨m, hm, hname⟩ := (h.names _).mp hknown
        exact absurd hname (hnew m hm)
      · exact (h.create hnew hclean hle).cached_eq hanti hquery
    · intro heq
      exact h.create hnew (hforth heq).1 (hforth heq).2

/-- **All steps.** The list agrees with the query after every step exactly when the names that
arrive are clean and in order. -/
theorem agrees_iff (state : List S → Listed R M) {arrival : S → Option N}
    (hstart : state [] = ⟨[], []⟩)
    (hstep : ∀ before x, Step toModel name query (state before) (arrival x) (state (before ++ [x])))
    (hanti : ∀ a b, le a b → le b a → a = b) (hquery : Sorts toModel name le clean query)
    (steps : List S) :
    (∀ before, before <+: steps → (state before).cached = query (state before).rows) ↔
      (∀ n ∈ steps.filterMap arrival, clean n) ∧ InOrder le (steps.filterMap arrival) := by
  -- along the induction the list is kept, as long as it agreed so far
  suffices h : ((∀ before, before <+: steps → (state before).cached = query (state before).rows) ↔
      (∀ n ∈ steps.filterMap arrival, clean n) ∧ InOrder le (steps.filterMap arrival)) ∧
      ((∀ before, before <+: steps → (state before).cached = query (state before).rows) →
        Kept toModel name le clean (state steps) (steps.filterMap arrival)) from h.1
  induction steps using List.reverseRecOn with
  | nil =>
    have hkept : Kept toModel name le clean (state []) [] := hstart ▸ Kept.empty
    refine ⟨⟨fun _ => ⟨fun _ h => absurd h List.not_mem_nil, InOrder.nil⟩, ?_⟩, fun _ => hkept⟩
    intro _ before hpre
    rw [List.prefix_nil.mp hpre]
    exact hkept.cached_eq hanti hquery
  | append_singleton steps x ih =>
    obtain ⟨hiff, hkept⟩ := ih
    have hlast : [x].filterMap arrival = (arrival x).toList := by
      cases h : arrival x <;> simp [h]
    have hone := fun hbefore => (hstep steps x).agrees_iff (hkept hbefore) hanti hquery
    rw [forall_prefix_concat, List.filterMap_append, hlast]
    refine ⟨?_, ?_⟩
    · rw [clean_inOrder_append, ← hiff]
      apply and_congr_right
      intro hbefore
      exact (hone hbefore).1
    · rintro ⟨hbefore, hagrees⟩
      exact (hone hbefore).2 hagrees

end Agreement

end ServedList
