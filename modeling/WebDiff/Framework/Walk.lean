import Mathlib.Data.List.Nodup
import Mathlib.Tactic.Common

/-!
# Walking a tree that is unfolded on the way

`expand a` lists the nodes right below `a`. `walk` visits a list of nodes, each followed by
everything below it, with fuel for the depth. Where a measure falls from a node to the nodes below
it, enough fuel gives a result (`walk_eq_some`), and the result consists of the roots and is closed
under `expand` (`roots_subset`, `expand_subset`); what the roots have and `expand` preserves, every
visited node has (`forall_visits`). Nodes that are labelled with the way to them are visited once
(`nodup_visits`).
-/

namespace Walk

variable {A : Type}

/-- The nodes of a list, each followed by what `below` gives for it. -/
def visitAll (below : A → Option (List A)) : List A → Option (List A)
  | [] => some []
  | a :: rest => do
    let inner ← below a
    let others ← visitAll below rest
    return a :: inner ++ others

/-- Everything below a node. -/
def below (expand : A → List A) : ℕ → A → Option (List A)
  | 0, _ => none
  | n + 1, a => visitAll (below expand n) (expand a)

/-- The roots, each followed by everything below it. -/
def walk (expand : A → List A) (n : ℕ) (roots : List A) : Option (List A) :=
  visitAll (below expand n) roots

/-- The list `walk` returns when the fuel suffices. -/
def visits (expand : A → List A) (n : ℕ) (roots : List A) : List A :=
  roots.flatMap fun a => a :: (below expand n a).getD []

variable {expand : A → List A}

theorem visitAll_eq {f : A → Option (List A)} {as : List A} (h : ∀ a ∈ as, (f a).isSome) :
    visitAll f as = some (as.flatMap fun a => a :: (f a).getD []) := by
  induction as with
  | nil => rfl
  | cons a rest ih =>
    obtain ⟨inner, hinner⟩ := Option.isSome_iff_exists.mp (h a List.mem_cons_self)
    have hrest := ih fun b hb => h b (List.mem_cons_of_mem _ hb)
    simp [visitAll, hinner, hrest]

/-- Nodes may be named differently. -/
theorem visitAll_map {B : Type} (g : A → B) {f : B → Option (List B)} {f' : A → Option (List A)}
    (as : List A) (h : ∀ a ∈ as, f (g a) = (f' a).map (List.map g)) :
    visitAll f (as.map g) = (visitAll f' as).map (List.map g) := by
  induction as with
  | nil => rfl
  | cons a rest ih =>
    have ha := h a List.mem_cons_self
    have hrest := ih fun b hb => h b (List.mem_cons_of_mem _ hb)
    rw [List.map_cons, visitAll, visitAll, ha, hrest]
    cases f' a with
    | none => rfl
    | some inner =>
      cases visitAll f' rest with
      | none => rfl
      | some others => simp

section Measure

variable {P : A → Prop} {measure : A → ℕ} (hP : ∀ a, P a → ∀ b ∈ expand a, P b)
  (hmeasure : ∀ a, P a → ∀ b ∈ expand a, measure b < measure a)

include hP hmeasure

/-- One level down. -/
theorem expand_spec {n : ℕ} {a : A} (ha : P a) (hn : measure a < n + 1) :
    ∀ b ∈ expand a, P b ∧ measure b < n := fun b hb =>
  ⟨hP a ha b hb, Nat.lt_of_lt_of_le (hmeasure a ha b hb) (Nat.lt_succ_iff.mp hn)⟩

theorem below_isSome {n : ℕ} {a : A} (ha : P a) (hn : measure a < n) :
    (below expand n a).isSome := by
  induction n generalizing a with
  | zero => exact absurd hn (Nat.not_lt_zero _)
  | succ n ih =>
    have hbelow : ∀ b ∈ expand a, (below expand n b).isSome := fun b hb =>
      have ⟨hb', hn'⟩ := expand_spec hP hmeasure ha hn b hb
      ih hb' hn'
    rw [below, visitAll_eq hbelow]
    rfl

theorem below_getD {n : ℕ} {a : A} (ha : P a) (hn : measure a < n + 1) :
    (below expand (n + 1) a).getD [] = visits expand n (expand a) := by
  have hbelow : ∀ b ∈ expand a, (below expand n b).isSome := fun b hb =>
    have ⟨hb', hn'⟩ := expand_spec hP hmeasure ha hn b hb
    below_isSome hP hmeasure hb' hn'
  rw [below, visitAll_eq hbelow]
  rfl

/-- **Enough fuel.** -/
theorem walk_eq_some {n : ℕ} {roots : List A} (hroots : ∀ a ∈ roots, P a ∧ measure a < n) :
    walk expand n roots = some (visits expand n roots) :=
  visitAll_eq fun a ha => below_isSome hP hmeasure (hroots a ha).1 (hroots a ha).2

/-- What holds of the roots and is inherited downwards holds of every visited node. -/
theorem forall_visits {n : ℕ} {roots : List A} (hroots : ∀ a ∈ roots, P a ∧ measure a < n) :
    ∀ x ∈ visits expand n roots, P x := by
  induction n generalizing roots with
  | zero =>
    intro x hx
    obtain ⟨a, ha, -⟩ := List.mem_flatMap.mp hx
    exact absurd (hroots a ha).2 (Nat.not_lt_zero _)
  | succ n ih =>
    intro x hx
    obtain ⟨a, ha, hx⟩ := List.mem_flatMap.mp hx
    obtain ⟨haP, han⟩ := hroots a ha
    rcases List.mem_cons.mp hx with rfl | hx
    · exact haP
    · rw [below_getD hP hmeasure haP han] at hx
      exact ih (expand_spec hP hmeasure haP han) x hx

omit hP hmeasure in
theorem roots_subset (n : ℕ) (roots : List A) : roots ⊆ visits expand n roots := fun a ha =>
  List.mem_flatMap.mpr ⟨a, ha, List.mem_cons_self⟩

/-- The nodes below a visited node are visited. -/
theorem expand_subset {n : ℕ} {roots : List A} (hroots : ∀ a ∈ roots, P a ∧ measure a < n) {x : A}
    (hx : x ∈ visits expand n roots) : expand x ⊆ visits expand n roots := by
  induction n generalizing roots with
  | zero =>
    obtain ⟨a, ha, -⟩ := List.mem_flatMap.mp hx
    exact absurd (hroots a ha).2 (Nat.not_lt_zero _)
  | succ n ih =>
    obtain ⟨a, ha, hxa⟩ := List.mem_flatMap.mp hx
    obtain ⟨haP, han⟩ := hroots a ha
    -- what is visited below a root is visited
    have hinner : visits expand n (expand a) ⊆ visits expand (n + 1) roots := fun b hb =>
      List.mem_flatMap.mpr ⟨a, ha, List.mem_cons_of_mem _ (by
        rwa [below_getD hP hmeasure haP han])⟩
    rcases List.mem_cons.mp hxa with rfl | hxa
    · exact fun b hb => hinner (roots_subset n _ hb)
    · rw [below_getD hP hmeasure haP han] at hxa
      exact fun b hb => hinner (ih (expand_spec hP hmeasure haP han) hxa hb)

section Label

variable {L : Type} {label : A → List L}
  (hlabel : ∀ a, P a → ∀ b ∈ expand a, ∃ x, label b = label a ++ [x])
  (hnodup : ∀ a, P a → ((expand a).map label).Nodup)

include hlabel

/-- Everything below a node has a longer label. -/
theorem label_prefix {n : ℕ} {a : A} (ha : P a) (hn : measure a < n) :
    ∀ x ∈ (below expand n a).getD [], ∃ s, s ≠ [] ∧ label x = label a ++ s := by
  induction n generalizing a with
  | zero => exact absurd hn (Nat.not_lt_zero _)
  | succ n ih =>
    intro x hx
    rw [below_getD hP hmeasure ha hn] at hx
    obtain ⟨b, hb, hxb⟩ := List.mem_flatMap.mp hx
    obtain ⟨y, hy⟩ := hlabel a ha b hb
    rcases List.mem_cons.mp hxb with rfl | hxb
    · exact ⟨[y], List.cons_ne_nil _ _, hy⟩
    · obtain ⟨hb', hn'⟩ := expand_spec hP hmeasure ha hn b hb
      obtain ⟨s, -, hs⟩ := ih hb' hn' x hxb
      exact ⟨y :: s, List.cons_ne_nil _ _, by rw [hs, hy, List.append_assoc]; rfl⟩

variable (label)

include hnodup

/-- **Visited once.** If the label of a node is that of the node above with one more element, and
siblings have different labels, then no label occurs twice. -/
theorem nodup_visits {n : ℕ} {roots : List A} (base : List L)
    (hroots : ∀ a ∈ roots, P a ∧ measure a < n) (hbase : ∀ a ∈ roots, ∃ x, label a = base ++ [x])
    (hsiblings : (roots.map label).Nodup) : ((visits expand n roots).map label).Nodup := by
  induction n generalizing roots base with
  | zero =>
    have hnil : roots = [] := List.eq_nil_iff_forall_not_mem.mpr fun a ha =>
      absurd (hroots a ha).2 (Nat.not_lt_zero _)
    rw [hnil]
    exact List.nodup_nil
  | succ n ih =>
    rw [visits, List.map_flatMap, List.nodup_flatMap]
    refine ⟨fun a ha => ?_, ?_⟩
    · obtain ⟨haP, han⟩ := hroots a ha
      rw [List.map_cons, List.nodup_cons]
      refine ⟨fun hmem => ?_, ?_⟩
      · obtain ⟨x, hx, heq⟩ := List.mem_map.mp hmem
        obtain ⟨s, hs, hlab⟩ := label_prefix hP hmeasure hlabel haP han x hx
        exact hs (List.append_cancel_left ((hlab.symm.trans heq).trans (List.append_nil _).symm))
      · rw [below_getD hP hmeasure haP han]
        exact ih (label a) (expand_spec hP hmeasure haP han) (hlabel a haP) (hnodup a haP)
    · -- what is visited for a root begins with the label of the root
      have hbegins : ∀ a ∈ roots, ∀ l ∈ (a :: (below expand (n + 1) a).getD []).map label,
          label a <+: l := by
        intro a ha l hl
        obtain ⟨x, hx, rfl⟩ := List.mem_map.mp hl
        rcases List.mem_cons.mp hx with rfl | hx
        · exact List.prefix_rfl
        · obtain ⟨s, -, hs⟩ := label_prefix hP hmeasure hlabel (hroots a ha).1 (hroots a ha).2 x hx
          exact ⟨s, hs.symm⟩
      have hdisjoint : roots.Pairwise fun a b => label a ≠ label b := List.pairwise_map.mp hsiblings
      refine hdisjoint.imp_of_mem fun {a b} ha hb hne => ?_
      intro l hl hl'
      obtain ⟨x, hx⟩ := hbase a ha
      obtain ⟨y, hy⟩ := hbase b hb
      have hlen : (label a).length = (label b).length := by rw [hx, hy]; simp
      exact hne (List.prefix_of_prefix_length_le (hbegins a ha l hl) (hbegins b hb l hl')
        (Nat.le_of_eq hlen) |>.eq_of_length hlen)

end Label

end Measure

end Walk
