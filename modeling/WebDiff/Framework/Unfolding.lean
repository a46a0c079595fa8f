import Mathlib.Data.List.Perm.Subperm
import WebDiff.Framework.Forest
import WebDiff.Framework.Walk

/-!
# Unfolding rows that name their parent

The rows of a table name their parent by its key, and `root` stands above those without one. To show
them as a tree a program looks for the rows whose parent is `root`, then for the rows whose parent is
one of these, and so on (`unfold`). If keys do not repeat and `root` is not one of them, this always
ends, whatever else the parents are (`unfold_eq_some`), visits no row twice (`nodup_unfolded`), and
visits exactly the rows from which the parents lead up to the root (`mem_unfolded_iff`). Cycles and
rows whose parent is missing are left out.
-/

namespace Unfolding

variable {R K : Type} (key parent : R → K) (rows : List R) (root : K)

/-- The row lies below the root, behind the rows with the keys `above`, the first of which is right
below the root. -/
inductive Below : (above : List K) → R → Prop
  | top {r : R} : r ∈ rows → parent r = root → Below [] r
  | step {above : List K} {r r' : R} : Below above r → r' ∈ rows → parent r' = key r →
      Below (above ++ [key r]) r'

variable {key parent rows root}

/-! ### What lies below the root -/

theorem Below.mem {above : List K} {r : R} (h : Below key parent rows root above r) : r ∈ rows := by
  cases h with
  | top hr _ => exact hr
  | step _ hr _ => exact hr

/-- The keys above a row are keys of rows. -/
theorem Below.above_subset {above : List K} {r : R} (h : Below key parent rows root above r) :
    ∀ k ∈ above, k ∈ rows.map key := by
  induction h with
  | top => exact fun k hk => absurd hk List.not_mem_nil
  | step hr _ _ ih =>
    intro k hk
    rcases List.mem_append.mp hk with hk | hk
    · exact ih k hk
    · exact List.mem_singleton.mp hk ▸ List.mem_map_of_mem hr.mem

/-- The row of a key above a row lies below the root itself, higher up. -/
theorem Below.exists_above {above : List K} {r : R} (h : Below key parent rows root above r) {k : K}
    (hk : k ∈ above) :
    ∃ above' r', Below key parent rows root above' r' ∧ key r' = k ∧
      above'.length < above.length := by
  induction h with
  | top => exact absurd hk List.not_mem_nil
  | @step above r r' hr hr' hparent ih =>
    rw [List.length_append, List.length_singleton]
    rcases List.mem_append.mp hk with hk | hk
    · obtain ⟨above', r'', hbelow, hkey, hlen⟩ := ih hk
      exact ⟨above', r'', hbelow, hkey, Nat.lt_succ_of_lt hlen⟩
    · exact ⟨above, r, hr, (List.mem_singleton.mp hk).symm, Nat.lt_succ_self _⟩

section Keys

variable (hkeys : (rows.map key).Nodup) (hroot : root ∉ rows.map key)
include hkeys hroot

/-- There is one way down to a row. -/
theorem Below.unique {above above' : List K} {r : R} (h : Below key parent rows root above r)
    (h' : Below key parent rows root above' r) : above = above' := by
  induction h generalizing above' with
  | top hr hparent =>
    cases h' with
    | top => rfl
    -- the parent would be a row and the root
    | step hs _ hparent' =>
      have hmem : root ∈ rows.map key :=
        (hparent.symm.trans hparent') ▸ List.mem_map_of_mem hs.mem
      exact absurd hmem hroot
  | step hr _ hparent ih =>
    cases h' with
    | top _ hparent' =>
      have hmem : root ∈ rows.map key :=
        (hparent'.symm.trans hparent) ▸ List.mem_map_of_mem hr.mem
      exact absurd hmem hroot
    | step hs _ hparent' =>
      have hkey := hparent.symm.trans hparent'
      obtain rfl := List.inj_on_of_nodup_map hkeys hr.mem hs.mem hkey
      rw [ih hs]

/-- No key occurs twice on the way. -/
theorem Below.nodup {above : List K} {r : R} (h : Below key parent rows root above r) :
    (above ++ [key r]).Nodup := by
  -- a row is not above itself, because there is one way down to it
  have hself : ∀ {above : List K} {r : R}, Below key parent rows root above r → key r ∉ above := by
    intro above r hbelow hmem
    obtain ⟨above', r', hbelow', hkey, hlen⟩ := hbelow.exists_above hmem
    obtain rfl := List.inj_on_of_nodup_map hkeys hbelow'.mem hbelow.mem hkey
    rw [Below.unique hkeys hroot hbelow hbelow'] at hlen
    exact absurd hlen (Nat.lt_irrefl _)
  induction h with
  | top => exact List.nodup_singleton _
  | step hr hr' hparent ih =>
    rw [← List.concat_eq_append]
    exact List.Nodup.concat (hself (hr.step hr' hparent)) ih

/-- The way down to a row is no longer than the table. -/
theorem Below.length_lt {above : List K} {r : R} (h : Below key parent rows root above r) :
    above.length < rows.length := by
  have hsubset : above ++ [key r] ⊆ rows.map key := by
    intro k hk
    rcases List.mem_append.mp hk with hk | hk
    · exact h.above_subset k hk
    · exact List.mem_singleton.mp hk ▸ List.mem_map_of_mem h.mem
  have hlen := (List.subperm_of_subset (Below.nodup hkeys hroot h) hsubset).length_le
  rw [List.length_append, List.length_singleton, List.length_map] at hlen
  exact hlen

end Keys

/-! ### The walk -/

section Unfold

variable [DecidableEq K] (key parent rows root)

/-- A row with the keys above it. -/
abbrev Node (R K : Type) := List K × R

/-- The rows right below `k`. -/
def children (above : List K) (k : K) : List (Node R K) :=
  (rows.filter fun r => parent r = k).map fun r => (above, r)

/-- The rows right below a row. -/
def expand (n : Node R K) : List (Node R K) :=
  children parent rows (n.1 ++ [key n.2]) (key n.2)

/-- The rows below the root, each followed by those below it, with fuel for the depth. -/
def unfold (fuel : ℕ) : Option (List (Node R K)) :=
  Walk.walk (expand key parent rows) fuel (children parent rows [] root)

/-- What `unfold` returns when the fuel suffices. -/
def unfolded (fuel : ℕ) : List (Node R K) :=
  Walk.visits (expand key parent rows) fuel (children parent rows [] root)

variable {key parent rows root}

theorem mem_children {above : List K} {k : K} {n : Node R K} :
    n ∈ children parent rows above k ↔ n.1 = above ∧ n.2 ∈ rows ∧ parent n.2 = k := by
  unfold children
  simp only [List.mem_map, List.mem_filter, decide_eq_true_eq]
  constructor
  · intro h
    obtain ⟨r, ⟨hr, hparent⟩, rfl⟩ := h
    exact ⟨rfl, hr, hparent⟩
  · intro h
    obtain ⟨rfl, hr, hparent⟩ := h
    exact ⟨n.2, ⟨hr, hparent⟩, rfl⟩

variable (hkeys : (rows.map key).Nodup) (hroot : root ∉ rows.map key)
include hkeys hroot

/-- What the walk needs to end: it goes down, and there is an end to going down. -/
theorem walk_hypotheses :
    (∀ n, Below key parent rows root n.1 n.2 →
      ∀ m ∈ expand key parent rows n, Below key parent rows root m.1 m.2) ∧
    (∀ n, Below key parent rows root n.1 n.2 →
      ∀ m ∈ expand key parent rows n,
        rows.length - m.1.length < rows.length - n.1.length) ∧
    ∀ fuel > rows.length, ∀ n ∈ children parent rows ([] : List K) root,
      Below key parent rows root n.1 n.2 ∧ rows.length - n.1.length < fuel := by
  have hdown : ∀ n, Below key parent rows root n.1 n.2 →
      ∀ m ∈ expand key parent rows n, Below key parent rows root m.1 m.2 := by
    intro n hn m hm
    obtain ⟨habove, hmem, hparent⟩ := mem_children.mp hm
    rw [habove]
    exact hn.step hmem hparent
  refine ⟨hdown, fun n hn m hm => ?_, fun fuel hfuel n hn => ?_⟩
  · have hlt := Below.length_lt hkeys hroot (hdown n hn m hm)
    obtain ⟨habove, -, -⟩ := mem_children.mp hm
    rw [habove, List.length_append, List.length_singleton] at hlt ⊢
    omega
  · obtain ⟨habove, hmem, hparent⟩ := mem_children.mp hn
    rw [habove]
    exact ⟨.top hmem hparent, Nat.lt_of_le_of_lt (Nat.sub_le _ _) hfuel⟩

variable {fuel : ℕ} (hfuel : rows.length < fuel)
include hfuel

/-- **It ends.** -/
theorem unfold_eq_some :
    unfold key parent rows root fuel = some (unfolded key parent rows root fuel) := by
  obtain ⟨hP, hmeasure, hroots⟩ := walk_hypotheses hkeys hroot
  exact Walk.walk_eq_some hP hmeasure (hroots fuel hfuel)

/-- **What is visited**: the rows below the root, with the keys above them. -/
theorem mem_unfolded_iff {n : Node R K} :
    n ∈ unfolded key parent rows root fuel ↔ Below key parent rows root n.1 n.2 := by
  obtain ⟨hP, hmeasure, hroots⟩ := walk_hypotheses hkeys hroot
  constructor
  · exact Walk.forall_visits hP hmeasure (hroots fuel hfuel) n
  · intro hn
    obtain ⟨above, r⟩ := n
    change Below key parent rows root above r at hn
    induction hn with
    | top hmem hparent => exact Walk.roots_subset _ _ (mem_children.mpr ⟨rfl, hmem, hparent⟩)
    | step _ hmem hparent ih =>
      exact Walk.expand_subset hP hmeasure (hroots fuel hfuel) ih
        (mem_children.mpr ⟨rfl, hmem, hparent⟩)

/-- **No row is visited twice.** -/
theorem nodup_unfolded : ((unfolded key parent rows root fuel).map fun n => key n.2).Nodup := by
  obtain ⟨hP, hmeasure, hroots⟩ := walk_hypotheses hkeys hroot
  have hsiblings : ∀ (above : List K) (k : K),
      ((children parent rows above k).map fun n => n.1 ++ [key n.2]).Nodup := by
    intro above k
    have hsub : ((rows.filter fun r => parent r = k).map key).Nodup :=
      hkeys.sublist (List.filter_sublist.map _)
    have hmap := hsub.map (f := fun x => above ++ [x]) fun a b hab =>
      List.singleton_inj.mp (List.append_cancel_left hab)
    unfold children
    rw [List.map_map] at hmap ⊢
    exact hmap
  have hnodup := Walk.nodup_visits hP hmeasure (fun n => n.1 ++ [key n.2])
    (fun n _ m hm => ⟨key m.2, by rw [(mem_children.mp hm).1]⟩)
    (fun n _ => hsiblings _ _) [] (hroots fuel hfuel)
    (fun n hn => ⟨key n.2, by rw [(mem_children.mp hn).1]⟩) (hsiblings _ _)
  -- rows with one key are one row, with the same keys above
  refine List.Nodup.map_on (fun n hn m hm heq => ?_) hnodup.of_map
  have hn' := (mem_unfolded_iff hkeys hroot hfuel).mp hn
  have hm' := (mem_unfolded_iff hkeys hroot hfuel).mp hm
  have hrow : n.2 = m.2 := List.inj_on_of_nodup_map hkeys hn'.mem hm'.mem heq
  rw [← hrow] at hm'
  exact Prod.ext (Below.unique hkeys hroot hn' hm') hrow

end Unfold

/-! ### Ids -/

/-- Where the keys are ids, the rows below `0` are those that lead up to the root. -/
theorem exists_below_iff {id parent : R → ℤ} {rows : List R} (hids : (rows.map id).Nodup)
    (hzero : 0 ∉ rows.map id) {r : R} (hr : r ∈ rows) :
    (∃ above, Below id parent rows 0 above r) ↔ Forest.ReachesRoot id parent rows (id r) := by
  constructor
  · intro h
    obtain ⟨above, hbelow⟩ := h
    induction hbelow with
    | top hr hparent =>
      apply Forest.ReachesRoot.up hr
      rw [hparent]
      exact .root
    | step _ hr' hparent ih =>
      apply Forest.ReachesRoot.up hr'
      rw [hparent]
      exact ih (Below.mem ‹_›)
  · intro h
    -- what leads up to the root is the root, or the id of a row below it
    have hids' : ∀ x, Forest.ReachesRoot id parent rows x → x = 0 ∨
        ∃ r ∈ rows, id r = x ∧ ∃ above, Below id parent rows 0 above r := by
      intro x hx
      induction hx with
      | root => exact Or.inl rfl
      | @up r hr _ ih =>
        rcases ih with hroot | ⟨r', -, hid, above, hbelow⟩
        · exact Or.inr ⟨r, hr, rfl, [], .top hr hroot⟩
        · exact Or.inr ⟨r, hr, rfl, _, hbelow.step hr hid.symm⟩
    rcases hids' _ h with hroot | ⟨r', hr', hid, hbelow⟩
    · exact absurd (hroot ▸ List.mem_map_of_mem hr) hzero
    · rwa [List.inj_on_of_nodup_map hids hr hr' hid.symm]

/-! ### Renaming the keys -/

/-- The tree does not depend on what the keys are. -/
theorem Below.map {R' K' : Type} {key' parent' : R' → K'} {rows' : List R'} {root' : K'}
    (f : R → R') (enc : K → K') (hrows : ∀ r ∈ rows, f r ∈ rows')
    (hkey : ∀ r ∈ rows, key' (f r) = enc (key r))
    (hparent : ∀ r ∈ rows, parent' (f r) = enc (parent r)) (hroot : root' = enc root)
    {above : List K} {r : R} (h : Below key parent rows root above r) :
    Below key' parent' rows' root' (above.map enc) (f r) := by
  induction h with
  | top hr hp => exact .top (hrows _ hr) ((hparent _ hr).trans ((congrArg enc hp).trans hroot.symm))
  | @step above r r' hr hr' hp ih =>
    rw [List.map_append, List.map_singleton, ← hkey _ hr.mem]
    exact ih.step (hrows _ hr')
      ((hparent _ hr').trans ((congrArg enc hp).trans (hkey _ hr.mem).symm))

end Unfolding
