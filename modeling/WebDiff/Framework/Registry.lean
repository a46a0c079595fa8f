import Mathlib.Data.List.Nodup
import Mathlib.Logic.Function.Basic
import Mathlib.Order.Basic
import Mathlib.Tactic.Common

/-!
# Registries of resources

A registry hands out resources to keys. A key has at most one current resource, replaced resources
go to a list of retired ones, and the registry remembers every resource ever opened together with
the key it was opened for. `Sound` is what holds of every registry that opens nothing twice: a
resource is never current for a key it was not opened for. `Placed` says that nothing is lost or
listed twice: each opened resource is either current or retired once. Replacing a current resource
keeps both (`Placed.replace`); retiring it alone loses `Placed` (`not_placed_retire`).
-/

/-- The current resources, the retired ones, and all that were opened, each with its key. -/
structure Registry (K R : Type) where
  opened : List (K × R)
  current : K → Option R
  retired : List R

namespace Registry

variable {K R : Type} {s : Registry K R} {k : K} {r old : R}

/-- Nothing was opened yet. -/
def empty : Registry K R := ⟨[], fun _ => none, []⟩

/-- A resource is listed as retired. -/
def retire (s : Registry K R) (r : R) : Registry K R :=
  { s with retired := s.retired ++ [r] }

/-- A new resource becomes the current one of its key. -/
def install [DecidableEq K] (s : Registry K R) (k : K) (r : R) : Registry K R where
  opened := s.opened ++ [(k, r)]
  current := Function.update s.current k (some r)
  retired := s.retired

/-- Resources are opened once, and are current or retired only after they were opened. -/
structure Sound (s : Registry K R) : Prop where
  nodup : (s.opened.map Prod.snd).Nodup
  current : ∀ k r, s.current k = some r → (k, r) ∈ s.opened
  retired : ∀ r ∈ s.retired, ∃ k, (k, r) ∈ s.opened

/-! ### Owners -/

theorem Sound.empty : Sound (empty : Registry K R) where
  nodup := List.nodup_nil
  current := fun _ _ h => nomatch h
  retired := fun _ h => absurd h List.not_mem_nil

/-- A resource has one owner. -/
theorem Sound.owner_unique (h : s.Sound) {k' : K} (hk : (k, r) ∈ s.opened)
    (hk' : (k', r) ∈ s.opened) : k = k' :=
  congrArg Prod.fst (List.inj_on_of_nodup_map h.nodup hk hk' rfl)

/-- A resource that was not opened is not a retired one. -/
theorem Sound.not_retired (h : s.Sound) (hr : ∀ k', (k', r) ∉ s.opened) : r ∉ s.retired := by
  intro hmem
  obtain ⟨k', hk'⟩ := h.retired r hmem
  exact hr k' hk'

/-- Retiring a resource that was opened. -/
theorem Sound.retire (h : s.Sound) (hr : (k, r) ∈ s.opened) : (s.retire r).Sound where
  nodup := h.nodup
  current := h.current
  retired := by
    intro r' hr'
    rcases List.mem_append.mp hr' with hr' | hr'
    · exact h.retired r' hr'
    · obtain rfl := List.mem_singleton.mp hr'
      exact ⟨k, hr⟩

/-- Opening a new resource. -/
theorem Sound.install [DecidableEq K] (h : s.Sound) (hr : ∀ k', (k', r) ∉ s.opened) :
    (s.install k r).Sound where
  nodup := by
    rw [Registry.install, List.map_append, List.map_singleton]
    refine h.nodup.append (List.nodup_singleton r) ?_
    rw [List.disjoint_singleton]
    intro hmem
    obtain ⟨⟨k', _⟩, hk', rfl⟩ := List.mem_map.mp hmem
    exact hr k' hk'
  current := by
    intro k' r' hcur
    by_cases hk : k' = k
    · subst hk
      simp only [Registry.install, Function.update_self, Option.some.injEq] at hcur
      subst hcur
      exact List.mem_append_right _ (List.mem_singleton.mpr rfl)
    · simp only [Registry.install, Function.update_of_ne hk] at hcur
      exact List.mem_append_left _ (h.current k' r' hcur)
  retired := by
    intro r' hr'
    obtain ⟨k', hk'⟩ := h.retired r' hr'
    exact ⟨k', List.mem_append_left _ hk'⟩

/-- Installing changes the key of no other resource, unless it was the one replaced. -/
theorem current_install_iff [DecidableEq K] {r' : R} (hne : r' ≠ r) (hk : s.current k ≠ some r')
    (k' : K) : (s.install k r).current k' = some r' ↔ s.current k' = some r' := by
  by_cases hkk : k' = k
  · subst hkk
    simp [Registry.install, hk, Ne.symm hne]
  · simp [Registry.install, Function.update_of_ne hkk]

/-! ### Places -/

variable [DecidableEq R]

/-- Every opened resource is current for its key, or retired once, and not both. -/
def Placed (s : Registry K R) : Prop :=
  ∀ k r, (k, r) ∈ s.opened →
    (s.current k = some r ∧ r ∉ s.retired) ∨ (s.current k ≠ some r ∧ s.retired.count r = 1)

theorem Placed.empty : Placed (empty : Registry K R) :=
  fun _ _ h => absurd h List.not_mem_nil

/-- A current resource is not a retired one. -/
theorem Placed.not_retired (h : s.Placed) (hs : s.Sound) (hk : s.current k = some r) :
    r ∉ s.retired := by
  rcases h k r (hs.current k r hk) with ⟨-, hnot⟩ | ⟨hne, -⟩
  · exact hnot
  · exact absurd hk hne

/-- No resource is retired twice. -/
theorem Placed.nodup_retired (h : s.Placed) (hs : s.Sound) : s.retired.Nodup := by
  rw [List.nodup_iff_count_le_one]
  intro r
  by_cases hmem : r ∈ s.retired
  · obtain ⟨k, hk⟩ := hs.retired r hmem
    rcases h k r hk with ⟨-, hnot⟩ | ⟨-, hone⟩
    · exact absurd hmem hnot
    · exact Nat.le_of_eq hone
  · rw [List.count_eq_zero.mpr hmem]
    exact Nat.zero_le 1

/-- A current resource must not be retired without a replacement. -/
theorem not_placed_retire (hs : s.Sound) (hk : s.current k = some r) : ¬ (s.retire r).Placed := by
  intro h
  rcases h k r (hs.current k r hk) with ⟨-, hnot⟩ | ⟨hne, -⟩
  · exact hnot (List.mem_append_right _ (List.mem_singleton.mpr rfl))
  · exact hne hk

variable [DecidableEq K]

/-- **Opening** a resource for a key without one loses nothing. -/
theorem Placed.install (h : s.Placed) (hs : s.Sound) (hk : s.current k = none)
    (hr : ∀ k', (k', r) ∉ s.opened) : (s.install k r).Placed := by
  intro k' r' hopened
  rcases List.mem_append.mp hopened with hold | hnew
  · have hne : r' ≠ r := fun he => hr k' (he ▸ hold)
    -- a resource opened before is where it was
    have hcur : s.current k ≠ some r' := by simp [hk]
    rw [ne_eq, current_install_iff hne hcur]
    exact h k' r' hold
  · obtain ⟨rfl, rfl⟩ := Prod.mk.inj (List.mem_singleton.mp hnew)
    exact Or.inl ⟨Function.update_self _ _ _, hs.not_retired hr⟩

/-- **Replacing** the current resource of a key by a new one loses nothing. -/
theorem Placed.replace (h : s.Placed) (hs : s.Sound) (hk : s.current k = some old)
    (hr : ∀ k', (k', r) ∉ s.opened) : ((s.retire old).install k r).Placed := by
  have hold : (k, old) ∈ s.opened := hs.current k old hk
  have hretired : old ∉ s.retired := h.not_retired hs hk
  have hne : old ≠ r := fun he => hr k (he ▸ hold)
  intro k' r' hopened
  rcases List.mem_append.mp hopened with hbefore | hnew
  · by_cases hr' : r' = old
    · -- the old resource is retired now, and was not before
      subst hr'
      obtain rfl := hs.owner_unique hold hbefore
      refine Or.inr ⟨?_, ?_⟩
      · simp [Registry.install, Ne.symm hne]
      · simp [Registry.install, Registry.retire, List.count_append, List.count_eq_zero.mpr hretired]
    · have hne' : r' ≠ r := fun he => hr k' (he ▸ hbefore)
      have hcur : (s.retire old).current k ≠ some r' := fun hcur =>
        hr' (Option.some.inj (hcur.symm.trans hk))
      have hcount : (s.retired ++ [old]).count r' = s.retired.count r' := by
        simp [List.count_append, Ne.symm hr']
      rw [ne_eq, current_install_iff hne' hcur]
      rcases h k' r' hbefore with ⟨hc, hnot⟩ | ⟨hc, hone⟩
      · refine Or.inl ⟨hc, ?_⟩
        intro hmem
        rcases List.mem_append.mp hmem with hmem | hmem
        · exact hnot hmem
        · exact hr' (List.mem_singleton.mp hmem)
      · exact Or.inr ⟨hc, hcount.trans hone⟩
  · obtain ⟨rfl, rfl⟩ := Prod.mk.inj (List.mem_singleton.mp hnew)
    refine Or.inl ⟨Function.update_self _ _ _, ?_⟩
    intro hmem
    rcases List.mem_append.mp hmem with hmem | hmem
    · exact hs.not_retired hr hmem
    · exact hne (List.mem_singleton.mp hmem).symm

end Registry
