import Mathlib.Data.List.Nodup
import Mathlib.Tactic.Common

/-!
# Outlines

An outline shows a tree piece by piece. It is a list of rows in the order in which they are drawn,
and a row carries the keys of the rows it lies inside, the outermost first. What lies inside a row
can be taken away (`close`) and drawn again (`fill`), as often as one likes and with new keys each
time, so a key that is not found any more belonged to a row that is gone.

`Built` says that every row lies right inside one it belongs to, which gives the way to it
(`Built.exists_way`). Where the identity of a row determines the identity of the row around it, no
identity is shown twice (`Built.eq_of_ident_eq`). `Covers` says that an open row shows all that it
has to. All three are kept by both operations.
-/

namespace Outline

/-- A row: the keys of the rows around it, its own key, and what it shows. -/
structure Row (A : Type) where
  above : List ℕ
  key : ℕ
  content : A

variable {A : Type}

/-- Something lies inside the row with the key. -/
def IsOpen (doc : List (Row A)) (k : ℕ) : Prop :=
  ∃ r ∈ doc, k ∈ r.above

instance (doc : List (Row A)) (k : ℕ) : Decidable (IsOpen doc k) :=
  inferInstanceAs (Decidable (∃ r ∈ doc, k ∈ r.above))

/-- Nothing lies inside the row with the key any more. -/
def close (k : ℕ) (doc : List (Row A)) : List (Row A) :=
  doc.filter fun r => k ∉ r.above

/-- Rows with these contents, numbered from `next` on. -/
def rows (above : List ℕ) : (next : ℕ) → List A → List (Row A)
  | _, [] => []
  | next, a :: rest => ⟨above, next, a⟩ :: rows above (next + 1) rest

/-- These contents lie inside the row with the key, and nothing else does. -/
def fill (k next : ℕ) (contents : List A) (doc : List (Row A)) : List (Row A) :=
  (close k doc).flatMap fun r =>
    r :: if r.key = k then rows (r.above ++ [k]) next contents else []

section Rows

variable {above : List ℕ} {next : ℕ} {contents : List A} {r r' : Row A}

variable (above next contents) in
theorem map_content_rows : (rows above next contents).map Row.content = contents := by
  induction contents generalizing next with
  | nil => rfl
  | cons a rest ih => exact congrArg (a :: ·) (ih (next + 1))

theorem of_mem_rows (hr : r ∈ rows above next contents) :
    r.above = above ∧ next ≤ r.key ∧ r.key < next + contents.length ∧ r.content ∈ contents := by
  induction contents generalizing next with
  | nil => exact absurd hr List.not_mem_nil
  | cons a rest ih =>
    rcases List.mem_cons.mp hr with rfl | hr
    · exact ⟨rfl, Nat.le_refl _, Nat.lt_add_of_pos_right (Nat.succ_pos _), List.mem_cons_self⟩
    · obtain ⟨habove, hle, hlt, hmem⟩ := ih hr
      rw [List.length_cons]
      exact ⟨habove, Nat.le_of_succ_le hle, by omega, List.mem_cons_of_mem _ hmem⟩

variable (above next) in
theorem exists_mem_rows {a : A} (ha : a ∈ contents) :
    ∃ r ∈ rows above next contents, r.content = a := by
  have hmap := map_content_rows above next contents
  rw [← hmap] at ha
  exact List.mem_map.mp ha

theorem nodup_keys_rows : ((rows above next contents).map Row.key).Nodup := by
  induction contents generalizing next with
  | nil => exact List.nodup_nil
  | cons a rest ih =>
    refine List.nodup_cons.mpr ⟨fun hmem => ?_, ih⟩
    obtain ⟨r, hr, hkey⟩ := List.mem_map.mp hmem
    have hle : next + 1 ≤ r.key := (of_mem_rows hr).2.1
    rw [hkey] at hle
    exact absurd hle (Nat.not_succ_le_self next)

/-- Rows of different contents are told apart by them. -/
theorem rows_inj {B : Type} {ident : A → B} (hnodup : (contents.map ident).Nodup)
    (hr : r ∈ rows above next contents) (hr' : r' ∈ rows above next contents)
    (h : ident r.content = ident r'.content) : r = r' := by
  have hmap : ((rows above next contents).map fun r => ident r.content).Nodup := by
    have heq : (rows above next contents).map (ident ∘ Row.content) = contents.map ident := by
      rw [← List.map_map, map_content_rows]
    exact heq ▸ hnodup
  exact List.inj_on_of_nodup_map hmap hr hr' h

end Rows

theorem mem_close {doc : List (Row A)} {k : ℕ} {r : Row A} :
    r ∈ close k doc ↔ r ∈ doc ∧ k ∉ r.above := by
  unfold close
  rw [List.mem_filter, decide_eq_true_eq]

/-- Only the row with the key is filled. -/
theorem fill_others {doc : List (Row A)} {k next : ℕ} {contents : List A}
    (hk : ∀ y ∈ doc, y.key ≠ k) :
    (doc.flatMap fun r => r :: if r.key = k then rows (r.above ++ [k]) next contents else [])
      = doc := by
  induction doc with
  | nil => rfl
  | cons r rest ih =>
    rw [List.flatMap_cons, if_neg (hk r List.mem_cons_self),
      ih fun y hy => hk y (List.mem_cons_of_mem _ hy)]
    rfl

theorem mem_fill {doc : List (Row A)} {k next : ℕ} {contents : List A} {r : Row A} :
    r ∈ fill k next contents doc ↔ (r ∈ doc ∧ k ∉ r.above) ∨
      ∃ y ∈ doc, y.key = k ∧ k ∉ y.above ∧ r ∈ rows (y.above ++ [k]) next contents := by
  unfold fill
  simp only [List.mem_flatMap, mem_close, List.mem_cons]
  constructor
  · intro h
    obtain ⟨y, ⟨hy, hnot⟩, rfl | hr⟩ := h
    · exact Or.inl ⟨hy, hnot⟩
    · by_cases hkey : y.key = k
      · rw [if_pos hkey] at hr
        exact Or.inr ⟨y, hy, hkey, hnot, hr⟩
      · rw [if_neg hkey] at hr
        exact absurd hr List.not_mem_nil
  · intro h
    rcases h with ⟨hr, hnot⟩ | ⟨y, hy, hkey, hnot, hr⟩
    · exact ⟨r, ⟨hr, hnot⟩, Or.inl rfl⟩
    · exact ⟨y, ⟨hy, hnot⟩, Or.inr (by rw [if_pos hkey]; exact hr)⟩

/-! ### What is shown belongs where it is shown -/

section Built

variable {P : A → Prop} {R : A → A → Prop} {next : ℕ} {doc : List (Row A)}

/-- Every key is used once, and none from `next` on. The outermost rows satisfy `P`, and a row right
inside another one is related to it by `R`. -/
structure Built (P : A → Prop) (R : A → A → Prop) (next : ℕ) (doc : List (Row A)) : Prop where
  keys : (doc.map Row.key).Nodup
  bound : ∀ r ∈ doc, r.key < next
  nested : ∀ r ∈ doc, (r.above = [] ∧ P r.content) ∨
    ∃ y ∈ doc, r.above = y.above ++ [y.key] ∧ R y.content r.content

/-- The contents on the way to a row, from the outermost one to its own. -/
inductive Way (P : A → Prop) (R : A → A → Prop) : List A → Prop
  | outermost {a : A} : P a → Way P R [a]
  | inside {as : List A} {a b : A} : Way P R (as ++ [a]) → R a b → Way P R (as ++ [a, b])

theorem built_rows {contents : List A} (hP : ∀ a ∈ contents, P a) :
    Built P R contents.length (rows [] 0 contents) where
  keys := nodup_keys_rows
  bound := fun _ hr => Nat.zero_add contents.length ▸ (of_mem_rows hr).2.2.1
  nested := fun _ hr => Or.inl ⟨(of_mem_rows hr).1, hP _ (of_mem_rows hr).2.2.2⟩

theorem Built.mono {P' : A → Prop} {R' : A → A → Prop} (h : Built P R next doc)
    (hP : ∀ a, P a → P' a) (hR : ∀ a b, R a b → R' a b) : Built P' R' next doc where
  keys := h.keys
  bound := h.bound
  nested := by
    intro r hr
    rcases h.nested r hr with ⟨habove, hroot⟩ | ⟨y, hy, habove, hinside⟩
    · exact Or.inl ⟨habove, hP _ hroot⟩
    · exact Or.inr ⟨y, hy, habove, hR _ _ hinside⟩

/-- By induction on how deep the row lies. -/
theorem Built.exists_way (h : Built P R next doc) {r : Row A} (hr : r ∈ doc) :
    ∃ ys : List (Row A), (∀ y ∈ ys, y ∈ doc) ∧ ys.map Row.key = r.above ∧
      Way P R (ys.map Row.content ++ [r.content]) := by
  induction hn : r.above.length generalizing r with
  | zero =>
    rcases h.nested r hr with ⟨habove, hroot⟩ | ⟨y, -, habove, -⟩
    · exact ⟨[], fun _ hy => absurd hy List.not_mem_nil, habove.symm, .outermost hroot⟩
    · rw [habove, List.length_append] at hn
      exact absurd hn (Nat.succ_ne_zero _)
  | succ n ih =>
    rcases h.nested r hr with ⟨habove, -⟩ | ⟨y, hy, habove, hinside⟩
    · rw [habove] at hn
      exact absurd hn.symm (Nat.succ_ne_zero n)
    · rw [habove, List.length_append] at hn
      obtain ⟨ys, hys, hkeys, hway⟩ := ih hy (Nat.succ.inj hn)
      refine ⟨ys ++ [y], fun x hx => ?_, ?_, ?_⟩
      · rcases List.mem_append.mp hx with hx | hx
        · exact hys x hx
        · exact List.mem_singleton.mp hx ▸ hy
      · rw [List.map_append, hkeys, habove]
        rfl
      · rw [List.map_append, List.append_assoc]
        exact .inside hway hinside

/-- Around a row lie rows with smaller lists of keys. -/
theorem Built.exists_above (h : Built P R next doc) {r : Row A} (hr : r ∈ doc) {k : ℕ}
    (hk : k ∈ r.above) : ∃ y ∈ doc, y.key = k ∧ y.above.length < r.above.length := by
  induction hn : r.above.length generalizing r with
  | zero =>
    rw [List.length_eq_zero_iff.mp hn] at hk
    exact absurd hk List.not_mem_nil
  | succ n ih =>
    rcases h.nested r hr with ⟨habove, -⟩ | ⟨y, hy, habove, -⟩
    · rw [habove] at hk
      exact absurd hk List.not_mem_nil
    · rw [habove, List.length_append] at hn
      have hlength : y.above.length = n := Nat.succ.inj hn
      rw [habove, List.mem_append, List.mem_singleton] at hk
      rcases hk with hk | rfl
      · obtain ⟨x, hx, hkey, hlt⟩ := ih hy hk hlength
        exact ⟨x, hx, hkey, by omega⟩
      · exact ⟨y, hy, rfl, by omega⟩

/-- Keys may be left out. -/
theorem Built.next_le (h : Built P R next doc) {next' : ℕ} (hle : next ≤ next') :
    Built P R next' doc :=
  ⟨h.keys, fun r hr => Nat.lt_of_lt_of_le (h.bound r hr) hle, h.nested⟩

/-- A row that is gone is not filled any more. -/
theorem Built.fill_absent (h : Built P R next doc) {k : ℕ} (hk : ∀ y ∈ doc, y.key ≠ k)
    (next' : ℕ) (contents : List A) : fill k next' contents doc = doc := by
  have hclose : Outline.close k doc = doc := by
    refine List.filter_eq_self.mpr fun r hr => decide_eq_true fun hmem => ?_
    obtain ⟨y, hy, hkey, -⟩ := h.exists_above hr hmem
    exact hk y hy hkey
  unfold fill
  rw [hclose]
  exact fill_others hk

theorem Built.eq_of_key_eq (h : Built P R next doc) {r r' : Row A} (hr : r ∈ doc) (hr' : r' ∈ doc)
    (hkey : r.key = r'.key) : r = r' :=
  List.inj_on_of_nodup_map h.keys hr hr' hkey

/-- If something lies inside a row, something lies right inside it. -/
theorem Built.exists_inside (h : Built P R next doc) {y r : Row A} (hy : y ∈ doc) (hr : r ∈ doc)
    (hin : y.key ∈ r.above) : ∃ x ∈ doc, x.above = y.above ++ [y.key] ∧ R y.content x.content := by
  induction hn : r.above.length generalizing r with
  | zero =>
    rw [List.length_eq_zero_iff.mp hn] at hin
    exact absurd hin List.not_mem_nil
  | succ n ih =>
    rcases h.nested r hr with ⟨habove, -⟩ | ⟨x, hx, habove, hinside⟩
    · rw [habove] at hin
      exact absurd hin List.not_mem_nil
    · by_cases hkey : x.key = y.key
      · obtain rfl := h.eq_of_key_eq hx hy hkey
        exact ⟨r, hr, habove, hinside⟩
      · have hlength := hn
        rw [habove, List.length_append] at hlength
        rw [habove, List.mem_append, List.mem_singleton] at hin
        exact ih hx (hin.resolve_right (Ne.symm hkey)) (Nat.succ.inj hlength)

/-- No row lies inside itself. -/
theorem Built.key_not_mem_above (h : Built P R next doc) {r : Row A} (hr : r ∈ doc) :
    r.key ∉ r.above := by
  intro hmem
  obtain ⟨y, hy, hkey, hlt⟩ := h.exists_above hr hmem
  rw [h.eq_of_key_eq hy hr hkey] at hlt
  exact Nat.lt_irrefl _ hlt

theorem Built.close (h : Built P R next doc) (k : ℕ) : Built P R next (close k doc) where
  keys := h.keys.sublist (List.filter_sublist.map _)
  bound := fun r hr => h.bound r (mem_close.mp hr).1
  nested := by
    intro r hr
    obtain ⟨hr, hnot⟩ := mem_close.mp hr
    rcases h.nested r hr with hroot | ⟨y, hy, habove, hinside⟩
    · exact Or.inl hroot
    · have hnoty : k ∉ y.above := fun hk =>
        hnot (habove ▸ List.mem_append_left [y.key] hk)
      exact Or.inr ⟨y, mem_close.mpr ⟨hy, hnoty⟩, habove, hinside⟩

/-- Filling splits the outline behind the row. -/
theorem Built.fill_eq (h : Built P R next doc) {y : Row A} (hy : y ∈ doc) (contents : List A) :
    ∃ l₁ l₂, Outline.close y.key doc = l₁ ++ y :: l₂ ∧
      fill y.key next contents doc
        = l₁ ++ y :: (rows (y.above ++ [y.key]) next contents ++ l₂) := by
  have hmem : y ∈ Outline.close y.key doc := mem_close.mpr ⟨hy, h.key_not_mem_above hy⟩
  obtain ⟨l₁, l₂, heq⟩ := List.append_of_mem hmem
  have hkeys := (h.close y.key).keys
  rw [heq, List.map_append, List.map_cons] at hkeys
  have hothers : ∀ l : List (Row A), y.key ∉ l.map Row.key → ∀ r ∈ l, r.key ≠ y.key :=
    fun l hl r hr heq => hl (heq ▸ List.mem_map_of_mem hr)
  have hnot := (List.nodup_cons.mp (List.nodup_middle.mp hkeys)).1
  rw [List.mem_append, not_or] at hnot
  refine ⟨l₁, l₂, heq, ?_⟩
  unfold fill
  rw [heq, List.flatMap_append, List.flatMap_cons, fill_others (hothers l₁ hnot.1),
    fill_others (hothers l₂ hnot.2), if_pos rfl]
  rfl

theorem Built.fill (h : Built P R next doc) {y : Row A} (hy : y ∈ doc) {contents : List A}
    (hR : ∀ a ∈ contents, R y.content a) :
    Built P R (next + contents.length) (fill y.key next contents doc) where
  keys := by
    obtain ⟨l₁, l₂, hclose, hfill⟩ := h.fill_eq hy contents
    have hkeys := (h.close y.key).keys
    have hold : ∀ r ∈ l₁ ++ y :: l₂, r.key < next := fun r hr =>
      h.bound r (mem_close.mp (hclose ▸ hr)).1
    rw [hclose] at hkeys
    have hperm := List.perm_append_comm_assoc (l₁ ++ [y])
      (rows (y.above ++ [y.key]) next contents) l₂
    rw [List.append_assoc, List.append_assoc, List.singleton_append, List.singleton_append] at hperm
    rw [hfill, (hperm.map Row.key).nodup_iff, List.map_append, List.nodup_append]
    refine ⟨nodup_keys_rows, hkeys, ?_⟩
    intro a ha b hb hab
    obtain ⟨r, hr, rfl⟩ := List.mem_map.mp ha
    obtain ⟨r', hr', rfl⟩ := List.mem_map.mp hb
    have hle := (of_mem_rows hr).2.1
    have hlt := hold r' hr'
    omega
  bound := by
    intro r hr
    rcases mem_fill.mp hr with ⟨hr, -⟩ | ⟨x, -, -, -, hr⟩
    · exact Nat.lt_add_right _ (h.bound r hr)
    · exact (of_mem_rows hr).2.2.1
  nested := by
    intro r hr
    rcases mem_fill.mp hr with ⟨hr, hnot⟩ | ⟨x, hx, hkey, hnot, hr⟩
    · rcases h.nested r hr with hroot | ⟨x, hx, habove, hinside⟩
      · exact Or.inl hroot
      · have hnotx : y.key ∉ x.above := fun hk => hnot (habove ▸ List.mem_append_left [x.key] hk)
        exact Or.inr ⟨x, mem_fill.mpr (Or.inl ⟨hx, hnotx⟩), habove, hinside⟩
    · obtain rfl := h.eq_of_key_eq hx hy hkey
      refine Or.inr ⟨x, mem_fill.mpr (Or.inl ⟨hx, hnot⟩), (of_mem_rows hr).1, ?_⟩
      exact hR _ (of_mem_rows hr).2.2.2

end Built

/-! ### Nothing is shown twice -/

section Ident

variable {B : Type} {ident : A → B} {P : A → Prop} {R : A → A → Prop} {next : ℕ}
  {doc : List (Row A)}

/-- Rows that lie right inside the same one have different identities. -/
def Apart (ident : A → B) (doc : List (Row A)) : Prop :=
  ∀ r ∈ doc, ∀ r' ∈ doc, r.above = r'.above → ident r.content = ident r'.content → r = r'

theorem apart_rows {above : List ℕ} {contents : List A} (hnodup : (contents.map ident).Nodup) :
    Apart ident (rows above next contents) :=
  fun _ hr _ hr' _ heq => rows_inj hnodup hr hr' heq

theorem Apart.close (h : Apart ident doc) (k : ℕ) : Apart ident (close k doc) :=
  fun r hr r' hr' => h r (mem_close.mp hr).1 r' (mem_close.mp hr').1

theorem Apart.fill (h : Apart ident doc) (hb : Built P R next doc) {y : Row A} (hy : y ∈ doc)
    {contents : List A} (hnodup : (contents.map ident).Nodup) :
    Apart ident (fill y.key next contents doc) := by
  -- the new rows lie inside the row, the others do not
  have hnew : ∀ r ∈ Outline.fill y.key next contents doc,
      (r ∈ doc ∧ y.key ∉ r.above) ∨
        (y.key ∈ r.above ∧ r ∈ rows (y.above ++ [y.key]) next contents) := by
    intro r hr
    rcases mem_fill.mp hr with hold | ⟨x, hx, hkey, -, hr⟩
    · exact Or.inl hold
    · obtain rfl := hb.eq_of_key_eq hx hy hkey
      have habove := (of_mem_rows hr).1
      exact Or.inr ⟨habove ▸ List.mem_append_right _ List.mem_cons_self, hr⟩
  intro r hr r' hr' habove heq
  rcases hnew r hr with ⟨hr, hnot⟩ | ⟨hin, hr⟩
  · rcases hnew r' hr' with ⟨hr', -⟩ | ⟨hin, -⟩
    · exact h r hr r' hr' habove heq
    · exact absurd (habove ▸ hin) hnot
  · rcases hnew r' hr' with ⟨-, hnot⟩ | ⟨-, hr'⟩
    · exact absurd (habove ▸ hin) hnot
    · exact rows_inj hnodup hr hr' heq

/-- **Nothing is shown twice**, when an identity determines the identity of the row around it. -/
theorem Built.eq_of_ident_eq (h : Built P R next doc) (hapart : Apart ident doc)
    (houtermost : ∀ a b c, P a → R b c → ident a ≠ ident c)
    (haround : ∀ a b c d, R a c → R b d → ident c = ident d → ident a = ident b) {r r' : Row A}
    (hr : r ∈ doc) (hr' : r' ∈ doc) (heq : ident r.content = ident r'.content) : r = r' := by
  induction hn : r.above.length generalizing r r' with
  | zero =>
    rcases h.nested r hr with ⟨habove, hroot⟩ | ⟨y, -, habove, -⟩
    · rcases h.nested r' hr' with ⟨habove', -⟩ | ⟨y', -, -, hinside⟩
      · exact hapart r hr r' hr' (habove.trans habove'.symm) heq
      · exact absurd heq (houtermost _ _ _ hroot hinside)
    · rw [habove, List.length_append] at hn
      exact absurd hn (Nat.succ_ne_zero _)
  | succ n ih =>
    rcases h.nested r hr with ⟨habove, -⟩ | ⟨y, hy, habove, hinside⟩
    · rw [habove] at hn
      exact absurd hn.symm (Nat.succ_ne_zero n)
    · rcases h.nested r' hr' with ⟨-, hroot⟩ | ⟨y', hy', habove', hinside'⟩
      · exact absurd heq.symm (houtermost _ _ _ hroot hinside)
      · rw [habove, List.length_append] at hn
        have hsame : y = y' := ih hy hy' (haround _ _ _ _ hinside hinside' heq) (Nat.succ.inj hn)
        refine hapart r hr r' hr' ?_ heq
        rw [habove, habove', hsame]

theorem Built.nodup_idents (h : Built P R next doc) (hapart : Apart ident doc)
    (houtermost : ∀ a b c, P a → R b c → ident a ≠ ident c)
    (haround : ∀ a b c d, R a c → R b d → ident c = ident d → ident a = ident b) :
    (doc.map fun r => ident r.content).Nodup :=
  (List.Nodup.of_map _ h.keys).map_on fun _ hr _ hr' heq =>
    h.eq_of_ident_eq hapart houtermost haround hr hr' heq

/-! ### An open row shows all that it has to -/

/-- `needs a b` says that something with the identity `b` has to be shown inside `a`. -/
def Covers (needs : A → B → Prop) (ident : A → B) (doc : List (Row A)) : Prop :=
  ∀ y ∈ doc, IsOpen doc y.key → ∀ b, needs y.content b →
    ∃ r ∈ doc, r.above = y.above ++ [y.key] ∧ ident r.content = b

variable {needs : A → B → Prop}

theorem covers_rows (contents : List A) : Covers needs ident (rows [] next contents) := by
  intro y _ hopen
  obtain ⟨r, hr, hin⟩ := hopen
  rw [(of_mem_rows hr).1] at hin
  exact absurd hin List.not_mem_nil

theorem Covers.close (h : Covers needs ident doc) (k : ℕ) : Covers needs ident (close k doc) := by
  intro y hy hopen b hb
  obtain ⟨hy, hnot⟩ := mem_close.mp hy
  obtain ⟨r, hr, hin⟩ := hopen
  obtain ⟨hr, hnotr⟩ := mem_close.mp hr
  have hne : k ≠ y.key := fun heq => hnotr (heq ▸ hin)
  obtain ⟨x, hx, habove, hident⟩ := h y hy ⟨r, hr, hin⟩ b hb
  refine ⟨x, mem_close.mpr ⟨hx, ?_⟩, habove, hident⟩
  rw [habove, List.mem_append, List.mem_singleton, not_or]
  exact ⟨hnot, hne⟩

theorem Covers.fill (h : Covers needs ident doc) (hbuilt : Built P R next doc) {y : Row A}
    (hy : y ∈ doc) {contents : List A}
    (hneeds : ∀ b, needs y.content b → ∃ a ∈ contents, ident a = b) :
    Covers needs ident (fill y.key next contents doc) := by
  -- what lies inside a new row, or what a new row lies inside, is `y` or around it
  have hopen_of : ∀ k, k ≠ y.key → IsOpen (Outline.fill y.key next contents doc) k →
      IsOpen doc k := by
    intro k hne hopen
    obtain ⟨r, hr, hin⟩ := hopen
    rcases mem_fill.mp hr with ⟨hr, -⟩ | ⟨x, hx, hkey, -, hr⟩
    · exact ⟨r, hr, hin⟩
    · rw [(of_mem_rows hr).1, List.mem_append, List.mem_singleton] at hin
      exact ⟨x, hx, hin.resolve_right hne⟩
  intro x hx hopen b hb
  rcases mem_fill.mp hx with ⟨hx, hnot⟩ | ⟨z, hz, hkey, -, hx⟩
  · by_cases hkey : x.key = y.key
    · obtain rfl := hbuilt.eq_of_key_eq hx hy hkey
      obtain ⟨a, ha, hident⟩ := hneeds b hb
      obtain ⟨r, hr, rfl⟩ := exists_mem_rows (x.above ++ [x.key]) next ha
      exact ⟨r, mem_fill.mpr (Or.inr ⟨x, hy, rfl, hnot, hr⟩), (of_mem_rows hr).1, hident⟩
    · obtain ⟨r, hr, habove, hident⟩ := h x hx (hopen_of _ hkey hopen) b hb
      refine ⟨r, mem_fill.mpr (Or.inl ⟨hr, ?_⟩), habove, hident⟩
      rw [habove, List.mem_append, List.mem_singleton, not_or]
      exact ⟨hnot, Ne.symm hkey⟩
  · -- a new row is still closed
    have hle : next ≤ x.key := (of_mem_rows hx).2.1
    have hne : x.key ≠ y.key := fun heq => by
      have hlt := hbuilt.bound y hy
      omega
    obtain ⟨r, hr, hin⟩ := hopen_of _ hne hopen
    obtain ⟨w, hw, hkey, -⟩ := hbuilt.exists_above hr hin
    have hlt := hbuilt.bound w hw
    omega

end Ident

end Outline
