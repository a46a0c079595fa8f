import Mathlib.Data.List.TakeWhile
import WebDiff.Framework.Separated

/-!
# Paths

`std::string` is a list of bytes. `WsjcppCore::doNormalizePath` and `WsjcppCore::split` turn the
path of an uploaded file into the components `MySqlStorage::addFile` walks over
(`pathComponents`). The facts the storage rests on are that a component is not empty and has no
`'/'` (`isComponent_of_mem`), and that normalisation invents no byte other than `'/'`
(`mem_pathComponents_bytes`).
-/

namespace WebDiff

/-- `std::string`. -/
abbrev Bytes := List UInt8

/-- A string literal of the source. -/
def lit (s : String) : Bytes :=
  s.toList.map fun c => UInt8.ofNat c.toNat

/-- `'/'`. -/
def slash : UInt8 := 47

/-- `std::string(row[i])` for a column `row[i]`: the bytes in front of the first NUL. -/
def cString (column : Bytes) : Bytes :=
  column.takeWhile (· ≠ 0)

theorem cString_eq_self {s : Bytes} (h : 0 ∉ s) : cString s = s := by
  refine List.takeWhile_eq_self_iff.mpr fun b hb => ?_
  simpa using fun h0 : b = 0 => h (h0 ▸ hb)

theorem not_mem_cString (s : Bytes) : 0 ∉ cString s := fun h => by
  simpa using List.mem_takeWhile_imp h

/-- A string is read back unchanged exactly when it has no NUL. -/
theorem cString_eq_self_iff {s : Bytes} : cString s = s ↔ 0 ∉ s :=
  ⟨fun h => h ▸ not_mem_cString s, cString_eq_self⟩

/-! ### `WsjcppCore::doNormalizePath` -/

/-- The first loop of `doNormalizePath`, with the name `s` read so far: the names between the
slashes, with an empty name behind a slash that ends the path. -/
def pathNames (s : Bytes) : Bytes → List Bytes
  | [] => if s = [] then [] else [s]
  | c :: rest =>
    if c = slash then
      s :: if rest = [] then [[]] else pathNames [] rest
    else pathNames (s ++ [c]) rest

/-- One round of the second loop of `doNormalizePath`: the name number `i` of `len` meets the
stack of names kept so far, whose top is the last one. -/
def normalizeStep (len : ℕ) (newNames : List Bytes) (current : Bytes) (i : ℕ) : List Bytes :=
  if current = [] ∧ i = len - 1 then newNames ++ [current]
  else if (current = [] ∨ current = lit ".") ∧ i ≠ 0 then newNames
  else if current = lit ".." then
    match newNames.getLast? with
    | none => newNames ++ [current]
    | some prev =>
      if prev = [] then newNames.dropLast ++ [current]
      else if prev ≠ lit "." ∧ prev ≠ lit ".." then newNames.dropLast
      else newNames ++ [current]
  else newNames ++ [current]

/-- The third loop of `doNormalizePath`: the names with a slash between them. -/
def joinNames : List Bytes → Bytes
  | [] => []
  | [name] => name
  | name :: rest => name ++ slash :: joinNames rest

/-- `WsjcppCore::doNormalizePath`. -/
def doNormalizePath (path : Bytes) : Bytes :=
  let names := pathNames [] path
  joinNames (names.zipIdx.foldl (fun acc p => normalizeStep names.length acc p.1 p.2) [])

/-! ### `WsjcppCore::split` -/

/-- The loop of `split`, with the token read since the last delimiter. A delimiter that ends the
text is followed by an empty token. -/
def splitFrom (delim : UInt8) (token : Bytes) : Bytes → List Bytes
  | [] => if token = [] then [] else [token]
  | c :: rest =>
    if c = delim then
      token :: if rest = [] then [[]] else splitFrom delim [] rest
    else splitFrom delim (token ++ [c]) rest

/-- `WsjcppCore::split` at a delimiter of one character. -/
def split (what : Bytes) (delim : UInt8) : List Bytes :=
  splitFrom delim [] what

/-- The components `MySqlStorage::addFile` walks over: the early return, `doNormalizePath`, `split`,
and the empty tokens the loop skips. -/
def pathComponents (filePath : Bytes) : List Bytes :=
  if filePath = [] ∨ filePath = [slash] then []
  else (split (doNormalizePath filePath) slash).filter (· ≠ [])

example : pathComponents (lit "/a//b/../c/./d/") = [lit "a", lit "c", lit "d"] := by decide

/-! ### What a component looks like -/

/-- A component of a stored path. -/
def IsComponent (c : Bytes) : Prop :=
  c ≠ [] ∧ slash ∉ c

theorem delim_not_mem_splitFrom {delim : UInt8} (text token : Bytes) (htoken : delim ∉ token) :
    ∀ t ∈ splitFrom delim token text, delim ∉ t := by
  induction text generalizing token with
  | nil =>
    unfold splitFrom
    split <;> simp_all
  | cons c rest ih =>
    unfold splitFrom
    split
    · intro t ht
      rcases List.mem_cons.mp ht with rfl | ht
      · exact htoken
      · split at ht
        · simp_all
        · exact ih [] List.not_mem_nil t ht
    · next hc => exact ih _ (by simp [htoken, Ne.symm hc])

theorem isComponent_of_mem {filePath c : Bytes} (h : c ∈ pathComponents filePath) :
    IsComponent c := by
  unfold pathComponents at h
  split at h
  · exact absurd h List.not_mem_nil
  · obtain ⟨hmem, hne⟩ := List.mem_filter.mp h
    exact ⟨by simpa using hne, delim_not_mem_splitFrom _ [] List.not_mem_nil c hmem⟩

/-! ### Which bytes a component is made of -/

theorem mem_splitFrom_bytes {delim b : UInt8} (text token : Bytes) :
    ∀ t ∈ splitFrom delim token text, b ∈ t → b ∈ token ∨ b ∈ text := by
  induction text generalizing token with
  | nil =>
    unfold splitFrom
    split <;> simp_all
  | cons c rest ih =>
    unfold splitFrom
    split
    · intro t ht hb
      rcases List.mem_cons.mp ht with rfl | ht
      · exact Or.inl hb
      · split at ht
        · simp_all
        · exact Or.inr (List.mem_cons_of_mem _ ((ih [] t ht hb).resolve_left List.not_mem_nil))
    · intro t ht hb
      rcases ih _ t ht hb with h | h
      -- the token that grows is made of the bytes read so far
      · rcases List.mem_append.mp h with h | h
        · exact Or.inl h
        · exact Or.inr (List.mem_cons.mpr (Or.inl (List.mem_singleton.mp h)))
      · exact Or.inr (List.mem_cons_of_mem _ h)

/-- The two splitting loops are the same function. -/
theorem pathNames_eq_splitFrom (s text : Bytes) : pathNames s text = splitFrom slash s text := by
  induction text generalizing s with
  | nil => rfl
  | cons c rest ih => simp only [pathNames, splitFrom, ih]

theorem mem_normalizeStep {len i : ℕ} {newNames : List Bytes} {current name : Bytes}
    (h : name ∈ normalizeStep len newNames current i) : name ∈ newNames ∨ name = current := by
  have happ : ∀ {l : List Bytes}, name ∈ l ++ [current] → name ∈ l ∨ name = current := by
    intro l hl
    simpa using hl
  unfold normalizeStep at h
  split at h
  · exact happ h
  · split at h
    · exact Or.inl h
    · split at h
      · split at h
        · exact happ h
        · split at h
          · exact (happ h).imp (List.dropLast_subset _ ·) id
          · split at h
            · exact Or.inl (List.dropLast_subset _ h)
            · exact happ h
      · exact happ h

theorem mem_foldl_normalizeStep {len : ℕ} {name : Bytes} (names : List (Bytes × ℕ))
    (acc : List Bytes)
    (h : name ∈ names.foldl (fun acc p => normalizeStep len acc p.1 p.2) acc) :
    name ∈ acc ∨ name ∈ names.map Prod.fst := by
  induction names generalizing acc with
  | nil => exact Or.inl h
  | cons p rest ih =>
    rw [List.map_cons, List.mem_cons]
    rcases ih _ h with h | h
    · exact (mem_normalizeStep h).imp id Or.inl
    · exact Or.inr (Or.inr h)

theorem mem_joinNames {b : UInt8} (names : List Bytes) (h : b ∈ joinNames names) :
    b = slash ∨ ∃ name ∈ names, b ∈ name := by
  induction names with
  | nil => exact absurd h List.not_mem_nil
  | cons name rest ih =>
    cases rest with
    | nil => exact Or.inr ⟨name, List.mem_singleton.mpr rfl, h⟩
    | cons next rest =>
      rcases List.mem_append.mp h with h | h
      · exact Or.inr ⟨name, List.mem_cons_self, h⟩
      · rcases List.mem_cons.mp h with h | h
        · exact Or.inl h
        · exact (ih h).imp id fun ⟨n, hn, hb⟩ => ⟨n, List.mem_cons_of_mem _ hn, hb⟩

theorem mem_doNormalizePath {b : UInt8} {path : Bytes} (h : b ∈ doNormalizePath path) :
    b = slash ∨ b ∈ path := by
  refine (mem_joinNames _ h).imp id fun ⟨name, hname, hb⟩ => ?_
  have hmem := (mem_foldl_normalizeStep _ _ hname).resolve_left List.not_mem_nil
  rw [List.zipIdx_map_fst, pathNames_eq_splitFrom] at hmem
  exact (mem_splitFrom_bytes path [] name hmem hb).resolve_left List.not_mem_nil

/-- **Normalisation invents nothing.** Every byte of a component is a byte of the uploaded path. -/
theorem mem_pathComponents_bytes {b : UInt8} {filePath c : Bytes} (h : c ∈ pathComponents filePath)
    (hb : b ∈ c) : b ∈ filePath := by
  have hc := isComponent_of_mem h
  unfold pathComponents at h
  split at h
  · exact absurd h List.not_mem_nil
  · have hmem := (mem_splitFrom_bytes _ [] c (List.mem_filter.mp h).1 hb).resolve_left
      List.not_mem_nil
    exact (mem_doNormalizePath hmem).resolve_left fun hs => hc.2 (hs ▸ hb)

/-! ### Stored paths -/

/-- A component as a value. -/
abbrev Component := {c : Bytes // IsComponent c}

/-- A stored path: its components from the root down. The empty path is the root, which is not
stored. -/
abbrev Path := List Component

/-- The text `addFile` stores for a path: `"/" + c₁ + … + "/" + cₙ`. -/
def renderPath (p : Path) : Bytes :=
  Separated.render slash (p.map Subtype.val)

@[simp] theorem renderPath_nil : renderPath [] = [] := rfl

/-- `sNewFilePath += "/" + vPath[i]`. -/
theorem renderPath_concat (p : Path) (c : Component) :
    renderPath (p ++ [c]) = renderPath p ++ slash :: c.val := by
  unfold renderPath
  rw [List.map_append, List.map_singleton, Separated.render_concat]

/-- Paths are told apart by their texts. -/
theorem renderPath_injective : Function.Injective renderPath := by
  intro p q heq
  have hsep : ∀ r : Path, ∀ part ∈ r.map Subtype.val, slash ∉ part := by
    intro r part hpart
    obtain ⟨c, -, rfl⟩ := List.mem_map.mp hpart
    exact c.property.2
  exact List.map_injective_iff.mpr Subtype.val_injective
    (Separated.render_injective (hsep p) (hsep q) heq)

theorem zero_mem_renderPath_iff {p : Path} : 0 ∈ renderPath p ↔ ∃ c ∈ p, 0 ∈ c.val := by
  constructor
  · intro h
    rcases Separated.mem_render h with h0 | ⟨part, hpart, h0⟩
    · exact absurd h0 (by decide)
    · obtain ⟨c, hc, rfl⟩ := List.mem_map.mp hpart
      exact ⟨c, hc, h0⟩
  · rintro ⟨c, hc, h0⟩
    exact List.mem_flatMap.mpr ⟨c.val, List.mem_map_of_mem hc, List.mem_cons_of_mem _ h0⟩

/-- The path an uploaded file is stored under. -/
def pathOf (filePath : Bytes) : Path :=
  (pathComponents filePath).pmap Subtype.mk fun _ hc => isComponent_of_mem hc

@[simp] theorem pathOf_map_val (filePath : Bytes) :
    (pathOf filePath).map Subtype.val = pathComponents filePath := by
  simp [pathOf, List.map_pmap]

end WebDiff
