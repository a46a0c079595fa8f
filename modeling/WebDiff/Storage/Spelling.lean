import Mathlib.Data.List.Infix
import WebDiff.Storage.Footprint

/-!
# Spellings of a path

`doNormalizePath` is a stack machine whose first and last name are treated apart, and `split` cuts
its result once more. For a path in which every `".."` has a component to cancel the two together
leave the components the path stands for (`resolve`), except that a first component `"."` is kept:
that is what the condition `i != 0` of the normalisation does (`pathComponents_eq`).

`addFile_spelling` carries this to the storage: what `addFile` records are the non-empty prefixes of
the resolved path, behind a leading `"."` if the path is written with one, and two spellings of one
path are interchangeable exactly when both are written with a leading `"."` or neither is.
-/

namespace WebDiff

open Program

/-! ### What a path stands for -/

/-- A component that names something. -/
def Ordinary (c : Bytes) : Prop :=
  c ≠ [] ∧ c ≠ lit "." ∧ c ≠ lit ".."

/-- The components left after `acc`: empty and `"."` components are dropped, `".."` cancels the
component before it. `none` if there is none to cancel. -/
def resolveFrom (acc : List Bytes) : List Bytes → Option (List Bytes)
  | [] => some acc
  | c :: rest =>
    if c = [] ∨ c = lit "." then resolveFrom acc rest
    else if c = lit ".." then
      if acc = [] then none else resolveFrom acc.dropLast rest
    else resolveFrom (acc ++ [c]) rest

/-- The components a path stands for. -/
def resolve (path : Bytes) : Option (List Bytes) :=
  resolveFrom [] (path.splitOn slash)

/-- The first component of the path is `"."`. -/
def Dotted (path : Bytes) : Prop :=
  path = lit "." ∨ lit "./" <+: path

instance (path : Bytes) : Decidable (Dotted path) :=
  inferInstanceAs (Decidable (_ ∨ _))

example : resolve (lit "/a//b/../c/./d/") = some [lit "a", lit "c", lit "d"] := by decide

theorem resolveFrom_ordinary {acc cs r : List Bytes} (h : resolveFrom acc cs = some r)
    (hacc : ∀ c ∈ acc, Ordinary c) : ∀ c ∈ r, Ordinary c := by
  induction cs generalizing acc with
  | nil =>
    cases h
    exact hacc
  | cons c rest ih =>
    rw [resolveFrom] at h
    split at h
    · exact ih h hacc
    · next hdot =>
      split at h
      · split at h
        · cases h
        · exact ih h fun x hx => hacc x (List.dropLast_subset _ hx)
      · next hup =>
        -- what is pushed has passed the three tests
        refine ih h fun x hx => ?_
        rcases List.mem_append.mp hx with hx | hx
        · exact hacc x hx
        · rw [List.mem_singleton.mp hx]
          exact ⟨fun h0 => hdot (Or.inl h0), fun h1 => hdot (Or.inr h1), hup⟩

theorem resolve_ordinary {path : Bytes} {r : List Bytes} (h : resolve path = some r) :
    ∀ c ∈ r, Ordinary c :=
  resolveFrom_ordinary h fun _ hc => absurd hc List.not_mem_nil

/-! ### The splitting loops -/

/-- The loop of `split` is the usual splitting, but for the empty text. -/
theorem splitFrom_eq (delim : UInt8) (token text : Bytes) :
    splitFrom delim token text =
      if token = [] ∧ text = [] then [] else (text.splitOn delim).modifyHead (token ++ ·) := by
  induction text generalizing token with
  | nil => by_cases htoken : token = [] <;> simp [splitFrom, htoken]
  | cons c rest ih =>
    have hne : ¬ (token = [] ∧ c :: rest = []) := fun h => List.cons_ne_nil c rest h.2
    rw [splitFrom, if_neg hne, List.splitOn_cons_eq_if_modifyHead]
    -- at a delimiter the token ends, elsewhere it grows
    by_cases hc : c = delim
    · have hbeq : (c == delim) = true := by simpa using hc
      rw [if_pos hc, if_pos hbeq]
      -- behind a last delimiter the source adds an empty token, as the usual splitting does
      by_cases hrest : rest = []
      · simp [hrest]
      · rw [if_neg hrest, ih, if_neg fun h => hrest h.2]
        cases rest.splitOn delim <;> simp
    · have hbeq : ¬ (c == delim) = true := by simpa using hc
      rw [if_neg hc, if_neg hbeq, ih, if_neg (by simp)]
      cases rest.splitOn delim <;> simp

/-- Without the empty tokens, the two agree on every text. -/
theorem split_filter (text : Bytes) :
    (split text slash).filter (· ≠ []) = (text.splitOn slash).filter (· ≠ []) := by
  rw [split, splitFrom_eq]
  by_cases htext : text = []
  · rw [if_pos ⟨rfl, htext⟩, htext]
    rfl
  · rw [if_neg fun h => htext h.2]
    cases text.splitOn slash <;> rfl

theorem joinNames_eq_intercalate (names : List Bytes) :
    joinNames names = [slash].intercalate names := by
  induction names with
  | nil => rfl
  | cons name rest ih =>
    cases rest with
    | nil => simp [joinNames]
    | cons next rest =>
      rw [joinNames, ih, List.intercalate_cons_cons]
      · simp
      · exact fun h => List.cons_ne_nil _ _ h

/-- Joining names and splitting the result changes nothing but the empty names. -/
theorem split_joinNames {names : List Bytes} (h : ∀ name ∈ names, slash ∉ name) :
    (split (joinNames names) slash).filter (· ≠ []) = names.filter (· ≠ []) := by
  rw [split_filter, joinNames_eq_intercalate]
  by_cases hnames : names = []
  · rw [hnames]
    rfl
  · rw [List.splitOn_intercalate slash h hnames]

/-! ### The stack machine -/

/-- The second loop from round `i` on, with the names `first` of the first round at the bottom of
the stack and the components kept since above them. -/
theorem foldl_normalizeStep {len : ℕ} (first names : List Bytes) :
    ∀ {i : ℕ} {acc r : List Bytes}, 0 < i → i + names.length = len → (∀ c ∈ acc, Ordinary c) →
      resolveFrom acc names = some r →
      ((names.zipIdx i).foldl (fun acc p => normalizeStep len acc p.1 p.2) (first ++ acc)).filter
          (· ≠ []) = first.filter (· ≠ []) ++ r := by
  induction names with
  | nil =>
    intro i acc r _ _ hacc hr
    cases hr
    -- the components kept are not empty
    have hkeep : acc.filter (· ≠ []) = acc :=
      List.filter_eq_self.mpr fun c hc => by simpa using (hacc c hc).1
    rw [List.zipIdx_nil, List.foldl_nil, List.filter_append, hkeep]
  | cons c rest ih =>
    intro i acc r hi hlen hacc hr
    rw [List.length_cons] at hlen
    rw [List.zipIdx_cons, List.foldl_cons]
    rw [resolveFrom] at hr
    -- the branches of the loop body: an empty name, `"."`, `".."`, and a component to keep
    by_cases hempty : c = []
    · subst hempty
      rw [if_pos (Or.inl rfl)] at hr
      by_cases hlast : i = len - 1
      · -- an empty name that ends the path is kept, and dropped by `addFile`
        have hrest : rest = [] := List.length_eq_zero_iff.mp (by omega)
        subst hrest
        have hnil := ih (Nat.succ_pos i) (by omega) hacc hr
        rw [normalizeStep, if_pos ⟨rfl, hlast⟩]
        rw [List.zipIdx_nil, List.foldl_nil] at hnil ⊢
        rw [List.filter_append, hnil]
        simp
      · rw [normalizeStep, if_neg fun h => hlast h.2, if_pos ⟨Or.inl rfl, by omega⟩]
        exact ih (Nat.succ_pos i) (by omega) hacc hr
    · by_cases hdot : c = lit "."
      · rw [if_pos (Or.inr hdot)] at hr
        rw [normalizeStep, if_neg fun h => hempty h.1, if_pos ⟨Or.inr hdot, by omega⟩]
        exact ih (Nat.succ_pos i) (by omega) hacc hr
      · have hskip : ¬ (c = [] ∨ c = lit ".") := fun h => h.elim hempty hdot
        rw [if_neg hskip] at hr
        rw [normalizeStep, if_neg fun h => hempty h.1, if_neg fun h => hskip h.1]
        by_cases hup : c = lit ".."
        · -- the component to cancel is on top of the stack
          rw [if_pos hup] at hr ⊢
          split at hr
          · cases hr
          · next hne =>
            obtain ⟨below, top, rfl⟩ := List.eq_nil_or_concat' acc |>.resolve_left hne
            obtain ⟨htop, htopdot, htopup⟩ := hacc top (by simp)
            rw [List.dropLast_concat] at hr
            rw [← List.append_assoc, List.getLast?_concat]
            simp only [if_neg htop, if_pos (And.intro htopdot htopup), List.dropLast_concat]
            exact ih (Nat.succ_pos i) (by omega) (fun x hx => hacc x (by simp [hx])) hr
        · rw [if_neg hup] at hr ⊢
          rw [List.append_assoc]
          refine ih (Nat.succ_pos i) (by omega) (fun x hx => ?_) hr
          rcases List.mem_append.mp hx with hx | hx
          · exact hacc x hx
          · rw [List.mem_singleton.mp hx]
            exact ⟨hempty, hdot, hup⟩

theorem slash_notMem_dot : slash ∉ lit "." := by
  have hall : (lit ".").all (fun b => b ≠ slash) = true := by decide
  exact fun hmem => by simpa using List.all_eq_true.mp hall slash hmem

/-- The first component of the splitting decides whether the path is dotted. -/
theorem dotted_iff {path first : Bytes} {rest : List Bytes}
    (h : path.splitOn slash = first :: rest) : Dotted path ↔ first = lit "." := by
  constructor
  -- `"."` alone, or cut at its first slash
  · rintro (rfl | ⟨tail, rfl⟩)
    · have hsplit : (lit ".").splitOn slash = [lit "."] :=
        List.splitOn_eq_singleton slash_notMem_dot
      rw [hsplit] at h
      exact (List.cons.inj h).1.symm
    · have hcut : lit "./" ++ tail = lit "." ++ slash :: tail := rfl
      have hsplit : (lit "." ++ slash :: tail).splitOn slash = lit "." :: tail.splitOn slash :=
        List.splitOn_append_cons_self_of_not_mem slash_notMem_dot tail
      rw [hcut, hsplit] at h
      exact (List.cons.inj h).1.symm
  · rintro rfl
    have hjoin : [slash].intercalate (path.splitOn slash) = path :=
      List.intercalate_splitOn slash
    rw [h] at hjoin
    cases rest with
    | nil => exact Or.inl (by rw [← hjoin]; rfl)
    | cons next rest =>
      refine Or.inr ⟨[slash].intercalate (next :: rest), ?_⟩
      rw [← hjoin, List.intercalate_cons_cons]
      rfl

/-- What the whole loop leaves. -/
theorem filter_normalized {path : Bytes} {r : List Bytes} (h : resolve path = some r) :
    (((path.splitOn slash).zipIdx).foldl
        (fun acc p => normalizeStep (path.splitOn slash).length acc p.1 p.2) []).filter (· ≠ [])
      = if Dotted path then lit "." :: r else r := by
  unfold resolve at h
  cases hnames : path.splitOn slash with
  | nil => exact absurd hnames (List.splitOn_ne_nil slash path)
  | cons first rest =>
    rw [hnames] at h
    rw [List.zipIdx_cons, List.foldl_cons, List.length_cons]
    have hdotted := dotted_iff hnames
    rw [resolveFrom] at h
    -- the first round: an empty name, a leading `"."`, or a component
    by_cases hempty : first = []
    · subst hempty
      rw [if_pos (Or.inl rfl)] at h
      rw [if_neg fun hd => absurd (hdotted.mp hd) (by decide)]
      have hfirst : normalizeStep (rest.length + 1) [] [] 0 = [[]] := by
        simp [normalizeStep, lit]
      have htail := foldl_normalizeStep [[]] rest (Nat.succ_pos 0)
        (Nat.add_comm 1 rest.length) (fun c hc => absurd hc List.not_mem_nil) h
      simp only [hfirst]
      simpa using htail
    · by_cases hdot : first = lit "."
      · subst hdot
        rw [if_pos (Or.inr rfl)] at h
        rw [if_pos (hdotted.mpr rfl)]
        have hfirst : normalizeStep (rest.length + 1) [] (lit ".") 0 = [lit "."] := by
          simp [normalizeStep, lit]
        have htail := foldl_normalizeStep [lit "."] rest (Nat.succ_pos 0)
          (Nat.add_comm 1 rest.length) (fun c hc => absurd hc List.not_mem_nil) h
        simp only [hfirst]
        simpa [lit] using htail
      · rw [if_neg fun h => h.elim hempty hdot] at h
        rw [if_neg fun hd => hdot (hdotted.mp hd)]
        split at h
        · cases h
        -- `".."` in front of everything stands for nothing
        · next hup =>
          have hfirst : normalizeStep (rest.length + 1) [] first 0 = [first] := by
            simp [normalizeStep, hempty, hup]
          have htail := foldl_normalizeStep [] rest (Nat.succ_pos 0)
            (Nat.add_comm 1 rest.length) (fun c hc => ?_) h
          · simp only [hfirst]
            simpa using htail
          · rw [List.nil_append] at hc
            rw [List.mem_singleton.mp hc]
            exact ⟨hempty, hdot, hup⟩

/-- **The components of a path** are the ones it stands for, behind a `"."` it is written with. -/
theorem pathComponents_eq {path : Bytes} {r : List Bytes} (h : resolve path = some r) :
    pathComponents path = if Dotted path then lit "." :: r else r := by
  rw [← filter_normalized h]
  unfold pathComponents
  split
  · next hroot =>
    rcases hroot with rfl | rfl
    · decide
    · decide
  · next hroot =>
    have hne : path ≠ [] := fun h => hroot (Or.inl h)
    have hnames : pathNames [] path = path.splitOn slash := by
      rw [pathNames_eq_splitFrom, splitFrom_eq, if_neg fun h => hne h.2]
      cases path.splitOn slash <;> rfl
    rw [doNormalizePath, hnames]
    refine split_joinNames fun name hname => ?_
    have hmem := (mem_foldl_normalizeStep _ _ hname).resolve_left List.not_mem_nil
    rw [List.zipIdx_map_fst, ← hnames, pathNames_eq_splitFrom] at hmem
    exact delim_not_mem_splitFrom path [] List.not_mem_nil name hmem

/-! ### What `addFile` records -/

/-- The texts of the non-empty prefixes of a list of components, behind the text `base`. -/
def prefixTexts (base : Bytes) (components : List Bytes) : List Bytes :=
  components.inits.tail.map fun p => base ++ Separated.render slash p

theorem prefixTexts_cons (base c : Bytes) (rest : List Bytes) :
    prefixTexts base (c :: rest)
      = (base ++ slash :: c) :: prefixTexts (base ++ slash :: c) rest := by
  have hinits : rest.inits = [] :: rest.inits.tail := by cases rest <;> simp
  rw [prefixTexts, List.inits_cons, List.tail_cons, hinits, List.map_cons, List.map_cons,
    List.map_map]
  congr 1
  · simp [Separated.render]
  · refine List.map_congr_left fun p _ => ?_
    simp [Separated.render]

/-- A text of a longer prefix is longer. -/
theorem length_lt_of_mem_prefixTexts {base t : Bytes} {components : List Bytes}
    (h : t ∈ prefixTexts base components) : base.length < t.length := by
  induction components generalizing base with
  | nil => exact absurd h List.not_mem_nil
  | cons c rest ih =>
    rw [prefixTexts_cons] at h
    rcases List.mem_cons.mp h with rfl | h
    · simp
    · have := ih h
      simp only [List.length_append, List.length_cons] at this
      omega

/-- The rows of `webdiff_files` a run looks up, to find or to create them. -/
def fileLookups (ops : List (Σ o, Op.Res o)) : List (ℤ × ℤ × ℤ) :=
  ops.filterMap fun
    | ⟨.findFile v g d, _⟩ => some (v, g, d)
    | _ => none

/-- A program on the version `v` and the group `g` records the texts: it appends a row of
`webdiff_define_files` for each of them that is not cached, has them cached afterwards and leaves
the others as they were, and finds or creates the row of `webdiff_files` of each. -/
structure RecordsTexts (my : MySql) (v g : ℤ) (texts : List Bytes) (p : Storage Unit) (w : World) :
    Prop where
  rows : (run (World.step my) p w).2.db.defineFiles.map (·.filepath)
    = w.db.defineFiles.map (·.filepath) ++ texts.filter fun t => (w.caches.defineFileIds t).isNone
  cached : ∀ t ∈ texts, ((run (World.step my) p w).2.caches.defineFileIds t).isSome
  others : ∀ t ∉ texts,
    (run (World.step my) p w).2.caches.defineFileIds t = w.caches.defineFileIds t
  files : fileLookups (trace (World.step my) p w)
    = texts.map fun t => (v, g, ((run (World.step my) p w).2.caches.defineFileIds t).getD 0)

/-- `addFile` on `p` and on `q` lead to the same state, from every state. -/
def SameEffect (p q : Bytes) : Prop :=
  ∀ (my : MySql) (v g : ℤ) (file file' : FileInfo) (w : World),
    file.filePath = p → file'.filePath = q →
      (run (World.step my) (addFile v g file) w).2 = (run (World.step my) (addFile v g file') w).2

section

variable (my : MySql) (w : World)

theorem fileLookups_append (a b : List (Σ o, Op.Res o)) :
    fileLookups (a ++ b) = fileLookups a ++ fileLookups b :=
  List.filterMap_append

/-- `findDefineFileIdOrCreate` caches the id it returns, and appends a row if the path is new. -/
theorem run_findDefineFileIdOrCreate (t name : Bytes) (parent : ℤ) :
    let r := run (World.step my) (findDefineFileIdOrCreate t name parent) w
    r.2.caches.defineFileIds = Function.update w.caches.defineFileIds t (some r.1) ∧
      r.2.db.defineFiles.map (·.filepath) = w.db.defineFiles.map (·.filepath)
        ++ [t].filter (fun t => (w.caches.defineFileIds t).isNone) ∧
      fileLookups (trace (World.step my) (findDefineFileIdOrCreate t name parent) w) = [] := by
  unfold findDefineFileIdOrCreate insertDefineFile sql Op.perform
  simp only [run_bind, run_perform, trace_bind, trace_perform]
  have hstep : World.step my (.findDefineFile t) w = (w.caches.defineFileIds t, w) := rfl
  rw [hstep]
  cases hfound : w.caches.defineFileIds t with
  -- a hit changes nothing, and the cached id is the one returned
  | some found =>
    refine ⟨?_, ?_, rfl⟩
    · show w.caches.defineFileIds = Function.update w.caches.defineFileIds t (some found)
      rw [← hfound, Function.update_eq_self]
    · simp [hfound]
  -- a miss appends the row with the next id
  | none =>
    refine ⟨rfl, ?_, rfl⟩
    let id := my.nextId .defineFiles DefineFileRow.id w.db.defineFiles
    show (w.db.defineFiles ++ [(⟨id, t, name, parent⟩ : DefineFileRow)]).map
      (fun row => row.filepath) = _
    simp [hfound]

/-- `findFileOrCreate` looks up one row and leaves the paths alone. -/
theorem run_findFileOrCreate (v g d f : ℤ) :
    let r := run (World.step my) (findFileOrCreate v g d f) w
    r.2.caches.defineFileIds = w.caches.defineFileIds ∧ r.2.db.defineFiles = w.db.defineFiles ∧
      fileLookups (trace (World.step my) (findFileOrCreate v g d f) w) = [(v, g, d)] := by
  unfold findFileOrCreate Op.perform
  simp only [run_bind, run_perform, trace_bind, trace_perform]
  unfold createFileIfAbsent
  split
  · exact ⟨rfl, rfl, rfl⟩
  · exact ⟨rfl, rfl, rfl⟩

/-- **What the loop of `addFile` records.** -/
theorem recordsTexts_addFileLoop (v g : ℤ) {names : List Bytes} (hnames : ∀ n ∈ names, n ≠ [])
    (base : Bytes) (d f : ℤ) :
    RecordsTexts my v g (prefixTexts base names) (addFileLoop v g names base d f) w := by
  induction names generalizing w base d f with
  | nil => exact ⟨by simp [addFileLoop, prefixTexts], fun t ht => absurd ht List.not_mem_nil,
      fun t _ => rfl, rfl⟩
  | cons name rest ih =>
    let t := base ++ slash :: name
    obtain ⟨hcache, hrows, hlookups⟩ := run_findDefineFileIdOrCreate my w t name d
    generalize hd : run (World.step my) (findDefineFileIdOrCreate t name d) w = r₁ at *
    obtain ⟨d', w₁⟩ := r₁
    obtain ⟨hcache', hrows', hlookups'⟩ := run_findFileOrCreate my w₁ v g d' f
    generalize hf : run (World.step my) (findFileOrCreate v g d' f) w₁ = r₂ at *
    obtain ⟨f', w₂⟩ := r₂
    have hrest := ih w₂ (fun n hn => hnames n (List.mem_cons_of_mem name hn)) t d' f'
    -- one round finds or creates the path `t` and its file, and the loop goes on below `t`
    have hloop : addFileLoop v g (name :: rest) base d f
        = findDefineFileIdOrCreate t name d >>= fun d' =>
          findFileOrCreate v g d' f >>= fun f' => addFileLoop v g rest t d' f' := by
      rw [addFileLoop, if_neg (hnames name List.mem_cons_self)]
    have hrun : run (World.step my) (addFileLoop v g (name :: rest) base d f) w
        = run (World.step my) (addFileLoop v g rest t d' f') w₂ := by
      rw [hloop, run_bind, hd, run_bind, hf]
    have htrace : trace (World.step my) (addFileLoop v g (name :: rest) base d f) w
        = trace (World.step my) (findDefineFileIdOrCreate t name d) w
          ++ (trace (World.step my) (findFileOrCreate v g d' f) w₁
            ++ trace (World.step my) (addFileLoop v g rest t d' f') w₂) := by
      rw [hloop, trace_bind, hd, trace_bind, hf]
    -- the later texts are longer, so what is cached for them has not changed yet
    have hlonger : t ∉ prefixTexts t rest := fun h =>
      absurd (length_lt_of_mem_prefixTexts h) (lt_irrefl _)
    have hcache₂ : w₂.caches.defineFileIds = Function.update w.caches.defineFileIds t (some d') :=
      hcache'.trans hcache
    have hat : (run (World.step my) (addFileLoop v g rest t d' f') w₂).2.caches.defineFileIds t
        = some d' := by
      rw [hrest.others t hlonger, hcache₂, Function.update_self]
    rw [prefixTexts_cons]
    refine ⟨?_, fun x hx => ?_, fun x hx => ?_, ?_⟩
    · have hsame : (prefixTexts t rest).filter (fun x => (w₂.caches.defineFileIds x).isNone)
          = (prefixTexts t rest).filter fun x => (w.caches.defineFileIds x).isNone := by
        refine List.filter_congr fun x hx => ?_
        rw [hcache₂, Function.update_of_ne fun h : x = t => hlonger (h ▸ hx)]
      rw [hrun, hrest.rows, hrows', hrows, hsame, List.append_assoc, ← List.filter_append]
      rfl
    · rw [hrun]
      rcases List.mem_cons.mp hx with rfl | hx
      · rw [hat]
        rfl
      · exact hrest.cached x hx
    · rw [hrun, hrest.others x fun h => hx (List.mem_cons_of_mem _ h), hcache₂,
        Function.update_of_ne fun h : x = t => hx (h ▸ List.mem_cons_self)]
    · rw [htrace, fileLookups_append, fileLookups_append, hlookups, hlookups', hrest.files, hrun,
        List.map_cons, hat]
      rfl

end

/-! ### Spellings -/

/-- The components `addFile` stores a path under, if it stands for `r`. -/
def spelled (p : Bytes) (r : List Bytes) : List Bytes :=
  if Dotted p then lit "." :: r else r

theorem addFile_spelled {p : Bytes} {r : List Bytes} (hp : resolve p = some r) (v g : ℤ)
    {file : FileInfo} (hfile : file.filePath = p) :
    addFile v g file = addFileLoop v g (spelled p r) [] 0 0 := by
  rw [addFile_eq, FileInfo.path, pathOf_map_val, hfile, pathComponents_eq hp]
  rfl

theorem spelled_ne_nil {p : Bytes} {r : List Bytes} (hp : resolve p = some r) :
    ∀ c ∈ spelled p r, c ≠ [] := by
  intro c hc
  unfold spelled at hc
  split at hc
  · rcases List.mem_cons.mp hc with rfl | hc
    · decide
    · exact (resolve_ordinary hp c hc).1
  · exact (resolve_ordinary hp c hc).1

theorem length_prefixTexts (base : Bytes) (components : List Bytes) :
    (prefixTexts base components).length = components.length := by
  simp [prefixTexts]

/-- Spellings with the same effect are dotted alike: on empty tables the number of rows tells. -/
theorem dotted_iff_of_sameEffect {p q : Bytes} {r : List Bytes} (hp : resolve p = some r)
    (hq : resolve q = some r) (h : SameEffect p q) : Dotted p ↔ Dotted q := by
  have hlength : ∀ {x : Bytes}, resolve x = some r →
      (run (World.step MySql.innodb) (addFile 1 1 ⟨x, 0, 0, [], false, []⟩)
        World.empty).2.db.defineFiles.length = (spelled x r).length := by
    intro x hx
    have hrows := (recordsTexts_addFileLoop MySql.innodb World.empty 1 1 (spelled_ne_nil hx)
      [] 0 0).rows
    have hall : (prefixTexts [] (spelled x r)).filter
        (fun t => (World.empty.caches.defineFileIds t).isNone) = prefixTexts [] (spelled x r) :=
      List.filter_eq_self.mpr fun _ _ => rfl
    rw [addFile_spelled hx 1 1 rfl, ← List.length_map (f := fun row => row.filepath), hrows, hall,
      List.length_append, length_prefixTexts]
    exact Nat.zero_add _
  -- the same effect stores as many rows for the one as for the other
  have heq : (spelled p r).length = (spelled q r).length := by
    rw [← hlength hp, ← hlength hq,
      h MySql.innodb 1 1 _ ⟨q, 0, 0, [], false, []⟩ World.empty rfl rfl]
  unfold spelled at heq
  by_cases hdp : Dotted p <;> by_cases hdq : Dotted q
  · exact iff_of_true hdp hdq
  · rw [if_pos hdp, if_neg hdq, List.length_cons] at heq
    omega
  · rw [if_neg hdp, if_pos hdq, List.length_cons] at heq
    omega
  · exact iff_of_false hdp hdq

/-- **Paths up to spelling.** `addFile` records the non-empty prefixes of what a path stands for,
behind the `"."` it may be written with, and two spellings of one path have the same effect from
every state exactly when both or neither are written with it. -/
theorem addFile_spelling {p q : Bytes} {r s : List Bytes} (hp : resolve p = some r)
    (hq : resolve q = some s) :
    (∀ (my : MySql) (v g : ℤ) (file : FileInfo) (w : World), file.filePath = p →
        RecordsTexts my v g (prefixTexts [] (spelled p r)) (addFile v g file) w) ∧
      (∀ c ∈ r, Ordinary c) ∧
      (r = s → (SameEffect p q ↔ (Dotted p ↔ Dotted q))) := by
  refine ⟨fun my v g file w hfile => ?_, resolve_ordinary hp, ?_⟩
  · rw [addFile_spelled hp v g hfile]
    exact recordsTexts_addFileLoop my w v g (spelled_ne_nil hp) [] 0 0
  · rintro rfl
    refine ⟨dotted_iff_of_sameEffect hp hq, fun hdotted my v g file file' w hfile hfile' => ?_⟩
    have hsame : spelled p r = spelled q r := by
      unfold spelled
      simp only [hdotted]
    rw [addFile_spelled hp v g hfile, addFile_spelled hq v g hfile', hsame]

/-- Two spellings of `/a/b` without a leading `"."`. -/
theorem addFile_spelling_slashes :
    (∀ (my : MySql) (v g : ℤ) (file : FileInfo) (w : World), file.filePath = lit "/a//b/" →
        RecordsTexts my v g (prefixTexts [] (spelled (lit "/a//b/") [lit "a", lit "b"]))
          (addFile v g file) w) ∧
      (∀ c ∈ [lit "a", lit "b"], Ordinary c) ∧
      ([lit "a", lit "b"] = [lit "a", lit "b"] →
        (SameEffect (lit "/a//b/") (lit "a/./x/../b") ↔
          (Dotted (lit "/a//b/") ↔ Dotted (lit "a/./x/../b")))) :=
  addFile_spelling (by decide) (by decide)

/-- `./a` and `a` stand for the same path, and are stored under different ones. -/
theorem leadingDot_stored :
    resolve (lit "./a") = resolve (lit "a") ∧
      (run (World.step MySql.innodb) (addFile 1 1 ⟨lit "./a", 0, 0, [], false, []⟩)
          World.empty).2.db.defineFiles.map (·.filepath) = [lit "/.", lit "/./a"] ∧
      (run (World.step MySql.innodb) (addFile 1 1 ⟨lit "a", 0, 0, [], false, []⟩)
          World.empty).2.db.defineFiles.map (·.filepath) = [lit "/a"] ∧
      ¬ SameEffect (lit "./a") (lit "a") := by
  refine ⟨by decide, by decide +kernel, by decide +kernel, fun h => ?_⟩
  have hdotted := dotted_iff_of_sameEffect (r := [lit "a"]) (by decide) (by decide) h
  exact absurd (hdotted.mp (by decide)) (by decide)

end WebDiff
