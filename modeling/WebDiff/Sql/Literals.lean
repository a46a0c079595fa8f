import WebDiff.Model.SqlText

/-!
# Literals keep what is in them

MySQL reads the value back that `prepareStringValue` was given, and ends the literal where it ends
(`literal_prepareStringValue`). So whatever the strings are, the text of a statement is read as the
tokens of the operands it was concatenated from, with each string as one token
(`mysqlQuery_text`).
-/

namespace WebDiff

open SqlLexer

/-! ### Literals -/

/-- A character is written as itself, or as the escape that stands for it. -/
theorem prepareChar_cases (c : UInt8) :
    (prepareChar c = [c] ∧ c ≠ backslash ∧ c ≠ 34 ∧ c ≠ 0) ∨
      ∃ e, prepareChar c = [backslash, e] ∧ unescape e = [c] ∧ e ≠ 0 := by
  unfold prepareChar
  -- the cases of the `switch`, each with its own escape
  by_cases hn : c = 10
  · subst hn
    exact Or.inr ⟨110, by decide, by decide, by decide⟩
  by_cases hr : c = 13
  · subst hr
    exact Or.inr ⟨114, by decide, by decide, by decide⟩
  by_cases hq : c = 92 ∨ c = 34 ∨ c = 39
  · rcases hq with rfl | rfl | rfl
    · exact Or.inr ⟨92, by decide, by decide, by decide⟩
    · exact Or.inr ⟨34, by decide, by decide, by decide⟩
    · exact Or.inr ⟨39, by decide, by decide, by decide⟩
  by_cases h0 : c = 0
  · subst h0
    exact Or.inr ⟨48, by decide, by decide, by decide⟩
  rw [if_neg hn, if_neg hr, if_neg hq, if_neg h0]
  exact Or.inl ⟨rfl, fun h => hq (Or.inl h), fun h => hq (Or.inr (Or.inl h)), h0⟩

theorem literalBody_prepare (value : Bytes) {rest : Bytes} (hrest : rest.head? ≠ some 34) :
    literalBody 34 (value.flatMap prepareChar ++ 34 :: rest) = some (value, rest) := by
  induction value with
  | nil => exact literalBody_closed (by decide) hrest
  | cons c value ih =>
    rw [List.flatMap_cons, List.append_assoc]
    rcases prepareChar_cases c with ⟨hc, hback, hquote, -⟩ | ⟨e, hc, hescape, -⟩
    · rw [hc, List.singleton_append, literalBody_cons hback hquote, ih]
      rfl
    · rw [hc]
      show literalBody 34 (backslash :: e :: (value.flatMap prepareChar ++ 34 :: rest)) = _
      rw [literalBody_escape, ih, hescape]
      rfl

/-- **Literals.** The value of a literal is the string it was made of, and the literal ends with its
last byte, as long as no quote follows it. -/
theorem literal_prepareStringValue (value : Bytes) {rest : Bytes}
    (hrest : rest.head? ≠ some 34) :
    literal (prepareStringValue value ++ rest) = some (value, rest) := by
  have htext : prepareStringValue value ++ rest
      = 34 :: (value.flatMap prepareChar ++ 34 :: rest) := by
    unfold prepareStringValue
    rw [List.append_assoc]
    rfl
  rw [htext]
  show (if (34 : UInt8) = 34 then literalBody 34 _ else none) = _
  rw [if_pos rfl, literalBody_prepare value hrest]

theorem zero_notMem_prepareStringValue (value : Bytes) : 0 ∉ prepareStringValue value := by
  unfold prepareStringValue
  intro h0
  rcases List.mem_append.mp h0 with h0 | h0
  · rcases List.mem_cons.mp h0 with h0 | h0
    · exact absurd h0 (by decide)
    · obtain ⟨c, -, h0⟩ := List.mem_flatMap.mp h0
      rcases prepareChar_cases c with ⟨hc, -, -, hne⟩ | ⟨e, hc, -, hne⟩
      · rw [hc, List.mem_singleton] at h0
        exact hne h0.symm
      · rw [hc, List.mem_pair] at h0
        exact h0.elim (by decide) fun h0 => hne h0.symm
  · exact absurd (List.mem_singleton.mp h0) (by decide)

/-! ### The parts of a statement -/

/-- The tokens of an operand. -/
def TextPart.tokens : TextPart → List Token
  | .fixed text => (lex text).getD []
  | .string value => [.string value]
  | .number (.ofNat n) => [.number (digits n)]
  | .number (.negSucc n) => [.symbol 45, .number (digits (n + 1))]

/-- The tokens of a statement. -/
def Sql.tokens (stmt : Sql) : List Token :=
  stmt.parts.flatMap TextPart.tokens

/-- Nothing of a token is read, and no comment begins. -/
def isComplete : State → Bool
  | .start => true
  | .afterSymbol b => b ≠ 45 && b ≠ 47
  | _ => false

/-- A fixed text that ends whatever stands before it, and is itself complete. -/
def delimits (text : Bytes) : Bool :=
  text.all (· ≠ 0) && (text.head?.any fun b => b ≠ 34 && !isWordByte b) &&
    ((scan .start text).any fun r => isComplete r.2)

/-- Fixed texts and operands in turns. -/
def alternates : List TextPart → Bool
  | [.fixed text] => delimits text
  | .fixed text :: .string _ :: rest => delimits text && alternates rest
  | .fixed text :: .number _ :: rest => delimits text && alternates rest
  | _ => false

theorem alternates_parts (stmt : Sql) : alternates stmt.parts := by
  cases stmt
  all_goals
    simp only [Sql.parts, alternates]
    decide +kernel

/-! ### Reading the parts -/

/-- Behind a complete part the text is read as at the beginning. -/
theorem scan_of_isComplete {s : State} (hs : isComplete s) {text : Bytes} (htext : text ≠ []) :
    scan s text = scan .start text := by
  obtain ⟨b, text, rfl⟩ := List.exists_cons_of_ne_nil htext
  cases s with
  | start => rfl
  | afterSymbol a =>
    -- only `-` and `/` can open a comment
    have hcomment : opensComment a b = false := by
      simp only [isComplete, Bool.and_eq_true, decide_eq_true_eq] at hs
      simp [opensComment, hs.1, hs.2]
    have hstep : step (.afterSymbol a) b = step .start b := by
      show (if opensComment a b then none else stepStart b) = stepStart b
      rw [hcomment]
      rfl
    rw [scan_cons, scan_cons, hstep]
  | _ => cases hs

theorem finish_of_isComplete {s : State} (hs : isComplete s) : finish s = some [] := by
  cases s with
  | start => rfl
  | afterSymbol _ => rfl
  | _ => cases hs

/-- What a text that delimits does. -/
theorem of_delimits {text : Bytes} (h : delimits text) :
    0 ∉ text ∧ (∃ b rest, text = b :: rest ∧ b ≠ 34 ∧ isWordByte b = false) ∧
      ∃ ts s, scan .start text = some (ts, s) ∧ isComplete s := by
  unfold delimits at h
  rw [Bool.and_eq_true, Bool.and_eq_true] at h
  obtain ⟨⟨hzero, hhead⟩, hscan⟩ := h
  refine ⟨fun h0 => ?_, ?_, ?_⟩
  · exact absurd (List.all_eq_true.mp hzero 0 h0) (by decide)
  · cases text with
    | nil => cases hhead
    | cons b rest =>
      have hb : (b ≠ 34 && !isWordByte b) = true := hhead
      rw [Bool.and_eq_true, decide_eq_true_eq, Bool.not_eq_true'] at hb
      exact ⟨b, rest, rfl, hb⟩
  · obtain ⟨⟨ts, s⟩, hscan, hs⟩ := (Option.any_eq_true _ _).mp hscan
    exact ⟨ts, s, hscan, hs⟩

/-- A fixed text is read as its tokens, before the operand behind it. -/
theorem scan_fixed {text : Bytes} (h : delimits text) :
    ∃ s, isComplete s ∧ scan .start text = some ((TextPart.fixed text).tokens, s) := by
  obtain ⟨-, -, ts, s, hscan, hs⟩ := of_delimits h
  refine ⟨s, hs, ?_⟩
  show scan .start text = some ((lex text).getD [], s)
  rw [lex_eq hscan, finish_of_isComplete hs, hscan]
  simp

/-- An operand is read as its tokens when a fixed text follows it. -/
theorem scan_string (value : Bytes) {text : Bytes} (rest : Bytes) (h : delimits text) :
    scan .start (prepareStringValue value ++ (text ++ rest))
      = (scan .start (text ++ rest)).map fun r => (.string value :: r.1, r.2) := by
  obtain ⟨-, ⟨b, text', rfl, hquote, -⟩, -⟩ := of_delimits h
  have hliteral : literal (prepareStringValue value) = some (value, []) := by
    have hnil : literal (prepareStringValue value ++ []) = some (value, []) :=
      literal_prepareStringValue value (by simp)
    rwa [List.append_nil] at hnil
  rw [scan_append (scan_literal hliteral), List.cons_append, scan_atQuote _ hquote, Option.map_map]
  rfl

/-! ### Numbers -/

theorem isWordByte_of_isDigit {b : UInt8} (h : isDigit b) : isWordByte b := by
  have hdigit : isDigitByte b = true := h
  unfold isWordByte
  rw [hdigit]
  rfl

/-- A digit begins a word. -/
theorem stepStart_digit {b : UInt8} (h : isDigit b) : stepStart b = some ([], .inWord [b]) := by
  have hbounds : 48 ≤ b.toNat ∧ b.toNat ≤ 57 := by
    simpa [isDigit, UInt8.le_iff_toNat_le] using h
  obtain ⟨hlo, hhi⟩ := hbounds
  -- the tests before the one for word bytes fail on a digit
  have hblank : ¬ isBlank b := by
    simp only [isBlank, Bool.or_eq_true, Bool.and_eq_true, decide_eq_true_eq,
      UInt8.le_iff_toNat_le, ← UInt8.toNat_inj, UInt8.reduceToNat]
    omega
  have hreject : ¬ (b = 0 ∨ b = 35) := by
    simp only [← UInt8.toNat_inj, UInt8.reduceToNat]
    omega
  have hquote : ¬ isQuote b := by
    simp only [isQuote, backtick, Bool.or_eq_true, decide_eq_true_eq, ← UInt8.toNat_inj,
      UInt8.reduceToNat]
    omega
  unfold stepStart
  rw [if_neg hblank, if_neg hreject, if_neg hquote, if_pos (isWordByte_of_isDigit h)]

theorem scan_digits {s : State} (hs : ∀ b, isDigit b → step s b = stepStart b) (n : ℕ) :
    scan s (digits n) = some ([], .inWord (digits n)) := by
  have hdigits : ∀ b ∈ digits n, isDigit b := fun b hb => isDigit_of_mem_digits hb
  cases hn : digits n with
  | nil => exact absurd hn (digits_ne_nil n)
  | cons b rest =>
    rw [hn] at hdigits
    have hb := hdigits b List.mem_cons_self
    have hrest : ∀ c ∈ rest, isWordByte c :=
      fun c hc => isWordByte_of_isDigit (hdigits c (List.mem_cons_of_mem _ hc))
    exact scan_cons_silent ((hs b hb).trans (stepStart_digit hb)) (scan_word hrest [b])

theorem wordToken_digits (n : ℕ) : wordToken (digits n) = .number (digits n) :=
  if_pos (List.all_eq_true.mpr fun _ hb => isDigit_of_mem_digits hb)

theorem scan_decimal (n : ℤ) :
    ∃ ts k, scan .start (decimal n) = some (ts, .inWord (digits k)) ∧
      (TextPart.number n).tokens = ts ++ [.number (digits k)] := by
  cases n with
  | ofNat n =>
    rw [decimal_ofNat]
    exact ⟨[], n, scan_digits (fun _ _ => rfl) n, rfl⟩
  | negSucc n =>
    rw [decimal_negSucc]
    -- a second sign would begin a comment
    have hs : ∀ b, isDigit b → step (.afterSymbol 45) b = stepStart b := by
      intro b hb
      have hne : b ≠ 45 := by
        rintro rfl
        exact absurd hb (by decide)
      have hcomment : opensComment 45 b = false := by simp [opensComment, hne]
      show (if opensComment 45 b then none else stepStart b) = stepStart b
      rw [hcomment]
      rfl
    have hsign : step .start 45 = some ([.symbol 45], .afterSymbol 45) := by decide
    refine ⟨[.symbol 45], n + 1, ?_, rfl⟩
    rw [scan_cons_of_step hsign, scan_digits hs]
    rfl

theorem scan_number (n : ℤ) {text : Bytes} (rest : Bytes) (h : delimits text) :
    scan .start (decimal n ++ (text ++ rest))
      = (scan .start (text ++ rest)).map
          fun r => ((TextPart.number n).tokens ++ r.1, r.2) := by
  obtain ⟨-, ⟨b, text', rfl, -, hword⟩, -⟩ := of_delimits h
  obtain ⟨ts, k, hscan, htokens⟩ := scan_decimal n
  rw [scan_append hscan, List.cons_append, scan_inWord _ hword, Option.map_map, htokens,
    wordToken_digits]
  refine congrFun (congrArg Option.map (funext fun r => ?_)) _
  show (ts ++ (_ :: r.1), r.2) = _
  rw [List.append_assoc]
  rfl

theorem decimal_ne_nil (n : ℤ) : decimal n ≠ [] := by
  cases n with
  | ofNat n =>
    rw [decimal_ofNat]
    exact digits_ne_nil n
  | negSucc n =>
    rw [decimal_negSucc]
    exact List.cons_ne_nil _ _

theorem zero_notMem_decimal (n : ℤ) : 0 ∉ decimal n := by
  have hdigits : ∀ k, 0 ∉ digits k := fun k h0 =>
    absurd (isDigit_of_mem_digits h0) (by decide)
  cases n with
  | ofNat n =>
    rw [decimal_ofNat]
    exact hdigits n
  | negSucc n =>
    rw [decimal_negSucc, List.mem_cons, not_or]
    exact ⟨by decide, hdigits (n + 1)⟩

/-! ### Statements -/

/-- A fixed text, an operand, and what follows them. -/
theorem scan_turn {text : Bytes} (h : delimits text) {operand rest : Bytes} {ts : List Token}
    {r : List Token × State} (hne : operand ≠ []) (hrest : scan .start rest = some r)
    (hoperand : scan .start (operand ++ rest)
      = (scan .start rest).map fun r => (ts ++ r.1, r.2)) :
    scan .start (text ++ (operand ++ rest))
      = some ((TextPart.fixed text).tokens ++ (ts ++ r.1), r.2) := by
  obtain ⟨s, hs, hscan⟩ := scan_fixed h
  -- the fixed text is complete, so what is behind it is read from the beginning
  have hne' : operand ++ rest ≠ [] := List.append_ne_nil_of_left_ne_nil hne _
  rw [scan_append hscan, scan_of_isComplete hs hne', hoperand, hrest]
  rfl

/-- What follows an operand begins with a fixed text. -/
theorem head_of_alternates {parts : List TextPart} (h : alternates parts) :
    ∃ text rest, parts.flatMap TextPart.text = text ++ rest ∧ delimits text := by
  unfold alternates at h
  split at h
  · next text => exact ⟨text, [], by simp [TextPart.text], h⟩
  · next text _ rest =>
    rw [Bool.and_eq_true] at h
    exact ⟨text, _, List.flatMap_cons, h.1⟩
  · next text _ rest =>
    rw [Bool.and_eq_true] at h
    exact ⟨text, _, List.flatMap_cons, h.1⟩
  · cases h

/-- Fixed texts and operands in turns are read as their tokens. -/
theorem scan_parts {parts : List TextPart} (h : alternates parts) :
    ∃ s, isComplete s ∧ scan .start (parts.flatMap TextPart.text)
      = some (parts.flatMap TextPart.tokens, s) := by
  fun_induction alternates parts with
  | case1 text =>
    obtain ⟨s, hs, hscan⟩ := scan_fixed h
    exact ⟨s, hs, by simpa [TextPart.text] using hscan⟩
  -- what follows the operand begins with a fixed text, and that ends the operand
  | case2 text value rest ih =>
    rw [Bool.and_eq_true] at h
    obtain ⟨s, hs, hscan⟩ := ih h.2
    obtain ⟨text', rest', htext', hdelimits⟩ := head_of_alternates h.2
    have hoperand := scan_string value rest' hdelimits
    rw [← htext'] at hoperand
    exact ⟨s, hs, scan_turn h.1 (List.cons_ne_nil _ _) hscan hoperand⟩
  | case3 text n rest ih =>
    rw [Bool.and_eq_true] at h
    obtain ⟨s, hs, hscan⟩ := ih h.2
    obtain ⟨text', rest', htext', hdelimits⟩ := head_of_alternates h.2
    have hoperand := scan_number n rest' hdelimits
    rw [← htext'] at hoperand
    exact ⟨s, hs, scan_turn h.1 (decimal_ne_nil n) hscan hoperand⟩
  | case4 => cases h

theorem zero_notMem_parts {parts : List TextPart} (h : alternates parts) :
    0 ∉ parts.flatMap TextPart.text := by
  fun_induction alternates parts with
  | case1 text => simpa [TextPart.text] using (of_delimits h).1
  | case2 text value rest ih =>
    rw [Bool.and_eq_true] at h
    simp only [List.flatMap_cons, List.mem_append, not_or]
    exact ⟨(of_delimits h.1).1, zero_notMem_prepareStringValue value, ih h.2⟩
  | case3 text n rest ih =>
    rw [Bool.and_eq_true] at h
    simp only [List.flatMap_cons, List.mem_append, not_or]
    exact ⟨(of_delimits h.1).1, zero_notMem_decimal n, ih h.2⟩
  | case4 => cases h

/-- The text of a statement has no NUL byte, so that MySQL is given all of it. -/
theorem zero_notMem_text (stmt : Sql) : 0 ∉ stmt.text :=
  zero_notMem_parts (alternates_parts stmt)

theorem mysqlQuery_text (stmt : Sql) : mysqlQuery stmt.text = some stmt.tokens := by
  obtain ⟨s, hs, hscan⟩ := scan_parts (alternates_parts stmt)
  have hfinish : finish s = some [] := finish_of_isComplete hs
  unfold mysqlQuery
  rw [cString_eq_self (zero_notMem_text stmt)]
  show lex (stmt.parts.flatMap TextPart.text) = _
  rw [lex_eq hscan, hfinish]
  show some (stmt.tokens ++ []) = _
  rw [List.append_nil]

/-- A string is one token, between the tokens of what stands before it and behind it. -/
theorem tokens_string (before after : List TextPart) (value : Bytes) :
    (before ++ .string value :: after).flatMap TextPart.tokens
      = before.flatMap TextPart.tokens ++ .string value :: after.flatMap TextPart.tokens := by
  rw [List.flatMap_append, List.flatMap_cons]
  rfl

/-- A family of statements that differ in one string. -/
theorem exists_tokens {α : Type} (stmt : α → Sql) (value : α → Bytes) (before after : List TextPart)
    (h : ∀ a, (stmt a).parts = before ++ .string (value a) :: after) :
    ∃ ts us, ∀ a, mysqlQuery (stmt a).text = some (ts ++ .string (value a) :: us) := by
  refine ⟨before.flatMap TextPart.tokens, after.flatMap TextPart.tokens, fun a => ?_⟩
  rw [mysqlQuery_text, Sql.tokens, h, tokens_string]

/-- A family of statements that differ in two strings. -/
theorem exists_tokens₂ (stmt : Bytes → Bytes → Sql) (before between after : List TextPart)
    (h : ∀ s t, (stmt s t).parts = before ++ .string s :: (between ++ .string t :: after)) :
    ∃ ts us vs, ∀ s t, mysqlQuery (stmt s t).text
      = some (ts ++ .string s :: (us ++ .string t :: vs)) := by
  refine ⟨before.flatMap TextPart.tokens, between.flatMap TextPart.tokens,
    after.flatMap TextPart.tokens, fun s t => ?_⟩
  rw [mysqlQuery_text, Sql.tokens, h, tokens_string, tokens_string]

/-- **No injection, no loss.** Behind `prepareStringValue` MySQL reads the string it was given, and
nothing else, whatever follows but a quote. So the statements are sent to their end, and read as
fixed tokens with the given strings as values of strings among them. -/
theorem literals_lossless :
    (∀ value rest : Bytes, rest.head? ≠ some 34 →
      literal (prepareStringValue value ++ rest) = some (value, rest)) ∧
    (∀ stmt : Sql, 0 ∉ stmt.text ∧ mysqlQuery stmt.text = some stmt.tokens) ∧
    (∃ ts us, ∀ name,
      mysqlQuery (Sql.insertVersion name).text = some (ts ++ .string name :: us)) ∧
    (∃ ts us, ∀ name,
      mysqlQuery (Sql.insertGroup name).text = some (ts ++ .string name :: us)) ∧
    (∀ parentId, ∃ ts us vs, ∀ filepath filename,
      mysqlQuery (Sql.insertDefineFile filepath filename parentId).text
        = some (ts ++ .string filepath :: (us ++ .string filename :: vs))) ∧
    ∀ defineFileId, ∃ ts us, ∀ comment now,
      mysqlQuery (Sql.insertComment defineFileId comment now).text
        = some (ts ++ .string comment :: us) := by
  refine ⟨fun value rest hrest => literal_prepareStringValue value hrest,
    fun stmt => ⟨zero_notMem_text stmt, mysqlQuery_text stmt⟩, ?_, ?_, fun parentId => ?_,
    fun defineFileId => ?_⟩
  -- which part of each statement is the string
  · exact exists_tokens Sql.insertVersion id [_] [_] fun _ => rfl
  · exact exists_tokens Sql.insertGroup id [_] [_] fun _ => rfl
  · exact exists_tokens₂ (fun s t => .insertDefineFile s t parentId) [_] [_] [_, _, _]
      fun _ _ => rfl
  · obtain ⟨ts, us, htokens⟩ := exists_tokens
      (fun c : Bytes × ℤ => .insertComment defineFileId c.1 c.2) Prod.fst [_, _, _] [_] fun _ => rfl
    exact ⟨ts, us, fun comment now => htokens (comment, now)⟩

/-- A string with both quotes, a backslash in front of each, a NUL byte and a backslash at the
end. -/
theorem literals_lossless_quotes :
    literal (prepareStringValue [92, 34, 92, 39, 0, 37, 92] ++ lit ",'');")
      = some ([92, 34, 92, 39, 0, 37, 92], lit ",'');") :=
  literals_lossless.1 _ _ (by decide)

end WebDiff
