import Mathlib.Data.List.Basic
import Mathlib.Tactic.Common

/-!
# The lexical structure of MySQL statements

Statements in a connection character set in which the bytes of quotes and backslashes never occur
inside a longer character, under the default SQL mode, so that they can be read byte by byte and
both kinds of quotes delimit strings.

`literal` is the rule for strings. `lex` is a lexer that reads one byte after the other: `step`
gives the tokens that are complete with the next byte, and `scan` runs it over a part of a statement
(`scan_append`). It rejects text with a comment outside of strings. Its strings are those of the
rule (`scan_literal`).
-/

namespace SqlLexer

/-! ### Strings -/

/-- `'\\'`. -/
def backslash : UInt8 := 92

/-- The quote of names. -/
def backtick : UInt8 := 96

/-- What a backslash and the byte behind it stand for inside a string. -/
def unescape (b : UInt8) : List UInt8 :=
  if b = 48 then [0]            -- \0
  else if b = 110 then [10]     -- \n
  else if b = 114 then [13]     -- \r
  else if b = 116 then [9]      -- \t
  else if b = 98 then [8]       -- \b
  else if b = 90 then [26]      -- \Z
  else if b = 37 ∨ b = 95 then [backslash, b]     -- \% and \_
  else [b]

/-- The rest of a string behind its opening quote: the value of the string and the text that follows
its closing quote. -/
def literalBody (quote : UInt8) : List UInt8 → Option (List UInt8 × List UInt8)
  | [] => none
  | b :: text =>
    if b = backslash then
      match text with
      | [] => none
      | c :: text => (literalBody quote text).map fun r => (unescape c ++ r.1, r.2)
    else if b = quote then
      match text with
      | [] => some ([], [])
      | c :: text' =>
        -- a doubled quote is one quote of the value
        if c = quote then (literalBody quote text').map fun r => (quote :: r.1, r.2)
        else some ([], text)
    else (literalBody quote text).map fun r => (b :: r.1, r.2)

section LiteralBody

variable {quote : UInt8}

theorem literalBody_escape (c : UInt8) (text : List UInt8) :
    literalBody quote (backslash :: c :: text)
      = (literalBody quote text).map fun r => (unescape c ++ r.1, r.2) := by
  conv_lhs => unfold literalBody
  exact if_pos rfl

theorem literalBody_doubled (hquote : quote ≠ backslash) (text : List UInt8) :
    literalBody quote (quote :: quote :: text)
      = (literalBody quote text).map fun r => (quote :: r.1, r.2) := by
  conv_lhs => unfold literalBody
  rw [if_neg hquote, if_pos rfl]
  exact if_pos rfl

theorem literalBody_closed (hquote : quote ≠ backslash) {text : List UInt8}
    (htext : text.head? ≠ some quote) : literalBody quote (quote :: text) = some ([], text) := by
  unfold literalBody
  rw [if_neg hquote, if_pos rfl]
  cases text with
  | nil => rfl
  | cons c text' => exact if_neg fun hc => htext (congrArg some hc)

theorem literalBody_cons {b : UInt8} (hback : b ≠ backslash) (hquote : b ≠ quote)
    (text : List UInt8) :
    literalBody quote (b :: text) = (literalBody quote text).map fun r => (b :: r.1, r.2) := by
  conv_lhs => unfold literalBody
  rw [if_neg hback, if_neg hquote]

end LiteralBody

/-- A string in double quotes at the beginning of the text, with the text behind it. -/
def literal : List UInt8 → Option (List UInt8 × List UInt8)
  | [] => none
  | b :: text => if b = 34 then literalBody 34 text else none

/-! ### Tokens -/

inductive Token
  /-- A keyword, or a name without quotes. -/
  | word (text : List UInt8)
  | number (digits : List UInt8)
  /-- A name in backticks. -/
  | name (text : List UInt8)
  | string (value : List UInt8)
  | symbol (b : UInt8)
deriving DecidableEq, Repr

/-- What has been read of the token that is not complete. -/
inductive State
  | start
  /-- Behind a symbol, which may be the first one of a comment. -/
  | afterSymbol (b : UInt8)
  | inWord (text : List UInt8)
  | inQuotes (quote : UInt8) (text : List UInt8)
  | inEscape (quote : UInt8) (text : List UInt8)
  /-- Behind a quote that closes the string, unless it is the first one of two. -/
  | atQuote (quote : UInt8) (text : List UInt8)
deriving DecidableEq, Repr

def isBlank (b : UInt8) : Bool :=
  b = 32 || (9 ≤ b && b ≤ 13)

def isQuote (b : UInt8) : Bool :=
  b = 34 || b = 39 || b = backtick

def isDigitByte (b : UInt8) : Bool :=
  48 ≤ b && b ≤ 57

/-- The bytes of words: letters, digits, `$`, `_`, and all bytes of longer characters. -/
def isWordByte (b : UInt8) : Bool :=
  isDigitByte b || (65 ≤ b && b ≤ 90) || (97 ≤ b && b ≤ 122) || b = 36 || b = 95 || 128 ≤ b

/-- `--` and `/*`. -/
def opensComment (a b : UInt8) : Bool :=
  (a = 45 && b = 45) || (a = 47 && b = 42)

def wordToken (text : List UInt8) : Token :=
  if text.all isDigitByte then .number text else .word text

def quotedToken (quote : UInt8) (text : List UInt8) : Token :=
  if quote = backtick then .name text else .string text

/-- A byte outside of words and quotes. A NUL byte and the `#` of a comment are rejected. -/
def stepStart (b : UInt8) : Option (List Token × State) :=
  if isBlank b then some ([], .start)
  else if b = 0 ∨ b = 35 then none
  else if isQuote b then some ([], .inQuotes b [])
  else if isWordByte b then some ([], .inWord [b])
  else some ([.symbol b], .afterSymbol b)

/-- The tokens that are complete with the next byte. -/
def step : State → UInt8 → Option (List Token × State)
  | .start, b => stepStart b
  | .afterSymbol a, b => if opensComment a b then none else stepStart b
  | .inWord text, b =>
    if isWordByte b then some ([], .inWord (text ++ [b]))
    else (stepStart b).map fun r => (wordToken text :: r.1, r.2)
  | .inQuotes quote text, b =>
    if b = backslash ∧ quote ≠ backtick then some ([], .inEscape quote text)
    else if b = quote then some ([], .atQuote quote text)
    else some ([], .inQuotes quote (text ++ [b]))
  | .inEscape quote text, b => some ([], .inQuotes quote (text ++ unescape b))
  | .atQuote quote text, b =>
    if b = quote then some ([], .inQuotes quote (text ++ [quote]))
    else (stepStart b).map fun r => (quotedToken quote text :: r.1, r.2)

/-- The token that is complete at the end of the statement. -/
def finish : State → Option (List Token)
  | .start => some []
  | .afterSymbol _ => some []
  | .inWord text => some [wordToken text]
  | .inQuotes _ _ => none
  | .inEscape _ _ => none
  | .atQuote quote text => some [quotedToken quote text]

/-- The tokens that are complete with the last byte, and what has been read of the next one. -/
def scan : State → List UInt8 → Option (List Token × State)
  | s, [] => some ([], s)
  | s, b :: text =>
    (step s b).bind fun r => (scan r.2 text).map fun r' => (r.1 ++ r'.1, r'.2)

/-- The tokens of a statement. -/
def lex (text : List UInt8) : Option (List Token) :=
  (scan .start text).bind fun r => (finish r.2).map fun ts => r.1 ++ ts

/-! ### Reading a statement part by part -/

theorem scan_cons (s : State) (b : UInt8) (text : List UInt8) :
    scan s (b :: text)
      = (step s b).bind fun r => (scan r.2 text).map fun r' => (r.1 ++ r'.1, r'.2) := rfl

/-- One byte and the text behind it. -/
theorem scan_cons_of_step {s s' : State} {b : UInt8} {ts : List Token}
    (h : step s b = some (ts, s')) (text : List UInt8) :
    scan s (b :: text) = (scan s' text).map fun r => (ts ++ r.1, r.2) := by
  rw [scan_cons, h]
  rfl

/-- **One part and the text behind it.** -/
theorem scan_append {s s' : State} {text : List UInt8} {ts : List Token}
    (h : scan s text = some (ts, s')) (rest : List UInt8) :
    scan s (text ++ rest) = (scan s' rest).map fun r => (ts ++ r.1, r.2) := by
  induction text generalizing s ts with
  | nil =>
    obtain ⟨rfl, rfl⟩ := Prod.mk.inj (Option.some.inj h)
    show scan s rest = _
    cases scan s rest <;> rfl
  | cons b text ih =>
    rw [scan_cons] at h
    obtain ⟨⟨us, t⟩, hstep, hscan⟩ := Option.bind_eq_some_iff.mp h
    obtain ⟨⟨us', t'⟩, hscan', heq⟩ := Option.map_eq_some_iff.mp hscan
    obtain ⟨rfl, rfl⟩ := Prod.mk.inj heq
    rw [List.cons_append, scan_cons_of_step hstep, ih hscan', Option.map_map]
    -- the tokens of both parts, in order
    refine congrFun (congrArg Option.map (funext fun r => ?_)) _
    show (us ++ (us' ++ r.1), r.2) = ((us ++ us') ++ r.1, r.2)
    rw [List.append_assoc]

theorem lex_eq {text : List UInt8} {ts : List Token} {s : State}
    (h : scan .start text = some (ts, s)) : lex text = (finish s).map fun us => ts ++ us := by
  unfold lex
  rw [h]
  rfl

/-- A byte that completes a token is read as the first one behind it. -/
theorem scan_cons_of_map {s : State} {b : UInt8} {t : Token}
    (hstep : step s b = (stepStart b).map fun r => (t :: r.1, r.2)) (text : List UInt8) :
    scan s (b :: text) = (scan .start (b :: text)).map fun r => (t :: r.1, r.2) := by
  rw [scan_cons, scan_cons, hstep]
  show _ = ((stepStart b).bind _).map _
  cases stepStart b with
  | none => rfl
  | some r =>
    show (scan r.2 text).map _ = ((scan r.2 text).map _).map _
    rw [Option.map_map]
    rfl

/-- Behind its closing quote a string is complete with any byte but another quote. -/
theorem scan_atQuote {quote : UInt8} (value : List UInt8) {b : UInt8} (hb : b ≠ quote)
    (text : List UInt8) :
    scan (.atQuote quote value) (b :: text)
      = (scan .start (b :: text)).map fun r => (quotedToken quote value :: r.1, r.2) := by
  have hstep : step (.atQuote quote value) b
      = (stepStart b).map fun r => (quotedToken quote value :: r.1, r.2) := if_neg hb
  exact scan_cons_of_map hstep text

/-- A byte that completes no token. -/
theorem scan_cons_silent {s s' t : State} {b : UInt8} {text : List UInt8} {ts : List Token}
    (hstep : step s b = some ([], s')) (h : scan s' text = some (ts, t)) :
    scan s (b :: text) = some (ts, t) := by
  rw [scan_cons_of_step hstep, h]
  rfl

/-- A string goes on behind a part of it that has been read. -/
theorem scan_inQuotes_append {quote : UInt8} {text rest : List UInt8}
    (ih : ∀ {value : List UInt8}, literalBody quote text = some (value, rest) →
      ∀ acc, ∃ body, text = body ++ rest ∧
        scan (.inQuotes quote acc) body = some ([], .atQuote quote (acc ++ value)))
    (part : List UInt8) {x value acc : List UInt8}
    (hpart : scan (.inQuotes quote acc) part = some ([], .inQuotes quote (acc ++ x)))
    (h : (literalBody quote text).map (fun r => (x ++ r.1, r.2)) = some (value, rest)) :
    ∃ body, part ++ text = body ++ rest ∧
      scan (.inQuotes quote acc) body = some ([], .atQuote quote (acc ++ value)) := by
  obtain ⟨⟨value', rest'⟩, hbody, heq⟩ := Option.map_eq_some_iff.mp h
  obtain ⟨rfl, rfl⟩ := Prod.mk.inj heq
  obtain ⟨body, htext, hscan⟩ := ih hbody (acc ++ x)
  refine ⟨part ++ body, by rw [htext, List.append_assoc], ?_⟩
  rw [scan_append hpart, hscan, List.append_assoc]
  rfl

/-- **Strings.** The lexer reads a string up to where the rule ends it. -/
theorem scan_literalBody {quote : UInt8} (hname : quote ≠ backtick) (hback : quote ≠ backslash)
    {text value rest : List UInt8} (h : literalBody quote text = some (value, rest))
    (acc : List UInt8) :
    ∃ body, text = body ++ rest ∧
      scan (.inQuotes quote acc) body = some ([], .atQuote quote (acc ++ value)) := by
  have hescape : ∀ acc, step (.inQuotes quote acc) backslash = some ([], .inEscape quote acc) :=
    fun _ => if_pos ⟨rfl, hname⟩
  have hclose : ∀ acc, step (.inQuotes quote acc) quote = some ([], .atQuote quote acc) :=
    fun _ => (if_neg fun hand => hback hand.1).trans (if_pos rfl)
  induction text using literalBody.induct quote generalizing value acc with
  | case1 => cases h
  | case2 => cases h
  | case3 c text ih =>
    -- an escape
    rw [literalBody_escape] at h
    exact scan_inQuotes_append (fun hbody => ih hbody) [backslash, c]
      (scan_cons_silent (hescape acc) rfl) h
  | case4 =>
    -- the quote that closes the string, at the end of the text
    rw [literalBody_closed hback (by simp)] at h
    obtain ⟨rfl, rfl⟩ := Prod.mk.inj (Option.some.inj h)
    refine ⟨[quote], rfl, ?_⟩
    rw [List.append_nil]
    exact scan_cons_silent (hclose acc) rfl
  | case5 text _ ih =>
    -- a doubled quote
    rw [literalBody_doubled hback] at h
    exact scan_inQuotes_append (fun hbody => ih hbody) [quote, quote]
      (scan_cons_silent (hclose acc) (scan_cons_silent (if_pos rfl) rfl)) h
  | case6 c text hc _ =>
    -- the quote that closes the string, with the text behind it
    have hhead : (c :: text).head? ≠ some quote := fun hhead => hc (Option.some.inj hhead)
    rw [literalBody_closed hback hhead] at h
    obtain ⟨rfl, rfl⟩ := Prod.mk.inj (Option.some.inj h)
    refine ⟨[quote], rfl, ?_⟩
    rw [List.append_nil]
    exact scan_cons_silent (hclose acc) rfl
  | case7 b text hb hbq ih =>
    rw [literalBody_cons hb hbq] at h
    have hstep : step (.inQuotes quote acc) b = some ([], .inQuotes quote (acc ++ [b])) :=
      (if_neg fun hand => hb hand.1).trans (if_neg hbq)
    exact scan_inQuotes_append (fun hbody => ih hbody) [b] (scan_cons_silent hstep rfl) h

/-- A part of a statement that is one string. -/
theorem scan_literal {text value : List UInt8} (h : literal text = some (value, [])) :
    scan .start text = some ([], .atQuote 34 value) := by
  cases text with
  | nil => cases h
  | cons b text =>
    have hbody : (if b = 34 then literalBody 34 text else none) = some (value, []) := h
    by_cases hb : b = 34
    · rw [if_pos hb] at hbody
      subst hb
      obtain ⟨body, rfl, hscan⟩ := scan_literalBody (by decide) (by decide) hbody []
      rw [List.append_nil]
      exact scan_cons_silent rfl hscan
    · rw [if_neg hb] at hbody
      cases hbody

/-! ### Words -/

/-- A part of a statement that is one word, or the rest of one. -/
theorem scan_word {text : List UInt8} (h : ∀ b ∈ text, isWordByte b) (acc : List UInt8) :
    scan (.inWord acc) text = some ([], .inWord (acc ++ text)) := by
  induction text generalizing acc with
  | nil =>
    rw [List.append_nil]
    rfl
  | cons b text ih =>
    have hstep : step (.inWord acc) b = some ([], .inWord (acc ++ [b])) :=
      if_pos (h b List.mem_cons_self)
    have hrest := ih (fun c hc => h c (List.mem_cons_of_mem _ hc)) (acc ++ [b])
    rw [List.append_assoc] at hrest
    exact scan_cons_silent hstep hrest

/-- A word is complete with a byte that does not belong to it. -/
theorem scan_inWord (word : List UInt8) {b : UInt8} (hb : isWordByte b = false)
    (text : List UInt8) :
    scan (.inWord word) (b :: text)
      = (scan .start (b :: text)).map fun r => (wordToken word :: r.1, r.2) := by
  have hstep : step (.inWord word) b
      = (stepStart b).map fun r => (wordToken word :: r.1, r.2) := if_neg (by simp [hb])
  exact scan_cons_of_map hstep text

end SqlLexer
