import Mathlib.Algebra.Group.Nat.Defs
import WebDiff.Framework.Returning
import WebDiff.Model.Database

/-!
# JSON values

`nlohmann::json` as the server uses it: access by key and by index, the implicit conversions to
`std::string`, `int` and `bool`, `clear` and `dump`, each with the exception it throws on a value of
the wrong type. Nothing in the server catches these exceptions, except for the parse errors
`HttpRequest::ParseBody` catches.

The parser itself is left open (`JsonParser`). The one thing the server relies on is that it rejects
text that is not UTF-8, because `dump` throws on a string that is not.
-/

namespace WebDiff

/-- `nlohmann::json`. The members of an object are those of a `std::map`, by increasing key. -/
inductive Json
  | null
  | boolean (b : Bool)
  /-- `int64_t` -/
  | numberInteger (n : ℤ)
  /-- `uint64_t` -/
  | numberUnsigned (n : ℕ)
  | numberFloat (x : Float)
  | string (s : Bytes)
  | array (items : List Json)
  | object (members : List (Bytes × Json))

/-- The exceptions of `nlohmann::json`, with their numbers. -/
inductive JsonException
  | parseError
  | typeError (id : ℕ)
  | outOfRange (id : ℕ)
deriving DecidableEq, Repr

/-! ### UTF-8 -/

/-- The ranges of the bytes that have to follow the first byte of a character. No overlong form and
no surrogate is among them. -/
def utf8Tail (b : UInt8) : Option (List (UInt8 × UInt8)) :=
  if b < 0x80 then some []
  else if b < 0xC2 then none
  else if b < 0xE0 then some [(0x80, 0xBF)]
  else if b = 0xE0 then some [(0xA0, 0xBF), (0x80, 0xBF)]
  else if b = 0xED then some [(0x80, 0x9F), (0x80, 0xBF)]
  else if b < 0xF0 then some [(0x80, 0xBF), (0x80, 0xBF)]
  else if b = 0xF0 then some [(0x90, 0xBF), (0x80, 0xBF), (0x80, 0xBF)]
  else if b < 0xF4 then some [(0x80, 0xBF), (0x80, 0xBF), (0x80, 0xBF)]
  else if b = 0xF4 then some [(0x80, 0x8F), (0x80, 0xBF), (0x80, 0xBF)]
  else none

/-- UTF-8 behind a character that still needs bytes in the ranges `tail`. -/
def isUtf8From : (tail : List (UInt8 × UInt8)) → Bytes → Bool
  | [], [] => true
  | [], b :: rest =>
    match utf8Tail b with
    | some tail => isUtf8From tail rest
    | none => false
  | _ :: _, [] => false
  | (lo, hi) :: tail, b :: rest => lo ≤ b && b ≤ hi && isUtf8From tail rest

/-- A well-formed sequence of UTF-8 characters, as the lexer accepts it inside a string and the
serializer requires it. -/
def isUtf8 (s : Bytes) : Bool :=
  isUtf8From [] s

/-! ### The members of an object -/

/-- `std::map::operator[]` followed by an assignment. -/
def insertMember (key : Bytes) (v : Json) : List (Bytes × Json) → List (Bytes × Json)
  | [] => [(key, v)]
  | m :: rest =>
    if m.1 = key then (key, v) :: rest
    else if bytesLe key m.1 then (key, v) :: m :: rest
    else m :: insertMember key v rest

/-- `std::map::find`. -/
def findMember (key : Bytes) : List (Bytes × Json) → Option Json
  | [] => none
  | m :: rest => if m.1 = key then some m.2 else findMember key rest

theorem findMember_insertMember (key key' : Bytes) (v : Json) (members : List (Bytes × Json)) :
    findMember key' (insertMember key v members)
      = if key' = key then some v else findMember key' members := by
  induction members with
  | nil => simp only [insertMember, findMember, eq_comm]
  | cons m rest ih =>
    unfold insertMember
    by_cases hm : m.1 = key
    · rw [if_pos hm]
      by_cases hk : key' = key
      · simp only [findMember, hk, if_true]
      · have hne : m.1 ≠ key' := fun h => hk (h.symm.trans hm)
        simp only [findMember, if_neg (Ne.symm hk), if_neg hk, if_neg hne]
    · rw [if_neg hm]
      -- the members are sorted: in front of `m`, or somewhere behind it
      by_cases hle : bytesLe key m.1
      · rw [if_pos hle]
        simp only [findMember, eq_comm]
      · rw [if_neg hle]
        show findMember key' (m :: insertMember key v rest) = _
        by_cases hk : m.1 = key'
        · have hne : key' ≠ key := fun h => hm (hk.trans h)
          simp only [findMember, if_pos hk, if_neg hne]
        · simp only [findMember, if_neg hk, ih]

/-- A new key adds one member. -/
theorem insertMember_perm {key : Bytes} (v : Json) {members : List (Bytes × Json)}
    (h : ∀ m ∈ members, m.1 ≠ key) : (insertMember key v members).Perm ((key, v) :: members) := by
  induction members with
  | nil => exact List.Perm.refl _
  | cons m rest ih =>
    unfold insertMember
    rw [if_neg (h m List.mem_cons_self)]
    split
    · exact List.Perm.refl _
    · have hrest := ih fun m' hm' => h m' (List.mem_cons_of_mem _ hm')
      exact (hrest.cons m).trans (List.Perm.swap _ _ _)

theorem findMember_of_mem {key : Bytes} {v : Json} {members : List (Bytes × Json)}
    (h : (members.map Prod.fst).Nodup) (hmem : (key, v) ∈ members) :
    findMember key members = some v := by
  induction members with
  | nil => exact absurd hmem List.not_mem_nil
  | cons m rest ih =>
    rw [List.map_cons, List.nodup_cons] at h
    rcases List.mem_cons.mp hmem with rfl | hrest
    · exact if_pos rfl
    · have hne : m.1 ≠ key := fun he => h.1 (he ▸ List.mem_map_of_mem hrest)
      unfold findMember
      rw [if_neg hne]
      exact ih h.2 hrest

namespace Json

/-! ### Types -/

def isString : Json → Bool
  | string _ => true
  | _ => false

def isBoolean : Json → Bool
  | boolean _ => true
  | _ => false

def isNumber : Json → Bool
  | numberInteger _ => true
  | numberUnsigned _ => true
  | numberFloat _ => true
  | _ => false

def isArray : Json → Bool
  | array _ => true
  | _ => false

/-- What `operator[]` with a key accepts: an object, or a `null`, which becomes one. -/
def isSubscriptable : Json → Bool
  | null => true
  | object _ => true
  | _ => false

/-! ### Access -/

/-- `j[key]`, read. The access also inserts a `null` under a new key, which nothing in the server
looks at afterwards. -/
def subscript (j : Json) (key : Bytes) : Except JsonException Json :=
  match j with
  | null => .ok null
  | object members => .ok ((findMember key members).getD null)
  | _ => .error (.typeError 305)

/-- `j[key] = v`. -/
def assign (j : Json) (key : Bytes) (v : Json) : Except JsonException Json :=
  match j with
  | null => .ok (object [(key, v)])
  | object members => .ok (object (insertMember key v members))
  | _ => .error (.typeError 305)

/-- `j.at(i)`. -/
def atIndex (j : Json) (i : ℕ) : Except JsonException Json :=
  match j with
  | array items =>
    match items[i]? with
    | some item => .ok item
    | none => .error (.outOfRange 401)
  | _ => .error (.typeError 304)

def size : Json → ℕ
  | null => 0
  | array items => items.length
  | object members => members.length
  | _ => 1

/-- `clear` empties the value and keeps its type. -/
def clear : Json → Json
  | null => null
  | boolean _ => boolean false
  | numberInteger _ => numberInteger 0
  | numberUnsigned _ => numberUnsigned 0
  | numberFloat _ => numberFloat 0
  | string _ => string []
  | array _ => array []
  | object _ => object []

/-- The value under a key, with `null` for every key that is not there. -/
def member (j : Json) (key : Bytes) : Json :=
  match j with
  | object members => (findMember key members).getD null
  | _ => null

/-- `j[key] = v` where `j` is known to be `null` or an object. -/
def put (j : Json) (key : Bytes) (v : Json) : Json :=
  match j with
  | null => object [(key, v)]
  | object members => object (insertMember key v members)
  | _ => j

theorem subscript_eq (j : Json) (key : Bytes) :
    j.subscript key
      = if j.isSubscriptable then .ok (j.member key) else .error (.typeError 305) := by
  cases j <;> rfl

theorem assign_eq (j : Json) (key : Bytes) (v : Json) :
    j.assign key v
      = if j.isSubscriptable then .ok (j.put key v) else .error (.typeError 305) := by
  cases j <;> rfl

@[simp] theorem isSubscriptable_put (j : Json) (key : Bytes) (v : Json) :
    (j.put key v).isSubscriptable = j.isSubscriptable := by
  cases j <;> rfl

theorem member_put {j : Json} (hj : j.isSubscriptable) (key key' : Bytes) (v : Json) :
    (j.put key v).member key' = if key' = key then v else j.member key' := by
  cases j with
  | null =>
    show (findMember key' [(key, v)]).getD null = _
    by_cases hk : key' = key
    · rw [if_pos hk, hk]
      simp only [findMember, if_true, Option.getD_some]
    · rw [if_neg hk]
      simp only [findMember, if_neg (Ne.symm hk), Option.getD_none, member]
  | object members =>
    show (findMember key' (insertMember key v members)).getD null = _
    rw [findMember_insertMember]
    by_cases hk : key' = key
    · rw [if_pos hk, if_pos hk, Option.getD_some]
    · rw [if_neg hk, if_neg hk]
      rfl
  | _ => cases hj

/-- The members of an object. -/
def members : Json → List (Bytes × Json)
  | object members => members
  | _ => []

theorem member_eq_of_mem {j v : Json} {key : Bytes} (h : (j.members.map Prod.fst).Nodup)
    (hmem : (key, v) ∈ j.members) : j.member key = v := by
  cases j with
  | object members =>
    have hfind : findMember key members = some v := findMember_of_mem h hmem
    show (findMember key members).getD null = v
    rw [hfind]
    rfl
  | _ => exact absurd hmem List.not_mem_nil

theorem members_put_perm {j : Json} (hj : j.isSubscriptable) {key : Bytes} (v : Json)
    (h : ∀ m ∈ j.members, m.1 ≠ key) : (j.put key v).members.Perm ((key, v) :: j.members) := by
  cases j with
  | null => exact List.Perm.refl _
  | object members => exact insertMember_perm v h
  | _ => cases hj

/-- A loop that puts values under different keys adds one member for each of them. -/
theorem members_foldl_put {α : Type} {key : α → Bytes} (v : α → Json) {xs : List α} {j : Json}
    (hj : j.isSubscriptable) (hkeys : (xs.map key).Nodup)
    (hnew : ∀ x ∈ xs, ∀ m ∈ j.members, m.1 ≠ key x) :
    (xs.foldl (fun j x => j.put (key x) (v x)) j).members.Perm
      (j.members ++ xs.map fun x => (key x, v x)) := by
  induction xs generalizing j with
  | nil =>
    rw [List.map_nil, List.append_nil]
    exact List.Perm.refl _
  | cons x rest ih =>
    rw [List.map_cons, List.nodup_cons] at hkeys
    have hput := members_put_perm hj (v x) (hnew x List.mem_cons_self)
    -- the keys still to come are neither in the object nor the one just put
    have hrest : ∀ y ∈ rest, ∀ m ∈ (j.put (key x) (v x)).members, m.1 ≠ key y := by
      intro y hy m hm
      rcases List.mem_cons.mp (hput.mem_iff.mp hm) with rfl | hold
      · exact fun he : key x = key y => hkeys.1 (he ▸ List.mem_map_of_mem hy)
      · exact hnew y (List.mem_cons_of_mem _ hy) m hold
    rw [List.foldl_cons, List.map_cons]
    refine (ih ((isSubscriptable_put _ _ _).trans hj) hkeys.2 hrest).trans ?_
    exact (hput.append_right _).trans List.perm_middle.symm

@[simp] theorem isSubscriptable_clear (j : Json) :
    j.clear.isSubscriptable = j.isSubscriptable := by
  cases j <;> rfl

@[simp] theorem member_clear (j : Json) (key : Bytes) : j.clear.member key = null := by
  cases j <;> rfl

/-! ### Conversions -/

/-- The conversion to `std::string`. -/
def getString : Json → Except JsonException Bytes
  | string s => .ok s
  | _ => .error (.typeError 302)

/-- The conversion to `int`, a `static_cast` from each of the types of numbers and from `bool`. -/
def getInt : Json → Except JsonException ℤ
  | numberInteger n => .ok (n.bmod (2 ^ 32))
  | numberUnsigned n => .ok ((n : ℤ).bmod (2 ^ 32))
  | numberFloat x => .ok x.toInt32.toInt
  | boolean b => .ok (if b then 1 else 0)
  | _ => .error (.typeError 302)

/-- The conversion to `bool`. -/
def getBool : Json → Except JsonException Bool
  | boolean b => .ok b
  | _ => .error (.typeError 302)

/-- `std::string s = j[key]`, and the same for the other types. -/
def field {α : Type} (convert : Json → Except JsonException α) (j : Json) (key : Bytes) :
    Except JsonException α := do
  let v ← j.subscript key
  convert v

/-- A conversion accepts the values `ok`, which `null` is not one of, and reads `val` off them. -/
structure Converts {α : Type} (convert : Json → Except JsonException α) (ok : Json → Bool)
    (val : Json → α) : Prop where
  null_not_ok : ok null = false
  convert_eq : ∀ j, convert j = if ok j then .ok (val j) else .error (.typeError 302)

/-- The text of a string. -/
def text : Json → Bytes
  | string s => s
  | _ => []

/-- The `int` a number or a boolean is converted to. -/
def toInt (j : Json) : ℤ :=
  match j.getInt with
  | .ok n => n
  | .error _ => 0

/-- The types `int` is converted from. -/
def fitsInt (j : Json) : Bool :=
  j.isNumber || j.isBoolean

def toBool : Json → Bool
  | boolean b => b
  | _ => false

theorem converts_getString : Converts getString isString text where
  null_not_ok := rfl
  convert_eq j := by cases j <;> rfl

theorem converts_getInt : Converts getInt fitsInt toInt where
  null_not_ok := rfl
  convert_eq j := by cases j <;> rfl

theorem converts_getBool : Converts getBool isBoolean toBool where
  null_not_ok := rfl
  convert_eq j := by cases j <;> rfl

/-- A field is read exactly when its value is there and has an accepted type. Only the number of the
exception depends on what is read instead of an object. -/
theorem Converts.field_eq {α : Type} {convert : Json → Except JsonException α} {ok : Json → Bool}
    {val : Json → α} (h : Converts convert ok val) (j : Json) (key : Bytes) :
    j.field convert key = if ok (j.member key) then .ok (val (j.member key))
      else .error (.typeError (if j.isSubscriptable then 302 else 305)) := by
  unfold field
  rw [subscript_eq]
  by_cases hj : j.isSubscriptable
  · simp only [if_pos hj]
    exact h.convert_eq _
  · have hmember : j.member key = null := by cases j <;> first | rfl | exact absurd rfl hj
    rw [hmember, h.null_not_ok, if_neg hj, if_neg hj]
    rfl

/-! ### Text -/

mutual

/-- Every string of the value, keys included, is UTF-8. -/
def textUtf8 : Json → Bool
  | string s => isUtf8 s
  | array items => itemsUtf8 items
  | object members => membersUtf8 members
  | _ => true

def itemsUtf8 : List Json → Bool
  | [] => true
  | item :: rest => item.textUtf8 && itemsUtf8 rest

def membersUtf8 : List (Bytes × Json) → Bool
  | [] => true
  | (key, v) :: rest => isUtf8 key && v.textUtf8 && membersUtf8 rest

end

/-- `dump`, with the value standing for its text. -/
def dump (j : Json) : Except JsonException Json :=
  if j.textUtf8 then .ok j else .error (.typeError 316)

theorem textUtf8_findMember {key : Bytes} {v : Json} {members : List (Bytes × Json)}
    (h : membersUtf8 members) (hfind : findMember key members = some v) : v.textUtf8 := by
  induction members with
  | nil => cases hfind
  | cons m rest ih =>
    simp only [membersUtf8, Bool.and_eq_true] at h
    unfold findMember at hfind
    split at hfind
    · cases hfind
      exact h.1.2
    · exact ih h.2 hfind

theorem textUtf8_member {j : Json} (h : j.textUtf8) (key : Bytes) : (j.member key).textUtf8 := by
  cases j with
  | object members =>
    show ((findMember key members).getD null).textUtf8 = true
    cases hfind : findMember key members with
    | none => rfl
    | some v => exact textUtf8_findMember h hfind
  | _ => rfl

theorem membersUtf8_insertMember {key : Bytes} {v : Json} (hkey : isUtf8 key) (hv : v.textUtf8)
    {members : List (Bytes × Json)} (h : membersUtf8 members) :
    membersUtf8 (insertMember key v members) := by
  induction members with
  | nil => simp only [insertMember, membersUtf8, hkey, hv, Bool.and_self]
  | cons m rest ih =>
    have hm := h
    simp only [membersUtf8, Bool.and_eq_true] at hm
    unfold insertMember
    split
    · simp only [membersUtf8, hkey, hv, hm.2, Bool.and_self]
    · split
      · show (isUtf8 key && v.textUtf8 && membersUtf8 (m :: rest)) = true
        rw [hkey, hv, h]
        rfl
      · show (isUtf8 m.1 && m.2.textUtf8 && membersUtf8 (insertMember key v rest)) = true
        rw [hm.1.1, hm.1.2, ih hm.2]
        rfl

/-- Building a value from UTF-8 gives UTF-8. -/
theorem textUtf8_put {j : Json} (hj : j.textUtf8) {key : Bytes} (hkey : isUtf8 key) {v : Json}
    (hv : v.textUtf8) : (j.put key v).textUtf8 := by
  cases j with
  | null =>
    show (isUtf8 key && v.textUtf8 && true) = true
    rw [hkey, hv]
    rfl
  | object members => exact membersUtf8_insertMember hkey hv hj
  | _ => exact hj

end Json

/-- `nlohmann::json::parse`, which throws a `parse_error` where this is `none`. -/
structure JsonParser where
  parse : Bytes → Option Json
  parse_utf8 : ∀ text j, parse text = some j → j.textUtf8

end WebDiff
