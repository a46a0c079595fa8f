import WebDiff.Model.Diff
import WebDiff.Model.Json
import WebDiff.Model.Listing

/-!
# The models as JSON

The `toJson` methods of the models, which make up the answers of the HTTP handlers, and the two
lists and the lookup that the handlers take from the caches instead of the tables. The keys of the
groups and of the files are numbers written in decimal (`decimal_injective`).
-/

namespace WebDiff

/-- `j[key][key'] = v` where both `j` and `j[key]` are known to be `null` or an object. -/
def Json.putIn (j : Json) (key key' : Bytes) (v : Json) : Json :=
  j.put key ((j.member key).put key' v)

/-! ### Numbers as text -/

/-- `std::to_string`. -/
def decimal (n : ℤ) : Bytes :=
  lit (toString n)

/-- The bytes from `'0'` to `'9'`. -/
def isDigit (b : UInt8) : Bool :=
  48 ≤ b && b ≤ 57

/-- The digits of a natural number. -/
def digits (n : ℕ) : Bytes :=
  (Nat.toDigits 10 n).map fun c => UInt8.ofNat c.toNat

theorem decimal_ofNat (n : ℕ) : decimal (Int.ofNat n) = digits n := by
  show lit (Nat.repr n) = _
  unfold lit digits
  rw [Nat.toList_repr]

theorem decimal_negSucc (n : ℕ) : decimal (Int.negSucc n) = 45 :: digits (n + 1) := by
  show lit ("-" ++ Nat.repr (n + 1)) = _
  unfold lit digits
  rw [String.toList_append, List.map_append, Nat.toList_repr]
  rfl

theorem digits_ne_nil (n : ℕ) : digits n ≠ [] :=
  fun h => Nat.toDigits_ne_nil (List.map_eq_nil_iff.mp h)

/-- A digit and its byte are the same number. -/
theorem toNat_of_isDigit {c : Char} (hc : c.isDigit) :
    (UInt8.ofNat c.toNat).toNat = c.toNat ∧ 48 ≤ c.toNat ∧ c.toNat ≤ 57 := by
  have hbounds : 48 ≤ c.toNat ∧ c.toNat ≤ 57 := by
    simp only [Char.isDigit, Bool.and_eq_true, decide_eq_true_eq] at hc
    exact hc
  refine ⟨?_, hbounds⟩
  rw [UInt8.toNat_ofNat']
  omega

theorem isDigit_of_mem_digits {n : ℕ} {b : UInt8} (hb : b ∈ digits n) : isDigit b := by
  obtain ⟨c, hc, rfl⟩ := List.mem_map.mp hb
  obtain ⟨heq, hlo, hhi⟩ :=
    toNat_of_isDigit (Nat.isDigit_of_mem_toDigits (by decide) (by decide) hc)
  simp only [isDigit, Bool.and_eq_true, decide_eq_true_eq, UInt8.le_iff_toNat_le, heq]
  exact ⟨hlo, hhi⟩

theorem digits_injective {m n : ℕ} (h : digits m = digits n) : m = n := by
  -- the characters are read back from their bytes
  have hchars : ∀ k, (digits k).map (fun b => Char.ofNat b.toNat) = Nat.toDigits 10 k := by
    intro k
    unfold digits
    rw [List.map_map]
    refine (List.map_congr_left fun c hc => ?_).trans (List.map_id _)
    have hdigit := Nat.isDigit_of_mem_toDigits (by decide) (by decide) hc
    show Char.ofNat (UInt8.ofNat c.toNat).toNat = c
    rw [(toNat_of_isDigit hdigit).1, Char.ofNat_toNat]
  calc
    m = Nat.ofDigitChars 10 (Nat.toDigits 10 m) 0 := Nat.ofDigitChars_ten_toDigits.symm
    _ = Nat.ofDigitChars 10 (Nat.toDigits 10 n) 0 := by rw [← hchars m, h, hchars n]
    _ = n := Nat.ofDigitChars_ten_toDigits

/-- Different numbers have different texts. -/
theorem decimal_injective {m n : ℤ} (h : decimal m = decimal n) : m = n := by
  -- a sign is not a digit
  have hsign : ∀ k l : ℕ, digits k ≠ 45 :: digits l := by
    intro k l hkl
    have hdigit : isDigit 45 := isDigit_of_mem_digits (hkl ▸ List.mem_cons_self)
    exact absurd hdigit (by decide)
  cases m with
  | ofNat m =>
    rw [decimal_ofNat] at h
    cases n with
    | ofNat n =>
      rw [decimal_ofNat] at h
      rw [digits_injective h]
    | negSucc n =>
      rw [decimal_negSucc] at h
      exact absurd h (hsign m (n + 1))
  | negSucc m =>
    rw [decimal_negSucc] at h
    cases n with
    | ofNat n =>
      rw [decimal_ofNat] at h
      exact absurd h.symm (hsign n (m + 1))
    | negSucc n =>
      rw [decimal_negSucc] at h
      rw [Nat.succ_inj.mp (digits_injective (List.cons.inj h).2)]

/-! ### `models_basic.cpp` -/

def ModelVersion.toJson (ver : ModelVersion) : Json :=
  Json.null
    |>.put (lit "version_id") (.numberInteger ver.id)
    |>.put (lit "name") (.string ver.name)

def ModelGroup.toJson (gr : ModelGroup) : Json :=
  Json.null
    |>.put (lit "group_id") (.numberInteger gr.id)
    |>.put (lit "name") (.string gr.title)

def ModelGroupForVersion.toJson (gr : ModelGroupForVersion) : Json :=
  Json.null
    |>.put (lit "version_id") (.numberInteger gr.versionId)
    |>.put (lit "group_id") (.numberInteger gr.id)
    |>.put (lit "title") (.string gr.title)
    |>.put (lit "amount_of_files") (.numberInteger gr.amountOfFiles)

def ModelFile.toJson (file : ModelFile) : Json :=
  Json.null
    |>.put (lit "version_id") (.numberInteger file.versionId)
    |>.put (lit "group_id") (.numberInteger file.groupId)
    |>.put (lit "def_file_id") (.numberInteger file.defineFileId)
    |>.put (lit "amount_of_children") (.numberInteger file.amountOfChildren)
    |>.put (lit "file_id") (.numberInteger file.id)
    |>.put (lit "title") (.string file.title)

/-! ### `models_diff.cpp` -/

def ModelComment.toJson (comment : ModelComment) : Json :=
  Json.null
    |>.put (lit "id") (.numberInteger comment.id)
    |>.put (lit "define_file_id") (.numberInteger comment.defineFileId)
    |>.put (lit "comment") (.string comment.comment)

def ModelDiffFile.toJson (file : ModelDiffFile) : Json :=
  Json.null
    |>.put (lit "id") (.string (lit "id" ++ decimal file.id))
    |>.put (lit "parent") (.string (lit "id" ++ decimal file.parentFileId))
    |>.put (lit "define_file_id") (.numberInteger file.defineFileId)
    |>.put (lit "filename") (.string file.filename)
    |>.put (lit "amount_of_children") (.numberInteger file.amountOfChildren)
    |>.put (lit "state") (.string file.state.text)
    |>.put (lit "comments") (.array [])

/-- The loop of `ModelDiffGroup::toJson`. Without an entry the value stays `null`. -/
def ModelDiffGroup.filesToJson (g : ModelDiffGroup) : Json :=
  g.fileDiffs.foldl
    (fun jsonFiles file => jsonFiles.put (lit "id" ++ decimal file.id) file.toJson) Json.null

def ModelDiffGroup.toJson (g : ModelDiffGroup) : Json :=
  Json.null
    |>.put (lit "title") (.string g.group.title)
    |>.put (lit "missing") (.numberInteger g.missingFiles)
    |>.put (lit "new") (.numberInteger g.newFiles)
    |>.put (lit "files") g.filesToJson

/-- The first loop of `ModelDiffGroups::toJson`. -/
def ModelDiffGroups.putGroups (d : ModelDiffGroups) (jsonRet : Json) : Json :=
  d.mapGroups.toList.foldl
    (fun jsonRet g => jsonRet.putIn (lit "groups") (lit "group" ++ decimal g.1) g.2.toJson) jsonRet

/-- The second loop of `ModelDiffGroups::toJson`. -/
def ModelDiffGroups.putComments (d : ModelDiffGroups) (jsonRet : Json) : Json :=
  d.mapComments.toList.foldl
    (fun jsonRet c => jsonRet.putIn (lit "comments") (lit "dfid" ++ decimal c.1)
      (.array (c.2.map ModelComment.toJson))) jsonRet

def ModelDiffGroups.toJson (d : ModelDiffGroups) : Json :=
  let jsonRet := Json.null.put (lit "groups") .null
  let jsonRet := d.putGroups jsonRet
  let jsonRet := jsonRet.put (lit "comments") .null
  d.putComments jsonRet

theorem isSubscriptable_foldl_putIn {α : Type} (key : Bytes) (key' : α → Bytes) (v : α → Json)
    (xs : List α) (j : Json) :
    (xs.foldl (fun j x => j.putIn key (key' x) (v x)) j).isSubscriptable = j.isSubscriptable := by
  induction xs generalizing j with
  | nil => rfl
  | cons x xs ih =>
    rw [List.foldl_cons, ih]
    exact Json.isSubscriptable_put _ _ _

/-- A loop over the members of `j[key]` changes `j` under this key only. -/
theorem member_foldl_putIn {α : Type} (key k : Bytes) (key' : α → Bytes) (v : α → Json)
    (xs : List α) {j : Json} (hj : j.isSubscriptable) :
    (xs.foldl (fun j x => j.putIn key (key' x) (v x)) j).member k
      = if k = key then xs.foldl (fun j x => j.put (key' x) (v x)) (j.member key)
        else j.member k := by
  induction xs generalizing j with
  | nil =>
    by_cases hk : k = key
    · rw [if_pos hk, hk]
      rfl
    · rw [if_neg hk]
      rfl
  | cons x xs ih =>
    have hput : (j.putIn key (key' x) (v x)).isSubscriptable :=
      (Json.isSubscriptable_put _ _ _).trans hj
    rw [List.foldl_cons, ih hput, List.foldl_cons]
    unfold Json.putIn
    rw [Json.member_put hj, Json.member_put hj, if_pos rfl]
    by_cases hk : k = key
    · rw [if_pos hk, if_pos hk]
    · rw [if_neg hk, if_neg hk, if_neg hk]

/-- The result of a diff is an object, whatever it holds. -/
@[simp] theorem ModelDiffGroups.isSubscriptable_toJson (d : ModelDiffGroups) :
    d.toJson.isSubscriptable := by
  unfold toJson putComments putGroups
  rw [isSubscriptable_foldl_putIn, Json.isSubscriptable_put, isSubscriptable_foldl_putIn,
    Json.isSubscriptable_put]
  rfl

/-! ### The caches of `MySqlStorage` -/

/-- `MySqlStorage::getVersionsAll`. -/
def Caches.getVersionsAll (c : Caches) : List ModelVersion :=
  c.versions

/-- `MySqlStorage::getGroupsAll`. -/
def Caches.getGroupsAll (c : Caches) : List ModelGroup :=
  c.groups

/-- `getVersionInfo`: the last version with the id. -/
def Caches.getVersionInfo (c : Caches) (versionId : ℤ) : ModelVersion :=
  c.versions.foldl (fun ret ver => if ver.id = versionId then ver else ret) ⟨-1, lit "None"⟩

end WebDiff
