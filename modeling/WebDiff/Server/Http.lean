import WebDiff.Model.HttpServer

/-!
# When an HTTP handler returns

The JSON a handler accepts is described by `PostApi.Fits`: the fields it reads are there and have a
type that the C++ variable they go to accepts, at every index of `files`. `returns_serve` says that
this is exactly when the handler returns, up to one condition on the connection: `resp->json` must
not be left as an array or a scalar. It also says what the handler did to the storage, which is
what `PostApi.effect` does with the values of the fields.
-/

namespace WebDiff

open EStateM Program

/-! ### What a request says -/

/-- The fields of an element of `files` have the right types. -/
def FileFits (j : Json) : Prop :=
  (j.member (lit "path")).isString ∧ (j.member (lit "size")).fitsInt ∧
    (j.member (lit "compress_size")).fitsInt ∧ (j.member (lit "mode")).isString ∧
      (j.member (lit "is_dir")).isBoolean ∧ (j.member (lit "dt")).isString

/-- The values of these fields. -/
def jsonFileInfo (j : Json) : FileInfo where
  filePath := (j.member (lit "path")).text
  fileSize := (j.member (lit "size")).toInt
  compressSize := (j.member (lit "compress_size")).toInt
  mode := (j.member (lit "mode")).text
  isDir := (j.member (lit "is_dir")).toBool
  dateTime := (j.member (lit "dt")).text

/-- The values of `files` the loop gets through. It does not start on a value of size `0`. -/
def FilesFit : Json → Prop
  | .null => True
  | .object members => members = []
  | .array items => ∀ item ∈ items, FileFits item
  | _ => False

/-- The files of such a value. -/
def jsonFileInfos : Json → List FileInfo
  | .array items => items.map jsonFileInfo
  | _ => []

/-- The upload a body stands for. -/
def addRequest (j : Json) : AddRequest where
  version := (j.member (lit "version")).text
  group := (j.member (lit "group")).text
  files := jsonFileInfos (j.member (lit "files"))

/-- The fields a handler reads have the right types. -/
def PostApi.Fits : PostApi → Json → Prop
  | .add, j =>
    (j.member (lit "version")).isString ∧ (j.member (lit "group")).isString ∧
      FilesFit (j.member (lit "files"))
  | .commentAdd, j =>
    (j.member (lit "define_file_id")).fitsInt ∧ (j.member (lit "comment")).isString
  | .commentHide, j => (j.member (lit "comment_id")).fitsInt
  | .diff, j =>
    (j.member (lit "left_version_id")).fitsInt ∧ (j.member (lit "right_version_id")).fitsInt
  | .files, j =>
    (j.member (lit "version_id")).fitsInt ∧ (j.member (lit "group_id")).fitsInt ∧
      (j.member (lit "parent_id")).fitsInt
  | .groups, j => (j.member (lit "version_id")).fitsInt
  | .groupsAll, _ => True
  | .versionsAll, _ => True

/-- What a handler does to the storage. -/
def PostApi.effect (my : MySql) (now : ℤ) (j : Json) : PostApi → World → World
  | .add, w => (run (World.step my) (upload (addRequest j)) w).2
  | .commentAdd, w =>
    (run (World.step my)
      (addComment (j.member (lit "define_file_id")).toInt (j.member (lit "comment")).text now) w).2
  | .commentHide, w =>
    (run (World.step my) (hideComment (j.member (lit "comment_id")).toInt) w).2
  | _, w => w

/-! ### The primitives -/

section Primitives

variable {α : Type} {s : HttpState}

theorem returns_reqField {convert : Json → Except JsonException α} {ok : Json → Bool}
    {val : Json → α} (h : Json.Converts convert ok val) {key : Bytes}
    {Q : α → HttpState → Prop} :
    Returns (reqField convert key) Q s
      ↔ ok (s.req.member key) ∧ Q (val (s.req.member key)) s := by
  unfold reqField
  rw [returns_bind, returns_get]
  exact returns_liftExcept_of_eq (h.field_eq s.req key)

@[simp] theorem returns_reqField_getString {key : Bytes} {Q : Bytes → HttpState → Prop} :
    Returns (reqField Json.getString key) Q s
      ↔ (s.req.member key).isString ∧ Q (s.req.member key).text s :=
  returns_reqField Json.converts_getString

@[simp] theorem returns_reqField_getInt {key : Bytes} {Q : ℤ → HttpState → Prop} :
    Returns (reqField Json.getInt key) Q s
      ↔ (s.req.member key).fitsInt ∧ Q (s.req.member key).toInt s :=
  returns_reqField Json.converts_getInt

/-- A field that is not converted may be absent. -/
@[simp] theorem returns_reqField_json {key : Bytes} {Q : Json → HttpState → Prop} :
    Returns (reqField Except.ok key) Q s ↔ s.req.isSubscriptable ∧ Q (s.req.member key) s := by
  unfold reqField
  rw [returns_bind, returns_get]
  have hfield : s.req.field Except.ok key =
      if s.req.isSubscriptable then .ok (s.req.member key) else .error (.typeError 305) := by
    unfold Json.field
    rw [Json.subscript_eq]
    split <;> rfl
  exact returns_liftExcept_of_eq hfield

@[simp] theorem returns_respSet {key : Bytes} {v : Json} {Q : Unit → HttpState → Prop} :
    Returns (respSet key v) Q s
      ↔ s.resp.isSubscriptable ∧ Q () { s with resp := s.resp.put key v } := by
  unfold respSet
  rw [returns_bind, returns_get, returns_bind]
  exact returns_liftExcept_of_eq (s.resp.assign_eq key v)

@[simp] theorem returns_respSetIn {key key' : Bytes} {v : Json} {Q : Unit → HttpState → Prop} :
    Returns (respSetIn key key' v) Q s
      ↔ s.resp.isSubscriptable ∧ (s.resp.member key).isSubscriptable ∧
          Q () { s with resp := s.resp.putIn key key' v } := by
  unfold respSetIn
  rw [returns_bind, returns_get, returns_bind,
    returns_liftExcept_of_eq (s.resp.subscript_eq key), returns_bind,
    returns_liftExcept_of_eq ((s.resp.member key).assign_eq key' v), returns_respSet]
  refine and_congr_right fun hresp => and_congr_right fun _ => ?_
  exact and_iff_right hresp

@[simp] theorem returns_storage (my : MySql) {p : Storage α} {Q : α → HttpState → Prop} :
    Returns (storage my p) Q s
      ↔ Q (run (World.step my) p s.world).1
          { s with world := (run (World.step my) p s.world).2 } := Iff.rfl

@[simp] theorem returns_query {f : World → α} {Q : α → HttpState → Prop} :
    Returns (query f) Q s ↔ Q (f s.world) s := Iff.rfl

end Primitives

/-! ### The loop over the files -/

section Files

variable {my : MySql} {s : HttpState}

theorem returns_readFile {j : Json} {Q : FileInfo → HttpState → Prop} :
    Returns (liftExcept (readFile j) : Handler FileInfo) Q s
      ↔ FileFits j ∧ Q (jsonFileInfo j) s := by
  have hstring := fun key => Json.converts_getString.field_eq j key
  have hint := fun key => Json.converts_getInt.field_eq j key
  have hbool := fun key => Json.converts_getBool.field_eq j key
  unfold readFile FileFits
  simp only [returns_liftExcept_bind, returns_liftExcept_of_eq (hstring _),
    returns_liftExcept_of_eq (hint _), returns_liftExcept_of_eq (hbool _), and_assoc]
  exact Iff.rfl

theorem run_addFiles_cons (v g : ℤ) (file : FileInfo) (rest : List FileInfo) (w : World) :
    (run (World.step my) (addFiles v g (file :: rest)) w).2
      = (run (World.step my) (addFiles v g rest)
          (run (World.step my) (addFile v g file) w).2).2 := by
  simp only [addFiles, Program.run_bind]

/-- From any index on, the loop is `addFiles` on the rest of the files if all of them fit. -/
theorem returns_addJsonFiles_array {v g : ℤ} (items : List Json) (i rounds : ℕ)
    (hrounds : i + rounds = items.length) {Q : Unit → HttpState → Prop} :
    Returns (addJsonFiles my v g (.array items) i rounds) Q s
      ↔ (∀ item ∈ items.drop i, FileFits item) ∧
          Q () { s with
            world := (run (World.step my)
              (addFiles v g ((items.drop i).map jsonFileInfo)) s.world).2 } := by
  induction rounds generalizing i s with
  | zero =>
    rw [List.drop_eq_nil_of_le (by omega)]
    exact (and_iff_right fun _ h => absurd h List.not_mem_nil).symm
  | succ rounds ih =>
    -- the loop reads one item by its index
    have hi : i < items.length := by omega
    have hat : (Json.array items).atIndex i = .ok items[i] := by
      simp only [Json.atIndex, List.getElem?_eq_getElem hi]
    rw [addJsonFiles, returns_bind, hat, List.drop_eq_getElem_cons hi, List.map_cons,
      List.forall_mem_cons]
    show Returns (_ : Handler Unit) Q s ↔ _
    rw [returns_bind, returns_readFile, returns_bind, returns_storage, ih (i + 1) (by omega),
      run_addFiles_cons, and_assoc]

@[simp] theorem returns_addJsonFiles {v g : ℤ} {jsonFiles : Json} {Q : Unit → HttpState → Prop} :
    Returns (addJsonFiles my v g jsonFiles 0 jsonFiles.size) Q s
      ↔ FilesFit jsonFiles ∧
          Q () { s with
            world := (run (World.step my)
              (addFiles v g (jsonFileInfos jsonFiles)) s.world).2 } := by
  cases jsonFiles with
  | null => exact (and_iff_right trivial).symm
  | array items => exact returns_addJsonFiles_array items 0 items.length (Nat.zero_add _)
  | object members =>
    cases members with
    | nil => exact (and_iff_right rfl).symm
    | cons m rest => exact ⟨fun h => h.elim, fun h => absurd h.1 (List.cons_ne_nil _ _)⟩
  | _ => exact ⟨fun h => h.elim, fun h => h.1.elim⟩

end Files

/-! ### The handlers -/

section Answers

variable (j : Json)

@[simp] theorem isSubscriptable_putIn (key key' : Bytes) (v : Json) :
    (j.putIn key key' v).isSubscriptable = j.isSubscriptable :=
  Json.isSubscriptable_put _ _ _

/-- What was assigned can be subscripted if the value can. -/
@[simp] theorem isSubscriptable_member_put {v : Json} (hv : v.isSubscriptable) (key : Bytes) :
    ((j.put key v).member key).isSubscriptable := by
  by_cases hj : j.isSubscriptable
  · rw [Json.member_put hj, if_pos rfl]
    exact hv
  · cases j <;> first | rfl | exact absurd rfl hj

/-- An assignment inside a member keeps it an object. -/
@[simp] theorem isSubscriptable_member_putIn {key : Bytes}
    (hkey : (j.member key).isSubscriptable) (key' : Bytes) (v : Json) :
    ((j.putIn key key' v).member key).isSubscriptable :=
  isSubscriptable_member_put j ((Json.isSubscriptable_put _ _ _).trans hkey) key

/-- `resp->json["result"]` is still free when `resp->json["jsonrpc"]` has been written. -/
@[simp] theorem isSubscriptable_result (v : Json) :
    ((j.clear.put (lit "jsonrpc") v).member (lit "result")).isSubscriptable := by
  have hkey : lit "result" ≠ lit "jsonrpc" := by decide
  by_cases hj : j.clear.isSubscriptable
  · rw [Json.member_put hj, if_neg hkey, Json.member_clear]
    rfl
  · cases j <;> rfl

theorem isSubscriptable_of_member_isString {key : Bytes} (h : (j.member key).isString) :
    j.isSubscriptable := by
  cases j <;> first | rfl | cases h

end Answers

@[simp] theorem returns_post {parser : JsonParser} {answer : Handler Unit} {body url : Bytes}
    {Q : ℤ → HttpState → Prop} {s : HttpState} :
    Returns (post parser answer ⟨.applicationJson, body, url⟩) Q s
      ↔ Returns answer (fun _ s' => Q 200 s')
          { s with req := parsedBody parser body s.req } := by
  unfold post parseBody
  rw [if_neg (fun h => h rfl), returns_bind, returns_modify, returns_bind]
  exact Iff.rfl

/-- **When a handler returns, and what it did.** What it reads is what `ParseBody` makes of the body
and of the emptied JSON of the previous request. -/
theorem returns_serve (my : MySql) (parser : JsonParser) (now : ℤ) (api : PostApi)
    (body url : Bytes) (s : HttpState) (Q : ℤ → World → Prop) :
    Returns (api.serve my parser now ⟨.applicationJson, body, url⟩)
        (fun code s' => Q code s'.world) s
      ↔ api.Fits (parsedBody parser body s.req.clear) ∧ s.resp.isSubscriptable ∧
          Q 200 (api.effect my now (parsedBody parser body s.req.clear) s.world) := by
  unfold PostApi.serve
  rw [returns_bind, returns_modify]
  unfold HttpState.reset
  cases api with
  | add =>
    unfold PostApi.handler httpApiAdd
    simp only [returns_post, returns_bind, returns_reqField_getString, returns_reqField_json,
      returns_storage, returns_addJsonFiles, returns_respSet, Json.isSubscriptable_put,
      Json.isSubscriptable_clear, and_self_left, PostApi.Fits, PostApi.effect, upload, addRequest,
      Program.run_bind, Program.run_pure, and_assoc]
    -- `files` may be absent, so its access only asks for an object, which is there for `version`
    refine and_congr_right fun hversion => and_congr_right fun _ => ?_
    exact and_iff_right (isSubscriptable_of_member_isString _ hversion)
  | commentAdd =>
    simp [PostApi.handler, httpApiCommentAdd, PostApi.Fits, PostApi.effect, and_assoc]
  | commentHide =>
    simp [PostApi.handler, httpApiCommentHide, PostApi.Fits, PostApi.effect]
  | diff => simp [PostApi.handler, httpApiDiff, PostApi.Fits, PostApi.effect, and_assoc]
  | files => simp [PostApi.handler, httpApiFiles, PostApi.Fits, PostApi.effect, and_assoc]
  | groups => simp [PostApi.handler, httpApiGroups, PostApi.Fits, PostApi.effect]
  | groupsAll => simp [PostApi.handler, httpApiGroupsAll, PostApi.Fits, PostApi.effect]
  | versionsAll => simp [PostApi.handler, httpApiVersionsAll, PostApi.Fits, PostApi.effect]

end WebDiff
