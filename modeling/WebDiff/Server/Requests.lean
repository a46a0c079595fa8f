import WebDiff.Framework.Ending
import WebDiff.Server.Http
import WebDiff.Server.Routes
import WebDiff.Storage.Restart
import WebDiff.Storage.History

/-!
# The server as a whole

What the tables hold after any HTTP traffic: well-formed and malformed requests, over any number of
connections that are kept alive, with exceptions that end the process and restarts in between. A
request comes to the events it is well-formed for (`ClientRequest.events`): an upload with a
malformed file is the upload of the files in front of it, and a request whose version, group or
comment is missing comes to nothing. `tables_after` says that the tables are those of these events,
so nothing else about the traffic is left in them.
-/

namespace WebDiff

open EStateM Program

/-! ### The events of a request -/

instance : DecidablePred FileFits := fun _ =>
  inferInstanceAs (Decidable (_ ∧ _ ∧ _ ∧ _ ∧ _ ∧ _))

/-- The files in front of the first one that does not fit. -/
def acceptedFiles : Json → List FileInfo
  | .array items => (items.takeWhile fun item => decide (FileFits item)).map jsonFileInfo
  | _ => []

theorem acceptedFiles_cons {item : Json} (h : FileFits item) (rest : List Json) :
    acceptedFiles (.array (item :: rest)) = jsonFileInfo item :: acceptedFiles (.array rest) := by
  simp [acceptedFiles, h]

theorem acceptedFiles_cons_of_not {item : Json} (h : ¬ FileFits item) (rest : List Json) :
    acceptedFiles (.array (item :: rest)) = [] := by
  simp [acceptedFiles, h]

/-- What a handler has the storage do when the body is `j`, up to the place where it throws. -/
def PostApi.events (now : ℤ) (j : Json) : PostApi → List Event
  | .add =>
    if (j.member (lit "version")).isString ∧ (j.member (lit "group")).isString then
      [.upload ⟨(j.member (lit "version")).text, (j.member (lit "group")).text,
        acceptedFiles (j.member (lit "files"))⟩]
    else []
  | .commentAdd =>
    if (j.member (lit "define_file_id")).fitsInt ∧ (j.member (lit "comment")).isString then
      [.addComment (j.member (lit "define_file_id")).toInt (j.member (lit "comment")).text now]
    else []
  | .commentHide =>
    if (j.member (lit "comment_id")).fitsInt then
      [.hideComment (j.member (lit "comment_id")).toInt]
    else []
  | _ => []

/-- The events of a request to a handler, where the connection has `json` in its request. -/
def Api.events (parser : JsonParser) (now : ℤ) (req : ClientRequest) (json : Json) :
    Api → List Event
  | .post api =>
    if req.contentType = .applicationJson then api.events now (parsedBody parser req.body json)
    else []
  | _ => []

/-- The events of a request. The body alone decides, and nothing that an earlier request on the
connection has left. -/
def ClientRequest.events (parser : JsonParser) (now : ℤ) (req : ClientRequest) : List Event :=
  match req.api with
  | some api => api.events parser now req .null
  | none => []

def HttpInput.events {C : Type} (parser : JsonParser) : HttpInput C → List Event
  | .request _ now req => req.events parser now
  | .close _ => []
  | .restart => []

/-- The storage after a sequence of events. -/
def World.after (my : MySql) (events : List Event) (w : World) : World :=
  events.foldl (fun w e => (run (World.step my) e.program w).2) w

theorem World.after_upload (my : MySql) (req : AddRequest) (w : World) :
    World.after my [.upload req] w = (run (World.step my) (upload req) w).2 := by
  simp only [World.after, List.foldl_cons, List.foldl_nil, Event.program, Program.run_bind,
    Program.run_pure]

theorem World.after_concat (my : MySql) (events : List Event) (e : Event) (w : World) :
    World.after my (events ++ [e]) w
      = (run (World.step my) e.program (World.after my events w)).2 := by
  unfold World.after
  rw [List.foldl_append]
  rfl

/-! ### One request -/

section Request

variable {my : MySql} {parser : JsonParser} {hash : HashOrder}

/-- The program ends, in either way, in the world `w'`. -/
abbrev EndsIn {α : Type} (p : Handler α) (w' : World) (s : HttpState) : Prop :=
  Ends p (fun _ s' => s'.world = w') (fun s' => s'.world = w') s

/-- A program that keeps the world may follow. -/
theorem EndsIn.bind {α β : Type} {p : Handler α} {f : α → Handler β} {w' : World} {s : HttpState}
    (hp : EndsIn p w' s) (hf : ∀ a, Keeps HttpState.world (f a)) : EndsIn (p >>= f) w' s := by
  show Ends _ _ _ _
  rw [ends_bind]
  apply Ends.mono hp
  · intro a s' hs'
    apply (hf a s').mono
    · exact fun _ _ h => h.trans hs'
    · exact fun _ h => h.trans hs'
  · exact fun _ h => h

theorem keeps_reqField {α : Type} (convert : Json → Except JsonException α) (key : Bytes) :
    Keeps HttpState.world (reqField convert key) :=
  keeps_get.bind fun _ => keeps_liftExcept _

theorem keeps_respSet (key : Bytes) (v : Json) : Keeps HttpState.world (respSet key v) :=
  keeps_get.bind fun _ => (keeps_liftExcept _).bind fun _ => keeps_modify fun _ => rfl

theorem keeps_respSetIn (key key' : Bytes) (v : Json) :
    Keeps HttpState.world (respSetIn key key' v) :=
  keeps_get.bind fun _ => (keeps_liftExcept _).bind fun _ => (keeps_liftExcept _).bind fun _ =>
    keeps_respSet _ _

theorem keeps_query {α : Type} (f : World → α) : Keeps HttpState.world (query f) :=
  keeps_get.bind fun _ => keeps_pure _

theorem keeps_respSetByContentType (key : Bytes) (v : Json) :
    Keeps HttpState.world (respSetByContentType key v) :=
  keeps_get.bind fun _ => Keeps.ite (keeps_respSet _ _) (keeps_pure _)

theorem keeps_responseStatus (code : ℤ) (message : Bytes) :
    Keeps HttpState.world (responseStatus code message) :=
  (keeps_respSetByContentType _ _).bind fun _ => (keeps_respSetByContentType _ _).bind fun _ =>
    keeps_pure _

/-- A field is read, or the program throws. -/
theorem ends_reqField {α : Type} {convert : Json → Except JsonException α} {ok : Json → Bool}
    {val : Json → α} (h : Json.Converts convert ok val) {key : Bytes} {Q : α → HttpState → Prop}
    {E : HttpState → Prop} {s : HttpState} :
    Ends (reqField convert key) Q E s
      ↔ if ok (s.req.member key) then Q (val (s.req.member key)) s else E s := by
  unfold reqField
  rw [ends_bind, ends_get]
  exact ends_liftExcept_of_eq (h.field_eq s.req key)

/-- A field that is not converted. -/
theorem ends_reqField_json {key : Bytes} {Q : Json → HttpState → Prop} {E : HttpState → Prop}
    {s : HttpState} :
    Ends (reqField Except.ok key) Q E s
      ↔ if s.req.isSubscriptable then Q (s.req.member key) s else E s := by
  unfold reqField
  rw [ends_bind, ends_get]
  have hfield : s.req.field Except.ok key =
      if s.req.isSubscriptable then .ok (s.req.member key) else .error (.typeError 305) := by
    unfold Json.field
    rw [Json.subscript_eq]
    split <;> rfl
  exact ends_liftExcept_of_eq hfield

@[simp] theorem ends_storage {α : Type} {p : Storage α} {Q : α → HttpState → Prop}
    {E : HttpState → Prop} {s : HttpState} :
    Ends (storage my p) Q E s
      ↔ Q (run (World.step my) p s.world).1
          { s with world := (run (World.step my) p s.world).2 } := Iff.rfl

theorem readFile_eq (j : Json) :
    ∃ e, readFile j = if FileFits j then .ok (jsonFileInfo j) else .error e := by
  by_cases hj : FileFits j
  · -- where the fields fit, `readFile` returns
    have hreturns := (returns_readFile (s := ⟨World.empty, .null, .null⟩)
      (Q := fun file _ => file = jsonFileInfo j)).mpr ⟨hj, rfl⟩
    cases hread : readFile j with
    | ok file =>
      rw [hread] at hreturns
      obtain rfl : file = jsonFileInfo j := hreturns
      exact ⟨.parseError, (if_pos hj).symm⟩
    | error e =>
      rw [hread] at hreturns
      exact hreturns.elim
  · have hthrows : ¬ Returns (liftExcept (readFile j) : Handler FileInfo) (fun _ _ => True)
        ⟨World.empty, .null, .null⟩ := fun h => hj (returns_readFile.mp h).1
    cases hread : readFile j with
    | ok file =>
      rw [hread] at hthrows
      exact (hthrows trivial).elim
    | error e => exact ⟨e, (if_neg hj).symm⟩

/-- From any index on, the loop stores the files in front of the first one that does not fit. -/
theorem endsIn_addJsonFiles_array {v g : ℤ} (items : List Json) (i rounds : ℕ)
    (hrounds : i + rounds = items.length) (s : HttpState) :
    EndsIn (addJsonFiles my v g (.array items) i rounds)
      (run (World.step my)
        (addFiles v g (acceptedFiles (.array (items.drop i)))) s.world).2 s := by
  induction rounds generalizing i s with
  | zero =>
    rw [List.drop_eq_nil_of_le (by omega)]
    rfl
  | succ rounds ih =>
    have hi : i < items.length := by omega
    have hat : (Json.array items).atIndex i = .ok items[i] := by
      simp only [Json.atIndex, List.getElem?_eq_getElem hi]
    obtain ⟨e, hread⟩ := readFile_eq items[i]
    rw [addJsonFiles, hat, List.drop_eq_getElem_cons hi]
    show Ends _ _ _ _
    rw [ends_bind, ends_liftExcept_ok, ends_bind, ends_liftExcept_of_eq hread]
    by_cases hfits : FileFits items[i]
    · rw [if_pos hfits, ends_bind, ends_storage, acceptedFiles_cons hfits, run_addFiles_cons]
      exact ih (i + 1) (by omega) _
    · rw [if_neg hfits, acceptedFiles_cons_of_not hfits]
      rfl

theorem endsIn_addJsonFiles {v g : ℤ} (jsonFiles : Json) (s : HttpState) :
    EndsIn (addJsonFiles my v g jsonFiles 0 jsonFiles.size)
      (run (World.step my) (addFiles v g (acceptedFiles jsonFiles)) s.world).2 s := by
  cases jsonFiles with
  | array items => exact endsIn_addJsonFiles_array items 0 items.length (Nat.zero_add _) s
  | object members =>
    cases members with
    | nil => rfl
    | cons m rest => rfl
  | _ => rfl

theorem endsIn_add {version group : Bytes} (jsonFiles : Json) (s : HttpState)
    (answer : ModelVersion → ModelGroup → Handler Unit)
    (hanswer : ∀ ver gr, Keeps HttpState.world (answer ver gr)) :
    EndsIn (do
        let ver ← storage my (findVersionOrCreate version)
        let gr ← storage my (findGroupOrCreate group)
        addJsonFiles my ver.id gr.id jsonFiles 0 jsonFiles.size
        answer ver gr)
      (run (World.step my) (upload ⟨version, group, acceptedFiles jsonFiles⟩) s.world).2 s := by
  show Ends _ _ _ _
  rw [ends_bind, ends_storage, ends_bind, ends_storage]
  simp only [upload, Program.run_bind, Program.run_pure]
  exact (endsIn_addJsonFiles jsonFiles _).bind fun _ => hanswer _ _

theorem endsIn_post {answer : Handler Unit} {req : HttpRequest} {w' : World} {s : HttpState}
    (hreq : req.contentType = .applicationJson)
    (h : EndsIn answer w' { s with req := parsedBody parser req.body s.req }) :
    EndsIn (post parser answer req) w' s := by
  unfold post parseBody
  rw [if_neg (fun hne => hne hreq)]
  show Ends _ _ _ _
  rw [ends_bind, ends_modify, ends_bind]
  exact h

/-- **One handler.** However it ends, it leaves the storage as the events of the request do. -/
theorem endsIn_handler (now : ℤ) (api : PostApi) (req : HttpRequest) (s : HttpState)
    (hreq : req.contentType = .applicationJson) :
    EndsIn (api.handler my parser now req)
      (World.after my (api.events now (parsedBody parser req.body s.req)) s.world) s := by
  cases api with
  | add =>
    apply endsIn_post hreq
    show Ends _ _ _ _
    generalize parsedBody parser req.body s.req = j
    rw [ends_bind, ends_reqField Json.converts_getString]
    simp only [PostApi.events]
    by_cases hversion : (j.member (lit "version")).isString
    · rw [if_pos hversion, ends_bind, ends_reqField Json.converts_getString]
      by_cases hgroup : (j.member (lit "group")).isString
      · rw [if_pos hgroup, ends_bind, ends_reqField_json,
          if_pos (isSubscriptable_of_member_isString j hversion), if_pos ⟨hversion, hgroup⟩]
        rw [World.after_upload]
        exact endsIn_add _ _ (fun ver gr => do
            respSet (lit "jsonrpc") (.string (lit "2.0"))
            respSet (lit "version") ver.toJson
            respSet (lit "group") gr.toJson
            respSet (lit "url") (.string req.url))
          fun _ _ => (keeps_respSet _ _).bind fun _ => (keeps_respSet _ _).bind fun _ =>
            (keeps_respSet _ _).bind fun _ => keeps_respSet _ _
      · rw [if_neg hgroup, if_neg fun h => hgroup h.2]
        rfl
    · rw [if_neg hversion, if_neg fun h => hversion h.1]
      rfl
  | commentAdd =>
    apply endsIn_post hreq
    show Ends _ _ _ _
    generalize parsedBody parser req.body s.req = j
    rw [ends_bind, ends_reqField Json.converts_getInt]
    simp only [PostApi.events]
    by_cases hid : (j.member (lit "define_file_id")).fitsInt
    · rw [if_pos hid, ends_bind, ends_reqField Json.converts_getString]
      by_cases hcomment : (j.member (lit "comment")).isString
      · rw [if_pos hcomment, if_pos ⟨hid, hcomment⟩, ends_bind, ends_storage]
        exact ((keeps_respSet _ _).bind fun _ => (keeps_respSet _ _).bind fun _ =>
          keeps_respSet _ _) _
      · rw [if_neg hcomment, if_neg fun h => hcomment h.2]
        rfl
    · rw [if_neg hid, if_neg fun h => hid h.1]
      rfl
  | commentHide =>
    apply endsIn_post hreq
    show Ends _ _ _ _
    generalize parsedBody parser req.body s.req = j
    rw [ends_bind, ends_reqField Json.converts_getInt]
    simp only [PostApi.events]
    by_cases hid : (j.member (lit "comment_id")).fitsInt
    · rw [if_pos hid, if_pos hid, ends_bind, ends_storage]
      exact ((keeps_respSet _ _).bind fun _ => (keeps_respSet _ _).bind fun _ =>
        keeps_respSet _ _) _
    · rw [if_neg hid, if_neg hid]
      rfl
  -- the other handlers only read
  | diff =>
    apply endsIn_post hreq
    exact ((keeps_reqField _ _).bind fun _ => (keeps_reqField _ _).bind fun _ =>
      (keeps_query _).bind fun _ => (keeps_respSet _ _).bind fun _ =>
      (keeps_respSet _ _).bind fun _ => (keeps_query _).bind fun _ =>
      (keeps_respSetIn _ _ _).bind fun _ => (keeps_query _).bind fun _ =>
      (keeps_respSetIn _ _ _).bind fun _ => keeps_respSet _ _) _
  | files =>
    apply endsIn_post hreq
    exact ((keeps_reqField _ _).bind fun _ => (keeps_reqField _ _).bind fun _ =>
      (keeps_reqField _ _).bind fun _ => (keeps_query _).bind fun _ =>
      (keeps_respSet _ _).bind fun _ => (keeps_respSetIn _ _ _).bind fun _ =>
      keeps_respSet _ _) _
  | groups =>
    apply endsIn_post hreq
    exact ((keeps_reqField _ _).bind fun _ => (keeps_query _).bind fun _ =>
      (keeps_respSet _ _).bind fun _ => (keeps_respSetIn _ _ _).bind fun _ =>
      keeps_respSet _ _) _
  | groupsAll =>
    apply endsIn_post hreq
    exact ((keeps_query _).bind fun _ => (keeps_respSet _ _).bind fun _ =>
      keeps_respSetIn _ _ _) _
  | versionsAll =>
    apply endsIn_post hreq
    exact ((keeps_query _).bind fun _ => (keeps_respSet _ _).bind fun _ =>
      keeps_respSetIn _ _ _) _

theorem keeps_handler (now : ℤ) (api : PostApi) {req : HttpRequest}
    (hreq : req.contentType ≠ .applicationJson) :
    Keeps HttpState.world (api.handler my parser now req) := by
  have hpost : ∀ answer, Keeps HttpState.world (post parser answer req) := by
    intro answer
    unfold post
    rw [if_pos hreq]
    exact keeps_responseStatus _ _
  cases api <;> exact hpost _

theorem keeps_httpGet (req : ClientRequest) (params : PathParams) :
    Keeps HttpState.world (httpGet req params) :=
  (keeps_respSet _ _).bind fun _ => (keeps_respSet _ _).bind fun _ =>
    (keeps_respSet _ _).bind fun _ => (keeps_respSet _ _).bind fun _ => keeps_pure _

/-- What was left of an earlier request on the connection cannot be told from nothing. -/
theorem member_parsedBody (body : Bytes) (j : Json) (key : Bytes) :
    (parsedBody parser body j.clear).member key = (parsedBody parser body .null).member key := by
  have hclear : j.clear.member key = Json.null.member key := by
    rw [Json.member_clear]
    rfl
  unfold parsedBody
  by_cases hbody : body = []
  · rw [if_pos hbody, if_pos hbody]
    exact hclear
  · rw [if_neg hbody, if_neg hbody]
    cases parser.parse (cString body) with
    | none => exact hclear
    | some j' => rfl

theorem PostApi.events_congr (now : ℤ) (api : PostApi) {j j' : Json}
    (h : ∀ key, j.member key = j'.member key) : api.events now j = api.events now j' := by
  cases api <;> simp only [PostApi.events, h]

theorem Api.events_clear (now : ℤ) (api : Api) (req : ClientRequest) (j : Json) :
    api.events parser now req j.clear = api.events parser now req .null := by
  cases api with
  | post api =>
    simp only [Api.events]
    rw [api.events_congr now (member_parsedBody req.body j)]
  | _ => rfl

variable (my parser hash) in
theorem endsIn_api (now : ℤ) (api : Api) (req : ClientRequest) (params : PathParams)
    (s : HttpState) :
    EndsIn (api.handler my parser hash now req params)
      (World.after my (api.events parser now req s.req) s.world) s := by
  cases api with
  | paths => exact rfl
  | echo => exact keeps_httpGet req params s
  | post api =>
    unfold Api.events
    by_cases hreq : req.contentType = .applicationJson
    · simp only [if_pos hreq]
      exact endsIn_handler now api req.toHttpRequest s hreq
    · simp only [if_neg hreq]
      exact keeps_handler now api hreq s

variable (my parser hash) in
/-- **One request**, on any connection, and however it ends. -/
theorem world_handleHttpRequest (now : ℤ) (req : ClientRequest) (s : HttpState) :
    (final (handleHttpRequest my parser hash now req) s).world
      = World.after my (req.events parser now) s.world := by
  refine final_of_ends
    (P := fun s' : HttpState => s'.world = World.after my (req.events parser now) s.world) ?_
  unfold handleHttpRequest
  rw [ends_bind, ends_modify, getApi_routes]
  unfold ClientRequest.events
  cases req.api with
  | none => rfl
  | some api =>
    -- behind the handler only the response is looked at
    have hrest : ∀ status : ℤ, Keeps HttpState.world
        (if status ≥ 400 then return .page
          else do
            let s ← get
            let body ← liftExcept s.resp.dump
            return .json status body : Handler Answer) :=
      fun _ => Keeps.ite (keeps_pure _) (keeps_get.bind fun _ =>
        (keeps_liftExcept _).bind fun _ => keeps_pure _)
    have hhandler := endsIn_api my parser hash now api req [] s.reset
    have hevents : api.events parser now req s.reset.req = api.events parser now req .null :=
      Api.events_clear now api req s.req
    rw [hevents] at hhandler
    exact hhandler.bind hrest

end Request

/-! ### Runs -/

/-- The tables after an event are those of the event on the tables, and the caches stay in step. -/
theorem restartable_event (my : MySql) {w : World} (h : Restartable w) (e : Event)
    (hreq : ∀ req, e = .upload req → req.NulFree) :
    (run (World.step my) e.program w).2.db = (run (Database.step my) e.program w.db).2 ∧
      Restartable (run (World.step my) e.program w).2 := by
  have hagree : Agrees my e.program w := agree_event h.synced e
  refine ⟨hagree.related.db_eq, hagree.related.synced, ?_⟩
  rw [hagree.related.db_eq]
  cases e with
  | upload req =>
    simp only [Event.program, Program.run_bind, Program.run_pure]
    exact run_of_uses (Database.step my) (nulFree_step (hreq req rfl)) (uses_upload req) h.nulFree
  | addComment defineFileId comment now => exact { h.nulFree with }
  | hideComment commentId => exact { h.nulFree with }

theorem restartable_after (my : MySql) {w w' : World} (h : Restartable w) (h' : Restartable w')
    (hdb : w.db = w'.db) (events : List Event)
    (hreq : ∀ req ∈ uploads events, req.NulFree) :
    (World.after my events w).db = (World.after my events w').db ∧
      Restartable (World.after my events w) ∧ Restartable (World.after my events w') := by
  induction events using List.reverseRecOn with
  | nil => exact ⟨hdb, h, h'⟩
  | append_singleton events e ih =>
    have huploads : uploads (events ++ [e]) = uploads events ++ uploads [e] :=
      List.filterMap_append
    rw [huploads] at hreq
    obtain ⟨hold, hw, hw'⟩ := ih fun req hr => hreq req (List.mem_append_left _ hr)
    have he : ∀ req, e = .upload req → req.NulFree := by
      intro req he
      subst he
      exact hreq req (List.mem_append_right _ List.mem_cons_self)
    obtain ⟨hone, hres⟩ := restartable_event my hw e he
    obtain ⟨hone', hres'⟩ := restartable_event my hw' e he
    rw [World.after_concat, World.after_concat, hone, hone', hold]
    exact ⟨rfl, hres, hres'⟩

section Process

variable (my : MySql) (parser : JsonParser) (hash : HashOrder) {C : Type} [DecidableEq C]

/-- The world behind an input, on the same tables as the events leave. -/
theorem HttpProcess.step_world (p : HttpProcess C) (i : HttpInput C) :
    (p.step my parser hash i).2.world = World.after my (i.events parser) p.world ∨
      (p.step my parser hash i).2.world
        = (World.after my (i.events parser) p.world).restart my := by
  cases i with
  | request c now req =>
    have hworld := world_handleHttpRequest my parser hash now req (p.handlerState c)
    simp only [HttpProcess.step]
    cases hrun : handleHttpRequest my parser hash now req (p.handlerState c) with
    | ok answer s =>
      unfold final at hworld
      rw [hrun] at hworld
      exact Or.inl hworld
    | error e s =>
      unfold final at hworld
      rw [hrun] at hworld
      exact Or.inr (congrArg (World.restart my) hworld)
  | close c => exact Or.inl rfl
  | restart => exact Or.inr rfl

theorem HttpProcess.after_concat (inputs : List (HttpInput C)) (i : HttpInput C) :
    HttpProcess.after my parser hash (inputs ++ [i])
      = ((HttpProcess.after my parser hash inputs).step my parser hash i).2 := by
  unfold HttpProcess.after
  rw [List.foldl_append]
  rfl

/-- The process keeps up with the events of the traffic: the tables are those of the events, and the
caches are in step with them. -/
theorem restartable_inputs (inputs : List (HttpInput C))
    (h : ∀ req ∈ uploads (inputs.flatMap (HttpInput.events parser)), req.NulFree) :
    (HttpProcess.after my parser hash inputs).world.db
        = (afterEvents my (inputs.flatMap (HttpInput.events parser))).db ∧
      Restartable (HttpProcess.after my parser hash inputs).world ∧
      Restartable (afterEvents my (inputs.flatMap (HttpInput.events parser))) := by
  induction inputs using List.reverseRecOn with
  | nil => exact ⟨rfl, ⟨Synced.empty, NulFree.empty⟩, ⟨Synced.empty, NulFree.empty⟩⟩
  | append_singleton inputs i ih =>
    have hevents : (inputs ++ [i]).flatMap (HttpInput.events parser)
        = inputs.flatMap (HttpInput.events parser) ++ i.events parser := by
      rw [List.flatMap_append, List.flatMap_singleton]
    rw [hevents] at h ⊢
    have huploads : uploads (inputs.flatMap (HttpInput.events parser) ++ i.events parser)
        = uploads (inputs.flatMap (HttpInput.events parser)) ++ uploads (i.events parser) :=
      List.filterMap_append
    rw [huploads] at h
    obtain ⟨hdb, hp, hw⟩ := ih fun req hr => h req (List.mem_append_left _ hr)
    obtain ⟨hdb', hp', hw'⟩ := restartable_after my hp hw hdb (i.events parser)
      fun req hr => h req (List.mem_append_right _ hr)
    have hspec : afterEvents my (inputs.flatMap (HttpInput.events parser) ++ i.events parser)
        = World.after my (i.events parser)
            (afterEvents my (inputs.flatMap (HttpInput.events parser))) :=
      List.foldl_append
    rw [HttpProcess.after_concat, hspec]
    rcases (HttpProcess.after my parser hash inputs).step_world my parser hash i with heq | heq
    · rw [heq]
      exact ⟨hdb', hp', hw'⟩
    · rw [heq]
      exact ⟨hdb', hp'.restart my, hw'⟩

end Process

/-- The text of an upload whose second file is malformed. -/
def halfUploadText : Bytes :=
  lit ("\x7b\"version\":\"1.0\",\"group\":\"core\",\"files\":[" ++
    "\x7b\"path\":\"lib/a\",\"size\":1,\"compress_size\":1,\"mode\":\"\"," ++
    "\"is_dir\":false,\"dt\":\"\"\x7d,\x7b\x7d]\x7d")

/-- The value of this text. -/
def halfUpload : Json :=
  .object [(lit "files", .array [.object [(lit "compress_size", .numberUnsigned 1),
      (lit "dt", .string (lit "")), (lit "is_dir", .boolean false), (lit "mode", .string (lit "")),
      (lit "path", .string (lit "lib/a")), (lit "size", .numberUnsigned 1)], .object []]),
    (lit "group", .string (lit "core")), (lit "version", .string (lit "1.0"))]

/-- A parser that knows this text only. -/
def halfParser : JsonParser where
  parse text := if text = halfUploadText then some halfUpload else none
  parse_utf8 text j h := by
    split at h
    · cases h
      decide +kernel
    · cases h

/-- The half-malformed upload, sent twice over one connection, and a request for the paths. -/
def halfTraffic : List (HttpInput Unit) :=
  let request (method : HttpMethod) (path : Bytes) (body : Bytes) : HttpInput Unit :=
    .request () 0 ⟨⟨.applicationJson, body, path⟩, method, path, [], [], []⟩
  [request .post (lit "/api/add/") halfUploadText, request .get (lit "/api/") [],
    request .post (lit "/api/add/?x") halfUploadText]

end WebDiff
