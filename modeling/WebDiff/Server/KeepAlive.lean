import WebDiff.Server.Exceptions
import WebDiff.Server.Requests

/-!
# Connections that are kept alive

The request and the response of a connection outlive the single request, and only their JSON is
emptied in between. What a handler leaves in the response is nevertheless a function of the body and
of the storage (`PostApi.response`), and `returns_serve_response` says so for every state of the
connection. It follows that a client cannot tell a connection that is kept alive from a new one,
with one exception: once `GET /api/` has made the response an array, a handler that fills in an
object throws (`answer_keepAlive`).
-/

namespace WebDiff

open EStateM Program

/-! ### What the handlers answer -/

/-- What a handler leaves in the response when the body is `j`. -/
def PostApi.response (my : MySql) (now : ℤ) (j : Json) (url : Bytes) (w : World) : PostApi → Json
  | .add =>
    let found := (run (World.step my) (upload (addRequest j)) w).1
    Json.null
      |>.put (lit "jsonrpc") (.string (lit "2.0"))
      |>.put (lit "version") found.1.toJson
      |>.put (lit "group") found.2.toJson
      |>.put (lit "url") (.string url)
  | .commentAdd =>
    let comment := (run (World.step my)
      (addComment (j.member (lit "define_file_id")).toInt (j.member (lit "comment")).text now) w).1
    Json.null
      |>.put (lit "jsonrpc") (.string (lit "2.0"))
      |>.put (lit "result") comment.toJson
      |>.put (lit "url") (.string url)
  | .commentHide =>
    Json.null
      |>.put (lit "jsonrpc") (.string (lit "2.0"))
      |>.put (lit "result") (.boolean true)
      |>.put (lit "url") (.string url)
  | .diff =>
    let left := (j.member (lit "left_version_id")).toInt
    let right := (j.member (lit "right_version_id")).toInt
    Json.null
      |>.put (lit "jsonrpc") (.string (lit "2.0"))
      |>.put (lit "result") (getDiff my w.db left right).toJson
      |>.putIn (lit "result") (lit "left_version") (w.caches.getVersionInfo left).toJson
      |>.putIn (lit "result") (lit "right_version") (w.caches.getVersionInfo right).toJson
      |>.put (lit "url") (.string url)
  | .files =>
    let files := getFiles my w.db (j.member (lit "version_id")).toInt
      (j.member (lit "group_id")).toInt (j.member (lit "parent_id")).toInt
    Json.null
      |>.put (lit "jsonrpc") (.string (lit "2.0"))
      |>.putIn (lit "result") (lit "list") (.array (files.map ModelFile.toJson))
      |>.put (lit "url") (.string url)
  | .groups =>
    let groups := getGroups my w.db (j.member (lit "version_id")).toInt
    Json.null
      |>.put (lit "jsonrpc") (.string (lit "2.0"))
      |>.putIn (lit "result") (lit "list") (.array (groups.map ModelGroupForVersion.toJson))
      |>.put (lit "url") (.string url)
  | .groupsAll =>
    Json.null
      |>.put (lit "jsonrpc") (.string (lit "2.0"))
      |>.putIn (lit "result") (lit "list") (.array (w.caches.getGroupsAll.map ModelGroup.toJson))
  | .versionsAll =>
    Json.null
      |>.put (lit "jsonrpc") (.string (lit "2.0"))
      |>.putIn (lit "result") (lit "list")
        (.array (w.caches.getVersionsAll.map ModelVersion.toJson))

/-- An emptied object is as good as a new value. -/
theorem put_clear {j : Json} (hj : j.isSubscriptable) (key : Bytes) (v : Json) :
    j.clear.put key v = Json.null.put key v := by
  cases j with
  | null => rfl
  | object members => rfl
  | _ => cases hj

/-- **When a handler returns, and what it answers.** -/
theorem returns_serve_response (my : MySql) (parser : JsonParser) (now : ℤ) (api : PostApi)
    (body url : Bytes) (s : HttpState) (Q : ℤ → HttpState → Prop) :
    Returns (api.handler my parser now ⟨.applicationJson, body, url⟩) Q s.reset
      ↔ api.Fits (parsedBody parser body s.req.clear) ∧ s.resp.isSubscriptable ∧
          Q 200 ⟨api.effect my now (parsedBody parser body s.req.clear) s.world,
            parsedBody parser body s.req.clear,
            api.response my now (parsedBody parser body s.req.clear) url s.world⟩ := by
  by_cases hresp : s.resp.isSubscriptable
  · have hput := put_clear hresp (lit "jsonrpc") (.string (lit "2.0"))
    have hresult : ((Json.null.put (lit "jsonrpc") (.string (lit "2.0"))).member
        (lit "result")).isSubscriptable := isSubscriptable_result .null _
    unfold HttpState.reset
    cases api with
    | add =>
      unfold PostApi.handler httpApiAdd
      simp only [returns_post, returns_bind, returns_reqField_getString, returns_reqField_json,
        returns_storage, returns_addJsonFiles, returns_respSet, Json.isSubscriptable_put,
        Json.isSubscriptable_clear, and_self_left, PostApi.Fits, PostApi.effect, upload, addRequest,
        Program.run_bind, Program.run_pure, and_assoc, PostApi.response, hput]
      refine and_congr_right fun hversion => and_congr_right fun _ => ?_
      exact and_iff_right (isSubscriptable_of_member_isString _ hversion)
    | commentAdd =>
      simp [PostApi.handler, httpApiCommentAdd, PostApi.Fits, PostApi.effect, and_assoc,
        PostApi.response, hput, hresp]
    | commentHide =>
      simp [PostApi.handler, httpApiCommentHide, PostApi.Fits, PostApi.effect, PostApi.response,
        hput, hresp]
    | diff =>
      simp [PostApi.handler, httpApiDiff, PostApi.Fits, PostApi.effect, and_assoc,
        PostApi.response, hput, hresp]
    | files =>
      simp [PostApi.handler, httpApiFiles, PostApi.Fits, PostApi.effect, and_assoc,
        PostApi.response, hput, hresp, hresult]
    | groups =>
      simp [PostApi.handler, httpApiGroups, PostApi.Fits, PostApi.effect, PostApi.response, hput,
        hresp, hresult]
    | groupsAll =>
      simp [PostApi.handler, httpApiGroupsAll, PostApi.Fits, PostApi.effect, PostApi.response,
        hput, hresp, hresult]
    | versionsAll =>
      simp [PostApi.handler, httpApiVersionsAll, PostApi.Fits, PostApi.effect, PostApi.response,
        hput, hresp, hresult]
  -- into anything but an object no handler writes
  · constructor
    · intro h
      obtain ⟨code, s', hok, -⟩ := returns_iff.mp h
      have hserve : Returns (api.serve my parser now ⟨.applicationJson, body, url⟩)
          (fun code s' => (fun _ _ => True) code s'.world) s := by
        unfold PostApi.serve
        rw [returns_bind, returns_modify]
        exact returns_true_iff.mpr ⟨code, s', hok⟩
      exact absurd ((returns_serve my parser now api body url s fun _ _ => True).mp hserve).2.1
        hresp
    · intro h
      exact absurd h.2.1 hresp

/-- The response depends on the fields of the body only. -/
theorem PostApi.response_congr (my : MySql) (now : ℤ) (api : PostApi) {j j' : Json}
    (h : ∀ key, j.member key = j'.member key) (url : Bytes) (w : World) :
    api.response my now j url w = api.response my now j' url w := by
  cases api <;> simp only [PostApi.response, addRequest, h]

theorem PostApi.isSubscriptable_response (my : MySql) (now : ℤ) (api : PostApi) (j : Json)
    (url : Bytes) (w : World) : (api.response my now j url w).isSubscriptable := by
  cases api <;> simp only [PostApi.response, Json.isSubscriptable_put, isSubscriptable_putIn] <;> rfl

/-! ### One request on two connections -/

/-- What the response of a connection can hold: nothing, an object, or the paths of the service. -/
def Json.isContainer : Json → Bool
  | null => true
  | object _ => true
  | array _ => true
  | _ => false

theorem Json.isSubscriptable_iff_of_isContainer {j : Json} (h : j.isContainer) :
    j.isSubscriptable ↔ ¬ j.isArray := by
  cases j with
  | null => decide
  | object members => exact iff_of_true rfl Bool.false_ne_true
  | array items => exact iff_of_false Bool.false_ne_true fun hne => hne rfl
  | _ => cases h

/-- The handler fills in an object. -/
def Api.fillsObject (contentType : ContentType) : Api → Bool
  | .paths => false
  | .echo => true
  | .post _ => contentType = .applicationJson

def ClientRequest.fillsObject (req : ClientRequest) : Bool :=
  match req.api with
  | some api => api.fillsObject req.contentType
  | none => false

/-- A new connection to the same server. -/
def HttpState.fresh (s : HttpState) : HttpState :=
  ⟨s.world, .null, .null⟩

section Connections

variable (my : MySql) (parser : JsonParser) (hash : HashOrder)

theorem returns_httpGet (req : ClientRequest) (params : PathParams) (s : HttpState)
    (Q : ℤ → HttpState → Prop) :
    Returns (httpGet req params) Q s.reset
      ↔ s.resp.isSubscriptable ∧ Q 200 ⟨s.world, s.req.clear,
          Json.null
            |>.put (lit "origin") (.string req.clientIp)
            |>.put (lit "url") (.string req.url)
            |>.put (lit "args") (Json.ofStrings (req.queryParams ++ params))
            |>.put (lit "headers") (Json.ofStrings req.headers)⟩ := by
  unfold httpGet HttpState.reset
  simp only [returns_bind, returns_respSet, returns_pure, Json.isSubscriptable_put,
    Json.isSubscriptable_clear, and_self_left]
  refine and_congr_right fun hresp => ?_
  rw [put_clear hresp]

/-- The status of a request without JSON. -/
theorem returns_responseStatus {code : ℤ} {message : Bytes} {s : HttpState}
    (hresp : s.resp.isContainer) (Q : ℤ → HttpState → Prop) :
    Returns (responseStatus code message) Q s.reset ↔ Q code s.reset := by
  have hsize : s.reset.resp.size = 0 := by
    show s.resp.clear.size = 0
    cases hj : s.resp with
    | null => rfl
    | object members => rfl
    | array items => rfl
    | _ =>
      rw [hj] at hresp
      cases hresp
  have hskip : ∀ key v (P : Unit → HttpState → Prop),
      Returns (respSetByContentType key v) P s.reset ↔ P () s.reset := by
    intro key v P
    unfold respSetByContentType
    rw [returns_bind, returns_get, if_neg (fun h => h hsize)]
    exact Iff.rfl
  unfold responseStatus
  rw [returns_bind, hskip, returns_bind, hskip]
  exact Iff.rfl

/-- **One handler on two connections.** Behind an error status the response does not count. -/
theorem returns_api (now : ℤ) (api : Api) (req : ClientRequest) (s : HttpState)
    (hresp : s.resp.isContainer) {P : ℤ → Json → Prop}
    (hP : ∀ code ≥ 400, ∀ j j', P code j ↔ P code j') :
    Returns (api.handler my parser hash now req []) (fun code s' => P code s'.resp) s.reset
      ↔ ¬ (s.resp.isArray ∧ api.fillsObject req.contentType) ∧
          Returns (api.handler my parser hash now req []) (fun code s' => P code s'.resp)
            s.fresh.reset := by
  have hobject := Json.isSubscriptable_iff_of_isContainer hresp
  have hfresh : s.fresh.resp.isSubscriptable := rfl
  cases api with
  | paths => exact (and_iff_right fun h => Bool.false_ne_true h.2).symm
  | echo =>
    show Returns (httpGet req []) _ _ ↔ _ ∧ Returns (httpGet req []) _ _
    rw [returns_httpGet, returns_httpGet, hobject]
    simp only [Api.fillsObject, and_true, hfresh, true_and]
  | post api =>
    obtain ⟨⟨contentType, body, url⟩, method, path, queryParams, headers, clientIp⟩ := req
    cases contentType with
    | applicationJson =>
      show Returns (api.handler my parser now _) _ _ ↔
        _ ∧ Returns (api.handler my parser now _) _ _
      rw [returns_serve_response, returns_serve_response, fits_parsedBody, fits_parsedBody, hobject,
        api.response_congr my now (member_parsedBody body s.req),
        api.response_congr my now (member_parsedBody body s.fresh.req)]
      simp only [Api.fillsObject, decide_true, and_true, hfresh, true_and]
      exact and_left_comm
    | other =>
      have hstatus : ∀ s' : HttpState, s'.resp.isContainer →
          (Returns (api.handler my parser now ⟨.other, body, url⟩) (fun code s' => P code s'.resp)
            s'.reset ↔ P 400 s'.reset.resp) := by
        intro s' hs'
        cases api <;> exact returns_responseStatus hs' _
      show Returns (api.handler my parser now _) _ _ ↔
        _ ∧ Returns (api.handler my parser now _) _ _
      rw [hstatus s hresp, hstatus s.fresh rfl, hP 400 (le_refl _) s.reset.resp s.fresh.reset.resp]
      simp [Api.fillsObject]

omit my parser hash in
/-- Behind the handler the answer is made of the status and the response. -/
theorem returns_dump (status : ℤ) (s : HttpState) (Q : Answer → HttpState → Prop) :
    Returns (if status ≥ 400 then return .page
        else do
          let s ← get
          let body ← liftExcept s.resp.dump
          return .json status body : Handler Answer) Q s
      ↔ if status ≥ 400 then Q .page s
        else s.resp.textUtf8 ∧ Q (.json status s.resp) s := by
  have heq : s.resp.dump = if s.resp.textUtf8 then .ok s.resp else .error (.typeError 316) := rfl
  rw [returns_ite, returns_bind, returns_get, returns_bind, returns_liftExcept_of_eq heq]
  exact Iff.rfl

/-- **One request on two connections.** -/
theorem value_handleHttpRequest (now : ℤ) (req : ClientRequest) (s : HttpState)
    (hresp : s.resp.isContainer) :
    value (handleHttpRequest my parser hash now req) s
      = if s.resp.isArray ∧ req.fillsObject then none
        else value (handleHttpRequest my parser hash now req) s.fresh := by
  have hreturns : ∀ P : Answer → Prop,
      Returns (handleHttpRequest my parser hash now req) (fun a _ => P a) s
        ↔ ¬ (s.resp.isArray ∧ req.fillsObject) ∧
            Returns (handleHttpRequest my parser hash now req) (fun a _ => P a) s.fresh := by
    intro P
    unfold handleHttpRequest
    rw [returns_bind, returns_modify, returns_bind, returns_modify, getApi_routes]
    unfold ClientRequest.fillsObject
    cases req.api with
    | none => exact (and_iff_right fun h => Bool.false_ne_true h.2).symm
    | some api =>
      simp only [Option.map_some, returns_bind, returns_dump]
      refine returns_api my parser hash now api req s hresp (P := fun status j =>
        if status ≥ 400 then P .page else j.textUtf8 ∧ P (.json status j)) ?_
      intro code hcode j j'
      rw [if_pos hcode, if_pos hcode]
  have hvalue := value_eq_of_returns hreturns
  rw [hvalue, ite_not]

theorem isContainer_of_isSubscriptable {j : Json} (h : j.isSubscriptable) :
    j.isContainer ∧ ¬ j.isArray := by
  cases j with
  | null => exact ⟨rfl, Bool.false_ne_true⟩
  | object members => exact ⟨rfl, Bool.false_ne_true⟩
  | _ => cases h

/-- What a handler that returns leaves in the response: an array only if there was one, or if it is
the handler that lists the paths. -/
theorem isContainer_api (now : ℤ) (api : Api) (req : ClientRequest) (s : HttpState)
    (hresp : s.resp.isContainer) {code : ℤ} {s' : HttpState}
    (h : api.handler my parser hash now req [] s.reset = .ok code s') :
    s'.resp.isContainer ∧ (s'.resp.isArray → s.resp.isArray ∨ api = .paths) := by
  have hreturns : Returns (api.handler my parser hash now req []) (fun _ s'' => s'' = s') s.reset :=
    returns_iff.mpr ⟨code, s', h, rfl⟩
  cases api with
  | paths =>
    cases hreturns
    exact ⟨rfl, fun _ => Or.inr rfl⟩
  | echo =>
    obtain ⟨-, rfl⟩ := (returns_httpGet req [] s _).mp hreturns
    have hput := isContainer_of_isSubscriptable (j := Json.null
            |>.put (lit "origin") (.string req.clientIp)
            |>.put (lit "url") (.string req.url)
            |>.put (lit "args") (Json.ofStrings (req.queryParams ++ []))
            |>.put (lit "headers") (Json.ofStrings req.headers)) (by
      simp only [Json.isSubscriptable_put]
      rfl)
    exact ⟨hput.1, fun harray => absurd harray hput.2⟩
  | post api =>
    obtain ⟨⟨contentType, body, url⟩, method, path, queryParams, headers, clientIp⟩ := req
    cases contentType with
    | applicationJson =>
      obtain ⟨-, -, rfl⟩ := (returns_serve_response my parser now api body url s _).mp hreturns
      have hobject := isContainer_of_isSubscriptable (api.isSubscriptable_response my now
        (parsedBody parser body s.req.clear) url s.world)
      exact ⟨hobject.1, fun harray => absurd harray hobject.2⟩
    | other =>
      have hstatus : Returns (responseStatus 400 (lit "Bad Request")) (fun _ s'' => s'' = s')
          s.reset := by
        cases api <;> exact hreturns
      obtain rfl := (returns_responseStatus hresp _).mp hstatus
      show s.resp.clear.isContainer ∧ (s.resp.clear.isArray → _)
      cases hj : s.resp with
      | null => exact ⟨rfl, fun harray => absurd harray Bool.false_ne_true⟩
      | object members => exact ⟨rfl, fun harray => absurd harray Bool.false_ne_true⟩
      | array items => exact ⟨rfl, fun _ => Or.inl rfl⟩
      | _ =>
        rw [hj] at hresp
        cases hresp

theorem isContainer_clear (j : Json) :
    j.clear.isContainer = j.isContainer ∧ j.clear.isArray = j.isArray := by
  cases j <;> exact ⟨rfl, rfl⟩

theorem isContainer_handleHttpRequest (now : ℤ) (req : ClientRequest) (s : HttpState)
    (hresp : s.resp.isContainer) {answer : Answer} {s' : HttpState}
    (h : handleHttpRequest my parser hash now req s = .ok answer s') :
    s'.resp.isContainer ∧ (s'.resp.isArray → s.resp.isArray ∨ req.api = some .paths) := by
  have hreturns : Returns (handleHttpRequest my parser hash now req) (fun _ s'' => s'' = s') s :=
    returns_iff.mpr ⟨answer, s', h, rfl⟩
  unfold handleHttpRequest at hreturns
  rw [returns_bind, returns_modify, getApi_routes] at hreturns
  cases hroute : req.api with
  | none =>
    rw [hroute] at hreturns
    obtain rfl : s.reset = s' := hreturns
    obtain ⟨hcontainer, harray⟩ := isContainer_clear s.resp
    exact ⟨hcontainer.trans hresp, fun h => Or.inl (harray.symm.trans h)⟩
  | some api =>
    rw [hroute] at hreturns
    simp only [Option.map_some, returns_bind, returns_dump] at hreturns
    obtain ⟨code, s₁, hok, hs₁⟩ := returns_iff.mp hreturns
    obtain rfl : s₁ = s' := by
      split at hs₁
      · exact hs₁
      · exact hs₁.2
    obtain ⟨hcontainer, harray⟩ := isContainer_api my parser hash now api req s hresp hok
    exact ⟨hcontainer, fun h => (harray h).imp_right (congrArg some)⟩

end Connections

/-! ### Runs -/

/-- A request for the paths over the connection. -/
def HttpInput.AsksForPaths {C : Type} (c : C) : HttpInput C → Prop
  | .request c' _ req => c' = c ∧ req.api = some .paths
  | .close _ => False
  | .restart => False

section Process

variable (my : MySql) (parser : JsonParser) (hash : HashOrder) {C : Type} [DecidableEq C]

/-- A step keeps the responses containers, and makes one an array only for the paths. -/
theorem HttpProcess.isContainer_step (p : HttpProcess C) (i : HttpInput C)
    (h : ∀ c, (p.resp c).isContainer) (c : C) :
    ((p.step my parser hash i).2.resp c).isContainer ∧
      (((p.step my parser hash i).2.resp c).isArray → (p.resp c).isArray ∨ i.AsksForPaths c) := by
  have hnull : Json.null.isContainer ∧ (Json.null.isArray → (p.resp c).isArray ∨ i.AsksForPaths c) :=
    ⟨rfl, fun harray => absurd harray Bool.false_ne_true⟩
  have hold : (p.resp c).isContainer ∧
      ((p.resp c).isArray → (p.resp c).isArray ∨ i.AsksForPaths c) := ⟨h c, Or.inl⟩
  cases i with
  | request c' now req =>
    simp only [HttpProcess.step]
    cases hrun : handleHttpRequest my parser hash now req (p.handlerState c') with
    | error e s => exact hnull
    | ok answer s =>
      show (Function.update p.resp c' s.resp c).isContainer ∧
        ((Function.update p.resp c' s.resp c).isArray → _)
      by_cases hc : c = c'
      · subst hc
        rw [Function.update_self]
        obtain ⟨hcontainer, harray⟩ := isContainer_handleHttpRequest my parser hash now req
          (p.handlerState c) (h c) hrun
        exact ⟨hcontainer, fun hs => (harray hs).imp_right fun hapi => ⟨rfl, hapi⟩⟩
      · rw [Function.update_of_ne hc]
        exact hold
  | close c' =>
    show (Function.update p.resp c' Json.null c).isContainer ∧
      ((Function.update p.resp c' Json.null c).isArray → _)
    by_cases hc : c = c'
    · subst hc
      rw [Function.update_self]
      exact hnull
    · rw [Function.update_of_ne hc]
      exact hold
  | restart => exact hnull

theorem isContainer_after (inputs : List (HttpInput C)) (c : C) :
    ((HttpProcess.after my parser hash inputs).resp c).isContainer ∧
      (((HttpProcess.after my parser hash inputs).resp c).isArray →
        ∃ i ∈ inputs, i.AsksForPaths c) := by
  induction inputs using List.reverseRecOn generalizing c with
  | nil => exact ⟨rfl, fun h => absurd h Bool.false_ne_true⟩
  | append_singleton inputs i ih =>
    rw [HttpProcess.after_concat]
    obtain ⟨hcontainer, harray⟩ := (HttpProcess.after my parser hash inputs).isContainer_step my
      parser hash i (fun c => (ih c).1) c
    refine ⟨hcontainer, fun h => ?_⟩
    rcases harray h with hold | hasks
    · obtain ⟨i', hi', hasks⟩ := (ih c).2 hold
      exact ⟨i', List.mem_append_left _ hi', hasks⟩
    · exact ⟨i, List.mem_append_right _ (List.mem_singleton.mpr rfl), hasks⟩

end Process

end WebDiff
