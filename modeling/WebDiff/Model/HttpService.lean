import WebDiff.Model.HttpServer

/-!
# The HTTP service

`hv::HttpService`, which finds the handler of a request by its method and path, and the server
process around it. `AddApi` and `GetApi` are generic in the handlers. A registered path may have a
wildcard `*` or a field `/:name/` or `/{name}/`; the paths of `WebdiffHttpServer` have none.

The handlers of a process share the storage, and every connection has a request and a response of
its own, whose JSON is only emptied between two requests of the connection (`HttpProcess`). Nothing
catches an exception of a handler or of `dump`: the process ends, and a new one starts on the tables.
-/

namespace WebDiff

/-! ### `HttpService` -/

/-- `http_method`, with the numbers of the methods that no route and no branch asks for. -/
inductive HttpMethod
  | get | head | post
  | other (code : ℕ)
deriving DecidableEq, Repr

/-- The order in which a loop goes through an `std::unordered_map`. -/
structure HashOrder where
  order : {α : Type} → List α → List α
  order_perm : ∀ {α : Type} (xs : List α), (order xs).Perm xs

/-- The order of insertion. -/
def HashOrder.insertion : HashOrder where
  order xs := xs
  order_perm xs := List.Perm.refl xs

/-- The handlers of a path, by method. -/
abbrev MethodHandlers (H : Type) := List (HttpMethod × H)

/-- `HttpService::api_handlers`. -/
abbrev ApiHandlers (H : Type) := List (Bytes × MethodHandlers H)

section Service

variable {H : Type}

/-- The loop of `AddApi` over the methods of a path. -/
def addMethod (method : HttpMethod) (handler : H) : MethodHandlers H → MethodHandlers H
  | [] => [(method, handler)]
  | m :: rest =>
    if m.1 = method then (method, handler) :: rest else m :: addMethod method handler rest

/-- `HttpService::AddApi`. -/
def addApi (path : Bytes) (method : HttpMethod) (handler : H) : ApiHandlers H → ApiHandlers H
  | [] => [(path, [(method, handler)])]
  | p :: rest =>
    if p.1 = path then (path, addMethod method handler p.2) :: rest
    else p :: addApi path method handler rest

/-- `'*'` -/
def star : UInt8 := 42

/-- `':'` -/
def colon : UInt8 := 58

/-- `'{'` -/
def leftBrace : UInt8 := 123

/-- `'}'` -/
def rightBrace : UInt8 := 125

/-- The values of the fields of a registered path. -/
abbrev PathParams := List (Bytes × Bytes)

/-- `std::map::operator[]` followed by an assignment. -/
def PathParams.set (params : PathParams) (name value : Bytes) : PathParams :=
  (name, value) :: params.filter fun p => p.1 ≠ name

/-- The name of a field, `kp` being behind the `:` or the `{` that opens it. -/
def fieldName (opening : UInt8) (kp : Bytes) : Bytes :=
  let name := kp.takeWhile (· ≠ slash)
  if opening = leftBrace ∧ name.getLast? = some rightBrace then name.dropLast else name

/-- The loop of `GetApi` over the bytes of a registered path `kp` and of the path `vp` asked for,
with the number of rounds it may take: whether they match, and the fields found. -/
def matchApi : (rounds : ℕ) → (kp vp : Bytes) → PathParams → Option PathParams
  | 0, _, _, _ => none
  | _ + 1, [], [], params => some params
  | _ + 1, [], _ :: _, _ => none
  | _ + 1, _ :: _, [], _ => none
  | rounds + 1, k :: kp, v :: vp, params =>
    if k = star then
      if kp.isSuffixOf (v :: vp) then some params else none
    else if k ≠ v then none
    else
      match kp with
      | opening :: kp' =>
        if k = slash ∧ (opening = colon ∨ opening = leftBrace) then
          matchApi rounds (kp'.dropWhile (· ≠ slash)) (vp.dropWhile (· ≠ slash))
            (params.set (fieldName opening kp') (vp.takeWhile (· ≠ slash)))
        else matchApi rounds kp vp params
      | [] => matchApi rounds [] vp params

/-- The loop of `GetApi` over the registered paths. -/
def getApiLoop (path : Bytes) (method : HttpMethod) : ApiHandlers H → Option (H × PathParams)
  | [] => none
  | (key, methods) :: rest =>
    match matchApi (key.length + 1) key path [] with
    | none => getApiLoop path method rest
    | some params =>
      match methods.find? fun m => m.1 = method with
      | some m => some (m.2, params)
      | none => if params = [] then none else getApiLoop path method rest

/-- `'?'` -/
def questionMark : UInt8 := 63

/-- The path of a request without its query. `base_url` is empty. -/
def apiPath (path : Bytes) : Bytes :=
  (cString path).takeWhile (· ≠ questionMark)

/-- `HttpService::GetApi`, where `path` is `req->path`. -/
def getApi (hash : HashOrder) (apiHandlers : ApiHandlers H) (path : Bytes) (method : HttpMethod) :
    Option (H × PathParams) :=
  getApiLoop (apiPath path) method (hash.order apiHandlers)

/-- A call of `AddApi`. -/
structure Route (H : Type) where
  method : HttpMethod
  path : Bytes
  handler : H

/-- The handlers after a sequence of calls. -/
def ofRoutes (routes : List (Route H)) : ApiHandlers H :=
  routes.foldl (fun apiHandlers r => addApi r.path r.method r.handler apiHandlers) []

end Service

/-! ### The routes of `WebdiffHttpServer` -/

/-- The handlers `WebdiffHttpServer` registers. -/
inductive Api
  /-- `httpApiV1GetPaths` -/
  | paths
  /-- the handler of `GET /get` -/
  | echo
  | post (api : PostApi)
deriving DecidableEq, Repr

/-- The calls of the constructor. -/
def routes : List (Route Api) :=
  [⟨.get, lit "/api/", .paths⟩,
    ⟨.get, lit "/api/v1/", .paths⟩,
    ⟨.post, lit "/api/add/", .post .add⟩,
    ⟨.post, lit "/api/comment-add/", .post .commentAdd⟩,
    ⟨.post, lit "/api/comment-hide/", .post .commentHide⟩,
    ⟨.post, lit "/api/diff/", .post .diff⟩,
    ⟨.post, lit "/api/files/", .post .files⟩,
    ⟨.post, lit "/api/groups/", .post .groups⟩,
    ⟨.post, lit "/api/groups-all/", .post .groupsAll⟩,
    ⟨.post, lit "/api/versions-all/", .post .versionsAll⟩,
    ⟨.get, lit "/get", .echo⟩]

/-- A request as `HttpHandler` has parsed it. -/
structure ClientRequest extends HttpRequest where
  method : HttpMethod
  path : Bytes
  queryParams : List (Bytes × Bytes)
  headers : List (Bytes × Bytes)
  clientIp : Bytes
deriving DecidableEq, Repr

/-- The JSON of a map of strings. -/
def Json.ofStrings (strings : List (Bytes × Bytes)) : Json :=
  strings.foldl (fun j s => j.put s.1 (.string s.2)) (.object [])

/-- The handler of `GET /get`. The fields of the path are query parameters as well. -/
def httpGet (req : ClientRequest) (params : PathParams) : Handler ℤ := do
  respSet (lit "origin") (.string req.clientIp)
  respSet (lit "url") (.string req.url)
  respSet (lit "args") (Json.ofStrings (req.queryParams ++ params))
  respSet (lit "headers") (Json.ofStrings req.headers)
  return 200

variable (my : MySql) (parser : JsonParser) (hash : HashOrder)

def Api.handler (now : ℤ) (req : ClientRequest) (params : PathParams) : Api → Handler ℤ
  | .paths => httpApiV1GetPaths ((hash.order (ofRoutes routes)).map Prod.fst)
  | .echo => httpGet req params
  | .post api => api.handler my parser now req.toHttpRequest

/-! ### `HttpHandler` -/

/-- What the client gets: the JSON a handler left in the response, or something the service makes
without looking at it, a file or a page with the status. -/
inductive Answer
  | json (status : ℤ) (body : Json)
  | page

/-- `HandleHttpRequest`, with the reset in front of it and the `dump` of the response behind it.
Behind an error status the body is the status page. -/
def handleHttpRequest (now : ℤ) (req : ClientRequest) : Handler Answer := do
  modify HttpState.reset
  match getApi hash (ofRoutes routes) req.path req.method with
  | none => return .page
  | some (api, params) =>
    let status ← api.handler my parser hash now req params
    if status ≥ 400 then
      return .page
    else do
      let s ← get
      let body ← liftExcept s.resp.dump
      return .json status body

/-! ### The process -/

/-- The server process with its connections. -/
structure HttpProcess (C : Type) where
  world : World
  req : C → Json
  resp : C → Json

/-- A process that has just started, or any process as far as new connections go. -/
def HttpProcess.start {C : Type} (w : World) : HttpProcess C :=
  ⟨w, fun _ => .null, fun _ => .null⟩

/-- What can happen to it. The time of a request is the value `NOW()` has in its statement. -/
inductive HttpInput (C : Type)
  | request (c : C) (now : ℤ) (req : ClientRequest)
  | close (c : C)
  | restart

namespace HttpProcess

variable {C : Type} [DecidableEq C]

/-- What a handler works on when the request comes over the connection `c`. -/
def handlerState (p : HttpProcess C) (c : C) : HttpState :=
  ⟨p.world, p.req c, p.resp c⟩

/-- The process behind a handler that returned. -/
def commit (p : HttpProcess C) (c : C) (s : HttpState) : HttpProcess C :=
  ⟨s.world, Function.update p.req c s.req, Function.update p.resp c s.resp⟩

/-- One input, with the answer if there is one. -/
def step (p : HttpProcess C) : HttpInput C → Option Answer × HttpProcess C
  | .request c now req =>
    match handleHttpRequest my parser hash now req (p.handlerState c) with
    | .ok answer s => (some answer, p.commit c s)
    | .error _ s => (none, .start (s.world.restart my))
  | .close c => (none, p.commit c ⟨p.world, .null, .null⟩)
  | .restart => (none, .start (p.world.restart my))

/-- A sequence of inputs. -/
def after (inputs : List (HttpInput C)) : HttpProcess C :=
  inputs.foldl (fun p i => (p.step my parser hash i).2) (.start World.empty)

end HttpProcess

end WebDiff
