import WebDiff.Model.Answers

/-!
# The HTTP handlers

The handlers of `WebdiffHttpServer` that `POST` requests go to, in the words of the source. A
handler reads `req->json`, calls the storage, and writes `resp->json`; any of the accesses to the
two JSON values may throw (`Handler`).

One `HttpRequest` and one `HttpResponse` serve all requests of a connection. `HttpHandler` resets
them in front of every request, but `json.clear()` keeps the type of the value, so a handler starts
with what the previous request and response left: `PostApi.serve`.
-/

namespace WebDiff

open Program (run)

inductive ContentType
  | applicationJson
  | other
deriving DecidableEq, Repr

/-- A request, as far as a handler reads it. -/
structure HttpRequest where
  contentType : ContentType
  body : Bytes
  url : Bytes
deriving DecidableEq, Repr

/-- What a handler works on: the storage, `req->json` and `resp->json`. -/
structure HttpState where
  world : World
  req : Json
  resp : Json

/-- Programs over this state that may throw. -/
abbrev Handler := EStateM JsonException HttpState

/-- `HttpMessage::Reset` of the request and of the response. -/
def HttpState.reset (s : HttpState) : HttpState :=
  { s with req := s.req.clear, resp := s.resp.clear }

/-! ### Primitives -/

/-- `T x = req->json[key]`, with the conversion to `T`. -/
def reqField {α : Type} (convert : Json → Except JsonException α) (key : Bytes) : Handler α := do
  let s ← get
  liftExcept (s.req.field convert key)

/-- `resp->json[key] = v`. -/
def respSet (key : Bytes) (v : Json) : Handler Unit := do
  let s ← get
  let resp ← liftExcept (s.resp.assign key v)
  modify fun s => { s with resp := resp }

/-- `resp->json[key][key'] = v`. -/
def respSetIn (key key' : Bytes) (v : Json) : Handler Unit := do
  let s ← get
  let inner ← liftExcept (s.resp.subscript key)
  let inner ← liftExcept (inner.assign key' v)
  respSet key inner

/-- A call of `MySqlStorage` that goes through its caches. -/
def storage (my : MySql) {α : Type} (p : Storage α) : Handler α :=
  modifyGet fun s => ((run (World.step my) p s.world).1,
    { s with world := (run (World.step my) p s.world).2 })

/-- A query. -/
def query {α : Type} (f : World → α) : Handler α := do
  let s ← get
  return f s.world

/-! ### `HttpMessage` -/

/-- `HttpMessage::Set` of a response that was just reset. It has no content type yet, and takes it
to be JSON if there is any. -/
def respSetByContentType (key : Bytes) (v : Json) : Handler Unit := do
  let s ← get
  if s.resp.size ≠ 0 then
    respSet key v

/-- `response_status`. -/
def responseStatus (code : ℤ) (message : Bytes) : Handler ℤ := do
  respSetByContentType (lit "code") (.numberInteger code)
  respSetByContentType (lit "message") (.string message)
  return code

variable (my : MySql) (parser : JsonParser)

/-- The value of `req->json` behind `ParseBody`, which was `json` in front of it. The body is parsed
as a C string. An empty body and one that does not parse leave the value as it was. -/
def parsedBody (body : Bytes) (json : Json) : Json :=
  if body = [] then json
  else (parser.parse (cString body)).getD json

/-- `HttpRequest::ParseBody`. None of the handlers looks at the code it returns. -/
def parseBody (body : Bytes) : Handler Unit :=
  modify fun s => { s with req := parsedBody parser body s.req }

/-! ### The handlers -/

/-- What all handlers begin and end with, around the `answer` of each. -/
def post (answer : Handler Unit) (req : HttpRequest) : Handler ℤ :=
  if req.contentType ≠ .applicationJson then
    responseStatus 400 (lit "Bad Request")
  else do
    parseBody parser req.body
    answer
    return 200

/-- The fields of an element of `files`. -/
def readFile (jsonFile : Json) : Except JsonException FileInfo := do
  let filePath ← jsonFile.field Json.getString (lit "path")
  let fileSize ← jsonFile.field Json.getInt (lit "size")
  let compressSize ← jsonFile.field Json.getInt (lit "compress_size")
  let mode ← jsonFile.field Json.getString (lit "mode")
  let isDir ← jsonFile.field Json.getBool (lit "is_dir")
  let dateTime ← jsonFile.field Json.getString (lit "dt")
  return ⟨filePath, fileSize, compressSize, mode, isDir, dateTime⟩

/-- The loop of `httpApiAdd`, from the index `i` on, with the number of rounds that are left. -/
def addJsonFiles (versionId groupId : ℤ) (jsonFiles : Json) : (i rounds : ℕ) → Handler Unit
  | _, 0 => return ()
  | i, rounds + 1 => do
    let jsonFile ← liftExcept (jsonFiles.atIndex i)
    let file ← liftExcept (readFile jsonFile)
    storage my (addFile versionId groupId file)
    addJsonFiles versionId groupId jsonFiles (i + 1) rounds

def httpApiAdd (req : HttpRequest) : Handler ℤ :=
  post parser (do
    let version ← reqField Json.getString (lit "version")
    let group ← reqField Json.getString (lit "group")
    let jsonFiles ← reqField Except.ok (lit "files")
    let ver ← storage my (findVersionOrCreate version)
    let gr ← storage my (findGroupOrCreate group)
    addJsonFiles my ver.id gr.id jsonFiles 0 jsonFiles.size
    respSet (lit "jsonrpc") (.string (lit "2.0"))
    respSet (lit "version") ver.toJson
    respSet (lit "group") gr.toJson
    respSet (lit "url") (.string req.url)) req

/-- `now` is the value of `NOW()` in the statement. -/
def httpApiCommentAdd (now : ℤ) (req : HttpRequest) : Handler ℤ :=
  post parser (do
    let defineFileId ← reqField Json.getInt (lit "define_file_id")
    let text ← reqField Json.getString (lit "comment")
    let comment ← storage my (addComment defineFileId text now)
    respSet (lit "jsonrpc") (.string (lit "2.0"))
    respSet (lit "result") comment.toJson
    respSet (lit "url") (.string req.url)) req

def httpApiCommentHide (req : HttpRequest) : Handler ℤ :=
  post parser (do
    let commentId ← reqField Json.getInt (lit "comment_id")
    storage my (hideComment commentId)
    respSet (lit "jsonrpc") (.string (lit "2.0"))
    respSet (lit "result") (.boolean true)
    respSet (lit "url") (.string req.url)) req

def httpApiDiff (req : HttpRequest) : Handler ℤ :=
  post parser (do
    let leftVersionId ← reqField Json.getInt (lit "left_version_id")
    let rightVersionId ← reqField Json.getInt (lit "right_version_id")
    let groups ← query fun w => getDiff my w.db leftVersionId rightVersionId
    respSet (lit "jsonrpc") (.string (lit "2.0"))
    respSet (lit "result") groups.toJson
    let left ← query fun w => w.caches.getVersionInfo leftVersionId
    respSetIn (lit "result") (lit "left_version") left.toJson
    let right ← query fun w => w.caches.getVersionInfo rightVersionId
    respSetIn (lit "result") (lit "right_version") right.toJson
    respSet (lit "url") (.string req.url)) req

def httpApiFiles (req : HttpRequest) : Handler ℤ :=
  post parser (do
    let versionId ← reqField Json.getInt (lit "version_id")
    let groupId ← reqField Json.getInt (lit "group_id")
    let parentId ← reqField Json.getInt (lit "parent_id")
    let files ← query fun w => getFiles my w.db versionId groupId parentId
    respSet (lit "jsonrpc") (.string (lit "2.0"))
    respSetIn (lit "result") (lit "list") (.array (files.map ModelFile.toJson))
    respSet (lit "url") (.string req.url)) req

def httpApiGroups (req : HttpRequest) : Handler ℤ :=
  post parser (do
    let versionId ← reqField Json.getInt (lit "version_id")
    let groups ← query fun w => getGroups my w.db versionId
    respSet (lit "jsonrpc") (.string (lit "2.0"))
    respSetIn (lit "result") (lit "list") (.array (groups.map ModelGroupForVersion.toJson))
    respSet (lit "url") (.string req.url)) req

def httpApiGroupsAll (req : HttpRequest) : Handler ℤ :=
  post parser (do
    let groups ← query fun w => w.caches.getGroupsAll
    respSet (lit "jsonrpc") (.string (lit "2.0"))
    respSetIn (lit "result") (lit "list") (.array (groups.map ModelGroup.toJson))) req

def httpApiVersionsAll (req : HttpRequest) : Handler ℤ :=
  post parser (do
    let versions ← query fun w => w.caches.getVersionsAll
    respSet (lit "jsonrpc") (.string (lit "2.0"))
    respSetIn (lit "result") (lit "list") (.array (versions.map ModelVersion.toJson))) req

/-- `httpApiV1GetPaths`, the handler of `GET /api/` and `GET /api/v1/`, with the paths of the
service. -/
def httpApiV1GetPaths (paths : List Bytes) : Handler ℤ := do
  modify fun s => { s with resp := .array (paths.map Json.string) }
  return 200

/-! ### Routes -/

/-- The handlers registered with `POST`. -/
inductive PostApi
  | add | commentAdd | commentHide | diff | files | groups | groupsAll | versionsAll
deriving DecidableEq, Repr

def PostApi.handler (now : ℤ) : PostApi → HttpRequest → Handler ℤ
  | .add => httpApiAdd my parser
  | .commentAdd => httpApiCommentAdd my parser now
  | .commentHide => httpApiCommentHide my parser
  | .diff => httpApiDiff my parser
  | .files => httpApiFiles my parser
  | .groups => httpApiGroups my parser
  | .groupsAll => httpApiGroupsAll parser
  | .versionsAll => httpApiVersionsAll parser

/-- `HttpHandler`: the reset, then the handler of the route. -/
def PostApi.serve (now : ℤ) (api : PostApi) (req : HttpRequest) : Handler ℤ := do
  modify HttpState.reset
  api.handler my parser now req

end WebDiff
