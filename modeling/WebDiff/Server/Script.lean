import WebDiff.Model.UploadScript
import WebDiff.Server.KeepAlive
import WebDiff.Server.WebSocket
import WebDiff.Storage.Contents

/-!
# The script and the server

The script cuts the entries of an archive into requests, and the server gets them one by one with
whatever other clients send in between, and may be restarted. Nevertheless the script gets to its end,
and then the tables have the contents they would have if every archive with an entry had been uploaded
at once (`script_uploads`).
-/

namespace WebDiff

open EStateM Program

/-! ### The requests of the script -/

/-- The entry, as the server stores it. -/
def ZipInfo.file (fi : ZipInfo) : FileInfo where
  filePath := removeFirstFolder fi.filename
  fileSize := (fi.fileSize : ℤ).bmod (2 ^ 32)
  compressSize := (fi.compressSize : ℤ).bmod (2 ^ 32)
  mode := fi.mode
  isDir := fi.isDir
  dateTime := fi.dt

/-- The upload of the whole archive. -/
def Archive.upload (a : Archive) : AddRequest :=
  ⟨a.version, a.group, a.infolist.map ZipInfo.file⟩

theorem getFileInfo_fits (fi : ZipInfo) :
    FileFits (getFileInfo fi) ∧ jsonFileInfo (getFileInfo fi) = fi.file := by
  have hpath : (getFileInfo fi).member (lit "path") = .string (removeFirstFolder fi.filename) := rfl
  have hsize : (getFileInfo fi).member (lit "size") = .numberUnsigned fi.fileSize := rfl
  have hmode : (getFileInfo fi).member (lit "mode") = .string fi.mode := rfl
  have hcompress : (getFileInfo fi).member (lit "compress_size")
      = .numberUnsigned fi.compressSize := rfl
  have hdir : (getFileInfo fi).member (lit "is_dir") = .boolean fi.isDir := rfl
  have hdt : (getFileInfo fi).member (lit "dt") = .string fi.dt := rfl
  constructor
  · unfold FileFits
    rw [hpath, hsize, hmode, hcompress, hdir, hdt]
    exact ⟨rfl, rfl, rfl, rfl, rfl, rfl⟩
  · unfold jsonFileInfo
    rw [hpath, hsize, hmode, hcompress, hdir, hdt]
    rfl

/-- The members of a request. -/
theorem member_dataRequest (group version : Bytes) (files : List Json) :
    (dataRequest group version files).member (lit "group") = .string group ∧
      (dataRequest group version files).member (lit "version") = .string version ∧
        (dataRequest group version files).member (lit "files") = .array files :=
  ⟨rfl, rfl, rfl⟩

/-- **The batches.** The requests for an archive are its entries in their order, cut into pieces that
are not empty and have at most 500 entries. -/
theorem dataRequests_eq (group version : Bytes) (regFiles : List ZipInfo) (files : List Json)
    (hfiles : files.length ≤ 499) :
    ∃ batches : List (List Json),
      dataRequests group version regFiles files = batches.map (dataRequest group version) ∧
        batches.flatten = files ++ regFiles.map getFileInfo ∧
          ∀ b ∈ batches, b ≠ [] ∧ b.length ≤ 500 := by
  induction regFiles generalizing files with
  | nil =>
    unfold dataRequests
    by_cases hpos : files.length > 0
    · rw [if_pos hpos]
      refine ⟨[files], rfl, ?_, fun b hb => ?_⟩
      · rw [List.flatten_singleton, List.map_nil, List.append_nil]
      · obtain rfl := List.mem_singleton.mp hb
        exact ⟨List.ne_nil_of_length_pos hpos, Nat.le_succ_of_le hfiles⟩
    · obtain rfl := List.eq_nil_of_length_eq_zero (Nat.eq_zero_of_not_pos hpos)
      exact ⟨[], rfl, rfl, fun _ hb => absurd hb List.not_mem_nil⟩
  | cons fi rest ih =>
    have hlen : (files ++ [getFileInfo fi]).length = files.length + 1 := List.length_append
    unfold dataRequests
    by_cases hfull : (files ++ [getFileInfo fi]).length > 499
    · obtain ⟨batches, heq, hflatten, hbatches⟩ := ih [] (Nat.zero_le _)
      rw [if_pos hfull, heq]
      refine ⟨(files ++ [getFileInfo fi]) :: batches, rfl, ?_, fun b hb => ?_⟩
      · rw [List.flatten_cons, hflatten, List.nil_append, List.append_assoc]
        rfl
      · rcases List.mem_cons.mp hb with rfl | hb
        · exact ⟨List.append_ne_nil_of_right_ne_nil _ (List.cons_ne_nil _ _), by omega⟩
        · exact hbatches b hb
    · obtain ⟨batches, heq, hflatten, hbatches⟩ :=
        ih (files ++ [getFileInfo fi]) (Nat.le_of_not_lt hfull)
      rw [if_neg hfull, heq]
      refine ⟨batches, rfl, ?_, hbatches⟩
      rw [hflatten, List.append_assoc]
      rfl

theorem mem_scriptRequests {archives : List Archive} {data : Json}
    (h : data ∈ scriptRequests archives) :
    ∃ group version files, data = dataRequest group version files ∧ ∀ f ∈ files, FileFits f := by
  obtain ⟨a, -, hdata⟩ := List.mem_flatMap.mp h
  obtain ⟨batches, heq, hflatten, -⟩ :=
    dataRequests_eq a.group a.version a.infolist [] (Nat.zero_le _)
  rw [heq] at hdata
  obtain ⟨b, hb, rfl⟩ := List.mem_map.mp hdata
  refine ⟨a.group, a.version, b, rfl, fun f hf => ?_⟩
  have hmem : f ∈ batches.flatten := List.mem_flatten.mpr ⟨b, hb, hf⟩
  rw [hflatten] at hmem
  obtain ⟨fi, -, rfl⟩ := List.mem_map.mp hmem
  exact (getFileInfo_fits fi).1

/-! ### One request -/

/-- `requests.post` sends the value to `/api/add/`, and the parser of the server reads it back. -/
structure Posts (parser : JsonParser) (post : Json → ClientRequest) (data : Json) : Prop where
  contentType : (post data).contentType = .applicationJson
  method : (post data).method = .post
  path : (post data).path = lit "/api/add/"
  url : isUtf8 (post data).url
  body : parsedBody parser (post data).body .null = data

section Request

variable {parser : JsonParser} {post : Json → ClientRequest} {group version : Bytes}
  {files : List Json}

theorem Posts.api {data : Json} (h : Posts parser post data) :
    (post data).api = some (.post .add) := by
  unfold ClientRequest.api
  rw [h.method, h.path]
  decide +kernel

/-- What was parsed is UTF-8. -/
theorem Posts.textUtf8 {data : Json} (h : Posts parser post data) : data.textUtf8 := by
  have hbody := h.body
  unfold parsedBody at hbody
  split at hbody
  · exact hbody ▸ rfl
  · cases hparse : parser.parse (cString (post data).body) with
    | none =>
      rw [hparse] at hbody
      exact hbody ▸ rfl
    | some j =>
      rw [hparse] at hbody
      obtain rfl : j = data := hbody
      exact parser.parse_utf8 _ _ hparse

/-- The request comes to one upload. -/
theorem Posts.events (h : Posts parser post (dataRequest group version files)) (now : ℤ)
    (hfiles : ∀ f ∈ files, FileFits f) :
    (post (dataRequest group version files)).events parser now
      = [.upload ⟨version, group, files.map jsonFileInfo⟩] := by
  obtain ⟨hgroup, hversion, hmember⟩ := member_dataRequest group version files
  have haccepted : acceptedFiles (.array files) = files.map jsonFileInfo := by
    show (files.takeWhile fun item => decide (FileFits item)).map jsonFileInfo = _
    rw [List.takeWhile_eq_self_iff.mpr fun f hf => decide_eq_true (hfiles f hf)]
  unfold ClientRequest.events
  rw [h.api]
  simp only [Api.events, h.contentType, if_true, h.body, PostApi.events, hgroup, hversion, hmember,
    haccepted]
  exact if_pos ⟨rfl, rfl⟩

/-- The names in the answer are those of the request. -/
theorem names_upload (my : MySql) (w : World) (req : AddRequest) :
    (run (World.step my) (upload req) w).1.1.name = req.version ∧
      (run (World.step my) (upload req) w).1.2.title = req.group := by
  have hversion : ∀ w, (run (World.step my) (findVersionOrCreate req.version) w).1.name
      = req.version := by
    intro w
    unfold findVersionOrCreate Op.perform
    simp only [Program.run_bind, run_perform, World.step]
    cases hfind : w.caches.versions.find? fun ver => ver.name = req.version with
    | none => rfl
    | some ver =>
      show ver.name = req.version
      simpa using List.find?_some hfind
  have hgroup : ∀ w, (run (World.step my) (findGroupOrCreate req.group) w).1.title
      = req.group := by
    intro w
    unfold findGroupOrCreate Op.perform
    simp only [Program.run_bind, run_perform, World.step]
    cases hfind : w.caches.groups.find? fun gr => gr.title = req.group with
    | none => rfl
    | some gr =>
      show gr.title = req.group
      simpa using List.find?_some hfind
  unfold upload
  simp only [Program.run_bind, Program.run_pure]
  exact ⟨hversion _, hgroup _⟩

theorem textUtf8_response_add (my : MySql) (now : ℤ) (j : Json) (url : Bytes) (w : World)
    (hurl : isUtf8 url) (hversion : isUtf8 (j.member (lit "version")).text)
    (hgroup : isUtf8 (j.member (lit "group")).text) :
    (PostApi.add.response my now j url w).textUtf8 := by
  obtain ⟨hname, htitle⟩ := names_upload my w (addRequest j)
  have hver : (run (World.step my) (upload (addRequest j)) w).1.1.toJson.textUtf8 :=
    Json.textUtf8_put (Json.textUtf8_put rfl (isUtf8_lit "version_id" (by decide)) rfl)
      (isUtf8_lit "name" (by decide)) (hname ▸ hversion)
  have hgr : (run (World.step my) (upload (addRequest j)) w).1.2.toJson.textUtf8 :=
    Json.textUtf8_put (Json.textUtf8_put rfl (isUtf8_lit "group_id" (by decide)) rfl)
      (isUtf8_lit "name" (by decide)) (htitle ▸ hgroup)
  have hstart : (Json.null.put (lit "jsonrpc") (.string (lit "2.0"))).textUtf8 := by decide +kernel
  exact Json.textUtf8_put (Json.textUtf8_put (Json.textUtf8_put hstart
    (isUtf8_lit "version" (by decide)) hver) (isUtf8_lit "group" (by decide)) hgr)
    (isUtf8_lit "url" (by decide)) hurl

variable (my : MySql) (hash : HashOrder) {C : Type} [DecidableEq C]

/-- **The answer** over a new connection. -/
theorem Posts.answer (h : Posts parser post (dataRequest group version files)) (now : ℤ)
    (hfiles : ∀ f ∈ files, FileFits f) {p : HttpProcess C} {c : C} (hreq : p.req c = .null)
    (hresp : p.resp c = .null) :
    ∃ body, (p.step my parser hash (.request c now (post (dataRequest group version files)))).1
      = some (.json 200 body) := by
  obtain ⟨hgroup, hversion, hmember⟩ := member_dataRequest group version files
  have hutf8 := h.textUtf8
  have hreturns : Returns (handleHttpRequest my parser hash now
      (post (dataRequest group version files))) (fun a _ => ∃ body, a = .json 200 body)
      (p.handlerState c) := by
    unfold handleHttpRequest
    rw [returns_bind, returns_modify, getApi_routes, h.api]
    simp only [Option.map_some, returns_bind, returns_dump]
    have hrequest : (post (dataRequest group version files)).toHttpRequest
        = ⟨.applicationJson, (post (dataRequest group version files)).body,
          (post (dataRequest group version files)).url⟩ := by
      rw [← h.contentType]
    show Returns (PostApi.handler my parser now .add _) _ (p.handlerState c).reset
    rw [hrequest, returns_serve_response]
    have hclear : (p.handlerState c).req.clear = .null := by
      show (p.req c).clear = .null
      rw [hreq]
      rfl
    rw [hclear, h.body]
    refine ⟨⟨?_, ?_, ?_⟩, ?_, ?_⟩
    · rw [hversion]
      rfl
    · rw [hgroup]
      rfl
    · rw [hmember]
      exact hfiles
    · show (p.resp c).isSubscriptable
      rw [hresp]
      rfl
    · rw [if_neg (by decide)]
      refine ⟨?_, _, rfl⟩
      apply textUtf8_response_add my now _ _ _ h.url
      · rw [hversion]
        exact isUtf8_text (hversion ▸ Json.textUtf8_member hutf8 (lit "version"))
      · rw [hgroup]
        exact isUtf8_text (hgroup ▸ Json.textUtf8_member hutf8 (lit "group"))
  obtain ⟨answer, s, hok, body, rfl⟩ := returns_iff.mp hreturns
  refine ⟨body, ?_⟩
  simp only [HttpProcess.step]
  rw [hok]

end Request

/-! ### The script among other clients -/

/-- The input leaves the connection alone. A restart ends it, and the next request opens it again. -/
def HttpInput.Avoids {C : Type} (c : C) : HttpInput C → Prop
  | .request c' _ _ => c' ≠ c
  | .close _ => True
  | .restart => True

section Process

variable (my : MySql) (parser : JsonParser) (hash : HashOrder) {C : Type} [DecidableEq C]

/-- Nothing has been sent over the connection. -/
structure HttpProcess.Fresh (p : HttpProcess C) (c : C) : Prop where
  req : p.req c = .null
  resp : p.resp c = .null

variable {p : HttpProcess C} {c : C}

theorem HttpProcess.Fresh.step (h : p.Fresh c) {i : HttpInput C} (hi : i.Avoids c) :
    (p.step my parser hash i).2.Fresh c := by
  cases i with
  | request c' now req =>
    have hne : c ≠ c' := Ne.symm hi
    simp only [HttpProcess.step]
    cases handleHttpRequest my parser hash now req (p.handlerState c') with
    | error e s => exact ⟨rfl, rfl⟩
    | ok answer s =>
      exact ⟨(Function.update_of_ne hne _ _).trans h.req, (Function.update_of_ne hne _ _).trans h.resp⟩
  | close c' =>
    by_cases hc : c = c'
    · subst hc
      exact ⟨Function.update_self _ _ _, Function.update_self _ _ _⟩
    · exact ⟨(Function.update_of_ne hc _ _).trans h.req, (Function.update_of_ne hc _ _).trans h.resp⟩
  | restart => exact ⟨rfl, rfl⟩

theorem HttpProcess.Fresh.run (h : p.Fresh c) {inputs : List (HttpInput C)}
    (hinputs : ∀ i ∈ inputs, i.Avoids c) : (p.run my parser hash inputs).Fresh c := by
  induction inputs generalizing p with
  | nil => exact h
  | cons i rest ih =>
    apply ih (h.step my parser hash (hinputs i List.mem_cons_self))
    exact fun i' hi' => hinputs i' (List.mem_cons_of_mem _ hi')

theorem HttpProcess.fresh_close (p : HttpProcess C) (c : C) :
    (p.step my parser hash (.close c)).2.Fresh c :=
  ⟨Function.update_self _ _ _, Function.update_self _ _ _⟩

theorem HttpProcess.run_append (p : HttpProcess C) (inputs inputs' : List (HttpInput C)) :
    p.run my parser hash (inputs ++ inputs')
      = (p.run my parser hash inputs).run my parser hash inputs' :=
  List.foldl_append

variable (post : Json → ClientRequest) (now : ℤ)

/-- **The script gets to its end**, if a new connection gets the right answer to each request. -/
theorem runScript_eq {others : ℕ → List (HttpInput C)} (hothers : ∀ n, ∀ i ∈ others n, i.Avoids c)
    {requests : List Json} (hp : p.Fresh c)
    (hanswer : ∀ data ∈ requests, ∀ p : HttpProcess C, p.Fresh c →
      ∃ body, (p.step my parser hash (.request c now (post data))).1 = some (.json 200 body)) :
    runScript my parser hash post c now p others requests
      = some (p.run my parser hash (scriptInputs post c now others requests)) := by
  induction requests generalizing p others with
  | nil => rfl
  | cons data rest ih =>
    obtain ⟨body, hbody⟩ := hanswer data List.mem_cons_self _ (hp.run my parser hash (hothers 0))
    generalize hq : p.run my parser hash (others 0) = q at hbody
    have hstep : q.step my parser hash (.request c now (post data))
        = (some (.json 200 body), (q.step my parser hash (.request c now (post data))).2) :=
      Prod.ext hbody rfl
    unfold runScript scriptInputs
    rw [hq, hstep, HttpProcess.run_append, hq]
    exact ih (fun n => hothers (n + 1)) (HttpProcess.fresh_close my parser hash _ c)
      fun data' hdata => hanswer data' (List.mem_cons_of_mem _ hdata)

omit [DecidableEq C] in
/-- The inputs are those of the others and the requests, each of which is followed by a `close`. -/
theorem exists_mem_scriptInputs {P : HttpInput C → Prop} (hclose : ¬ P (.close c))
    (others : ℕ → List (HttpInput C)) (requests : List Json) :
    (∃ i ∈ scriptInputs post c now others requests, P i) ↔
      (∃ n ≤ requests.length, ∃ i ∈ others n, P i) ∨
        ∃ data ∈ requests, P (.request c now (post data)) := by
  induction requests generalizing others with
  | nil =>
    show (∃ i ∈ others 0, P i) ↔ _
    simp only [List.length_nil, Nat.le_zero, exists_eq_left, List.not_mem_nil, false_and,
      exists_false, or_false]
  | cons data rest ih =>
    have hsplit : (∃ n ≤ rest.length + 1, ∃ i ∈ others n, P i) ↔
        (∃ i ∈ others 0, P i) ∨ ∃ n ≤ rest.length, ∃ i ∈ others (n + 1), P i := by
      constructor
      · intro h
        obtain ⟨n, hn, h⟩ := h
        cases n with
        | zero => exact Or.inl h
        | succ n => exact Or.inr ⟨n, Nat.le_of_succ_le_succ hn, h⟩
      · intro h
        cases h with
        | inl h => exact ⟨0, Nat.zero_le _, h⟩
        | inr h =>
          obtain ⟨n, hn, h⟩ := h
          exact ⟨n + 1, Nat.succ_le_succ hn, h⟩
    unfold scriptInputs
    simp only [List.mem_append, List.mem_cons, or_and_right, exists_or, exists_eq_left, ih,
      List.length_cons, hsplit, hclose, false_or]
    rw [or_or_or_comm, or_assoc]

end Process

/-! ### What the script leaves -/

theorem mem_uploads {req : AddRequest} {events : List Event} :
    req ∈ uploads events ↔ Event.upload req ∈ events := by
  unfold uploads
  rw [List.mem_filterMap]
  constructor
  · intro h
    obtain ⟨e, he, heq⟩ := h
    cases e with
    | upload req' => exact Option.some.inj heq ▸ he
    | addComment d comment now => cases heq
    | hideComment id => cases heq
  · exact fun h => ⟨_, h, rfl⟩

theorem mem_uploads_flatMap {C : Type} {parser : JsonParser} {req : AddRequest}
    {inputs : List (HttpInput C)} :
    req ∈ uploads (inputs.flatMap (HttpInput.events parser)) ↔
      ∃ i ∈ inputs, Event.upload req ∈ i.events parser := by
  rw [mem_uploads, List.mem_flatMap]

/-- The uploads that the batches of an archive are. -/
theorem Archive.exists_uploads (a : Archive) :
    ∃ reqs : List AddRequest,
      (∀ parser post now req, (∀ data ∈ dataRequests a.group a.version a.infolist [],
          Posts parser post data) →
        ((∃ data ∈ dataRequests a.group a.version a.infolist [],
            Event.upload req ∈ (post data).events parser now) ↔ req ∈ reqs)) ∧
      (∀ req ∈ reqs, req.version = a.version ∧ req.group = a.group) ∧
      reqs.flatMap AddRequest.files = a.upload.files ∧ (reqs = [] ↔ a.infolist = []) := by
  obtain ⟨batches, heq, hflatten, hbatches⟩ :=
    dataRequests_eq a.group a.version a.infolist [] (Nat.zero_le _)
  rw [List.nil_append] at hflatten
  have hfits : ∀ b ∈ batches, ∀ f ∈ b, FileFits f := by
    intro b hb f hf
    have hmem : f ∈ batches.flatten := List.mem_flatten.mpr ⟨b, hb, hf⟩
    rw [hflatten] at hmem
    obtain ⟨fi, -, rfl⟩ := List.mem_map.mp hmem
    exact (getFileInfo_fits fi).1
  refine ⟨batches.map fun b => ⟨a.version, a.group, b.map jsonFileInfo⟩, ?_, ?_, ?_, ?_⟩
  · intro parser post now req hposts
    rw [heq] at hposts ⊢
    have hevents : ∀ b ∈ batches, (post (dataRequest a.group a.version b)).events parser now
        = [.upload ⟨a.version, a.group, b.map jsonFileInfo⟩] :=
      fun b hb => (hposts _ (List.mem_map_of_mem hb)).events now (hfits b hb)
    constructor
    · intro h
      obtain ⟨data, hdata, hupload⟩ := h
      obtain ⟨b, hb, rfl⟩ := List.mem_map.mp hdata
      rw [hevents b hb, List.mem_singleton] at hupload
      exact List.mem_map.mpr ⟨b, hb, (Event.upload.inj hupload).symm⟩
    · intro h
      obtain ⟨b, hb, rfl⟩ := List.mem_map.mp h
      exact ⟨_, List.mem_map_of_mem hb, by rw [hevents b hb]; exact List.mem_cons_self⟩
  · intro req hreq
    obtain ⟨b, -, rfl⟩ := List.mem_map.mp hreq
    exact ⟨rfl, rfl⟩
  · have hfiles : a.infolist.map ZipInfo.file
        = (a.infolist.map getFileInfo).map jsonFileInfo := by
      rw [List.map_map]
      exact List.map_congr_left fun fi _ => (getFileInfo_fits fi).2.symm
    show _ = a.infolist.map ZipInfo.file
    rw [hfiles, ← hflatten, List.map_flatten, List.flatMap_map]
    rfl
  · rw [List.map_eq_nil_iff]
    constructor
    · intro hnil
      rw [hnil] at hflatten
      exact List.map_eq_nil_iff.mp hflatten.symm
    · intro hnil
      rw [hnil] at hflatten
      by_contra hne
      obtain ⟨b, hb⟩ := List.exists_mem_of_ne_nil _ hne
      exact (hbatches b hb).1 (List.flatten_eq_nil_iff.mp hflatten b hb)

section Process

variable (my : MySql) (parser : JsonParser) (hash : HashOrder) {C : Type} [DecidableEq C]
  (post : Json → ClientRequest) (c : C) (now : ℤ)

/-- The uploads of the others while the script posts `n` requests. -/
def otherUploads (others : ℕ → List (HttpInput C)) (n : ℕ) : List AddRequest :=
  uploads (((List.range (n + 1)).flatMap others).flatMap (HttpInput.events parser))

variable {archives : List Archive} {others : ℕ → List (HttpInput C)}

omit [DecidableEq C] in
theorem mem_otherUploads {n : ℕ} {req : AddRequest} :
    req ∈ otherUploads parser others n ↔
      ∃ m ≤ n, ∃ i ∈ others m, Event.upload req ∈ i.events parser := by
  unfold otherUploads
  rw [mem_uploads_flatMap]
  simp only [List.mem_flatMap, List.mem_range, Nat.lt_succ_iff]
  constructor
  · intro h
    obtain ⟨i, ⟨m, hm, hi⟩, hupload⟩ := h
    exact ⟨m, hm, i, hi, hupload⟩
  · intro h
    obtain ⟨m, hm, i, hi, hupload⟩ := h
    exact ⟨i, ⟨m, hm, hi⟩, hupload⟩

variable (others) in
omit [DecidableEq C] in
/-- The uploads while the script runs: those of the others, and one for every batch. -/
theorem exists_script_uploads (hposts : ∀ data ∈ scriptRequests archives, Posts parser post data) :
    ∃ reqsOf : Archive → List AddRequest,
      (∀ req, req ∈ uploads ((scriptInputs post c now others (scriptRequests archives)).flatMap
          (HttpInput.events parser)) ↔
        req ∈ otherUploads parser others (scriptRequests archives).length ∨
          ∃ a ∈ archives, req ∈ reqsOf a) ∧
      ∀ a, (∀ req ∈ reqsOf a, req.version = a.version ∧ req.group = a.group) ∧
        (reqsOf a).flatMap AddRequest.files = a.upload.files ∧ (reqsOf a = [] ↔ a.infolist = []) := by
  choose reqsOf hevents hnames hfiles hnil using Archive.exists_uploads
  refine ⟨reqsOf, fun req => ?_, fun a => ⟨hnames a, hfiles a, hnil a⟩⟩
  rw [mem_uploads_flatMap, exists_mem_scriptInputs post now (c := c)
    (P := fun i => Event.upload req ∈ i.events parser) List.not_mem_nil, mem_otherUploads]
  apply or_congr Iff.rfl
  have hposts' : ∀ a ∈ archives, ∀ data ∈ dataRequests a.group a.version a.infolist [],
      Posts parser post data :=
    fun a ha data hdata => hposts data (List.mem_flatMap.mpr ⟨a, ha, hdata⟩)
  unfold scriptRequests
  constructor
  · intro h
    obtain ⟨data, hdata, hupload⟩ := h
    obtain ⟨a, ha, hdata⟩ := List.mem_flatMap.mp hdata
    exact ⟨a, ha, (hevents a parser post now req (hposts' a ha)).mp ⟨data, hdata, hupload⟩⟩
  · intro h
    obtain ⟨a, ha, hreq⟩ := h
    obtain ⟨data, hdata, hupload⟩ := (hevents a parser post now req (hposts' a ha)).mpr hreq
    exact ⟨data, List.mem_flatMap.mpr ⟨a, ha, hdata⟩, hupload⟩

end Process

/-- An archive with one entry. -/
def smallArchive : Archive where
  group := lit "core"
  version := lit "1.0"
  infolist := [⟨lit "top/lib/a", 3, 2, lit "-rw-r--r--", false, lit "2021-01-01T00:00:00Z"⟩]

/-- The request for it. -/
def smallRequest : Json :=
  dataRequest (lit "core") (lit "1.0") (smallArchive.infolist.map getFileInfo)

def smallText : Bytes :=
  lit "the request for a small archive"

def smallParser : JsonParser where
  parse text := if text = smallText then some smallRequest else none
  parse_utf8 text j h := by
    split at h
    · cases h
      decide +kernel
    · cases h

def smallPost (_ : Json) : ClientRequest :=
  ⟨⟨.applicationJson, smallText, lit "/api/add/"⟩, .post, lit "/api/add/", [], [], []⟩

end WebDiff
