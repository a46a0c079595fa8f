import WebDiff.Model.HttpService

/-!
# The script that uploads archives

`example/upload.py` reads the entries of zip archives and posts them to `/api/add/`, at most 500 in a
request. It exits at the first answer whose status is not `200`. The group and the version of an
archive are taken from the name of its file, which is left out here.
-/

namespace WebDiff

/-- What the script reads of an entry of an archive. -/
structure ZipInfo where
  filename : Bytes
  fileSize : ℕ
  compressSize : ℕ
  mode : Bytes
  isDir : Bool
  dt : Bytes

/-- An archive, with the group and the version of its file name, and `getinfo` of each of its names. -/
structure Archive where
  group : Bytes
  version : Bytes
  infolist : List ZipInfo

/-- `remove_first_folder` -/
def removeFirstFolder (file : Bytes) : Bytes :=
  [slash].intercalate (file.splitOn slash).tail

/-- `getfileinfo` -/
def getFileInfo (fi : ZipInfo) : Json :=
  Json.null
    |>.put (lit "path") (.string (removeFirstFolder fi.filename))
    |>.put (lit "size") (.numberUnsigned fi.fileSize)
    |>.put (lit "mode") (.string fi.mode)
    |>.put (lit "compress_size") (.numberUnsigned fi.compressSize)
    |>.put (lit "is_dir") (.boolean fi.isDir)
    |>.put (lit "dt") (.string fi.dt)

/-- `data_request` with these files. -/
def dataRequest (group version : Bytes) (files : List Json) : Json :=
  Json.null
    |>.put (lit "group") (.string group)
    |>.put (lit "version") (.string version)
    |>.put (lit "files") (.array files)

/-- The loop over the entries of an archive, with the files collected so far: the requests it
posts. -/
def dataRequests (group version : Bytes) : (regFiles : List ZipInfo) → (files : List Json) →
    List Json
  | [], files => if files.length > 0 then [dataRequest group version files] else []
  | regFile :: rest, files =>
    if (files ++ [getFileInfo regFile]).length > 499 then
      dataRequest group version (files ++ [getFileInfo regFile]) ::
        dataRequests group version rest []
    else dataRequests group version rest (files ++ [getFileInfo regFile])

/-- The requests for all archives. -/
def scriptRequests (archives : List Archive) : List Json :=
  archives.flatMap fun a => dataRequests a.group a.version a.infolist []

section Script

variable (my : MySql) (parser : JsonParser) (hash : HashOrder) {C : Type} [DecidableEq C]
  (post : Json → ClientRequest) (c : C) (now : ℤ)

/-- The inputs of the server while the script runs: in front of each request and behind the last one
whatever `others` do. Every request goes over a connection of its own. -/
def scriptInputs : (others : ℕ → List (HttpInput C)) → List Json → List (HttpInput C)
  | others, [] => others 0
  | others, data :: rest =>
    others 0 ++ .request c now (post data) :: .close c ::
      scriptInputs (fun n => others (n + 1)) rest

/-- The process after a sequence of inputs. -/
def HttpProcess.run (p : HttpProcess C) (inputs : List (HttpInput C)) : HttpProcess C :=
  inputs.foldl (fun p i => (p.step my parser hash i).2) p

/-- The script and the server, where `none` means that the script has exited. -/
def runScript : HttpProcess C → (others : ℕ → List (HttpInput C)) → List Json →
    Option (HttpProcess C)
  | p, others, [] => some (p.run my parser hash (others 0))
  | p, others, data :: rest =>
    match (p.run my parser hash (others 0)).step my parser hash (.request c now (post data)) with
    | (some (.json status _), p) =>
      if status ≠ 200 then none
      else runScript (p.step my parser hash (.close c)).2 (fun n => others (n + 1)) rest
    | _ => none

end Script

end WebDiff
