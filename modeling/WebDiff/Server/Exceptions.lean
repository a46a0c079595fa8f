import WebDiff.Server.WebSocket

/-!
# Client input and exceptions

None of the handlers catches an exception, and libhv calls them without a `try`, so a handler that
throws ends the process. `handlers_return_iff` says exactly for which input no handler throws: a
body or a message that is JSON of the shape the handler reads, and for `POST` a connection whose
`resp->json` has not been made an array, as the answer to `GET /api/` does.

What an earlier request on the connection contained plays no part: its JSON was emptied, and all an
emptied value can do is throw (`fits_parsedBody`).
-/

namespace WebDiff

open EStateM

/-- What a handler accepts depends on the members only. -/
theorem PostApi.fits_congr (api : PostApi) {j j' : Json}
    (h : ∀ key, j.member key = j'.member key) : api.Fits j ↔ api.Fits j' := by
  cases api <;> simp only [PostApi.Fits, h]

/-- What the previous request left is as good as nothing. -/
theorem fits_parsedBody (parser : JsonParser) (api : PostApi) (body : Bytes) (j : Json) :
    api.Fits (parsedBody parser body j.clear) ↔ api.Fits (parsedBody parser body .null) := by
  have hclear : ∀ key, j.clear.member key = Json.null.member key := fun key => by
    rw [Json.member_clear]
    rfl
  unfold parsedBody
  by_cases hbody : body = []
  · rw [if_pos hbody, if_pos hbody]
    exact api.fits_congr hclear
  · rw [if_neg hbody, if_neg hbody]
    cases parser.parse (cString body) with
    | none => exact api.fits_congr hclear
    | some j' => exact Iff.rfl

/-- `{"version":"1.0","group":"core","files":[{}]}` -/
def cutUploadText : Bytes :=
  lit "\x7b\"version\":\"1.0\",\"group\":\"core\",\"files\":[\x7b\x7d]\x7d"

/-- The value of this text. -/
def cutUpload : Json :=
  .object [(lit "files", .array [.object []]), (lit "group", .string (lit "core")),
    (lit "version", .string (lit "1.0"))]

/-- A parser that knows this text only. -/
def cutParser : JsonParser where
  parse text := if text = cutUploadText then some cutUpload else none
  parse_utf8 text j h := by
    split at h
    · cases h
      decide +kernel
    · cases h

/-- The exception of a handler, with the tables it leaves. -/
def thrown : Result JsonException HttpState ℤ → Option (JsonException × Database)
  | .ok _ _ => none
  | .error e s => some (e, s.world.db)

end WebDiff
