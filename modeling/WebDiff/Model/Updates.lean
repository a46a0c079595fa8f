import Mathlib.Data.Finset.Insert
import Mathlib.Data.Finset.Union
import Mathlib.Data.List.MinMax
import Mathlib.Data.Prod.Lex
import WebDiff.Framework.Program
import WebDiff.Model.Answers

/-!
# Upgrading the database

`MySqlStorageAllUpdates::upgrade`, the nine updates it ships with, and the part of
`MySqlStorageConnection` they call.

The loop is a program over three calls (`UpgradeCall`): `lastDatabaseVersion`, `apply` of one
update and `insertUpdateInfo`. What the calls do to the database is `UpgradeDb.step`. An update is
the list of the statements its `apply` executes one after another (`runQueries`), each of which
commits on its own; what a statement does to the database is a parameter there, and `Query.exec` for
the statements the updates consist of.
-/

namespace WebDiff

/-! ### The schema -/

/-- What a statement of an update can bring into being: a table, a column of a table, or a row with
a unique key. -/
inductive Item
  | table (table : String)
  | column (table column : String)
  | row (table key : String)
deriving DecidableEq, Repr

/-- The table the item belongs to. -/
def Item.owner : Item → String
  | .table t => t
  | .column t _ => t
  | .row t _ => t

/-- The tables with their columns and unique rows. Columns and rows belong to existing tables. -/
@[ext] structure Schema where
  items : Finset Item
  owned : ∀ x ∈ items, .table x.owner ∈ items
deriving DecidableEq

/-- A database without tables. -/
def Schema.empty : Schema := ⟨∅, fun _ h => absurd h (Finset.notMem_empty _)⟩

/-- The schema with a further column or row of an existing table. -/
def Schema.insert (S : Schema) (x : Item) (h : .table x.owner ∈ S.items) : Schema where
  items := Insert.insert x S.items
  owned := by
    intro y hy
    rcases Finset.mem_insert.mp hy with rfl | hy
    · exact Finset.mem_insert_of_mem h
    · exact Finset.mem_insert_of_mem (S.owned y hy)

/-- The schema with a further table. -/
def Schema.createTable (S : Schema) (t : String) (columns : List String) : Schema where
  items := Insert.insert (.table t) (S.items ∪ (columns.map (Item.column t)).toFinset)
  owned := by
    intro y hy
    rcases Finset.mem_insert.mp hy with rfl | hy
    · exact Finset.mem_insert_self _ _
    · rcases Finset.mem_union.mp hy with hy | hy
      · exact Finset.mem_insert_of_mem (Finset.mem_union_left _ (S.owned y hy))
      · obtain ⟨c, -, rfl⟩ := List.mem_map.mp (List.mem_toFinset.mp hy)
        exact Finset.mem_insert_self _ _

/-- The schema without a column. -/
def Schema.dropColumn (S : Schema) (t c : String) : Schema where
  items := S.items.erase (.column t c)
  owned := by
    intro y hy
    refine Finset.mem_erase.mpr ⟨fun h => ?_, S.owned y (Finset.mem_of_mem_erase hy)⟩
    cases h

/-- The statements of the updates. -/
inductive Query
  | createTable (table : String) (columns : List String)
  | addColumn (table column : String)
  | dropColumn (table column : String)
  | insertRow (table key : String)
deriving DecidableEq, Repr

/-- The effect of a statement, `none` when MySQL rejects it. -/
def Query.exec : Query → Schema → Option Schema
  | .createTable t columns, S => if .table t ∈ S.items then none else some (S.createTable t columns)
  | .addColumn t c, S =>
    if h : .table t ∈ S.items then
      if .column t c ∈ S.items then none else some (S.insert (.column t c) h)
    else none
  | .dropColumn t c, S => if .column t c ∈ S.items then some (S.dropColumn t c) else none
  | .insertRow t key, S =>
    if h : .table t ∈ S.items then
      if .row t key ∈ S.items then none else some (S.insert (.row t key) h)
    else none

/-! ### The updates -/

/-- `MySqlStorageUpdate`: a version and the statements of `apply`. -/
structure MySqlStorageUpdate where
  version : ℤ
  queries : List Query
deriving DecidableEq, Repr

/-- The updates of the constructor of `MySqlStorageAllUpdates`. -/
def databaseUpdates : List MySqlStorageUpdate :=
  [⟨1, [.createTable "webdiff_users" ["id", "username", "userpass", "role", "comment", "created"],
      .insertRow "webdiff_users" "admin",
      .createTable "webdiff_users_tokens" ["id", "token", "role", "userid", "created"],
      .createTable "webdiff_versions" ["id", "name", "comment"]]⟩,
    ⟨2, [.createTable "webdiff_file_groups" ["id", "name"],
      .createTable "webdiff_define_files" ["id", "file_group_id", "filepath"],
      .createTable "webdiff_define_files_comments"
        ["id", "define_file_id", "comment", "dt_created"]]⟩,
    ⟨3, [.createTable "webdiff_files" ["id", "version_id", "define_file_id"]]⟩,
    ⟨4, [.addColumn "webdiff_define_files" "childs",
      .addColumn "webdiff_define_files" "parent_id"]⟩,
    ⟨5, [.addColumn "webdiff_define_files" "filename"]⟩,
    ⟨6, [.addColumn "webdiff_files" "file_group_id"]⟩,
    ⟨7, [.dropColumn "webdiff_define_files" "file_group_id"]⟩,
    ⟨8, [.addColumn "webdiff_files" "parent_id",
      .addColumn "webdiff_files" "amount_of_children"]⟩,
    ⟨9, [.addColumn "webdiff_define_files_comments" "hided"]⟩]

/-! ### `MySqlStorageAllUpdates::upgrade` -/

/-- The calls of `upgrade`. -/
inductive UpgradeCall
  | lastDatabaseVersion
  | apply (u : MySqlStorageUpdate)
  | insertUpdateInfo (version : ℤ)
deriving DecidableEq, Repr

/-- The result of a call. -/
@[reducible] def UpgradeCall.Res : UpgradeCall → Type
  | .lastDatabaseVersion => ℤ
  | .apply _ => Bool
  | .insertUpdateInfo _ => Bool

/-- Programs over the calls. -/
abbrev Upgrade := Program UpgradeCall UpgradeCall.Res

/-- The `for` loop: one pass over the updates. It carries `bFoundUpdate` and `nDbVersion`, and ends
with their values or with the text of the error it throws. -/
def upgradePass : List MySqlStorageUpdate → Bool → ℤ → Upgrade (Except Bytes (Bool × ℤ))
  | [], foundUpdate, dbVersion => pure (.ok (foundUpdate, dbVersion))
  | u :: us, foundUpdate, dbVersion =>
    if u.version - 1 = dbVersion then do
      if ← Program.perform (.apply u) then
        if ← Program.perform (.insertUpdateInfo u.version) then
          upgradePass us true u.version
        else pure (.error (lit "Could not insert version"))
      else pure (.error (lit "Could not apply update " ++ decimal dbVersion))
    else upgradePass us foundUpdate dbVersion

/-- The `while` loop, for at most `fuel` passes. -/
def upgradeLoop (updates : List MySqlStorageUpdate) :
    ℕ → ℤ → Upgrade (Option (Except Bytes Bool))
  | 0, _ => pure none
  | fuel + 1, dbVersion => do
    match ← upgradePass updates false dbVersion with
    | .error e => pure (some (.error e))
    | .ok (true, dbVersion) => upgradeLoop updates fuel dbVersion
    | .ok (false, _) => pure (some (.ok true))

/-- `upgrade`, `none` when `fuel` passes of the `while` loop do not end it. -/
def upgrade (updates : List MySqlStorageUpdate) (fuel : ℕ) :
    Upgrade (Option (Except Bytes Bool)) := do
  let dbVersion ← Program.perform .lastDatabaseVersion
  if dbVersion < 0 then pure (some (.error (lit "Could not get latest version of database")))
  else upgradeLoop updates fuel dbVersion

/-! ### `MySqlStorageConnection` -/

/-- A row of `webdiff_db_updates`. `dt` is the value `NOW()` had, in seconds. -/
structure UpdateRow where
  version : ℤ
  dt : ℤ
deriving DecidableEq, Repr

/-- The table `webdiff_db_updates`, `none` while it does not exist, and the rest of the database. -/
structure UpgradeDb (σ : Type) where
  updates : Option (List UpdateRow)
  rest : σ

/-- A database in which no upgrade has run. -/
def UpgradeDb.new {σ : Type} (s : σ) : UpgradeDb σ := ⟨none, s⟩

/-- The statement of a run that fails for a reason that has nothing to do with the database, such
as a lost connection. Statements of an update are counted from `0`. -/
inductive Fault
  | selectVersion
  | createUpdates
  | query (version : ℤ) (i : ℕ)
  | insertInfo (version : ℤ)
deriving DecidableEq, Repr

/-- What a server start brings with it: its updates, the statement that fails on the way, if any,
and the value of `NOW()` at the recording of each version. -/
structure Start where
  updates : List MySqlStorageUpdate
  fault : Option Fault
  now : ℤ → ℤ

/-- The statement of update `version` that fails. -/
def Start.queryFault (start : Start) (version : ℤ) : Option ℕ :=
  match start.fault with
  | some (.query v i) => if v = version then some i else none
  | _ => none

section

variable {σ : Type} (exec : Query → σ → Option σ)

/-- `apply`: the statements one after another up to the first that fails, which is the one with the
number `fault` if there is no other before it. -/
def runQueries : Option ℕ → List Query → σ → Bool × σ
  | _, [], s => (true, s)
  | some 0, _ :: _, s => (false, s)
  | fault, q :: qs, s =>
    match exec q s with
    | none => (false, s)
    | some s' => runQueries (fault.map fun i => i - 1) qs s'

/-- The first row in `ORDER BY dt DESC, version DESC`. -/
def latestRow (rows : List UpdateRow) : Option UpdateRow :=
  let order : LinearOrder (ℤ ×ₗ ℤ) := Prod.Lex.instLinearOrder ℤ ℤ
  @List.argmax _ _ order.toPreorder order.toDecidableLT (fun r => toLex (r.dt, r.version)) rows

/-- `SELECT version FROM webdiff_db_updates ORDER BY dt DESC, version DESC LIMIT 0,1`, `0` without a
row. -/
def selectVersion (rows : List UpdateRow) : ℤ :=
  match latestRow rows with
  | none => 0
  | some r => r.version

/-- The calls on the database. `lastDatabaseVersion` creates the table it finds missing. -/
def UpgradeDb.step (start : Start) : Program.Interp UpgradeCall UpgradeCall.Res (UpgradeDb σ)
  | .lastDatabaseVersion, w =>
    if start.fault = some .selectVersion then (-1, w)
    else match w.updates with
      | some rows => (selectVersion rows, w)
      | none =>
        if start.fault = some .createUpdates then (-2, w) else (0, { w with updates := some [] })
  | .apply u, w =>
    let (applied, s) := runQueries exec (start.queryFault u.version) u.queries w.rest
    (applied, { w with rest := s })
  | .insertUpdateInfo version, w =>
    match w.updates with
    | none => (false, w)
    | some rows =>
      if start.fault = some (.insertInfo version) then (false, w)
      else (true, { w with updates := some (rows ++ [⟨version, start.now version⟩]) })

/-- A server start: how `upgrade` ends, and the database it leaves. -/
def UpgradeDb.start (w : UpgradeDb σ) (start : Start) : Option (Except Bytes Bool) × UpgradeDb σ :=
  Program.run (UpgradeDb.step exec start) (upgrade start.updates (start.updates.length + 1)) w

/-- The database after a history of server starts. -/
def UpgradeDb.starts (w : UpgradeDb σ) (history : List Start) : UpgradeDb σ :=
  history.foldl (fun w start => (w.start exec start).2) w

end

end WebDiff
