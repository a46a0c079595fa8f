import Mathlib.Algebra.Group.Nat.Defs
import WebDiff.Model.Path

/-!
# The connections of the storage

`MySqlStorage::getConnection` and what it calls. Every thread has a connection of its own, found
under the text of its id, and replaced when it is older than an hour. The mutex makes a call one
step. `new` gives every connection an address of its own, and none is ever deleted, so a connection
is identified by the number of those opened before it.

What a call depends on besides the state is collected in a `ConnectionCall`: the thread, the two
readings of the clock, and whether `mysql_real_connect` succeeds.
-/

namespace WebDiff

/-! ### Thread ids -/

/-- A digit as `std::hex` prints it. -/
def hexDigit (d : ℕ) : UInt8 :=
  if d < 10 then UInt8.ofNat (48 + d) else UInt8.ofNat (87 + d)

/-- The last digits of a number, padded with zeros to the width. -/
def hexPadded : ℕ → ℕ → Bytes
  | 0, _ => []
  | width + 1, n => hexPadded width (n / 16) ++ [hexDigit (n % 16)]

/-- `WsjcppCore::getThreadId`, where the thread id is a word of 64 bits. -/
def getThreadId (thread : UInt64) : Bytes :=
  lit "0x" ++ hexPadded 16 thread.toNat

theorem hexDigit_injective {a b : ℕ} (ha : a < 16) (hb : b < 16) (h : hexDigit a = hexDigit b) :
    a = b := by
  have hall : ∀ a : Fin 16, ∀ b : Fin 16, hexDigit a = hexDigit b → a = b := by decide
  exact congrArg Fin.val (hall ⟨a, ha⟩ ⟨b, hb⟩ h)

/-- As many digits as the number has determine it. -/
theorem hexPadded_injective {width m n : ℕ} (hm : m < 16 ^ width) (hn : n < 16 ^ width)
    (h : hexPadded width m = hexPadded width n) : m = n := by
  induction width generalizing m n with
  | zero =>
    rw [Nat.pow_zero] at hm hn
    omega
  | succ width ih =>
    obtain ⟨hinit, hlast⟩ := List.append_singleton_inj.mp h
    rw [Nat.pow_succ] at hm hn
    have hdiv : m / 16 = n / 16 := ih (by omega) (by omega) hinit
    have hmod : m % 16 = n % 16 := hexDigit_injective (by omega) (by omega) hlast
    omega

/-- Different threads have different texts. -/
theorem getThreadId_injective : Function.Injective getThreadId := by
  intro s t h
  have hpadded := List.append_cancel_left h
  exact UInt64.toNat_inj.mp (hexPadded_injective s.toNat_lt t.toNat_lt hpadded)

/-! ### Connections -/

/-- `MySqlStorageConnection`: its identity, and the time of its construction in milliseconds. -/
structure MySqlStorageConnection where
  address : ℕ
  created : ℤ
deriving DecidableEq, Repr

/-- `getConnectionDurationInSeconds`, at the time `now`. -/
def MySqlStorageConnection.getConnectionDurationInSeconds (c : MySqlStorageConnection) (now : ℤ) :
    ℤ :=
  (now - c.created).tdiv 1000

/-- `m_nConnectionOutdatedAfterSeconds`. -/
def connectionOutdatedAfterSeconds : ℤ := 60 * 60

/-- A call of `getConnection`: the calling thread, the time at which it looks at the age of its
connection, and the outcome of `mysql_real_connect`, with the time of the construction. -/
structure ConnectionCall where
  thread : UInt64
  now : ℤ
  connected : Option ℤ
deriving DecidableEq, Repr

/-- The connections of a `MySqlStorage`. `opened` lists all connections ever opened, and the threads
that opened them. -/
structure Connections where
  mapStorageConnections : Bytes → Option MySqlStorageConnection
  doRemoveStorageConnections : List MySqlStorageConnection
  opened : List (UInt64 × MySqlStorageConnection)

namespace Connections

/-- Those of a new `MySqlStorage`. -/
def new : Connections := ⟨fun _ => none, [], []⟩

/-- `connect`. -/
def connect (s : Connections) (call : ConnectionCall) :
    Option MySqlStorageConnection × Connections :=
  match call.connected with
  | none => (none, s)
  | some created =>
    let conn : MySqlStorageConnection := ⟨s.opened.length, created⟩
    (some conn, { s with opened := s.opened ++ [(call.thread, conn)] })

/-- `getConnection`. -/
def getConnection (s : Connections) (call : ConnectionCall) :
    Option MySqlStorageConnection × Connections :=
  let threadId := getThreadId call.thread
  match s.mapStorageConnections threadId with
  | none =>
    match s.connect call with
    | (none, s) => (none, s)
    | (some conn, s) =>
      (some conn, { s with
        mapStorageConnections := Function.update s.mapStorageConnections threadId (some conn) })
  | some storageConnection =>
    if storageConnection.getConnectionDurationInSeconds call.now
        > connectionOutdatedAfterSeconds then
      let s := { s with
        doRemoveStorageConnections := s.doRemoveStorageConnections ++ [storageConnection] }
      match s.connect call with
      -- the outdated connection stays in the map
      | (none, s) => (none, s)
      | (some conn, s) =>
        (some conn, { s with
          mapStorageConnections := Function.update s.mapStorageConnections threadId (some conn) })
    else (some storageConnection, s)

/-- The current connection of a thread. -/
def current (s : Connections) (thread : UInt64) : Option MySqlStorageConnection :=
  s.mapStorageConnections (getThreadId thread)

/-- The calling thread has a connection, and finds it outdated. -/
def Outdated (s : Connections) (call : ConnectionCall) : Prop :=
  ∃ conn, s.current call.thread = some conn ∧
    conn.getConnectionDurationInSeconds call.now > connectionOutdatedAfterSeconds

end Connections

end WebDiff
