import Mathlib.Data.List.Induction
import WebDiff.Framework.Registry
import WebDiff.Model.Connections

/-!
# Who owns a connection

The connections of the storage are a registry, in which the threads hold the connections. A call of
`getConnection` hands out the current connection of its thread, opens one, or replaces an outdated
one; but when it cannot reconnect, the outdated connection is listed for removal and stays the
current one (`CallStep.retired`). So the connections of two threads never meet, and every connection
is current for one thread or listed once, in exactly the runs in which every call that finds its
connection outdated can reconnect (`ownership_iff`).
-/

namespace WebDiff

/-- The threads hold the connections. -/
def Connections.registry (s : Connections) : Registry UInt64 MySqlStorageConnection where
  opened := s.opened
  current := s.current
  retired := s.doRemoveStorageConnections

/-! ### One call -/

/-- What a call does to the registry, and what it returns. -/
inductive CallStep (s : Registry UInt64 MySqlStorageConnection) (call : ConnectionCall) :
    Option MySqlStorageConnection → Registry UInt64 MySqlStorageConnection → Prop
  | current {conn : MySqlStorageConnection} (h : s.current call.thread = some conn) :
    CallStep s call (some conn) s
  | failed : CallStep s call none s
  | opened {conn : MySqlStorageConnection} (h : s.current call.thread = none)
    (hnew : conn.address = s.opened.length) :
    CallStep s call (some conn) (s.install call.thread conn)
  | replaced {old conn : MySqlStorageConnection} (h : s.current call.thread = some old)
    (hnew : conn.address = s.opened.length) :
    CallStep s call (some conn) ((s.retire old).install call.thread conn)
  | retired {old : MySqlStorageConnection} (h : s.current call.thread = some old)
    (hold : old.getConnectionDurationInSeconds call.now > connectionOutdatedAfterSeconds)
    (hconnected : call.connected = none) : CallStep s call none (s.retire old)

/-- A new entry of the map is a new current connection, since threads have different texts. -/
theorem current_update (map : Bytes → Option MySqlStorageConnection) (thread : UInt64)
    (conn : MySqlStorageConnection) :
    (fun t => Function.update map (getThreadId thread) (some conn) (getThreadId t))
      = Function.update (fun t => map (getThreadId t)) thread (some conn) := by
  funext t
  by_cases ht : t = thread
  · rw [ht, Function.update_self, Function.update_self]
  · rw [Function.update_of_ne ht, Function.update_of_ne fun h => ht (getThreadId_injective h)]

/-- Installing a connection that was just opened. -/
theorem registry_install (s : Connections) (thread : UInt64) (conn : MySqlStorageConnection) :
    Connections.registry
        { s with
          mapStorageConnections :=
            Function.update s.mapStorageConnections (getThreadId thread) (some conn)
          opened := s.opened ++ [(thread, conn)] }
      = s.registry.install thread conn := by
  unfold Connections.registry Registry.install Connections.current
  rw [← current_update]

section GetConnection

variable {s : Connections} {call : ConnectionCall} {old : MySqlStorageConnection} {created : ℤ}

theorem connect_failed (hconn : call.connected = none) : s.connect call = (none, s) := by
  rw [Connections.connect, hconn]

theorem connect_succeeded (hconn : call.connected = some created) :
    s.connect call = (some ⟨s.opened.length, created⟩,
      { s with opened := s.opened ++ [(call.thread, ⟨s.opened.length, created⟩)] }) := by
  rw [Connections.connect, hconn]

/-- An outdated connection that cannot be replaced is listed for removal, and stays current. -/
theorem getConnection_retired (h : s.current call.thread = some old)
    (hold : old.getConnectionDurationInSeconds call.now > connectionOutdatedAfterSeconds)
    (hconn : call.connected = none) :
    (s.getConnection call).1 = none ∧
      (s.getConnection call).2.registry = s.registry.retire old := by
  unfold Connections.current at h
  simp only [Connections.getConnection, h, if_pos hold, connect_failed hconn]
  exact ⟨trivial, rfl⟩

end GetConnection

theorem callStep (s : Connections) (call : ConnectionCall) :
    CallStep s.registry call (s.getConnection call).1 (s.getConnection call).2.registry := by
  cases hcur : s.current call.thread with
  | none =>
    have hmap : s.mapStorageConnections (getThreadId call.thread) = none := hcur
    cases hconn : call.connected with
    | none =>
      simp only [Connections.getConnection, hmap, connect_failed hconn]
      exact CallStep.failed
    | some created =>
      simp only [Connections.getConnection, hmap, connect_succeeded hconn, registry_install]
      exact CallStep.opened hcur rfl
  | some old =>
    have hmap : s.mapStorageConnections (getThreadId call.thread) = some old := hcur
    by_cases hold : old.getConnectionDurationInSeconds call.now > connectionOutdatedAfterSeconds
    · cases hconn : call.connected with
      | none =>
        obtain ⟨hret, hreg⟩ := getConnection_retired hcur hold hconn
        rw [hret, hreg]
        exact CallStep.retired hcur hold hconn
      | some created =>
        have hreg := registry_install
          { s with doRemoveStorageConnections := s.doRemoveStorageConnections ++ [old] }
          call.thread ⟨s.opened.length, created⟩
        simp only [Connections.getConnection, hmap, if_pos hold, connect_succeeded hconn, hreg]
        exact CallStep.replaced hcur rfl
    · simp only [Connections.getConnection, hmap, if_neg hold]
      exact CallStep.current hcur

/-! ### What a call preserves -/

/-- The registry is sound, and the next address is free. -/
structure Addressed (s : Registry UInt64 MySqlStorageConnection) : Prop where
  sound : s.Sound
  addresses : ∀ p ∈ s.opened, p.2.address < s.opened.length

theorem Addressed.empty : Addressed Registry.empty :=
  ⟨Registry.Sound.empty, fun _ h => absurd h List.not_mem_nil⟩

section CallStep

variable {s s' : Registry UInt64 MySqlStorageConnection} {call : ConnectionCall}
  {conn old : MySqlStorageConnection} {ret : Option MySqlStorageConnection}

theorem Addressed.not_opened (h : Addressed s) (hnew : conn.address = s.opened.length)
    (thread : UInt64) : (thread, conn) ∉ s.opened := by
  intro hmem
  have hlt : conn.address < s.opened.length := h.addresses _ hmem
  exact absurd hnew (Nat.ne_of_lt hlt)

theorem Addressed.install (h : Addressed s) (hnew : conn.address = s.opened.length)
    (thread : UInt64) : Addressed (s.install thread conn) := by
  refine ⟨h.sound.install (h.not_opened hnew), ?_⟩
  intro p hp
  rw [Registry.install, List.length_append, List.length_singleton]
  rcases List.mem_append.mp hp with hp | hp
  · exact Nat.lt_succ_of_lt (h.addresses p hp)
  · rw [List.mem_singleton.mp hp, hnew]
    exact Nat.lt_succ_self _

theorem Addressed.retire (h : Addressed s) (hold : s.current call.thread = some old) :
    Addressed (s.retire old) :=
  ⟨h.sound.retire (h.sound.current _ _ hold), h.addresses⟩

/-- What a call opens stays opened. -/
theorem CallStep.opened_subset (h : CallStep s call ret s') : s.opened ⊆ s'.opened := by
  cases h with
  | opened _ _ => exact List.subset_append_left _ _
  | replaced _ _ => exact List.subset_append_left _ _
  | _ => exact List.Subset.refl _

theorem CallStep.addressed (h : CallStep s call ret s') (hs : Addressed s) : Addressed s' := by
  cases h with
  | current _ => exact hs
  | failed => exact hs
  | opened _ hnew => exact hs.install hnew _
  | replaced hold hnew => exact (hs.retire hold).install hnew _
  | retired hold _ _ => exact hs.retire hold

/-- A call returns a connection that was opened for its thread. -/
theorem CallStep.mem_opened (h : CallStep s call (some conn) s') (hs : Addressed s) :
    (call.thread, conn) ∈ s'.opened := by
  cases h with
  | current hcur => exact hs.sound.current _ _ hcur
  | opened _ _ => exact List.mem_append_right _ (List.mem_singleton.mpr rfl)
  | replaced _ _ => exact List.mem_append_right _ (List.mem_singleton.mpr rfl)

/-- A call loses no connection unless it retires one without a replacement. -/
theorem CallStep.placed (h : CallStep s call ret s') (hs : Addressed s) (hp : s.Placed)
    (hok : ∀ old, s.current call.thread = some old →
      old.getConnectionDurationInSeconds call.now > connectionOutdatedAfterSeconds →
      call.connected ≠ none) : s'.Placed := by
  cases h with
  | current _ => exact hp
  | failed => exact hp
  | opened hnone hnew => exact hp.install hs.sound hnone (hs.not_opened hnew)
  | replaced hold hnew => exact hp.replace hs.sound hold (hs.not_opened hnew)
  | retired hold houtdated hconn => exact absurd hconn (hok _ hold houtdated)

end CallStep

/-! ### Runs -/

/-- The connections after a sequence of calls. -/
def afterCalls (calls : List ConnectionCall) : Connections :=
  calls.foldl (fun s call => (s.getConnection call).2) Connections.new

/-- Some call of the sequence returned the connection to the thread. -/
def Returned (calls : List ConnectionCall) (thread : UInt64) (conn : MySqlStorageConnection) :
    Prop :=
  ∃ before call, before ++ [call] <+: calls ∧ call.thread = thread ∧
    ((afterCalls before).getConnection call).1 = some conn

/-- No connection is returned to two threads; after every call each connection ever opened is the
current one of exactly one thread, or listed once for removal, and not both; so those listed could
be closed, each once, and none that is in use. -/
structure Ownership (calls : List ConnectionCall) : Prop where
  exclusive : ∀ thread thread' conn, Returned calls thread conn → Returned calls thread' conn →
    thread = thread'
  placed : ∀ before, before <+: calls → ∀ p ∈ (afterCalls before).opened,
    ((∃! thread, (afterCalls before).current thread = some p.2) ∧
        p.2 ∉ (afterCalls before).doRemoveStorageConnections) ∨
      ((∀ thread, (afterCalls before).current thread ≠ some p.2) ∧
        (afterCalls before).doRemoveStorageConnections.count p.2 = 1)
  closable : ∀ before, before <+: calls →
    (afterCalls before).doRemoveStorageConnections.Nodup ∧
      ∀ thread conn, (afterCalls before).current thread = some conn →
        conn ∉ (afterCalls before).doRemoveStorageConnections

theorem afterCalls_concat (calls : List ConnectionCall) (call : ConnectionCall) :
    afterCalls (calls ++ [call]) = ((afterCalls calls).getConnection call).2 := by
  simp [afterCalls]

theorem addressed_afterCalls (calls : List ConnectionCall) :
    Addressed (afterCalls calls).registry := by
  induction calls using List.reverseRecOn with
  | nil => exact Addressed.empty
  | append_singleton calls call ih =>
    rw [afterCalls_concat]
    exact (callStep _ call).addressed ih

theorem opened_afterCalls_subset {before calls : List ConnectionCall} (h : before <+: calls) :
    (afterCalls before).opened ⊆ (afterCalls calls).opened := by
  obtain ⟨rest, rfl⟩ := h
  induction rest using List.reverseRecOn with
  | nil =>
    rw [List.append_nil]
    exact List.Subset.refl _
  | append_singleton rest call ih =>
    rw [← List.append_assoc, afterCalls_concat]
    exact List.Subset.trans ih (callStep _ call).opened_subset

/-- **A connection belongs to the thread that opened it**, in every run. -/
theorem mem_opened_of_returned {calls : List ConnectionCall} {thread : UInt64}
    {conn : MySqlStorageConnection} (h : Returned calls thread conn) :
    (thread, conn) ∈ (afterCalls calls).opened := by
  obtain ⟨before, call, hpre, rfl, hret⟩ := h
  have hstep := callStep (afterCalls before) call
  rw [hret, ← afterCalls_concat] at hstep
  exact opened_afterCalls_subset hpre (hstep.mem_opened (addressed_afterCalls before))

/-- The places of the connections in the words of the map and the list. -/
theorem placed_registry_iff {s : Connections} (hs : s.registry.Sound) :
    s.registry.Placed ↔ ∀ p ∈ s.opened,
      ((∃! thread, s.current thread = some p.2) ∧ p.2 ∉ s.doRemoveStorageConnections) ∨
        ((∀ thread, s.current thread ≠ some p.2) ∧ s.doRemoveStorageConnections.count p.2 = 1) := by
  -- only the thread that opened a connection can have it
  have howner : ∀ {thread conn thread'}, (thread, conn) ∈ s.opened →
      s.current thread' = some conn → thread' = thread := by
    intro thread conn thread' hopened hcur
    exact hs.owner_unique (hs.current _ _ hcur) hopened
  constructor
  · rintro h ⟨thread, conn⟩ hopened
    rcases h thread conn hopened with ⟨hcur, hnot⟩ | ⟨hne, hone⟩
    · exact Or.inl ⟨⟨thread, hcur, fun _ hcur' => howner hopened hcur'⟩, hnot⟩
    · refine Or.inr ⟨fun thread' hcur => hne ?_, hone⟩
      exact howner hopened hcur ▸ hcur
  · intro h thread conn hopened
    rcases h (thread, conn) hopened with ⟨⟨thread', hcur, -⟩, hnot⟩ | ⟨hne, hone⟩
    · exact Or.inl ⟨howner hopened hcur ▸ hcur, hnot⟩
    · exact Or.inr ⟨hne thread, hone⟩

/-- **Ownership.** The connections are owned as they should be in exactly the runs in which every
call that finds the connection of its thread outdated succeeds in opening another one. -/
theorem ownership_iff (calls : List ConnectionCall) :
    Ownership calls ↔ ∀ before call, before ++ [call] <+: calls →
      (afterCalls before).Outdated call → call.connected ≠ none := by
  constructor
  · rintro h before call hpre ⟨old, hcur, hold⟩ hconn
    have hplaced := (placed_registry_iff (addressed_afterCalls _).sound).mpr (h.placed _ hpre)
    rw [afterCalls_concat, (getConnection_retired hcur hold hconn).2] at hplaced
    exact Registry.not_placed_retire (addressed_afterCalls before).sound hcur hplaced
  · intro h
    have hplaced : ∀ before, before <+: calls → (afterCalls before).registry.Placed := by
      intro before
      induction before using List.reverseRecOn with
      | nil => exact fun _ => Registry.Placed.empty
      | append_singleton before call ih =>
        intro hpre
        have hp := ih ((List.prefix_append before [call]).trans hpre)
        rw [afterCalls_concat]
        apply (callStep _ call).placed (addressed_afterCalls before) hp
        intro old hcur hold
        exact h before call hpre ⟨old, hcur, hold⟩
    refine ⟨?_, ?_, ?_⟩
    · intro thread thread' conn hret hret'
      exact (addressed_afterCalls calls).sound.owner_unique (mem_opened_of_returned hret)
        (mem_opened_of_returned hret')
    · intro before hpre
      exact (placed_registry_iff (addressed_afterCalls before).sound).mp (hplaced before hpre)
    · intro before hpre
      have hs := (addressed_afterCalls before).sound
      refine ⟨(hplaced before hpre).nodup_retired hs, ?_⟩
      intro thread conn hcur
      exact (hplaced before hpre).not_retired hs hcur

/-- A thread whose connection is outdated cannot reconnect, and tries again. -/
def failedReconnects : List ConnectionCall :=
  [⟨1, 0, some 0⟩, ⟨1, 3601000, none⟩, ⟨1, 3602000, none⟩]

/-- The outdated connection is still current, and listed for removal twice. -/
theorem failedReconnects_not_owned :
    (afterCalls failedReconnects).current 1 = some ⟨0, 0⟩ ∧
      (afterCalls failedReconnects).doRemoveStorageConnections = [⟨0, 0⟩, ⟨0, 0⟩] ∧
      ¬ Ownership failedReconnects := by
  have hlisted : (afterCalls failedReconnects).doRemoveStorageConnections = [⟨0, 0⟩, ⟨0, 0⟩] := by
    decide +kernel
  refine ⟨by decide +kernel, hlisted, fun h => ?_⟩
  have hnodup := (h.closable _ (List.prefix_refl _)).1
  rw [hlisted] at hnodup
  exact absurd hnodup (by decide)

end WebDiff
