/-
  Connection admission of pooled HTTP clients, at the level of its map accesses.

  A dispatch to a destination with a connection cap leases the lane of the destination while it may
  dial.  The connector looks the lane up when it opens a socket, and takes a slot of the counter of
  the lane's policy port.  Entries of both maps are made by their first holder and removed by their
  last one; every access to a map is atomic under the lock of a shard.

  * `admissionStep`: one access of `lease_lane`, `admit` or `try_acquire`, or the drop of a lease
    or of a guard.
  * `admission`: calls of any number of threads, with what has been published for each key.
-/
import Ferrum.Lib.Refcount
import Mathlib.Data.Prod.Lex

namespace Ferrum.Conn

open Lib

/-! ## Keys -/

/-- The case mapping of characters is that of the standard library, `char::to_lowercase`. -/
structure CaseTable where
  toLowercase : Char → List Char

/-- `strip_prefix('[')` and `strip_suffix(']')`, if they apply. -/
def stripBrackets (host : List Char) : List Char :=
  let host := match host with
    | '[' :: stripped => stripped
    | _ => host
  if host.getLast? = some ']' then host.dropLast else host

def pushNormalizedHost (table : CaseTable) (buf host : List Char) : List Char :=
  buf ++ (stripBrackets host).flatMap table.toLowercase

def writeLaneKey (table : CaseTable) (buf host : List Char) (dialPort : UInt16) : List Char :=
  pushNormalizedHost table buf host ++ '|' :: Nat.toDigits 10 dialPort.toNat

structure BackendConnKey where
  host : List Char
  port : UInt16
  deriving DecidableEq, Repr

def BackendConnKey.new (table : CaseTable) (host : List Char) (port : UInt16) : BackendConnKey :=
  ⟨pushNormalizedHost table [] host, port⟩

/-! ## Lanes -/

/-- The cap and the policy port that govern new sockets to a destination. -/
structure ReqwestLane where
  cap : UInt32
  policyPort : UInt16
  deriving DecidableEq, Repr

/-- By cap, then by policy port: the strictest lane first. -/
def ReqwestLane.rank (l : ReqwestLane) : ℕ ×ₗ ℕ := toLex (l.cap.toNat, l.policyPort.toNat)

theorem ReqwestLane.rank_injective : Function.Injective ReqwestLane.rank := by
  rintro ⟨c, p⟩ ⟨c', p'⟩ h
  simp only [rank, toLex_inj, Prod.mk.injEq, UInt32.toNat_inj, UInt16.toNat_inj] at h
  rw [h.1, h.2]

instance : LinearOrder ReqwestLane := LinearOrder.lift' ReqwestLane.rank ReqwestLane.rank_injective

structure ReqwestDialLaneState where
  generation : ℕ
  lane : ReqwestLane
  leases : UInt64
  deriving DecidableEq, Repr

structure ReqwestDialLaneEntry where
  key : List Char
  state : ReqwestDialLaneState
  deriving DecidableEq, Repr

/-- Fold one publication into the lane and take a lease. -/
def ReqwestDialLaneEntry.acquire (e : ReqwestDialLaneEntry) (generation : ℕ) (lane : ReqwestLane) :
    ReqwestDialLaneEntry :=
  let state := { e.state with leases := e.state.leases + 1 }
  if state.leases = 1 ∨ generation > state.generation then
    { e with state := { state with generation := generation, lane := lane } }
  else if generation = state.generation ∧ lane < state.lane then
    { e with state := { state with lane := lane } }
  else { e with state := state }

/-- Release one lease; `true` when the entry is now idle. -/
def ReqwestDialLaneEntry.releaseIsIdle (e : ReqwestDialLaneEntry) : ReqwestDialLaneEntry × Bool :=
  let state := { e.state with leases := e.state.leases - 1 }
  ({ e with state := state }, state.leases = 0)

/-! ## Counters -/

structure BackendConnCounter where
  key : BackendConnKey
  count : UInt64
  deriving DecidableEq, Repr

/-- The counters of the connections that are open. -/
structure BackendConnectionLimiter where
  inner : HMap BackendConnKey BackendConnCounter

structure BackendConnectionLimitExceeded where
  current : UInt64
  cap : UInt64
  deriving DecidableEq, Repr

/-- A slot of the counter at `key`, which is under its lock. -/
def BackendConnectionLimiter.reserve (m : BackendConnectionLimiter) (key : BackendConnKey)
    (existing : BackendConnCounter) (cap : UInt64) :
    BackendConnectionLimiter × Except BackendConnectionLimitExceeded BackendConnKey :=
  if existing.count ≥ cap then (m, .error ⟨existing.count, cap⟩)
  else (⟨m.inner.insert key { existing with count := existing.count + 1 }⟩, .ok existing.key)

/-- The hit path of `acquire_slot`; `none` if the key has no counter. -/
def BackendConnectionLimiter.acquireGet (m : BackendConnectionLimiter) (key : BackendConnKey)
    (cap : UInt32) :
    Option (BackendConnectionLimiter × Except BackendConnectionLimitExceeded BackendConnKey) :=
  if cap.toUInt64 = 0 then some (m, .error ⟨0, 0⟩)
  else (m.inner.get key).map fun existing => m.reserve key existing cap.toUInt64

/-- The cold path of `acquire_slot`. -/
def BackendConnectionLimiter.acquireEntry (m : BackendConnectionLimiter) (key : BackendConnKey)
    (cap : UInt32) :
    BackendConnectionLimiter × Except BackendConnectionLimitExceeded BackendConnKey :=
  let entry := (m.inner.get key).getD ⟨key, 0⟩
  BackendConnectionLimiter.reserve ⟨m.inner.orInsert key ⟨key, 0⟩⟩ key entry cap.toUInt64

/-- The drop of a guard: release the slot, and evict the counter if this was the last one. -/
def BackendConnectionLimiter.drop (m : BackendConnectionLimiter) (key : BackendConnKey) :
    BackendConnectionLimiter :=
  match m.inner.get key with
  | none => m
  | some current =>
    if current.count = 1 then ⟨m.inner.remove key⟩
    else ⟨m.inner.insert key { current with count := current.count - 1 }⟩

/-! ## Admission -/

structure ReqwestConnectionAdmission where
  limiter : BackendConnectionLimiter
  lanes : HMap (List Char) (Arc ReqwestDialLaneEntry)

namespace ReqwestConnectionAdmission

def laneFor (g : ReqwestConnectionAdmission) (table : CaseTable) (host : List Char)
    (port : UInt16) : Option ReqwestLane :=
  (g.lanes.get (writeLaneKey table [] host port)).map fun entry => entry.value.state.lane

/-- A lease on an entry that is under its lock. -/
def lease (g : ReqwestConnectionAdmission) (key : List Char) (existing : Arc ReqwestDialLaneEntry)
    (generation : ℕ) (lane : ReqwestLane) : Option (ReqwestConnectionAdmission × List Char) :=
  existing.clone.map fun entry =>
    ({ g with lanes := g.lanes.insert key ⟨entry.strong, entry.value.acquire generation lane⟩ },
      entry.value.key)

/-- The drop of a lease.  Its handle goes with it, so that there are never fewer in the source. -/
def dropLease (g : ReqwestConnectionAdmission) (key : List Char) : ReqwestConnectionAdmission :=
  match g.lanes.get key with
  | none => g
  | some entry =>
    let (value, idle) := entry.value.releaseIsIdle
    if idle then { g with lanes := g.lanes.remove key }
    else { g with lanes := g.lanes.insert key ⟨entry.strong - 1, value⟩ }

end ReqwestConnectionAdmission

/-- What admission reads of the destination of a socket. -/
structure Uri where
  host : Option (List Char)
  portU16 : Option UInt16
  schemeStr : Option String
  deriving DecidableEq, Repr

def Uri.port (dst : Uri) : UInt16 :=
  match dst.portU16 with
  | some port => port
  | none =>
    match dst.schemeStr with
    | some "https" => 443
    | _ => 80

/-! ## Threads -/

/-- Where a thread is: between two accesses of a call, or with what a call has returned. -/
inductive Pc where
  | idle
  -- lease_lane
  | leaseGet (key : List Char) (generation : ℕ) (lane : ReqwestLane)
  | leaseEntry (key : List Char) (generation : ℕ) (lane : ReqwestLane)
  | lease (key : List Char)
  -- admit
  | laneFor (host : List Char) (port : UInt16)
  -- acquire_slot
  | slotGet (key : BackendConnKey) (cap : UInt32)
  | slotEntry (key : BackendConnKey) (cap : UInt32)
  | unlimited
  | guard (key : BackendConnKey)
  | refused (limit : BackendConnectionLimitExceeded)
  deriving DecidableEq, Repr

/-- A thread makes a call, or goes on: with the call, or by dropping what it has returned. -/
inductive Choice where
  | leaseLane (configGeneration : ℕ) (dialHost : List Char) (dialPort policyPort : UInt16)
    (cap : UInt32)
  | admitDst (dst : Uri)
  | tryAcquire (host : List Char) (port : UInt16) (cap : Option UInt32)
  | go
  deriving DecidableEq, Repr

def Pc.slot : Except BackendConnectionLimitExceeded BackendConnKey → Pc
  | .ok key => .guard key
  | .error limit => .refused limit

def admissionStep (table : CaseTable) (g : ReqwestConnectionAdmission) :
    Pc → Choice → Option (ReqwestConnectionAdmission × Pc)
  | .idle, .leaseLane configGeneration dialHost dialPort policyPort cap =>
    some (g, .leaseGet (writeLaneKey table [] dialHost dialPort) configGeneration ⟨cap, policyPort⟩)
  | .leaseGet key generation lane, .go =>
    match g.lanes.get key with
    | some existing => (g.lease key existing generation lane).map fun (g, key) => (g, .lease key)
    | none => some (g, .leaseEntry key generation lane)
  | .leaseEntry key generation lane, .go =>
    let occupied := (g.lanes.get key).getD (.new ⟨key, generation, lane, 0⟩)
    (g.lease key occupied generation lane).map fun (g, key) => (g, .lease key)
  | .lease key, .go => some (g.dropLease key, .idle)
  | .idle, .admitDst dst =>
    match dst.host with
    | none => some (g, .unlimited)
    | some host => some (g, .laneFor host dst.port)
  | .laneFor host port, .go =>
    match g.laneFor table host port with
    | none => some (g, .unlimited)
    | some lane => some (g, .slotGet (.new table host lane.policyPort) lane.cap)
  | .idle, .tryAcquire host port cap =>
    match cap with
    | none => some (g, .unlimited)
    | some cap => some (g, .slotGet (.new table host port) cap)
  | .slotGet key cap, .go =>
    match g.limiter.acquireGet key cap with
    | some (limiter, r) => some ({ g with limiter := limiter }, .slot r)
    | none => some (g, .slotEntry key cap)
  | .slotEntry key cap, .go =>
    let (limiter, r) := g.limiter.acquireEntry key cap
    some ({ g with limiter := limiter }, .slot r)
  | .guard key, .go => some ({ g with limiter := g.limiter.drop key }, .idle)
  | .unlimited, .go | .refused _, .go => some (g, .idle)
  | _, _ => none

/-- The generation and the lane of a publication. -/
abbrev Publication := ℕ × ReqwestLane

/-- Admission, with what has been published for each key since its entry was created. -/
structure Published where
  admission : ReqwestConnectionAdmission
  published : List Char → List Publication

/-- The publications after a step: an entry begins with the one that creates it. -/
def publish (g : Published) : Pc → List Char → List Publication
  | .leaseGet key generation lane =>
    if (g.admission.lanes.get key).isSome then
      Function.update g.published key (g.published key ++ [(generation, lane)])
    else g.published
  | .leaseEntry key generation lane =>
    if (g.admission.lanes.get key).isSome then
      Function.update g.published key (g.published key ++ [(generation, lane)])
    else Function.update g.published key [(generation, lane)]
  | _ => g.published

def admission (table : CaseTable) : Program Published Pc Choice Empty where
  step _ g pc c := (admissionStep table g.admission pc c).map fun (admission, pc') =>
    (⟨admission, publish g pc⟩, pc')
  env _ := nofun

def init : Pool Published Pc := ⟨⟨⟨⟨.empty⟩, .empty⟩, fun _ => []⟩, fun _ => .idle⟩

end Ferrum.Conn
