/-
  The process-local replay lane, at the level of its atomic operations.

  A proof is admitted once: its marker stays in a map of shards until it expires.  The map is read
  and written under the guard of a shard; the number of retained markers, and the bounds on their
  expiries, are atomic words next to it.  A call that finds the lane full prunes the markers that
  have expired, once, and tries again.

  * `exec`: one atomic operation of `admit_at`, or of the prune it makes.
  * `lane`: calls of any number of threads, over any markers.
-/
import Ferrum.Lib.Threads
import Ferrum.Lib.HashMap

namespace Ferrum.Replay

open Lib

/-- The last one is for authorities outside the process. -/
inductive ReplayAdmission where
  | admitted | replay | capacityRefused | authorityUnavailable
  deriving DecidableEq, Repr

def u64Max : ℕ := 2 ^ 64 - 1

/-- `fetch_add(1)` on a word of 64 bits. -/
def fetchAdd (n : ℕ) : ℕ := (n + 1) % 2 ^ 64

/-- `fetch_sub(1)` on a word of 64 bits. -/
def fetchSub (n : ℕ) : ℕ := (n + u64Max) % 2 ^ 64

/-- A call of `admit_at`, with its locals. -/
structure Call (K : Type*) where
  key : K
  nowMillis : ℕ
  expiresAt : ℕ
  maxEntries : UInt64
  pruned : Bool
  deriving DecidableEq, Repr

/-- The call at `nowMillis` on the monotonic clock. -/
def Call.admitAt {K : Type*} (retention : ℕ) (key : K) (maxEntries : UInt64) (nowMillis : ℕ) :
    Call K :=
  let retentionMillis := min retention u64Max
  ⟨key, nowMillis, min (nowMillis + retentionMillis) u64Max, maxEntries, false⟩

/-- Active writers and completed revisions. -/
abbrev WriterEpoch := ℕ × ℕ

/-- Program points, with the locals of the call. -/
inductive Pc (K : Type*) where
  | idle
  | returned (c : Call K) (r : ReplayAdmission)
  -- admit_at, up to the entry guard
  | entry (c : Call K)
  -- an expired marker, under its guard
  | occupied (c : Call K) (existing : ℕ)
  | refreshBegin (c : Call K) (existing : ℕ)
  | refreshInsert (c : Call K) (existing : ℕ)
  -- no marker, under the guard of where it would be: try_reserve_slot, then the insertion
  | reserveLoad (c : Call K)
  | reserveCas (c : Call K) (count : ℕ)
  | insertBegin (c : Call K)
  | insert (c : Call K)
  -- finish_expiry_write; a refresh still has its guard
  | noteNewest (c : Call K) (expiresAt : ℕ) (guarded : Bool)
  | noteEarliest (c : Call K) (expiresAt : ℕ) (guarded : Bool)
  | endRevision (c : Call K) (expiresAt : ℕ) (guarded : Bool)
  | endActive (c : Call K) (expiresAt : ℕ) (guarded : Bool)
  | dropGuard (c : Call K) (expiresAt : ℕ)
  -- over the cap, still under the guard
  | full (c : Call K) (existing : Option ℕ)
  -- prune_expired_at
  | pruneLoad (c : Call K)
  | pruneLock (c : Call K)
  | pruneRecheck (c : Call K)
  | pruneScans (c : Call K)
  | epochActive (c : Call K)
  | epochCompleted (c : Call K) (active : ℕ)
  | scan (c : Call K) (epoch : WriterEpoch) (shard : ℕ) (expired : List K) (liveMin : ℕ)
  | reclaim (c : Call K) (epoch : WriterEpoch) (expired : List K) (liveMin : ℕ)
  | subtract (c : Call K) (epoch : WriterEpoch) (expired : List K) (liveMin : ℕ)
  | current (c : Call K) (epoch : WriterEpoch) (key : K) (expired : List K) (liveMin : ℕ)
  -- try_publish_later_bound
  | publishActive (c : Call K) (epoch : WriterEpoch) (liveMin : ℕ)
  | publishCompleted (c : Call K) (epoch : WriterEpoch) (liveMin active : ℕ)
  | publishStore (c : Call K) (epoch : WriterEpoch) (liveMin : ℕ)
  | verifyActive (c : Call K) (epoch : WriterEpoch)
  | verifyCompleted (c : Call K) (epoch : WriterEpoch) (active : ℕ)
  | publishZero (c : Call K)
  | pruneUnlock (c : Call K)
  deriving DecidableEq, Repr

/-- An admission: of which call, until when, and when. -/
structure Admission (K : Type*) where
  call : Call K
  expiresAt : ℕ
  clock : ℕ
  deriving DecidableEq, Repr

/-- The shared state of `n` shards; `admissions` are the insertions made so far, the last first. -/
structure ProcessReplayLane (K : Type*) (n : ℕ) where
  entries : HMap K ℕ
  entryCount : ℕ
  newestExpiryMillis : ℕ
  earliestExpiryMillis : ℕ
  activeWriters : ℕ
  completedRevisions : ℕ
  pruneScans : ℕ
  /-- the thread that prunes -/
  pruneLock : Option ℕ
  /-- the thread that holds the guard of the shard -/
  guard : Fin n → Option ℕ
  clock : ℕ
  admissions : List (Admission K)

variable {K : Type*} {n : ℕ}

namespace ProcessReplayLane

def new : ProcessReplayLane K n :=
  ⟨HMap.empty, 0, 0, u64Max, 0, 0, 0, none, fun _ => none, 0, []⟩

def hold (g : ProcessReplayLane K n) (j : Fin n) (i : ℕ) : ProcessReplayLane K n :=
  { g with guard := Function.update g.guard j (some i) }

def release (g : ProcessReplayLane K n) (j : Fin n) : ProcessReplayLane K n :=
  { g with guard := Function.update g.guard j none }

variable [DecidableEq K]

def mark (g : ProcessReplayLane K n) (c : Call K) (expiresAt : ℕ) : ProcessReplayLane K n :=
  { g with
    entries := g.entries.insert c.key expiresAt
    admissions := ⟨c, expiresAt, g.clock⟩ :: g.admissions }

def drop (g : ProcessReplayLane K n) (key : K) : ProcessReplayLane K n :=
  { g with entries := g.entries.remove key }

end ProcessReplayLane

/-- The body of `fetch_update`: is there room above `count`? -/
def Pc.reserve (c : Call K) (count : ℕ) : Pc K :=
  if count < c.maxEntries.toNat then .reserveCas c count else .full c none

variable [DecidableEq K]

/-- One atomic operation of thread `i`; `none` if it waits for a guard or for the prune lock. -/
def exec (shard : K → Fin n) (i : ℕ) (spurious : Bool) (g : ProcessReplayLane K n) :
    Pc K → Option (ProcessReplayLane K n × Pc K)
  | .idle | .returned _ _ => none
  | .entry c =>
    if g.guard (shard c.key) ≠ none then none
    else match g.entries.get c.key with
      | some existing =>
        if c.nowMillis < existing then some (g, .returned c .replay)
        else some (g.hold (shard c.key) i, .occupied c existing)
      | none => some (g.hold (shard c.key) i, .reserveLoad c)
  | .occupied c existing =>
    some (g, if g.entryCount ≤ c.maxEntries.toNat then .refreshBegin c existing
      else .full c (some existing))
  | .refreshBegin c existing =>
    some ({ g with activeWriters := fetchAdd g.activeWriters }, .refreshInsert c existing)
  | .refreshInsert c existing =>
    let refreshed := max existing c.expiresAt
    some (g.mark c refreshed, .noteNewest c refreshed true)
  | .reserveLoad c => some (g, .reserve c g.entryCount)
  | .reserveCas c count =>
    if g.entryCount = count ∧ spurious = false then
      some ({ g with entryCount := count + 1 }, .insertBegin c)
    -- the failed exchange returns the count for the next round
    else some (g, .reserve c g.entryCount)
  | .insertBegin c => some ({ g with activeWriters := fetchAdd g.activeWriters }, .insert c)
  | .insert c =>
    some ((g.mark c c.expiresAt).release (shard c.key), .noteNewest c c.expiresAt false)
  | .noteNewest c e guarded =>
    some ({ g with newestExpiryMillis := max g.newestExpiryMillis e }, .noteEarliest c e guarded)
  | .noteEarliest c e guarded =>
    some ({ g with earliestExpiryMillis := min g.earliestExpiryMillis e },
      .endRevision c e guarded)
  | .endRevision c e guarded =>
    some ({ g with completedRevisions := fetchAdd g.completedRevisions }, .endActive c e guarded)
  | .endActive c e guarded =>
    some ({ g with activeWriters := fetchSub g.activeWriters },
      if guarded then .dropGuard c e else .returned c .admitted)
  | .dropGuard c _ => some (g.release (shard c.key), .returned c .admitted)
  | .full c _ =>
    some (g.release (shard c.key),
      if c.pruned then .returned c .capacityRefused else .pruneLoad { c with pruned := true })
  | .pruneLoad c =>
    some (g, if c.nowMillis < g.earliestExpiryMillis then .entry c else .pruneLock c)
  | .pruneLock c =>
    if g.pruneLock ≠ none then none else some ({ g with pruneLock := some i }, .pruneRecheck c)
  | .pruneRecheck c =>
    some (g, if c.nowMillis < g.earliestExpiryMillis then .pruneUnlock c else .pruneScans c)
  | .pruneScans c => some ({ g with pruneScans := fetchAdd g.pruneScans }, .epochActive c)
  | .epochActive c => some (g, .epochCompleted c g.activeWriters)
  | .epochCompleted c active => some (g, .scan c (active, g.completedRevisions) 0 [] u64Max)
  | .scan c epoch j expired liveMin =>
    if hj : j < n then
      if g.guard ⟨j, hj⟩ ≠ none then none
      else
        -- the iterator holds the guard of a shard while it yields its entries
        let visited := g.entries.toList.filter fun e => shard e.1 = ⟨j, hj⟩
        let (old, live) := visited.partition fun e => e.2 ≤ c.nowMillis
        some (g, .scan c epoch (j + 1) (expired ++ old.map Prod.fst)
          (live.foldl (fun least e => min least e.2) liveMin))
    else some (g, .reclaim c epoch expired liveMin)
  | .reclaim c epoch [] liveMin => some (g, .publishActive c epoch liveMin)
  | .reclaim c epoch (key :: expired) liveMin =>
    -- `remove_if`, with the guard of the shard
    if g.guard (shard key) ≠ none then none
    else if (g.entries.get key).any fun e => e ≤ c.nowMillis then
      some (g.drop key, .subtract c epoch expired liveMin)
    else some (g, .current c epoch key expired liveMin)
  | .subtract c epoch expired liveMin =>
    some ({ g with entryCount := fetchSub g.entryCount }, .reclaim c epoch expired liveMin)
  | .current c epoch key expired liveMin =>
    if g.guard (shard key) ≠ none then none
    else some (g, .reclaim c epoch expired ((g.entries.get key).elim liveMin (min liveMin)))
  | .publishActive c epoch liveMin =>
    some (g, if epoch.1 = 0 then .publishCompleted c epoch liveMin g.activeWriters
      else .pruneUnlock c)
  | .publishCompleted c epoch liveMin active =>
    some (g, if (active, g.completedRevisions) = epoch then .publishStore c epoch liveMin
      else .pruneUnlock c)
  | .publishStore c epoch liveMin =>
    some ({ g with earliestExpiryMillis := liveMin }, .verifyActive c epoch)
  | .verifyActive c epoch => some (g, .verifyCompleted c epoch g.activeWriters)
  | .verifyCompleted c epoch active =>
    some (g, if (active, g.completedRevisions) = epoch then .pruneUnlock c else .publishZero c)
  | .publishZero c => some ({ g with earliestExpiryMillis := 0 }, .pruneUnlock c)
  | .pruneUnlock c => some ({ g with pruneLock := none }, .entry c)

/-- A thread calls `admit_at`, or goes on with the call. -/
inductive Choice (K : Type*) where
  | admitAt (key : K) (maxEntries : UInt64)
  | go (spurious : Bool)
  deriving DecidableEq, Repr

def Pc.isDone : Pc K → Bool
  | .idle | .returned _ _ => true
  | _ => false

/-- All calls have one retention, and read the clock when they start. -/
def lane (shard : K → Fin n) (retention : ℕ) :
    Program (ProcessReplayLane K n) (Pc K) (Choice K) ClockAct where
  step i g pc
    | .admitAt key maxEntries =>
      if pc.isDone then some (g, .entry (.admitAt retention key maxEntries g.clock)) else none
    | .go spurious => exec shard i spurious g pc
  env g
    | .advance ms => some { g with clock := g.clock + ms }
    | .setWall _ => some g

abbrev Sys (K : Type*) (n : ℕ) := Pool (ProcessReplayLane K n) (Pc K)
abbrev Act (K : Type*) := PoolAct (Choice K) ClockAct

/-- An empty lane, and no call. -/
def Sys.init : Sys K n := ⟨.new, fun _ => .idle⟩

def Sys.step (shard : K → Fin n) (retention : ℕ) : Sys K n → Act K → Option (Sys K n) :=
  Pool.step (lane shard retention)

end Ferrum.Replay
