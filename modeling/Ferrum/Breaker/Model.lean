/-
  The circuit breaker, at the level of its atomic operations.

  Every call is a sequence of atomic loads, stores, read-modify-writes and clock readings; a
  program point `Pc` carries the locals of the call.  A weak compare-exchange may fail
  spuriously.

  * `packFull` and its projections: generation, state and in-flight count in one word.
  * `exec`: one atomic operation of a call.
  * `breaker`: calls of any number of threads over one breaker, with the history the
    properties speak about.
-/
import Ferrum.Lib.Threads
import Mathlib.Data.Nat.Bitwise

namespace Ferrum.Breaker

open Lib

/-! ## The packed word -/

def stateClosed : ℕ := 0
def stateOpen : ℕ := 1
def stateHalfOpen : ℕ := 2

def stateShift : ℕ := 30
def countMask : ℕ := 1 <<< stateShift - 1

def packFull (generation state count : ℕ) : ℕ :=
  (generation <<< 32) ||| (state <<< stateShift) ||| (count &&& countMask)

def packedGeneration (packed : ℕ) : ℕ := (packed >>> 32) % 2 ^ 32

def packedState (packed : ℕ) : ℕ := (packed % 2 ^ 32) >>> stateShift

def packedCount (packed : ℕ) : ℕ := (packed % 2 ^ 32) &&& countMask

/-- `wrapping_add` on `u32`. -/
def wrappingAdd (a b : ℕ) : ℕ := (a + b) % 2 ^ 32

theorem countMask_eq : countMask = 2 ^ 30 - 1 := rfl

theorem packFull_eq {g s c : ℕ} (hs : s < 4) :
    packFull g s c = g * 2 ^ 32 + s * 2 ^ 30 + c % 2 ^ 30 := by
  have hc : c % 2 ^ 30 < 2 ^ 30 := Nat.mod_lt _ (by decide)
  rw [packFull, countMask_eq, Nat.and_two_pow_sub_one_eq_mod, Nat.lor_assoc, stateShift,
    ← Nat.shiftLeft_add_eq_or_of_lt hc, Nat.shiftLeft_eq s,
    ← Nat.shiftLeft_add_eq_or_of_lt (by omega), Nat.shiftLeft_eq]
  omega

theorem packedGeneration_eq (w : ℕ) : packedGeneration w = w / 2 ^ 32 % 2 ^ 32 := by
  rw [packedGeneration, Nat.shiftRight_eq_div_pow]

theorem packedState_eq (w : ℕ) : packedState w = w % 2 ^ 32 / 2 ^ 30 := by
  rw [packedState, Nat.shiftRight_eq_div_pow]; rfl

theorem packedCount_eq (w : ℕ) : packedCount w = w % 2 ^ 30 := by
  rw [packedCount, countMask_eq, Nat.and_two_pow_sub_one_eq_mod]; omega

section
variable {g s c : ℕ}

theorem packedGeneration_packFull (hs : s < 4) : packedGeneration (packFull g s c) = g % 2 ^ 32 := by
  rw [packedGeneration_eq, packFull_eq hs]; omega

theorem packedState_packFull (hs : s < 4) : packedState (packFull g s c) = s := by
  rw [packedState_eq, packFull_eq hs]; omega

theorem packedCount_packFull (hs : s < 4) : packedCount (packFull g s c) = c % 2 ^ 30 := by
  rw [packedCount_eq, packFull_eq hs]; omega

end

/-! ## The calls -/

structure CircuitBreakerConfig where
  failureThreshold : ℕ
  successThreshold : ℕ
  timeoutSeconds : ℕ
  failureStatusCodes : List ℕ
  halfOpenMaxRequests : ℕ
  tripOnConnectionErrors : Bool

namespace CircuitBreakerConfig

def u64Max : ℕ := 2 ^ 64 - 1

/-- `half_open_max_requests.clamp(1, COUNT_MASK)`. -/
def maxProbes (cfg : CircuitBreakerConfig) : ℕ := max 1 (min cfg.halfOpenMaxRequests countMask)

/-- `timeout_seconds.saturating_mul(1000)`. -/
def timeoutMs (cfg : CircuitBreakerConfig) : ℕ := min (cfg.timeoutSeconds * 1000) u64Max

end CircuitBreakerConfig

/-- The atomics of a breaker. -/
structure CircuitBreaker where
  packed : ℕ
  failureCount : ℕ
  successCount : ℕ
  lastFailureTickMs : ℕ
  lastFailureEpochMs : ℕ

def CircuitBreaker.new : CircuitBreaker := ⟨packFull 0 stateClosed 0, 0, 0, 0, 0⟩

inductive Call where
  | canExecute
  | recordSuccess (isHalfOpenProbe : Bool)
  | recordFailure (statusCode : ℕ) (connectionError isHalfOpenProbe : Bool)
  | recordNeutral (isHalfOpenProbe : Bool)
  deriving DecidableEq, Repr

/-- The `is_half_open_probe` of a call; a caller asks for admission without a probe. -/
def Call.isHalfOpenProbe : Call → Bool
  | .canExecute => false
  | .recordSuccess probe | .recordNeutral probe | .recordFailure _ _ probe => probe

/-- What a call returns: `Ok(probe)` or `Err(CircuitOpenError)` from `can_execute`, nothing from
    the others. -/
inductive Ret where
  | ok (probe : Bool)
  | circuitOpen
  | unit
  deriving DecidableEq, Repr

/-- What a caller of `release_half_open_slot` does next. -/
inductive AfterRelease where
  | ret
  | successRecheck
  | successClosed
  | failureClosed (tick : ℕ)
  deriving DecidableEq, Repr

/-- Program points, with the locals of the call. -/
inductive Pc where
  | done (r : Ret)
  -- can_execute
  | ceLoad
  | ceNow (packed : ℕ)
  | ceLast (packed now : ℕ)
  | ceCas (packed now : ℕ)
  | ceReset
  -- try_acquire_half_open_slot
  | slotLoad
  | slotCas (packed : ℕ)
  -- record_success
  | rsLoad (probe : Bool)
  | rsRecheck
  | rsAdd
  | closeLoad
  | closeCas (p : ℕ)
  | closeFailures
  | closeSuccesses
  | rsFailures
  | rsClear
  -- record_failure
  | rfLoad (probe : Bool)
  | rfClock (packed : ℕ) (probe : Bool)
  | rfTick (state tick epoch : ℕ) (probe : Bool)
  | rfEpoch (state tick epoch : ℕ) (probe : Bool)
  | rfAdd (tick : ℕ)
  | rfCheck (tick : ℕ)
  | rfGen (tick : ℕ)
  | rfCas (generation tick : ℕ)
  | rfVerify (generation : ℕ)
  | rfRollback (generation : ℕ)
  -- reopen_after_probe_failure
  | reopenReset (tick : ℕ)
  | reopenLoad (tick : ℕ)
  | reopenCas (p tick : ℕ)
  -- release_half_open_slot
  | relLoad (k : AfterRelease)
  | relCas (prev : ℕ) (k : AfterRelease)
  deriving DecidableEq, Repr

/-- What an atomic operation did to the breaker's word, or to the slot its call holds. -/
inductive Event where
  | quiet
  | halfOpened (now : ℕ)
  | admitted
  | closed
  | opened (tick : ℕ)
  | rolledBack
  | released
  /-- the slot was already cleared with all others -/
  | settled
  deriving DecidableEq, Repr

/-- Did the operation compare-exchange the word successfully? -/
def Event.isCas : Event → Bool
  | .quiet | .settled => false
  | _ => true

def AfterRelease.pc : AfterRelease → Pc
  | .ret => .done .unit
  | .successRecheck => .rsRecheck
  | .successClosed => .rsFailures
  | .failureClosed tick => .rfAdd tick

/-- A call up to its first atomic operation. -/
def Call.start (cfg : CircuitBreakerConfig) : Call → Pc
  | .canExecute => .ceLoad
  | .recordSuccess probe => .rsLoad probe
  | .recordNeutral probe => if probe then .relLoad .ret else .done .unit
  | .recordFailure statusCode connectionError probe =>
    let filtered : Pc := if probe then .relLoad .ret else .done .unit
    if connectionError then
      if cfg.tripOnConnectionErrors = false then filtered else .rfLoad probe
    else if cfg.failureStatusCodes.contains statusCode = false then filtered
    else .rfLoad probe

theorem Call.start_cases (cfg : CircuitBreakerConfig) (c : Call) :
    c.start cfg = .ceLoad ∧ c.isHalfOpenProbe = false ∨ c.start cfg = .rsLoad c.isHalfOpenProbe ∨
      c.start cfg = .rfLoad c.isHalfOpenProbe ∨
      c.start cfg = .relLoad .ret ∧ c.isHalfOpenProbe = true ∨ c.start cfg = .done .unit := by
  cases c with
  | canExecute => exact Or.inl ⟨rfl, rfl⟩
  | recordSuccess probe => exact Or.inr (Or.inl rfl)
  | recordNeutral probe => cases probe <;> simp [start, isHalfOpenProbe]
  | recordFailure status err probe =>
    simp only [start, isHalfOpenProbe]
    split_ifs with _ _ hp _ hp <;> simp [*]

/-- One atomic operation of a call. -/
def exec (cfg : CircuitBreakerConfig) (clock wall : ℕ) (spurious : Bool) (b : CircuitBreaker) :
    Pc → CircuitBreaker × Pc × Event
  | .done r => (b, .done r, .quiet)
  | .ceLoad =>
    let packed := b.packed
    if packedState packed = stateClosed then (b, .done (.ok false), .quiet)
    else if packedState packed = stateOpen then (b, .ceNow packed, .quiet)
    else if packedState packed = stateHalfOpen then (b, .slotLoad, .quiet)
    else (b, .done (.ok false), .quiet)
  | .ceNow packed => (b, .ceLast packed clock, .quiet)
  | .ceLast packed now =>
    if cfg.timeoutMs ≤ now - b.lastFailureTickMs then (b, .ceCas packed now, .quiet)
    else (b, .done .circuitOpen, .quiet)
  | .ceCas packed now =>
    let generation := packedGeneration packed
    if b.packed = packFull generation stateOpen 0 then
      ({ b with packed := packFull generation stateHalfOpen 1 }, .ceReset, .halfOpened now)
    else if packedState b.packed = stateHalfOpen then (b, .slotLoad, .quiet)
    else if packedState b.packed = stateClosed then (b, .done (.ok false), .quiet)
    else (b, .done .circuitOpen, .quiet)
  | .ceReset => ({ b with successCount := 0 }, .done (.ok true), .quiet)
  | .slotLoad =>
    let packed := b.packed
    if packedState packed = stateHalfOpen then
      if cfg.maxProbes ≤ packedCount packed then (b, .done .circuitOpen, .quiet)
      else (b, .slotCas packed, .quiet)
    else if packedState packed = stateOpen then (b, .done .circuitOpen, .quiet)
    else (b, .done (.ok false), .quiet)
  | .slotCas packed =>
    if b.packed = packed ∧ spurious = false then
      ({ b with packed := packFull (packedGeneration packed) stateHalfOpen (packedCount packed + 1) },
        .done (.ok true), .admitted)
    else (b, .slotLoad, .quiet)
  | .rsLoad probe =>
    if packedState b.packed = stateHalfOpen then
      (b, if probe then .relLoad .successRecheck else .rsRecheck, .quiet)
    else if packedState b.packed = stateOpen ∧ probe then (b, .relLoad .ret, .quiet)
    else if packedState b.packed = stateClosed then
      (b, if probe then .relLoad .successClosed else .rsFailures, .quiet)
    else (b, .done .unit, .quiet)
  | .rsRecheck =>
    (b, if packedState b.packed ≠ stateHalfOpen then .done .unit else .rsAdd, .quiet)
  | .rsAdd =>
    let successes := wrappingAdd b.successCount 1
    ({ b with successCount := successes },
      if cfg.successThreshold ≤ successes then .closeLoad else .done .unit, .quiet)
  | .closeLoad =>
    (b, if packedState b.packed ≠ stateHalfOpen then .done .unit else .closeCas b.packed, .quiet)
  | .closeCas p =>
    if b.packed = p ∧ spurious = false then
      ({ b with packed := packFull (packedGeneration p) stateClosed 0 }, .closeFailures, .closed)
    else (b, .closeLoad, .quiet)
  | .closeFailures => ({ b with failureCount := 0 }, .closeSuccesses, .quiet)
  | .closeSuccesses => ({ b with successCount := 0 }, .done .unit, .quiet)
  | .rsFailures => (b, if 0 < b.failureCount then .rsClear else .done .unit, .quiet)
  | .rsClear => ({ b with failureCount := 0 }, .done .unit, .quiet)
  | .rfLoad probe => (b, .rfClock b.packed probe, .quiet)
  | .rfClock packed probe =>
    let state := packedState packed
    if state = stateClosed ∨ state = stateHalfOpen then (b, .rfTick state clock wall probe, .quiet)
    else if state = stateOpen ∧ probe then (b, .relLoad .ret, .quiet)
    else (b, .done .unit, .quiet)
  | .rfTick state tick epoch probe =>
    ({ b with lastFailureTickMs := tick }, .rfEpoch state tick epoch probe, .quiet)
  | .rfEpoch state tick epoch probe =>
    ({ b with lastFailureEpochMs := epoch },
      if state = stateClosed then
        if probe then .relLoad (.failureClosed tick) else .rfAdd tick
      else .reopenReset tick, .quiet)
  | .rfAdd tick =>
    let failures := wrappingAdd b.failureCount 1
    ({ b with failureCount := failures },
      if cfg.failureThreshold ≤ failures then .rfCheck tick else .done .unit, .quiet)
  | .rfCheck tick =>
    (b, if b.failureCount < cfg.failureThreshold then .done .unit else .rfGen tick, .quiet)
  | .rfGen tick => (b, .rfCas (packedGeneration b.packed) tick, .quiet)
  | .rfCas generation tick =>
    if b.packed = packFull generation stateClosed 0 then
      ({ b with packed := packFull (wrappingAdd generation 1) stateOpen 0 },
        .rfVerify generation, .opened tick)
    else (b, .done .unit, .quiet)
  | .rfVerify generation =>
    (b, if b.failureCount < cfg.failureThreshold then .rfRollback generation else .done .unit, .quiet)
  | .rfRollback generation =>
    if b.packed = packFull (wrappingAdd generation 1) stateOpen 0 then
      ({ b with packed := packFull (wrappingAdd generation 1) stateClosed 0 },
        .done .unit, .rolledBack)
    else (b, .done .unit, .quiet)
  | .reopenReset tick => ({ b with successCount := 0 }, .reopenLoad tick, .quiet)
  | .reopenLoad tick =>
    if packedState b.packed = stateOpen then (b, .done .unit, .settled)
    else (b, .reopenCas b.packed tick, .quiet)
  | .reopenCas p tick =>
    if b.packed = p ∧ spurious = false then
      ({ b with packed := packFull (wrappingAdd (packedGeneration p) 1) stateOpen 0 },
        .done .unit, .opened tick)
    else (b, .reopenLoad tick, .quiet)
  | .relLoad k =>
    if packedCount b.packed = 0 then (b, k.pc, .settled) else (b, .relCas b.packed k, .quiet)
  | .relCas prev k =>
    if b.packed = prev ∧ spurious = false then
      ({ b with
        packed := packFull (packedGeneration prev) (packedState prev) (packedCount prev - 1) },
        k.pc, .released)
    -- the failed exchange returns the word for the next round
    else if packedCount b.packed = 0 then (b, k.pc, .settled)
    else (b, .relCas b.packed k, .quiet)

/-! ## The system -/

/-- What the properties speak about besides the atomics. -/
structure History where
  /-- how often OPEN was published, and the tick of the call that did so last -/
  opens : ℕ
  openTick : ℕ
  /-- for every OPEN → HALF_OPEN, the tick of the OPEN and the tick of the transition -/
  halfOpens : List (ℕ × ℕ)
  /-- the threads with a probe not yet settled; those of the current HALF_OPEN cycle -/
  unsettled : Finset ℕ
  inCycle : Finset ℕ

def History.record (h : History) (i : ℕ) : Event → History
  | .quiet | .closed | .rolledBack => h
  | .halfOpened now =>
    { h with
      halfOpens := (h.openTick, now) :: h.halfOpens
      unsettled := insert i h.unsettled, inCycle := {i} }
  | .admitted => { h with unsettled := insert i h.unsettled, inCycle := insert i h.inCycle }
  | .opened tick =>
    { h with
      opens := h.opens + 1, openTick := tick
      unsettled := h.unsettled.erase i, inCycle := h.inCycle.erase i }
  | .released | .settled =>
    { h with unsettled := h.unsettled.erase i, inCycle := h.inCycle.erase i }

/-- The shared state: the breaker, the monotonic and the wall clock, and the history. -/
structure Shared where
  breaker : CircuitBreaker
  clock : ℕ
  wall : ℕ
  hist : History

/-- A thread: where its call is, and the successful exchanges of that call, as `(old, new)`. -/
structure Thread where
  pc : Pc
  cas : List (ℕ × ℕ)

/-- A thread starts a call, or goes on with it. -/
inductive Choice where
  | call (c : Call)
  | go (spurious : Bool)
  deriving DecidableEq, Repr

/-- The operation of thread `i` at `t.pc`. -/
def Thread.exec (cfg : CircuitBreakerConfig) (i : ℕ) (g : Shared) (t : Thread) (spurious : Bool) :
    Shared × Thread :=
  let (b, pc, event) := Breaker.exec cfg g.clock g.wall spurious g.breaker t.pc
  ({ g with breaker := b, hist := g.hist.record i event },
    ⟨pc, if event.isCas then t.cas ++ [(g.breaker.packed, b.packed)] else t.cas⟩)

def breaker (cfg : CircuitBreakerConfig) : Program Shared Thread Choice ClockAct where
  step i g t
    | .call c =>
      match t.pc with
      | .done _ => some (g, ⟨c.start cfg, []⟩)
      | _ => none
    | .go spurious =>
      match t.pc with
      | .done _ => none
      | _ => some (t.exec cfg i g spurious)
  env g
    | .advance ms => some { g with clock := g.clock + ms }
    | .setWall epochMs => some { g with wall := epochMs }

abbrev Sys := Pool Shared Thread
abbrev Act := PoolAct Choice ClockAct

/-- A new breaker with no calls in progress. -/
def Sys.init : Sys := ⟨⟨.new, 0, 0, ⟨0, 0, [], ∅, ∅⟩⟩, fun _ => ⟨.done .unit, []⟩⟩

def Sys.step (cfg : CircuitBreakerConfig) : Sys → Act → Option Sys := Pool.step (breaker cfg)

end Ferrum.Breaker
