/-
  Passive health checks in consecutive mode, at the level of their atomic operations.

  A response is reported by `report_response`; a timer scans for ejections whose cooldown is over.
  The streak of a target and its generation share one word, changed by compare-exchange; the
  ejection of a target is an entry of a map, whose operations take the lock of the entry.

  * `packConsecutiveState`, `unpackConsecutiveState`, `nextConsecutiveGeneration`.
  * `PassiveEjection.fromPolicy`: the entry an ejection publishes.
  * `exec`: one atomic operation of a report or of a scan.
  * `checker`: reports and scans of any number of threads, over any proxies and targets.
-/
import Ferrum.Lib.Threads
import Mathlib.Data.Nat.Bitwise

namespace Ferrum.Health

open Lib

/-! ## The packed word -/

def consecutiveStreakBits : ℕ := 24
def consecutiveStreakMask : ℕ := 1 <<< consecutiveStreakBits - 1
def consecutiveStreakMax : ℕ := consecutiveStreakMask
def consecutiveGenMax : ℕ := 1 <<< (64 - consecutiveStreakBits) - 1

def packConsecutiveState (generation streak : ℕ) : ℕ :=
  (generation <<< consecutiveStreakBits) % 2 ^ 64 ||| (streak &&& consecutiveStreakMask)

def unpackConsecutiveState (packed : ℕ) : ℕ × ℕ :=
  (packed >>> consecutiveStreakBits, packed &&& consecutiveStreakMask)

def nextConsecutiveGeneration (generation : ℕ) : ℕ :=
  if consecutiveGenMax ≤ generation then 1 else generation + 1

theorem unpack_pack {generation streak : ℕ} (hg : generation ≤ consecutiveGenMax)
    (hs : streak ≤ consecutiveStreakMax) :
    unpackConsecutiveState (packConsecutiveState generation streak) = (generation, streak) := by
  have hg' : generation < 2 ^ 40 := Nat.lt_of_le_of_lt hg (by decide)
  have hs' : streak < 2 ^ 24 := Nat.lt_of_le_of_lt hs (by decide)
  have hm : consecutiveStreakMask = 2 ^ 24 - 1 := rfl
  have hp : packConsecutiveState generation streak = generation * 2 ^ 24 + streak := by
    rw [packConsecutiveState, hm, Nat.and_two_pow_sub_one_eq_mod, Nat.mod_eq_of_lt hs',
      consecutiveStreakBits, Nat.shiftLeft_eq, Nat.mod_eq_of_lt (by omega), ← Nat.shiftLeft_eq,
      ← Nat.shiftLeft_add_eq_or_of_lt hs', Nat.shiftLeft_eq]
  rw [unpackConsecutiveState, hp, hm, Nat.and_two_pow_sub_one_eq_mod, consecutiveStreakBits,
    Nat.shiftRight_eq_div_pow]
  ext <;> simp only <;> omega

/-! ## Ejections -/

/-- The passive policy of a proxy, in consecutive mode. -/
structure PassiveHealthCheck where
  unhealthyStatusCodes : List ℕ
  unhealthyThreshold : ℕ
  healthyAfterSeconds : ℕ
  consecutive5xxEjectionDisabled : Bool
  deriving DecidableEq, Repr

structure PassiveEjection where
  ejectedAtMs : ℕ
  ejectedAtTickMs : ℕ
  recoverAtTickMs : ℕ
  autoRecover : Bool
  consecutiveGeneration : Option ℕ
  deriving DecidableEq, Repr

def u32Max : ℕ := 2 ^ 32 - 1
def u64Max : ℕ := 2 ^ 64 - 1

/-- An ejection from the policy that caused it; without a representable deadline it has no timer. -/
def PassiveEjection.fromPolicy (healthyAfterSeconds ejectedAtTickMs ejectedAtMs : ℕ)
    (consecutiveGeneration : Option ℕ) : PassiveEjection :=
  let recoveryDelayMs := min (healthyAfterSeconds * 1000) u64Max
  let (autoRecover, recoverAtTickMs) :=
    if 0 < healthyAfterSeconds then
      if ejectedAtTickMs + recoveryDelayMs ≤ u64Max then (true, ejectedAtTickMs + recoveryDelayMs)
      else (false, u64Max)
    else (false, ejectedAtTickMs)
  ⟨ejectedAtMs, ejectedAtTickMs, recoverAtTickMs, autoRecover, consecutiveGeneration⟩

/-- Is the cooldown over? -/
def PassiveEjection.due (e : PassiveEjection) (now : ℕ) : Bool :=
  e.autoRecover && decide (e.recoverAtTickMs ≤ now)

/-- Does the entry belong to the generation, or to a later one? -/
def PassiveEjection.since (e : PassiveEjection) (generation : ℕ) : Bool :=
  e.consecutiveGeneration.any fun g => decide (generation ≤ g)

/-! ## Reports and scans -/

variable {K : Type*}

/-- Program points, with the locals of the report or scan; a key is a proxy with a target. -/
inductive Pc (K : Type*) where
  | idle
  -- record_consecutive_failure
  | failLoad (k : K) (cfg : PassiveHealthCheck)
  | failCas (k : K) (cfg : PassiveHealthCheck) (current : ℕ)
  -- the failing report: already published, clock
  | publishedGet (k : K) (cfg : PassiveHealthCheck) (generation : ℕ)
  | publishClock (k : K) (cfg : PassiveHealthCheck) (generation : ℕ)
  -- try_publish_consecutive_ejection, the last two with the entry locked
  | publishEntry (k : K) (generation : ℕ) (ejection : PassiveEjection)
  | publishLoad (k : K) (generation : ℕ) (ejection : PassiveEjection)
  | publishInsert (k : K) (generation : ℕ) (ejection : PassiveEjection)
  -- the failing report: is the generation still live?
  | publishVerify (k : K) (generation : ℕ)
  | retract (k : K) (generation : ℕ)
  -- record_consecutive_success, and the cleanup of the success
  | succLoad (k : K)
  | succCas (k : K) (current : ℕ)
  | succContains (k : K) (retired : ℕ)
  | succRemove (k : K) (retired : ℕ)
  -- recover_due_passive_ejections: what the scan has collected, what it still has to recover
  | scanClock
  | scan (now : ℕ) (pending : List (K × PassiveEjection))
  | recover (now : ℕ) (pending : List (K × PassiveEjection))
  -- remove_due_consecutive_ejection, with the entry locked
  | retireLoad (now : ℕ) (k : K) (generation : ℕ) (pending : List (K × PassiveEjection))
  | retireCas (now : ℕ) (k : K) (generation current : ℕ) (pending : List (K × PassiveEjection))
  | recoverRemove (now : ℕ) (k : K) (generation : ℕ) (pending : List (K × PassiveEjection))
  deriving DecidableEq, Repr

structure Shared (K : Type*) where
  consecutiveState : K → ℕ
  unhealthy : K → Option PassiveEjection
  /-- the thread that holds the lock of the entry -/
  locked : K → Option ℕ
  clock : ℕ
  wall : ℕ

namespace Shared

def generation (g : Shared K) (k : K) : ℕ := (unpackConsecutiveState (g.consecutiveState k)).1

def streak (g : Shared K) (k : K) : ℕ := (unpackConsecutiveState (g.consecutiveState k)).2

variable [DecidableEq K]

/-- A failure counts in the live generation. -/
def fail (g : Shared K) (k : K) (newStreak : ℕ) : Shared K :=
  { g with
    consecutiveState :=
      Function.update g.consecutiveState k (packConsecutiveState (g.generation k) newStreak) }

/-- A success or a timer recovery ends a generation. -/
def retire (g : Shared K) (k : K) (generation : ℕ) : Shared K :=
  { g with
    consecutiveState := Function.update g.consecutiveState k
      (packConsecutiveState (nextConsecutiveGeneration generation) 0) }

def lock (g : Shared K) (k : K) (i : ℕ) : Shared K :=
  { g with locked := Function.update g.locked k (some i) }

def unlock (g : Shared K) (k : K) : Shared K :=
  { g with locked := Function.update g.locked k none }

def setEntry (g : Shared K) (k : K) (e : Option PassiveEjection) : Shared K :=
  { g with unhealthy := Function.update g.unhealthy k e }

/-- `remove_if` on the map. -/
def removeIf (g : Shared K) (k : K) (p : PassiveEjection → Bool) : Shared K :=
  g.setEntry k ((g.unhealthy k).filter fun e => !p e)

/-- Is an ejection of the generation, or of a later one, published? -/
def published (g : Shared K) (k : K) (generation : ℕ) : Bool :=
  (g.unhealthy k).any fun e => e.since generation

end Shared

variable [DecidableEq K]

/-- The start of `report_response`. -/
def startReport (k : K) (statusCode : ℕ) (connectionError : Bool) :
    Option PassiveHealthCheck → Pc K
  | none => .idle
  | some cfg =>
    let failed := connectionError || cfg.unhealthyStatusCodes.contains statusCode
    if cfg.consecutive5xxEjectionDisabled && failed then .idle
    else if failed then .failLoad k cfg
    else .succLoad k

/-- One atomic operation of thread `i`; `none` if it waits for the lock of the entry, or for the
    iterator of the scan. -/
def exec (i : ℕ) (spurious : Bool) (g : Shared K) : Pc K → Option (Shared K × Pc K)
  | .idle => none
  | .failLoad k cfg => some (g, .failCas k cfg (g.consecutiveState k))
  | .failCas k cfg current =>
    if g.consecutiveState k = current ∧ spurious = false then
      let newStreak := min (min (g.streak k + 1) u32Max) consecutiveStreakMax
      some (g.fail k newStreak,
        if cfg.unhealthyThreshold ≤ newStreak then .publishedGet k cfg (g.generation k) else .idle)
    else some (g, .failLoad k cfg)
  | .publishedGet k cfg generation =>
    if g.locked k ≠ none then none
    else some (g, if g.published k generation then .idle else .publishClock k cfg generation)
  | .publishClock k cfg generation =>
    some (g, .publishEntry k generation
      (.fromPolicy cfg.healthyAfterSeconds g.clock g.wall (some generation)))
  | .publishEntry k generation ejection =>
    if g.locked k ≠ none then none
    else if g.published k generation then some (g, .idle)
    else some (g.lock k i, .publishLoad k generation ejection)
  | .publishLoad k generation ejection =>
    if g.generation k ≠ generation then some (g.unlock k, .idle)
    else some (g, .publishInsert k generation ejection)
  | .publishInsert k generation ejection =>
    some ((g.setEntry k (some ejection)).unlock k, .publishVerify k generation)
  | .publishVerify k generation =>
    some (g, if g.generation k ≠ generation then .retract k generation else .idle)
  | .retract k generation =>
    if g.locked k ≠ none then none
    else some (g.removeIf k fun e => e.consecutiveGeneration == some generation, .idle)
  | .succLoad k => some (g, .succCas k (g.consecutiveState k))
  | .succCas k current =>
    if g.consecutiveState k = current ∧ spurious = false then
      some (g.retire k (g.generation k), .succContains k (g.generation k))
    else some (g, .succLoad k)
  | .succContains k retired =>
    if g.locked k ≠ none then none
    else some (g, if (g.unhealthy k).isSome then .succRemove k retired else .idle)
  | .succRemove k retired =>
    if g.locked k ≠ none then none
    else some (g.removeIf k fun e => e.consecutiveGeneration == some retired, .idle)
  | .scanClock => some (g, .scan g.clock [])
  | .scan _ _ => none
  | .recover _ [] => some (g, .idle)
  | .recover now ((k, snapshotted) :: rest) =>
    if g.locked k ≠ none then none
    else match snapshotted.consecutiveGeneration with
    | some generation =>
      match g.unhealthy k with
      | some current =>
        if current.due now && current.recoverAtTickMs == snapshotted.recoverAtTickMs &&
            current.consecutiveGeneration == some generation then
          some (g.lock k i, .retireLoad now k generation rest)
        else some (g, .recover now rest)
      | none => some (g, .recover now rest)
    | none =>
      -- windowed ejections have no generation
      some (g.removeIf k fun e => e.due now && e.recoverAtTickMs == snapshotted.recoverAtTickMs &&
        e.consecutiveGeneration.isNone, .recover now rest)
  | .retireLoad now k generation rest =>
    some (g, if g.generation k ≠ generation then .recoverRemove now k generation rest
      else .retireCas now k generation (g.consecutiveState k) rest)
  | .retireCas now k generation current rest =>
    if g.consecutiveState k = current ∧ spurious = false then
      some (g.retire k generation, .recoverRemove now k generation rest)
    else some (g, .retireLoad now k generation rest)
  | .recoverRemove now k _ rest => some ((g.setEntry k none).unlock k, .recover now rest)

/-- A report or a scan starts; it goes on; the iterator of the scan yields the entry of `k`, or
    ends.  Which entries an iteration meets while others change the map is left open. -/
inductive Choice (K : Type*) where
  | report (k : K) (statusCode : ℕ) (connectionError : Bool) (cfg : Option PassiveHealthCheck)
  | startScan
  | go (spurious : Bool)
  | visit (k : K)
  | collected
  deriving DecidableEq, Repr

def checker : Program (Shared K) (Pc K) (Choice K) ClockAct where
  step i g pc
    | .report k statusCode connectionError cfg =>
      if pc matches .idle then some (g, startReport k statusCode connectionError cfg) else none
    | .startScan => if pc matches .idle then some (g, .scanClock) else none
    | .go spurious => exec i spurious g pc
    | .visit k =>
      match pc, g.locked k, g.unhealthy k with
      | .scan now pending, none, some e =>
        some (g, .scan now (if e.due now then pending ++ [(k, e)] else pending))
      | _, _, _ => none
    | .collected =>
      match pc with
      | .scan now pending => some (g, .recover now pending)
      | _ => none
  env g
    | .advance ms => some { g with clock := g.clock + ms }
    | .setWall epochMs => some { g with wall := epochMs }

abbrev Sys (K : Type*) := Pool (Shared K) (Pc K)
abbrev Act (K : Type*) := PoolAct (Choice K) ClockAct

/-- No target has been reported, nothing is in progress. -/
def Sys.init : Sys K :=
  ⟨⟨fun _ => 0, fun _ => none, fun _ => none, 0, 0⟩, fun _ => .idle⟩

def Sys.step : Sys K → Act K → Option (Sys K) := Pool.step checker

end Ferrum.Health
