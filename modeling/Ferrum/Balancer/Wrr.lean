/-
  Weighted round-robin.

  A lane keeps the schedules of a few healthy sets that it has seen.  A selection goes through the
  schedule of its healthy set; without one it publishes a schedule, or draws lots among the targets
  by weight.  Bitsets and vectors have their own steps for this (`WrrPath`).

  * `WrrLaneState.choose`: what a selection does with the members of its healthy set.
  * `select_eq`: both paths do that, in every lane whose schedules are as they were published.
  * `wrr_history`: what the selections of a history return.
-/
import Ferrum.Balancer.Pool
import Ferrum.Lib.Search

namespace Ferrum.Balancer

open Lib List Selector

/-- What is selected: an `Arc` of a target, which is known by its index. -/
abbrev Chosen := Option (ℕ × UpstreamTarget)

/-- A ticket of every shard. -/
abbrev Counters := Fin counterShards → UInt64

def wrrScheduleCacheSlots : ℕ := 8

def wrrMissPublishSample : ℕ := 64

/-! ## Schedules -/

inductive WrrScheduleKey where
  | invalid
  | bitset (bits : BitVec 128)
  | indices (indices : List ℕ)
  deriving DecidableEq

structure WrrSchedule where
  key : WrrScheduleKey
  counters : Counters
  order : List ℕ
  zeroWeight : Bool

namespace WrrSchedule

def invalid : WrrSchedule := ⟨.invalid, fun _ => 0, [], false⟩

def withSeed (key : WrrScheduleKey) (order : List ℕ) (zeroWeight : Bool) (seed : UInt64)
    (healthyCount : ℕ) : WrrSchedule :=
  let zeroPhaseStride := (max (healthyCount / counterShards) 1).toUInt64
  { key
    counters := fun i =>
      if zeroWeight then seed + i.val.toUInt64 * zeroPhaseStride
      else seed + i.val.toUInt64 * goldenRatio
    order
    zeroWeight }

/-- The schedule would have been too much work. -/
def isLotteryOnly (self : WrrSchedule) : Bool :=
  self.order.isEmpty && !self.zeroWeight && self.key != .invalid

def tick (self : WrrSchedule) (shard : Fin counterShards) : WrrSchedule :=
  { self with counters := Function.update self.counters shard (self.counters shard + 1) }

end WrrSchedule

open WrrSchedule

structure WrrLaneState where
  slots : List WrrSchedule
  publishCursor : UInt64
  /-- Zero if the lane has another algorithm. -/
  targetLen : ℕ
  rebuilds : UInt64
  missFallbacks : UInt64
  missPublishTickets : UInt64
  scheduleSeed : UInt64

namespace WrrLaneState

def inactive : WrrLaneState := ⟨[], 0, 0, 0, 0, 0, 0⟩

def new (targetLen : ℕ) : WrrLaneState :=
  if targetLen = 0 then inactive
  else ⟨List.replicate wrrScheduleCacheSlots .invalid, 0, targetLen, 0, 0, 0, 0⟩

def isActive (self : WrrLaneState) : Bool := 0 < self.targetLen

/-- The slot with the schedule of a healthy set. -/
def lookup (self : WrrLaneState) (key : WrrScheduleKey) : Option ℕ :=
  self.slots.findIdx? (·.key = key)

def hasFreeSlot (self : WrrLaneState) : Bool := self.slots.any (·.key = .invalid)

def shouldPublishOnMiss (self : WrrLaneState) : Bool × WrrLaneState :=
  if self.hasFreeSlot then (true, self)
  else
    let ticket := self.missPublishTickets
    (ticket.toNat % wrrMissPublishSample = 0, { self with missPublishTickets := ticket + 1 })

/-- The slot in which the schedule is published, if there are slots. -/
def publishSchedule (self : WrrLaneState) (schedule : WrrSchedule) : Option ℕ × WrrLaneState :=
  if self.slots.length = 0 then (none, self)
  else
    let idx := self.publishCursor.toNat % self.slots.length
    (some idx, { self with
      publishCursor := self.publishCursor + 1
      slots := self.slots.set idx schedule
      rebuilds := self.rebuilds + 1 })

/-- Pick with the schedule of a slot, which shares its counters. -/
def pickSlot (self : WrrLaneState) (slot : ℕ)
    (pick : WrrSchedule → Except Panic (Chosen × WrrSchedule)) :
    Except Panic (Chosen × WrrLaneState) := do
  let schedule ← index self.slots slot
  let (chosen, schedule) ← pick schedule
  return (chosen, { self with slots := self.slots.set slot schedule })

end WrrLaneState

open WrrLaneState

/-! ## Selection -/

/-- The steps of a selection that bitsets and vectors have a copy of each. -/
structure WrrPath where
  isEmpty : Bool
  key : WrrScheduleKey
  weighted : Except Panic (List (ℕ × UInt32))
  count : ℕ
  /-- The member that a ticket falls on. -/
  nth : UInt64 → Except Panic Chosen
  lottery : UInt64 → Except Panic Chosen
  /-- The target of an entry of a schedule. -/
  resolve : ℕ → Except Panic Chosen

def pickFromWrrSchedule (shard : Fin counterShards) (resolve : ℕ → Except Panic Chosen)
    (schedule : WrrSchedule) : Except Panic (Chosen × WrrSchedule) :=
  if schedule.order = [] then .ok (none, schedule)
  else do
    let ticket := schedule.counters shard
    let idx ← index schedule.order (ticket.toNat % schedule.order.length)
    return (← resolve idx, schedule.tick shard)

namespace WrrPath
variable (path : WrrPath) (shard : Fin counterShards) (contended : Bool)

def pickSchedule (schedule : WrrSchedule) : Except Panic (Chosen × WrrSchedule) :=
  if schedule.zeroWeight then do
    return (← path.nth (schedule.counters shard), schedule.tick shard)
  else if schedule.isLotteryOnly then do
    return (← path.lottery (schedule.counters shard), schedule.tick shard)
  else pickFromWrrSchedule shard path.resolve schedule

def pickMissFallback (lane : WrrLaneState) : Except Panic (Chosen × WrrLaneState) := do
  let ticket := lane.missFallbacks
  return (← path.lottery ticket, { lane with missFallbacks := ticket + 1 })

def buildSchedule (lane : WrrLaneState) : Except Panic (WrrSchedule × WrrLaneState) := do
  let weighted ← path.weighted
  let seed := lane.scheduleSeed
  let lane := { lane with scheduleSeed := seed + 1 }
  match ← buildSmoothWrrOrder weighted with
  | .smooth order => return (.withSeed path.key order false seed 0, lane)
  | .zeroWeight => return (.withSeed path.key [] true seed path.count, lane)
  | .lotteryOnly => return (.withSeed path.key [] false seed 0, lane)

/-- Publish a schedule and pick with it. -/
def pickPublished (lane : WrrLaneState) (schedule : WrrSchedule) :
    Except Panic (Chosen × WrrLaneState) :=
  match lane.publishSchedule schedule with
  | (some slot, lane) => lane.pickSlot slot (path.pickSchedule shard)
  | (none, lane) => do
    let (chosen, _) ← path.pickSchedule shard schedule
    return (chosen, lane)

/-- After a miss.  Whoever cannot have the lock does not wait for it. -/
def rebuildSchedule (lane : WrrLaneState) : Except Panic (Chosen × WrrLaneState) :=
  match lane.lookup path.key with
  | some slot => lane.pickSlot slot (path.pickSchedule shard)
  | none =>
    if contended then path.pickMissFallback lane
    else
      match lane.shouldPublishOnMiss with
      | (true, lane) => do
        let (schedule, lane) ← path.buildSchedule lane
        path.pickPublished shard lane schedule
      | (false, lane) => path.pickMissFallback lane

def select (lane : WrrLaneState) : Except Panic (Chosen × WrrLaneState) :=
  if !lane.isActive || path.isEmpty then .ok (none, lane)
  else
    match lane.lookup path.key with
    | some slot => do
      let (chosen, lane) ← lane.pickSlot slot (path.pickSchedule shard)
      if chosen.isSome then return (chosen, lane)
      else path.rebuildSchedule shard contended lane
    | none => path.rebuildSchedule shard contended lane

end WrrPath

/-- The entry of a schedule among candidates, which are in order. -/
def resolveWrrVecCandidate (candidates : Candidates) (origIdx : ℕ) : Except Panic Chosen :=
  match binarySearchBy candidates fun c => compare c.1 origIdx with
  | .ok pos => do return some (← index candidates pos)
  | .error _ => .ok none

/-- The candidate that a cursor into the weights falls on. -/
def lotteryScanVec : ℕ → Candidates → Chosen
  | _, [] => none
  | cursor, c :: candidates =>
    if c.2.weight = 0 then lotteryScanVec cursor candidates
    else if cursor < c.2.weight.toNat then some c
    else lotteryScanVec (cursor - c.2.weight.toNat) candidates

def pickWrrLotteryVec (candidates : Candidates) (ticket : UInt64) : Except Panic Chosen :=
  if candidates = [] then .ok none
  else
    let totalWeight := candidates.foldl (fun total c => satAdd total c.2.weight.toNat) 0
    if totalWeight = 0 then do
      return some (← index candidates (ticket.toNat % candidates.length))
    else .ok (lotteryScanVec ((goldenRatioHash ticket).toNat % totalWeight) candidates)

namespace Selector
variable (self : Selector)

/-- `Arc::clone(&self.targets[i])`. -/
def target (i : ℕ) : Except Panic (ℕ × UpstreamTarget) := do
  return (i, ← index self.targets i)

/-- One visit of the scan for the target that a cursor falls on. -/
def lotteryVisit (acc : Option ℕ × ℕ) (idx : ℕ) : Except Panic (Option ℕ × ℕ) :=
  if acc.1.isSome then .ok acc
  else do
    let weight := (← index self.targets idx).weight
    if weight = 0 then return acc
    else if acc.2 < weight.toNat then return (some idx, acc.2)
    else return (none, acc.2 - weight.toNat)

def pickWrrLotteryBitset (healthy : HealthBitset) (ticket : UInt64) : Except Panic Chosen :=
  if healthy.count = 0 then .ok none
  else do
    let totalWeight ← healthy.visits.foldlM
      (fun total idx => do return satAdd total (← index self.targets idx).weight.toNat) 0
    if totalWeight = 0 then
      let targetIdx ← healthy.nthSetBit (ticket.toNat % healthy.count)
      return some (← self.target targetIdx)
    else
      let (chosen, _) ← healthy.visits.foldlM self.lotteryVisit
        (none, (goldenRatioHash ticket).toNat % totalWeight)
      match chosen with
      | some idx => return some (← self.target idx)
      | none => return none

def wrrBitsetPath (healthy : HealthBitset) : WrrPath where
  isEmpty := healthy.isEmpty
  key := .bitset healthy.bits
  weighted := healthy.visits.mapM fun idx => do return (idx, (← index self.targets idx).weight)
  count := healthy.count
  nth ticket := do return some (← self.target (← healthy.nthSetBit ticket.toNat))
  lottery := self.pickWrrLotteryBitset healthy
  resolve idx := if healthy.contains idx then do return some (← self.target idx) else .ok none

def wrrVecPath (candidates : Candidates) : WrrPath where
  isEmpty := candidates.isEmpty
  key := .indices (candidates.map Prod.fst)
  weighted := .ok (candidates.map fun c => (c.1, c.2.weight))
  count := candidates.length
  nth ticket := do return some (← index candidates (ticket.toNat % candidates.length))
  lottery := pickWrrLotteryVec candidates
  resolve := resolveWrrVecCandidate candidates

def selectWrrBitset (healthy : HealthBitset) (lane : WrrLaneState) :
    Except Panic (Chosen × WrrLaneState) :=
  (self.wrrBitsetPath healthy).select self.shard self.contended lane

def selectWrrVec (candidates : Candidates) (lane : WrrLaneState) :
    Except Panic (Chosen × WrrLaneState) :=
  (wrrVecPath candidates).select self.shard self.contended lane

/-! ## On the members of a healthy set -/

def weight (i : ℕ) : UInt32 := (self.targets[i]?.map UpstreamTarget.weight).getD 0

/-- The target at an index. -/
def handle (chosen : Option ℕ) : Chosen :=
  chosen.bind fun i => self.targets[i]?.map fun t => (i, t)

end Selector

section
variable (weight : ℕ → UInt32)

def totalWeight (is : List ℕ) : ℕ := is.foldl (fun total i => satAdd total (weight i).toNat) 0

def lotteryScan : ℕ → List ℕ → Option ℕ
  | _, [] => none
  | cursor, i :: is =>
    if weight i = 0 then lotteryScan cursor is
    else if cursor < (weight i).toNat then some i
    else lotteryScan (cursor - (weight i).toNat) is

def lotteryOf (is : List ℕ) (ticket : UInt64) : Option ℕ :=
  if totalWeight weight is = 0 then is[ticket.toNat % is.length]?
  else lotteryScan weight ((goldenRatioHash ticket).toNat % totalWeight weight is) is

/-- The next entry of a schedule that was published. -/
def WrrSchedule.choose (is : List ℕ) (shard : Fin counterShards) (s : WrrSchedule) :
    Option ℕ × WrrSchedule :=
  let ticket := s.counters shard
  (if s.zeroWeight then is[ticket.toNat % is.length]?
    else if s.order = [] then lotteryOf weight is ticket
    else s.order[ticket.toNat % s.order.length]?, s.tick shard)

/-- The schedule that is published for a healthy set. -/
def WrrSchedule.publish (key : WrrScheduleKey) (is : List ℕ) (seed : UInt64) : WrrSchedule :=
  match buildSmoothWrrOrder (is.map fun i => (i, weight i)) with
  | .ok (.smooth order) => .withSeed key order false seed 0
  | .ok .lotteryOnly => .withSeed key [] false seed 0
  | _ => .withSeed key [] true seed is.length

namespace WrrLaneState

def chooseSlot (is : List ℕ) (shard : Fin counterShards) (lane : WrrLaneState) (slot : ℕ) :
    Option ℕ × WrrLaneState :=
  match lane.slots[slot]? with
  | some s =>
    let (chosen, s) := s.choose weight is shard
    (chosen, { lane with slots := lane.slots.set slot s })
  | none => (none, lane)

def chooseFallback (is : List ℕ) (lane : WrrLaneState) : Option ℕ × WrrLaneState :=
  (lotteryOf weight is lane.missFallbacks, { lane with missFallbacks := lane.missFallbacks + 1 })

def choosePublished (key : WrrScheduleKey) (is : List ℕ) (shard : Fin counterShards)
    (lane : WrrLaneState) : Option ℕ × WrrLaneState :=
  let s := WrrSchedule.publish weight key is lane.scheduleSeed
  match { lane with scheduleSeed := lane.scheduleSeed + 1 }.publishSchedule s with
  | (some slot, lane) => lane.chooseSlot weight is shard slot
  | (none, lane) => (none, lane)

/-- A selection among the members `is` of the healthy set `key`. -/
def choose (key : WrrScheduleKey) (is : List ℕ) (shard : Fin counterShards) (contended : Bool)
    (lane : WrrLaneState) : Option ℕ × WrrLaneState :=
  match lane.lookup key with
  | some slot => lane.chooseSlot weight is shard slot
  | none =>
    if contended then lane.chooseFallback weight is
    else
      match lane.shouldPublishOnMiss with
      | (true, lane) => lane.choosePublished weight key is shard
      | (false, lane) => lane.chooseFallback weight is

end WrrLaneState

end

/-- The members of the healthy set that a key stands for. -/
def WrrScheduleKey.members : WrrScheduleKey → List ℕ
  | .invalid => []
  | .bitset bits => positions bits
  | .indices is => is

structure WrrSchedule.Ok (weight : ℕ → UInt32) (s : WrrSchedule) : Prop where
  order : ∀ i ∈ s.order, i ∈ s.key.members ∧ 0 < weight i
  zero : s.zeroWeight = true → ∀ i ∈ s.key.members, weight i = 0

/-- Every schedule is as it was published, and an active lane has slots. -/
structure WrrLaneState.Ok (weight : ℕ → UInt32) (lane : WrrLaneState) : Prop where
  slots : 0 < lane.targetLen → lane.slots ≠ []
  schedules : ∀ s ∈ lane.slots, s.Ok weight

/-- What a selection should return: a member, and one of positive weight if there is one. -/
def Fair (weight : ℕ → UInt32) (is : List ℕ) (i : ℕ) : Prop :=
  i ∈ is ∧ ((∃ j ∈ is, 0 < weight j) → 0 < weight i)

/-! ## The lottery -/

section
variable {weight : ℕ → UInt32} {is : List ℕ}

theorem foldl_satAdd_le (total : ℕ) :
    is.foldl (fun total i => satAdd total (weight i).toNat) total ≤
      total + (is.map fun i => (weight i).toNat).sum := by
  induction is generalizing total with
  | nil => exact le_rfl
  | cons i is ih =>
    rw [foldl_cons, map_cons, sum_cons]
    refine (ih _).trans ?_
    rw [← Nat.add_assoc]
    exact Nat.add_le_add_right (min_le_left _ _) _

theorem foldl_satAdd_pos {total : ℕ} (h : 0 < total) :
    0 < is.foldl (fun total i => satAdd total (weight i).toNat) total := by
  induction is generalizing total with
  | nil => exact h
  | cons i is ih => exact ih (lt_min (Nat.add_pos_left h _) (by decide))

theorem weight_of_totalWeight {i : ℕ} (h : totalWeight weight is = 0) (hi : i ∈ is) :
    weight i = 0 := by
  by_contra hne
  have hpos : 0 < (weight i).toNat :=
    Nat.pos_of_ne_zero fun hz => hne (UInt32.toNat_inj.1 hz)
  obtain ⟨before, after, rfl⟩ := append_of_mem hi
  rw [totalWeight, foldl_append, foldl_cons] at h
  exact (foldl_satAdd_pos (satAdd_pos hpos)).ne' h

theorem lotteryScan_ok {cursor : ℕ} (h : cursor < (is.map fun i => (weight i).toNat).sum) :
    ∃ i ∈ is, lotteryScan weight cursor is = some i ∧ 0 < weight i := by
  induction is generalizing cursor with
  | nil => exact absurd h (Nat.not_lt_zero _)
  | cons i is ih =>
    rw [map_cons, sum_cons] at h
    rw [lotteryScan]
    split_ifs with hz hlt
    · obtain ⟨j, hj, hs⟩ := ih (by simpa [hz] using h)
      exact ⟨j, mem_cons_of_mem _ hj, hs⟩
    · exact ⟨i, mem_cons_self, rfl, UInt32.pos_iff_ne_zero.2 hz⟩
    · obtain ⟨j, hj, hs⟩ := ih (show cursor - (weight i).toNat < _ by omega)
      exact ⟨j, mem_cons_of_mem _ hj, hs⟩

theorem getElem_mod (hne : is ≠ []) (k : ℕ) : ∃ i ∈ is, is[k % is.length]? = some i := by
  have hlt := Nat.mod_lt k (length_pos_of_ne_nil hne)
  exact ⟨_, getElem_mem hlt, getElem?_eq_getElem hlt⟩

theorem lotteryOf_fair (hne : is ≠ []) (ticket : UInt64) :
    ∃ i, lotteryOf weight is ticket = some i ∧ Fair weight is i := by
  rw [lotteryOf]
  split_ifs with hz
  · obtain ⟨i, hi, hget⟩ := getElem_mod hne ticket.toNat
    refine ⟨i, hget, hi, fun ⟨j, hj, hpos⟩ => ?_⟩
    rw [weight_of_totalWeight hz hj] at hpos
    exact absurd hpos (by decide)
  · have hlt := Nat.mod_lt (goldenRatioHash ticket).toNat (Nat.pos_of_ne_zero hz)
    have hle := @foldl_satAdd_le weight is 0
    rw [Nat.zero_add] at hle
    obtain ⟨i, hi, hs, hpos⟩ := lotteryScan_ok (hlt.trans_le hle)
    exact ⟨i, hs, hi, fun _ => hpos⟩

/-! ## Schedules and lanes -/

variable {s : WrrSchedule}

theorem WrrSchedule.Ok.tick (h : s.Ok weight) (shard : Fin counterShards) :
    (s.tick shard).Ok weight := ⟨h.order, h.zero⟩

theorem WrrSchedule.Ok.choose_fair (h : s.Ok weight) (hk : s.key.members = is) (hne : is ≠ [])
    (shard : Fin counterShards) :
    ∃ i, (s.choose weight is shard).1 = some i ∧ Fair weight is i := by
  simp only [choose]
  split_ifs with hz ho
  · obtain ⟨i, hi, hget⟩ := getElem_mod hne (s.counters shard).toNat
    refine ⟨i, hget, hi, fun ⟨j, hj, hpos⟩ => ?_⟩
    rw [h.zero hz j (hk ▸ hj)] at hpos
    exact absurd hpos (by decide)
  · exact lotteryOf_fair hne _
  · obtain ⟨i, hi, hget⟩ := getElem_mod ho (s.counters shard).toNat
    obtain ⟨hm, hpos⟩ := h.order i hi
    exact ⟨i, hget, hk ▸ hm, fun _ => hpos⟩

theorem publish_key (key : WrrScheduleKey) (seed : UInt64) :
    (WrrSchedule.publish weight key is seed).key = key := by
  rw [WrrSchedule.publish]
  split <;> rfl

theorem publish_ok {key : WrrScheduleKey} (hk : key.members = is) (seed : UInt64) :
    (WrrSchedule.publish weight key is seed).Ok weight := by
  subst hk
  rw [WrrSchedule.publish]
  rcases buildSmoothWrrOrder_cases (key.members.map fun i => (i, weight i)) with
    ⟨hb, hz⟩ | ⟨bounded, -, hs, -, hb | ⟨-, choices, hb, -⟩⟩
  · rw [hb]
    exact ⟨nofun, fun _ i hi => hz (i, weight i) (mem_map.2 ⟨i, hi, rfl⟩)⟩
  · rw [hb]
    exact ⟨nofun, nofun⟩
  · rw [hb]
    refine ⟨fun i hi => ?_, nofun⟩
    obtain ⟨k, -, rfl⟩ := mem_map.1 hi
    have hm : bounded[k].1 ∈ positiveTargets (key.members.map fun i => (i, weight i)) := by
      rw [← hs.targets]
      exact mem_map.2 ⟨_, getElem_mem k.2, rfl⟩
    obtain ⟨w, hw, hpos⟩ := mem_positiveTargets.1 hm
    obtain ⟨j, hj, heq⟩ := mem_map.1 hw
    obtain ⟨rfl, rfl⟩ := Prod.mk.inj heq
    exact ⟨hj, hpos⟩

namespace WrrLaneState
variable {lane : WrrLaneState} {key : WrrScheduleKey} {shard : Fin counterShards}
  {contended : Bool}

theorem lookup_some {slot : ℕ} (h : lane.lookup key = some slot) :
    ∃ s, lane.slots[slot]? = some s ∧ s.key = key := by
  obtain ⟨hlt, hk, -⟩ := findIdx?_eq_some_iff_getElem.1 h
  exact ⟨_, getElem?_eq_getElem hlt, of_decide_eq_true hk⟩

theorem Ok.set (h : lane.Ok weight) {s : WrrSchedule} (hs : s.Ok weight) (slot : ℕ) :
    ({ lane with slots := lane.slots.set slot s } : WrrLaneState).Ok weight := by
  refine ⟨fun ha hn => h.slots ha ?_, fun t ht => ?_⟩
  · simpa using hn
  · rcases mem_or_eq_of_mem_set ht with ht | rfl
    · exact h.schedules t ht
    · exact hs

/-- What a selection leaves: a good choice and a good lane. -/
structure Chose (weight : ℕ → UInt32) (is : List ℕ) (lane : WrrLaneState)
    (r : Option ℕ × WrrLaneState) : Prop where
  fair : ∃ i, r.1 = some i ∧ Fair weight is i
  ok : r.2.Ok weight
  targetLen : r.2.targetLen = lane.targetLen

theorem Ok.chooseSlot (h : lane.Ok weight) (hne : is ≠ []) {slot : ℕ} {s : WrrSchedule}
    (hs : lane.slots[slot]? = some s) (hk : s.key.members = is) :
    Chose weight is lane (lane.chooseSlot weight is shard slot) := by
  have hok := h.schedules s (mem_of_getElem? hs)
  rw [WrrLaneState.chooseSlot, hs]
  exact ⟨hok.choose_fair hk hne shard, h.set (hok.tick shard) slot, rfl⟩

theorem Ok.chooseFallback (h : lane.Ok weight) (hne : is ≠ []) :
    Chose weight is lane (lane.chooseFallback weight is) :=
  ⟨lotteryOf_fair hne _, ⟨h.slots, h.schedules⟩, rfl⟩

theorem publishSchedule_eq (hs : lane.slots ≠ []) (s : WrrSchedule) :
    ∃ slot, slot < lane.slots.length ∧ lane.publishSchedule s = (some slot, { lane with
      publishCursor := lane.publishCursor + 1
      slots := lane.slots.set slot s
      rebuilds := lane.rebuilds + 1 }) := by
  have hpos := length_pos_of_ne_nil hs
  refine ⟨_, Nat.mod_lt lane.publishCursor.toNat hpos, ?_⟩
  rw [publishSchedule, if_neg hpos.ne']

theorem Ok.choosePublished (h : lane.Ok weight) (ha : 0 < lane.targetLen) (hne : is ≠ [])
    (hk : key.members = is) :
    Chose weight is lane (lane.choosePublished weight key is shard) := by
  have hp := @publish_ok weight is key hk lane.scheduleSeed
  obtain ⟨slot, hlt, heq⟩ := @publishSchedule_eq
    { lane with scheduleSeed := lane.scheduleSeed + 1 } (h.slots ha)
    (WrrSchedule.publish weight key is lane.scheduleSeed)
  simp only [WrrLaneState.choosePublished, heq]
  set lane' : WrrLaneState := { lane with
    scheduleSeed := lane.scheduleSeed + 1
    publishCursor := lane.publishCursor + 1
    slots := lane.slots.set slot (WrrSchedule.publish weight key is lane.scheduleSeed)
    rebuilds := lane.rebuilds + 1 }
  have hok : lane'.Ok weight := ⟨(h.set hp slot).slots, (h.set hp slot).schedules⟩
  have hget : lane'.slots[slot]? = some (WrrSchedule.publish weight key is lane.scheduleSeed) :=
    getElem?_set_self hlt
  obtain ⟨hf, hok', hln⟩ := @Ok.chooseSlot weight is lane' shard hok hne slot _ hget
    (by rw [publish_key, hk])
  exact ⟨hf, hok', hln⟩

theorem shouldPublishOnMiss_ok (h : lane.Ok weight) :
    lane.shouldPublishOnMiss.2.Ok weight ∧
      lane.shouldPublishOnMiss.2.targetLen = lane.targetLen := by
  rw [shouldPublishOnMiss]
  split_ifs
  · exact ⟨h, rfl⟩
  · exact ⟨⟨h.slots, h.schedules⟩, rfl⟩

/-- A selection is fair, whatever schedules the lane has kept. -/
theorem Ok.choose (h : lane.Ok weight) (ha : 0 < lane.targetLen) (hne : is ≠ [])
    (hk : key.members = is) :
    Chose weight is lane (lane.choose weight key is shard contended) := by
  rw [WrrLaneState.choose]
  split
  · next slot hlk =>
    obtain ⟨s, hs, rfl⟩ := lookup_some hlk
    exact h.chooseSlot hne hs hk
  · split_ifs
    · exact h.chooseFallback hne
    · obtain ⟨hok, hln⟩ := shouldPublishOnMiss_ok h
      split
      · next lane' hp =>
        rw [hp] at hok hln
        obtain ⟨hf, hok', hln'⟩ := hok.choosePublished (hln ▸ ha) hne hk
        exact ⟨hf, hok', hln'.trans hln⟩
      · next lane' hp =>
        rw [hp] at hok hln
        obtain ⟨hf, hok', hln'⟩ := hok.chooseFallback hne
        exact ⟨hf, hok', hln'.trans hln⟩

theorem ok_new (targetLen : ℕ) : (new targetLen).Ok weight := by
  rw [new]
  split_ifs with hz
  · exact ⟨fun ha => absurd ha (Nat.lt_irrefl 0), nofun⟩
  · refine ⟨fun _ => cons_ne_nil _ _, fun s hs => ?_⟩
    rw [eq_of_mem_replicate hs]
    exact ⟨nofun, nofun⟩

end WrrLaneState

end

/-! ## The two paths -/

/-- The steps of a path are those on the members `is`. -/
structure WrrPath.Offers (path : WrrPath) (s : Selector) (is : List ℕ) : Prop where
  lt : ∀ i ∈ is, i < s.targets.length
  isEmpty : path.isEmpty = is.isEmpty
  key : path.key ≠ .invalid
  members : path.key.members = is
  weighted : path.weighted = .ok (is.map fun i => (i, s.weight i))
  count : path.count = is.length
  nth : is ≠ [] → ∀ ticket, path.nth ticket = .ok (s.handle is[ticket.toNat % is.length]?)
  lottery : is ≠ [] → ∀ ticket, path.lottery ticket = .ok (s.handle (lotteryOf s.weight is ticket))
  resolve : ∀ i ∈ is, path.resolve i = .ok (s.handle (some i))

section
variable {self : Selector} {is : List ℕ} {i : ℕ}

theorem handle_some (hi : i < self.targets.length) :
    self.handle (some i) = some (i, self.targets[i]) := by
  rw [handle, Option.bind_some, getElem?_eq_getElem hi, Option.map_some]

theorem weight_eq (hi : i < self.targets.length) : self.weight i = self.targets[i].weight := by
  rw [weight, getElem?_eq_getElem hi, Option.map_some, Option.getD_some]

theorem target_ok (hi : i < self.targets.length) :
    (do return some (← self.target i) : Except Panic Chosen) = .ok (self.handle (some i)) := by
  rw [target, index_lt hi, handle_some hi]
  rfl

theorem attach_getElem? (hlt : ∀ i ∈ is, i < self.targets.length) (k : ℕ) :
    (self.attach is)[k]? = self.handle is[k]? := by
  induction is generalizing k with
  | nil => rfl
  | cons i is ih =>
    have hi := hlt i mem_cons_self
    rw [attach_cons hi]
    cases k with
    | zero => exact (handle_some hi).symm
    | succ k => exact ih (fun j hj => hlt j (mem_cons_of_mem _ hj)) k

theorem mem_attach {c : ℕ × UpstreamTarget}
    (h : c ∈ self.attach is) : c.1 ∈ is ∧ self.handle (some c.1) = some c := by
  obtain ⟨i, hi, hc⟩ := mem_filterMap.1 h
  obtain ⟨t, ht, rfl⟩ := Option.map_eq_some_iff.1 hc
  exact ⟨hi, by rw [handle, Option.bind_some, ht, Option.map_some]⟩

theorem index_attach (hlt : ∀ i ∈ is, i < self.targets.length) {k : ℕ} (hk : is[k]? = some i) :
    (do return some (← index (self.attach is) k) : Except Panic Chosen) =
      .ok (self.handle (some i)) := by
  have hi := hlt i (mem_of_getElem? hk)
  have hget := attach_getElem? hlt k
  rw [hk, handle_some hi] at hget
  rw [index_ok hget, handle_some hi]
  rfl

/-! ### Bitsets -/

theorem lotteryVisits_chosen (acc : Option ℕ × ℕ) (h : acc.1.isSome = true) :
    is.foldlM self.lotteryVisit acc = .ok acc := by
  induction is with
  | nil => rfl
  | cons i is ih =>
    rw [foldlM_cons, lotteryVisit, if_pos h]
    exact ih

theorem lotteryVisits_ok (hlt : ∀ i ∈ is, i < self.targets.length) (cursor : ℕ) :
    ∃ rest, is.foldlM self.lotteryVisit (none, cursor) =
      .ok (lotteryScan self.weight cursor is, rest) := by
  induction is generalizing cursor with
  | nil => exact ⟨cursor, rfl⟩
  | cons i is ih =>
    have hi := hlt i mem_cons_self
    have hv : self.lotteryVisit (none, cursor) i =
        .ok (if self.weight i = 0 then (none, cursor)
          else if cursor < (self.weight i).toNat then (some i, cursor)
          else (none, cursor - (self.weight i).toNat)) := by
      rw [lotteryVisit, if_neg nofun, index_lt hi, weight_eq hi]
      show (if _ then _ else if _ then _ else _) = _
      split_ifs <;> rfl
    rw [foldlM_cons, hv, lotteryScan]
    show ∃ rest, is.foldlM self.lotteryVisit _ = _
    split_ifs
    · exact ih (fun j hj => hlt j (mem_cons_of_mem _ hj)) cursor
    · exact ⟨cursor, lotteryVisits_chosen _ rfl⟩
    · exact ih (fun j hj => hlt j (mem_cons_of_mem _ hj)) _

variable {healthy : HealthBitset}

theorem pickWrrLotteryBitset_ok (hb : Holds healthy is) (hlt : ∀ i ∈ is, i < self.targets.length)
    (hne : is ≠ []) (ticket : UInt64) :
    self.pickWrrLotteryBitset healthy ticket = .ok (self.handle (lotteryOf self.weight is ticket)) := by
  have hpos := length_pos_of_ne_nil hne
  have ht : healthy.visits.foldlM (fun total idx => do
      return satAdd total (← index self.targets idx).weight.toNat) 0 =
      (.ok (totalWeight self.weight is) : Except Panic ℕ) := by
    rw [hb.visits]
    refine foldlM_ok fun total i hi => ?_
    rw [index_lt (hlt i hi), weight_eq (hlt i hi)]
    rfl
  rw [pickWrrLotteryBitset, hb.count, if_neg hpos.ne', ht]
  show (if totalWeight self.weight is = 0 then _ else _) = _
  rw [lotteryOf]
  split_ifs with hz
  · obtain ⟨i, hget, hn⟩ := hb.nthSetBit hne (ticket.toNat % is.length)
    rw [Nat.mod_mod] at hget
    rw [hn, hget]
    exact target_ok (hlt i (mem_of_getElem? hget))
  · set cursor := (goldenRatioHash ticket).toNat % totalWeight self.weight is with hc
    obtain ⟨rest, hs⟩ := lotteryVisits_ok hlt cursor
    rw [hb.visits, hs]
    show (match lotteryScan self.weight cursor is with
      | some idx => do return some (← self.target idx)
      | none => .ok none : Except Panic Chosen) = _
    have hle := @foldl_satAdd_le self.weight is 0
    rw [Nat.zero_add] at hle
    obtain ⟨i, hi, hi', -⟩ := lotteryScan_ok
      ((Nat.mod_lt (goldenRatioHash ticket).toNat (Nat.pos_of_ne_zero hz)).trans_le hle)
    rw [hc, hi']
    exact target_ok (hlt i hi)

theorem wrrBitsetPath_offers (hb : Holds healthy is) (hlt : ∀ i ∈ is, i < self.targets.length) :
    (self.wrrBitsetPath healthy).Offers self is where
  lt := hlt
  isEmpty := hb.isEmpty
  key := nofun
  members := hb.bits
  weighted := by
    show healthy.visits.mapM _ = _
    rw [hb.visits]
    refine mapM_ok fun i hi => ?_
    rw [index_lt (hlt i hi), weight_eq (hlt i hi)]
    rfl
  count := hb.count
  nth hne ticket := by
    obtain ⟨i, hget, hn⟩ := hb.nthSetBit hne ticket.toNat
    show (do return some (← self.target (← healthy.nthSetBit ticket.toNat))) = _
    rw [hn, hget]
    exact target_ok (hlt i (mem_of_getElem? hget))
  lottery hne ticket := pickWrrLotteryBitset_ok hb hlt hne ticket
  resolve i hi := by
    show (if healthy.contains i then _ else _) = _
    rw [hb.contains (hb.lt hi), if_pos (decide_eq_true hi)]
    exact target_ok (hlt i hi)

/-! ### Vectors -/

theorem lotteryScanVec_eq (hlt : ∀ i ∈ is, i < self.targets.length) (cursor : ℕ) :
    lotteryScanVec cursor (self.attach is) = self.handle (lotteryScan self.weight cursor is) := by
  induction is generalizing cursor with
  | nil => rfl
  | cons i is ih =>
    have hi := hlt i mem_cons_self
    have ht := ih fun j hj => hlt j (mem_cons_of_mem _ hj)
    rw [attach_cons hi, lotteryScanVec, lotteryScan, weight_eq hi]
    split_ifs
    · exact ht cursor
    · exact (handle_some hi).symm
    · exact ht _

theorem pickWrrLotteryVec_ok (hlt : ∀ i ∈ is, i < self.targets.length) (hne : is ≠ [])
    (ticket : UInt64) :
    pickWrrLotteryVec (self.attach is) ticket =
      .ok (self.handle (lotteryOf self.weight is ticket)) := by
  have ht : ∀ total, (self.attach is).foldl (fun total c => satAdd total c.2.weight.toNat) total =
      is.foldl (fun total i => satAdd total (self.weight i).toNat) total := by
    clear hne
    induction is with
    | nil => exact fun _ => rfl
    | cons i is ih =>
      intro total
      have hi := hlt i mem_cons_self
      rw [attach_cons hi, foldl_cons, foldl_cons, weight_eq hi]
      exact ih (fun j hj => hlt j (mem_cons_of_mem _ hj)) _
  have hn : self.attach is ≠ [] := by
    refine ne_nil_of_length_pos ?_
    rw [length_attach hlt]
    exact length_pos_of_ne_nil hne
  rw [pickWrrLotteryVec, if_neg hn, ht 0, lotteryOf, ← totalWeight]
  show (if totalWeight self.weight is = 0 then _ else _) = _
  split_ifs with hz
  · obtain ⟨i, -, hget⟩ := getElem_mod hne ticket.toNat
    rw [length_attach hlt, hget]
    exact index_attach hlt hget
  · exact congrArg Except.ok (lotteryScanVec_eq hlt _)

theorem resolveWrrVecCandidate_ok (hs : self.Scoped is) (hi : i ∈ is) :
    resolveWrrVecCandidate (self.attach is) i = .ok (self.handle (some i)) := by
  have ho : Ordered (fun c : ℕ × UpstreamTarget => compare c.1 i) (self.attach is) := by
    refine (attach_sorted hs.lt hs.ascending).imp fun {a b} hab => ⟨fun ha => ?_, fun hb => ?_⟩
    · exact compare_gt_iff_gt.2 (lt_trans (compare_gt_iff_gt.1 ha) hab)
    · exact compare_lt_iff_lt.2 (lt_trans hab (compare_lt_iff_lt.1 hb))
  obtain ⟨k, hk⟩ := mem_iff_getElem?.1 hi
  have hget := attach_getElem? hs.lt k
  rw [hk, handle_some (hs.lt i hi)] at hget
  obtain ⟨pos, hpos⟩ := binarySearchBy_isOk ho
    (show cmpAt _ _ k = .eq by rw [cmpAt_of_getElem? hget]; exact compare_eq_iff_eq.2 rfl)
  obtain ⟨hlt, heq, -⟩ := binarySearchBy_ok ho hpos
  have hf := getElem?_eq_getElem hlt
  rw [cmpAt_of_getElem? hf, compare_eq_iff_eq] at heq
  have hm := (mem_attach (getElem_mem hlt)).2
  rw [heq] at hm
  simp only [resolveWrrVecCandidate, hpos, index_ok hf, hm]
  rfl

theorem wrrVecPath_offers (hs : self.Scoped is) :
    (wrrVecPath (self.attach is)).Offers self is where
  lt := hs.lt
  isEmpty := attach_isEmpty hs.lt
  key := nofun
  members := attach_fst hs.lt
  weighted := by
    refine congrArg Except.ok ?_
    rw [← attach_fst hs.lt, map_map, attach_fst hs.lt]
    refine map_congr_left fun c hc => ?_
    obtain ⟨hi, hc'⟩ := mem_attach hc
    rw [handle_some (hs.lt _ hi), Option.some.injEq] at hc'
    rw [Function.comp_apply, weight_eq (hs.lt _ hi)]
    exact congrArg (fun t : ℕ × UpstreamTarget => (c.1, t.2.weight)) hc'.symm
  count := length_attach hs.lt
  nth hne ticket := by
    obtain ⟨i, -, hget⟩ := getElem_mod hne ticket.toNat
    show (do return some (← index (self.attach is) (ticket.toNat % (self.attach is).length))) = _
    rw [length_attach hs.lt, hget]
    exact index_attach hs.lt hget
  lottery hne ticket := pickWrrLotteryVec_ok hs.lt hne ticket
  resolve i hi := resolveWrrVecCandidate_ok hs hi

end

/-! ## The selection -/

section
variable {self : Selector} {is : List ℕ} {path : WrrPath} {lane : WrrLaneState}

/-- With a choice come its target and the state after it. -/
def Selector.found {σ : Type} (s : Selector) (r : Option ℕ × σ) : Except Panic (Chosen × σ) :=
  .ok (s.handle r.1, r.2)

variable {s : WrrSchedule}

section
variable (hp : path.Offers self is)
include hp

theorem pickSchedule_eq (hne : is ≠ []) (hs : s.Ok self.weight) (hk : s.key = path.key) :
    path.pickSchedule self.shard s = self.found (s.choose self.weight is self.shard) := by
  simp only [WrrPath.pickSchedule, WrrSchedule.choose, WrrSchedule.isLotteryOnly, hk]
  by_cases hz : s.zeroWeight = true
  · simp only [hz, if_true, hp.nth hne]
    rfl
  · by_cases ho : s.order = []
    · simp only [hz, ho, hp.key, hp.lottery hne, if_true, isEmpty_nil, Bool.not_false, bne_iff_ne,
        ne_eq, not_false_eq_true, Bool.and_true, Bool.true_and, Bool.false_eq_true, if_false]
      rfl
    · have hlr : s.order.isEmpty = false := by simpa using ho
      obtain ⟨i, hi, hget⟩ := getElem_mod ho (s.counters self.shard).toNat
      have hm := (hs.order i hi).1
      rw [hk, hp.members] at hm
      simp only [hz, hlr, Bool.false_and, Bool.false_eq_true, if_false,
        pickFromWrrSchedule, ho, index_ok hget, hget]
      show (path.resolve i >>= fun chosen => _) = _
      rw [hp.resolve i hm]
      rfl

theorem pickSlot_eq (hne : is ≠ []) {slot : ℕ} (hsl : lane.slots[slot]? = some s)
    (hs : s.Ok self.weight) (hk : s.key = path.key) :
    lane.pickSlot slot (path.pickSchedule self.shard) =
      self.found (lane.chooseSlot self.weight is self.shard slot) := by
  rw [pickSlot, index_ok hsl]
  show (path.pickSchedule self.shard s >>= fun r => _) = _
  rw [pickSchedule_eq hp hne hs hk, chooseSlot, hsl]
  rfl

theorem pickMissFallback_eq (hne : is ≠ []) :
    path.pickMissFallback lane = self.found (lane.chooseFallback self.weight is) := by
  rw [WrrPath.pickMissFallback, hp.lottery hne]
  rfl

theorem buildSchedule_eq :
    path.buildSchedule lane = .ok (.publish self.weight path.key is lane.scheduleSeed,
      { lane with scheduleSeed := lane.scheduleSeed + 1 }) := by
  rw [WrrPath.buildSchedule, hp.weighted, WrrSchedule.publish, hp.count]
  show (buildSmoothWrrOrder _ >>= fun b => _) = _
  rcases buildSmoothWrrOrder_cases (is.map fun i => (i, self.weight i)) with
    ⟨hb, -⟩ | ⟨bounded, -, -, -, hb | ⟨-, choices, hb, -⟩⟩
  all_goals
    rw [hb]
    rfl

theorem pickPublished_eq (hne : is ≠ []) (hok : lane.Ok self.weight) (ha : 0 < lane.targetLen) :
    (path.buildSchedule lane >>= fun r => path.pickPublished self.shard r.2 r.1) =
      self.found (lane.choosePublished self.weight path.key is self.shard) := by
  rw [buildSchedule_eq hp]
  set s := WrrSchedule.publish self.weight path.key is lane.scheduleSeed with hs
  obtain ⟨slot, hlt, heq⟩ := @WrrLaneState.publishSchedule_eq
    { lane with scheduleSeed := lane.scheduleSeed + 1 } (hok.slots ha) s
  show path.pickPublished self.shard _ s = _
  simp only [WrrPath.pickPublished, choosePublished, ← hs, heq]
  exact pickSlot_eq hp hne (getElem?_set_self hlt) (publish_ok hp.members _)
    (publish_key _ _)

theorem rebuildSchedule_eq (hne : is ≠ []) (hok : lane.Ok self.weight) (ha : 0 < lane.targetLen)
    (hmiss : lane.lookup path.key = none) :
    path.rebuildSchedule self.shard self.contended lane =
      self.found (lane.choose self.weight path.key is self.shard self.contended) := by
  simp only [WrrPath.rebuildSchedule, WrrLaneState.choose, hmiss]
  split_ifs
  · exact pickMissFallback_eq hp hne
  · obtain ⟨hok', hln⟩ := WrrLaneState.shouldPublishOnMiss_ok hok
    split
    · next lane' hpb =>
      rw [hpb] at hok' hln
      exact pickPublished_eq hp hne hok' (hln ▸ ha)
    · exact pickMissFallback_eq hp hne

end

/-- **A selection on either path** is one among the members. -/
theorem select_eq (hp : path.Offers self is) (hne : is ≠ []) (hok : lane.Ok self.weight)
    (ha : 0 < lane.targetLen) :
    path.select self.shard self.contended lane =
      self.found (lane.choose self.weight path.key is self.shard self.contended) := by
  have hr : (!lane.isActive || path.isEmpty) = false := by
    simp [WrrLaneState.isActive, ha, hp.isEmpty, hne]
  rw [WrrPath.select, hr, if_neg Bool.false_ne_true]
  cases hlk : lane.lookup path.key with
  | none => exact rebuildSchedule_eq hp hne hok ha hlk
  | some slot =>
    obtain ⟨s, hsl, hk⟩ := WrrLaneState.lookup_some hlk
    have hs := hok.schedules s (mem_of_getElem? hsl)
    obtain ⟨⟨i, hc, hi, -⟩, -, -⟩ := @WrrLaneState.Ok.chooseSlot self.weight is lane self.shard
      hok hne slot s hsl (by rw [hk, hp.members])
    have hsm : (self.handle (lane.chooseSlot self.weight is self.shard slot).1).isSome = true := by
      rw [hc, handle_some (hp.lt i hi)]
      rfl
    simp only [pickSlot_eq hp hne hsl hs hk, WrrLaneState.choose, hlk]
    show (if _ then _ else _) = _
    rw [if_pos hsm]
    rfl

theorem select_nil (hp : path.Offers self []) :
    path.select self.shard self.contended lane = .ok (none, lane) := by
  rw [WrrPath.select, hp.isEmpty, isEmpty_nil, Bool.or_true, if_pos rfl]

end

/-! ## Histories -/

structure WrrCall where
  healthy : List ℕ
  /-- Whether the selection is made on bitsets. -/
  bitset : Bool
  shard : Fin counterShards
  contended : Bool

namespace Selector
variable (self : Selector)

def wrrCall (call : WrrCall) (lane : WrrLaneState) : Except Panic (Chosen × WrrLaneState) :=
  let self := { self with shard := call.shard, contended := call.contended }
  if call.bitset then self.selectWrrBitset (bitsetForIndices call.healthy) lane
  else self.selectWrrVec (self.attach call.healthy) lane

def wrrHistory : List WrrCall → WrrLaneState → Except Panic (List Chosen × WrrLaneState)
  | [], lane => .ok ([], lane)
  | call :: calls, lane => do
    let (chosen, lane) ← self.wrrCall call lane
    let (rest, lane) ← wrrHistory calls lane
    return (chosen :: rest, lane)

end Selector

section
variable {self : Selector} {lane : WrrLaneState}

/-- The healthy set is one of the balancer, and fits the path. -/
structure WrrCall.Ok (s : Selector) (call : WrrCall) : Prop where
  scope : Scope s.targets.length call.healthy
  fits : call.bitset = true → s.targets.length ≤ maxBitsetTargets

/-- What a call should return. -/
def WrrCall.Returns (s : Selector) (call : WrrCall) (chosen : Chosen) : Prop :=
  call.healthy ≠ [] → ∃ i t, chosen = some (i, t) ∧ s.targets[i]? = some t ∧ i ∈ call.healthy ∧
    ((∃ j ∈ call.healthy, 0 < s.weight j) → 0 < t.weight)

theorem wrrCall_eq {call : WrrCall} (hc : call.Ok self) :
    ∃ path : WrrPath, path.Offers self call.healthy ∧
      self.wrrCall call lane = path.select call.shard call.contended lane := by
  rw [wrrCall]
  split_ifs with hb
  · have hh := holds_bitsetForIndices hc.scope.ascending fun i hi =>
      (hc.scope.lt i hi).trans_le (hc.fits hb)
    exact ⟨_, wrrBitsetPath_offers hh hc.scope.lt, rfl⟩
  · exact ⟨_, wrrVecPath_offers hc.scope, rfl⟩

theorem wrrCall_ok {call : WrrCall} (hc : call.Ok self) (hok : lane.Ok self.weight)
    (ha : 0 < lane.targetLen) :
    ∃ chosen lane', self.wrrCall call lane = .ok (chosen, lane') ∧ call.Returns self chosen ∧
      lane'.Ok self.weight ∧ 0 < lane'.targetLen := by
  obtain ⟨path, hp, heq⟩ := @wrrCall_eq self lane call hc
  let self' : Selector := { self with shard := call.shard, contended := call.contended }
  have hp' : path.Offers self' call.healthy :=
    ⟨hp.lt, hp.isEmpty, hp.key, hp.members, hp.weighted, hp.count, hp.nth,
      hp.lottery, hp.resolve⟩
  by_cases hne : call.healthy = []
  · refine ⟨none, lane, ?_, fun h => absurd hne h, hok, ha⟩
    rw [heq]
    exact @select_nil self' path lane (hne ▸ hp')
  · obtain ⟨⟨i, hi, hm, hpos⟩, hok', hln⟩ := @WrrLaneState.Ok.choose self.weight call.healthy lane
      path.key call.shard call.contended hok ha hne hp.members
    have hlt := hp.lt i hm
    have hs := @select_eq self' call.healthy path lane hp' hne hok ha
    refine ⟨_, _, heq.trans hs, fun _ => ?_, hok', hln ▸ ha⟩
    refine ⟨i, self.targets[i], ?_, getElem?_eq_getElem hlt, hm, fun hsm => ?_⟩
    · exact (congrArg self.handle hi).trans (handle_some hlt)
    · rw [← weight_eq hlt]
      exact hpos hsm

/-- **Every selection of a history** returns a member of its healthy set, and one of positive weight
    if there is one. -/
theorem wrr_history {calls : List WrrCall} (hcalls : ∀ call ∈ calls, call.Ok self) {targetLen : ℕ}
    (hactive : 0 < targetLen) :
    ∃ results lane, self.wrrHistory calls (.new targetLen) = .ok (results, lane) ∧
      List.Forall₂ (WrrCall.Returns self) calls results := by
  have hn : 0 < (new targetLen).targetLen := by
    rw [new, if_neg hactive.ne']
    exact hactive
  have hok := @WrrLaneState.ok_new self.weight targetLen
  generalize new targetLen = lane at hn hok
  induction calls generalizing lane with
  | nil => exact ⟨[], lane, rfl, .nil⟩
  | cons call calls ih =>
    obtain ⟨chosen, lane', hcl, hr, hok', hactive'⟩ :=
      wrrCall_ok (hcalls call mem_cons_self) hok hn
    obtain ⟨results, lane'', hrs, ha⟩ :=
      ih (fun c hc => hcalls c (mem_cons_of_mem _ hc)) lane' hactive' hok'
    refine ⟨chosen :: results, lane'', ?_, .cons hr ha⟩
    rw [wrrHistory, hcl]
    show (self.wrrHistory calls lane' >>= fun r => _) = _
    rw [hrs]
    rfl

def weightedSelector : Selector :=
  (LoadBalancer.withSubsetsAndPortOverrides (lit "u")
    [{ host := lit "a", port := 80, weight := 3 }, { host := lit "b", port := 80, weight := 0 }]
    { algorithm := .weightedRoundRobin }).idle

/-- The first target fails, while another thread holds the lock. -/
def failedOver : List WrrCall :=
  [⟨[0, 1], true, ⟨0, Nat.le_of_ble_eq_true rfl⟩, false⟩,
    ⟨[1], true, ⟨3, Nat.le_of_ble_eq_true rfl⟩, true⟩]

theorem wrr_history_failedOver : ∃ results lane,
    weightedSelector.wrrHistory failedOver (.new 2) = .ok (results, lane) ∧
      List.Forall₂ (WrrCall.Returns weightedSelector) failedOver results := by
  refine wrr_history (fun call hc => ?_) (by decide)
  rcases mem_pair.1 hc with rfl | rfl
  · exact ⟨⟨by decide, by decide +kernel⟩, fun _ => by decide +kernel⟩
  · exact ⟨⟨by decide, by decide +kernel⟩, fun _ => by decide +kernel⟩

end

end Ferrum.Balancer
