/-
  Selections.

  A selection is among all targets, those of an address family, of a subset, of a port with an
  override, or of two of these.  It takes the healthy targets of this pool, narrows them to the
  preferred localities, and picks one by the algorithm of the lane.  Where no target is healthy, some
  selections fall back on the whole pool.  Every selection has a copy on bitsets and one on vectors.

  * `Selector.selection`: a selection on the indices of a pool.
  * `selectAmong_eq`, `selectAmongVec_eq`: both copies of every selection are this one.
  * `selection_ok`: what it selects.
-/
import Ferrum.Balancer.Dispatch
import Mathlib.Data.List.TakeWhile

namespace Ferrum.Balancer

open Lib Datagram List Selector List

structure TargetSelection where
  target : ℕ × UpstreamTarget
  isFallback : Bool

/-- What a selection returns, and the lanes as it leaves them. -/
abbrev Selecting := Except Panic (Option TargetSelection × Lanes)

/-! ## On a path -/

namespace PathOps
variable {P S : Type} (ops : PathOps P S) (self : Selector)

/-- One of the candidates in the preferred localities.  -/
def selectPreferred (ctxKey : Bytes) (isFallback : Bool) (candidates : P) (scope : S) (lane : Lane)
    (lanes : Lanes) : Selecting := do
  let (candidates, degraded) ←
    ops.preferredLocality self candidates scope lane.localityLb lane.failoverEnabled
  let (target, lanes) ← ops.selectUsing self ctxKey candidates lane lanes
  return (target.map fun target => ⟨target, isFallback || degraded⟩, lanes)

/-- Without a healthy target, one of all. -/
def selectOrFallback (ctxKey : Bytes) (healthy : P) (all : Except Panic P) (scope : S) (lane : Lane)
    (lanes : Lanes) : Selecting :=
  if ops.isEmpty healthy then do
    ops.selectPreferred self ctxKey true (← all) scope lane lanes
  else ops.selectPreferred self ctxKey false healthy scope lane lanes

def selectHealthy (ctxKey : Bytes) (healthy : P) (scope : S) (lane : Lane) (lanes : Lanes) :
    Selecting :=
  if ops.isEmpty healthy then .ok (none, lanes)
  else ops.selectPreferred self ctxKey false healthy scope lane lanes

end PathOps

/-! ## The two copies -/

namespace Selector
variable (self : Selector)

def subsetPortMask (subsetIndices portIndices : List ℕ) : HealthBitset :=
  (bitsetForIndices subsetIndices).intersect (bitsetForIndices portIndices)

def subsetPortIntersectionVec (subsetIndices portIndices : List ℕ) : List ℕ :=
  let portMask := membershipMaskForIndices self.targets.length portIndices
  subsetIndices.filter fun idx => portMask[idx]?.getD false

def familyEligibilityBitset (destination : IpAddr) : HealthBitset :=
  .fromBits <| (self.targets.zipIdx.takeWhile fun e => e.2 < maxBitsetTargets).foldl
    (fun bits (target, i) =>
      if backendHostMatchesIpFamily target.host destination then bits ||| (1#128 <<< i) else bits) 0

def familyEligibilityIndices (destination : IpAddr) : List ℕ :=
  (self.targets.zipIdx.filter fun (target, _) =>
    backendHostMatchesIpFamily target.host destination).map Prod.snd

/-! ### All targets -/

def selectVecFallback (ctxKey : Bytes) (health : Option HealthContext) (lanes : Lanes) :
    Selecting := do
  let scopeIndices := range self.targets.length
  let healthy ← self.healthyTargetsVec health
  let all := self.targets.zipIdx.map fun (target, i) => (i, target)
  self.vecPath.selectOrFallback self ctxKey healthy (.ok all) scopeIndices self.parentLane lanes

def select (ctxKey : Bytes) (health : Option HealthContext) (lanes : Lanes) : Selecting :=
  let n := self.targets.length
  if n = 0 then .ok (none, lanes)
  else if maxBitsetTargets < n then self.selectVecFallback ctxKey health lanes
  else do
    let healthy ← self.computeHealthBitset health
    let scope := HealthBitset.all n
    self.bitsetPath.selectOrFallback self ctxKey healthy (.ok scope) scope self.parentLane lanes

/-! ### An address family -/

def selectMatchingFamilyVecFallback (ctxKey : Bytes) (health : Option HealthContext)
    (destination : IpAddr) (lanes : Lanes) : Selecting :=
  let scopeIndices := self.familyEligibilityIndices destination
  if scopeIndices.isEmpty then .ok (none, lanes)
  else do
    let healthy ← self.healthyTargetsVecForIndices health scopeIndices
    self.vecPath.selectOrFallback self ctxKey healthy (.ok (self.attach scopeIndices)) scopeIndices
      self.parentLane lanes

def selectMatchingFamily (ctxKey : Bytes) (health : Option HealthContext) (destination : IpAddr)
    (lanes : Lanes) : Selecting :=
  let n := self.targets.length
  if n = 0 then .ok (none, lanes)
  else if maxBitsetTargets < n then
    self.selectMatchingFamilyVecFallback ctxKey health destination lanes
  else
    let familyScope := self.familyEligibilityBitset destination
    if familyScope.isEmpty then .ok (none, lanes)
    else do
      let healthy ← self.computeHealthBitsetForMask health familyScope
      self.bitsetPath.selectOrFallback self ctxKey healthy (.ok familyScope) familyScope
        self.parentLane lanes

/-! ### A subset -/

def selectSubsetVecFallback (ctxKey name : Bytes) (subsetIndices : List ℕ)
    (health : Option HealthContext) (lanes : Lanes) : Selecting := do
  let subsetHealthy ← self.healthyTargetsVecForIndices health subsetIndices
  self.vecPath.selectHealthy self ctxKey subsetHealthy subsetIndices (self.subsetLane name) lanes

def selectFromSubset (ctxKey name : Bytes) (health : Option HealthContext) (lanes : Lanes) :
    Selecting :=
  let n := self.targets.length
  if n = 0 then .ok (none, lanes)
  else match self.subsetIndices.get name with
  | none | some [] => .ok (none, lanes)
  | some subsetTargetIndices =>
    if maxBitsetTargets < n then
      self.selectSubsetVecFallback ctxKey name subsetTargetIndices health lanes
    else do
      let subsetHealthy ← self.computeHealthBitsetForIndices health subsetTargetIndices
      self.bitsetPath.selectHealthy self ctxKey subsetHealthy (bitsetForIndices subsetTargetIndices)
        (self.subsetLane name) lanes

/-! ### A port -/

def selectPortVecFallback (ctxKey : Bytes) (port : UInt16) (portState : PortLbState)
    (health : Option HealthContext) (lanes : Lanes) : Selecting := do
  let candidates ← self.healthyTargetsVecForIndices health portState.targetIndices
  let all := portState.targetIndices.mapM fun idx => do return (idx, ← index self.targets idx)
  self.vecPath.selectOrFallback self ctxKey candidates all portState.targetIndices
    (self.portLane port portState) lanes

def selectForPort (ctxKey : Bytes) (port : UInt16) (health : Option HealthContext)
    (lanes : Lanes) : Selecting :=
  match self.portOverrides.get port with
  | none => self.select ctxKey health lanes
  | some portState =>
    let n := self.targets.length
    if n = 0 ∨ portState.targetIndices = [] then .ok (none, lanes)
    else if maxBitsetTargets < n then self.selectPortVecFallback ctxKey port portState health lanes
    else do
      let portHealthy ← self.computeHealthBitsetForIndices health portState.targetIndices
      let portScope := bitsetForIndices portState.targetIndices
      self.bitsetPath.selectOrFallback self ctxKey portHealthy (.ok portScope) portScope
        (self.portLane port portState) lanes

/-! ### A port and an address family -/

def selectPortMatchingFamilyVecFallback (ctxKey : Bytes) (port : UInt16) (portState : PortLbState)
    (health : Option HealthContext) (destination : IpAddr) (lanes : Lanes) : Selecting :=
  let familyIndices := self.familyEligibilityIndices destination
  if familyIndices.isEmpty then .ok (none, lanes)
  else
    let scopeIndices := self.subsetPortIntersectionVec portState.targetIndices familyIndices
    if scopeIndices.isEmpty then .ok (none, lanes)
    else do
      let candidates ← self.healthyTargetsVecForIndices health scopeIndices
      self.vecPath.selectOrFallback self ctxKey candidates (.ok (self.attach scopeIndices))
        scopeIndices (self.portLane port portState) lanes

def selectForPortMatchingFamily (ctxKey : Bytes) (port : UInt16) (health : Option HealthContext)
    (destination : IpAddr) (lanes : Lanes) : Selecting :=
  match self.portOverrides.get port with
  | none => self.selectMatchingFamily ctxKey health destination lanes
  | some portState =>
    let n := self.targets.length
    if n = 0 ∨ portState.targetIndices = [] then .ok (none, lanes)
    else if maxBitsetTargets < n then
      self.selectPortMatchingFamilyVecFallback ctxKey port portState health destination lanes
    else
      let familyScope := self.familyEligibilityBitset destination
      if familyScope.isEmpty then .ok (none, lanes)
      else
        let scope := (bitsetForIndices portState.targetIndices).intersect familyScope
        if scope.isEmpty then .ok (none, lanes)
        else do
          let portHealthy ← self.computeHealthBitsetForMask health scope
          self.bitsetPath.selectOrFallback self ctxKey portHealthy (.ok scope) scope
            (self.portLane port portState) lanes

/-! ### A port and a subset -/

def selectPortSubsetVecFallback (ctxKey : Bytes) (port : UInt16) (portState : PortLbState)
    (name : Bytes) (subsetIndices : List ℕ) (health : Option HealthContext) (lanes : Lanes) :
    Selecting :=
  let intersection := self.subsetPortIntersectionVec subsetIndices portState.targetIndices
  if intersection.isEmpty then .ok (none, lanes)
  else do
    let candidates ← self.healthyTargetsVecForIndices health intersection
    self.vecPath.selectHealthy self ctxKey candidates intersection
      (self.portSubsetLane port portState name) lanes

def selectForPortFromSubset (ctxKey : Bytes) (port : UInt16) (name : Bytes)
    (health : Option HealthContext) (lanes : Lanes) : Selecting :=
  match self.portOverrides.get port with
  | none => self.selectFromSubset ctxKey name health lanes
  | some portState =>
    let n := self.targets.length
    if n = 0 ∨ portState.targetIndices = [] then .ok (none, lanes)
    else match self.subsetIndices.get name with
    | none | some [] => .ok (none, lanes)
    | some subsetTargetIndices =>
      if maxBitsetTargets < n then
        self.selectPortSubsetVecFallback ctxKey port portState name subsetTargetIndices health lanes
      else
        let intersection := subsetPortMask subsetTargetIndices portState.targetIndices
        if intersection.isEmpty then .ok (none, lanes)
        else do
          let portSubsetHealthy ← self.computeHealthBitsetForMask health intersection
          self.bitsetPath.selectHealthy self ctxKey portSubsetHealthy intersection
            (self.portSubsetLane port portState name) lanes

end Selector

/-! ## On indices -/

inductive Among where
  | all
  | family (destination : IpAddr)
  | subset (name : Bytes)
  | port (port : UInt16)
  | portFamily (port : UInt16) (destination : IpAddr)
  | portSubset (port : UInt16) (name : Bytes)

/-- Subsets do not fall back on unhealthy targets. -/
def Among.fallsBack : Among → Bool
  | .subset _ | .portSubset .. => false
  | _ => true

namespace Selector
variable (self : Selector)

def selectAmong (ctxKey : Bytes) (health : Option HealthContext) (lanes : Lanes) :
    Among → Selecting
  | .all => self.select ctxKey health lanes
  | .family destination => self.selectMatchingFamily ctxKey health destination lanes
  | .subset name => self.selectFromSubset ctxKey name health lanes
  | .port port => self.selectForPort ctxKey port health lanes
  | .portFamily port destination =>
    self.selectForPortMatchingFamily ctxKey port health destination lanes
  | .portSubset port name => self.selectForPortFromSubset ctxKey port name health lanes

/-- The copy on vectors, for any number of targets. -/
def selectAmongVec (ctxKey : Bytes) (health : Option HealthContext) (lanes : Lanes)
    (among : Among) : Selecting :=
  let ofAll := self.selectVecFallback ctxKey health lanes
  let ofFamily destination := self.selectMatchingFamilyVecFallback ctxKey health destination lanes
  let ofSubset name :=
    match self.subsetIndices.get name with
    | none | some [] => .ok (none, lanes)
    | some indices => self.selectSubsetVecFallback ctxKey name indices health lanes
  if self.targets.length = 0 then .ok (none, lanes)
  else match among with
  | .all => ofAll
  | .family destination => ofFamily destination
  | .subset name => ofSubset name
  | .port port =>
    match self.portOverrides.get port with
    | none => ofAll
    | some portState => self.selectPortVecFallback ctxKey port portState health lanes
  | .portFamily port destination =>
    match self.portOverrides.get port with
    | none => ofFamily destination
    | some portState =>
      self.selectPortMatchingFamilyVecFallback ctxKey port portState health destination lanes
  | .portSubset port name =>
    match self.portOverrides.get port with
    | none => ofSubset name
    | some portState =>
      match self.subsetIndices.get name with
      | none | some [] => .ok (none, lanes)
      | some indices =>
        self.selectPortSubsetVecFallback ctxKey port portState name indices health lanes

def familyPool (destination : IpAddr) : List ℕ :=
  indicesWhere self.targets fun t => backendHostMatchesIpFamily t.host destination

def subsetPool (name : Bytes) : List ℕ := (self.subsetIndices.get name).getD []

/-- The targets that a selection is among. -/
def pool : Among → List ℕ
  | .all => range self.targets.length
  | .family destination => self.familyPool destination
  | .subset name => self.subsetPool name
  | .port port =>
    match self.portOverrides.get port with
    | none => range self.targets.length
    | some portState => portState.targetIndices
  | .portFamily port destination =>
    match self.portOverrides.get port with
    | none => self.familyPool destination
    | some portState => portState.targetIndices.filter (· ∈ self.familyPool destination)
  | .portSubset port name =>
    match self.portOverrides.get port with
    | none => self.subsetPool name
    | some portState => (self.subsetPool name).filter (· ∈ portState.targetIndices)

def laneFor : Among → Lane
  | .all | .family _ => self.parentLane
  | .subset name => self.subsetLane name
  | .port port | .portFamily port _ =>
    match self.portOverrides.get port with
    | none => self.parentLane
    | some portState => self.portLane port portState
  | .portSubset port name =>
    match self.portOverrides.get port with
    | none => self.subsetLane name
    | some portState => self.portSubsetLane port portState name

/-- What a target is selected from: the healthy part of a pool, and else all of it if the selection
    falls back. -/
def candidates (health : Option HealthContext) (pool : List ℕ) (fallsBack : Bool) : List ℕ :=
  if self.healthyPool health pool ≠ [] then self.healthyPool health pool
  else if fallsBack then pool else []

/-- How the schedules of a pool are looked up. -/
def keyOf : List ℕ → WrrScheduleKey :=
  if maxBitsetTargets < self.targets.length then .indices else .ofBitset

/-- A selection from a `pool`.  The localities of the `scope` count, too. -/
def selection (keyOf : List ℕ → WrrScheduleKey) (ctxKey : Bytes) (health : Option HealthContext)
    (pool scope : List ℕ) (fallsBack : Bool) (lane : Lane) (lanes : Lanes) : Selecting :=
  let healthy := self.healthyPool health pool
  if healthy ≠ [] then
    (self.listPath keyOf).selectPreferred self ctxKey false healthy scope lane lanes
  else if fallsBack ∧ pool ≠ [] then
    (self.listPath keyOf).selectPreferred self ctxKey true pool scope lane lanes
  else .ok (none, lanes)

/-- What all copies of a selection compute. -/
def selectionAmong (keyOf : List ℕ → WrrScheduleKey) (ctxKey : Bytes) (health : Option HealthContext)
    (lanes : Lanes) (among : Among) : Selecting :=
  self.selection keyOf ctxKey health (self.pool among) (self.pool among) among.fallsBack
    (self.laneFor among) lanes

end Selector

/-! ## Simulation -/

section
variable {P S : Type} {ops : PathOps P S} {self : Selector} {keyOf : List ℕ → WrrScheduleKey}
  {rep : P → List ℕ → Prop} {scopeRep : S → List ℕ → Prop} {c : P} {sc : S}
  {is pool scope : List ℕ} {ctxKey : Bytes} {health : Option HealthContext} {lane : Lane}
  {lanes : Lanes} {compute : Except Panic P}

namespace PathOps.Models

section
variable (h : ops.Models self keyOf rep scopeRep)
include h

theorem selectPreferred (hc : rep c is) (hsc : scopeRep sc scope)
    (hln : LaneOk self.toLoadBalancer lane) (hlanes : lanes.Ok self) (isFallback : Bool) :
    ops.selectPreferred self ctxKey isFallback c sc lane lanes =
      (self.listPath keyOf).selectPreferred self ctxKey isFallback is scope lane lanes := by
  obtain ⟨c', is', flag, hp, hp', hrp⟩ :=
    h.pool.preferredLocality hc hsc lane.localityLb lane.failoverEnabled
  have hls : (self.listPath keyOf).preferredLocality self is scope lane.localityLb
      lane.failoverEnabled = .ok (is', flag) := hp'
  simp only [PathOps.selectPreferred, hp, hls, ok_bind, selectUsing_eq h hrp hln hlanes]

theorem selectOrFallback (hcm : ∃ c, compute = .ok c ∧ rep c (self.healthyPool health pool))
    {all : Except Panic P} (hal : ∃ a, all = .ok a ∧ rep a pool) (hsc : scopeRep sc pool)
    (hne : pool ≠ []) (hln : LaneOk self.toLoadBalancer lane) (hlanes : lanes.Ok self) :
    (do ops.selectOrFallback self ctxKey (← compute) all sc lane lanes) =
      self.selection keyOf ctxKey health pool pool true lane lanes := by
  obtain ⟨c, rfl, hc⟩ := hcm
  obtain ⟨a, rfl, ha⟩ := hal
  simp only [ok_bind, PathOps.selectOrFallback, selection, h.pool.isEmpty hc,
    h.selectPreferred hc hsc hln hlanes, h.selectPreferred ha hsc hln hlanes]
  cases self.healthyPool health pool <;> simp [hne]

theorem selectHealthy (hcm : ∃ c, compute = .ok c ∧ rep c (self.healthyPool health pool))
    (hsc : scopeRep sc scope) (hln : LaneOk self.toLoadBalancer lane) (hlanes : lanes.Ok self) :
    (do ops.selectHealthy self ctxKey (← compute) sc lane lanes) =
      self.selection keyOf ctxKey health pool scope false lane lanes := by
  obtain ⟨c, rfl, hc⟩ := hcm
  simp only [ok_bind, PathOps.selectHealthy, selection, h.pool.isEmpty hc,
    h.selectPreferred hc hsc hln hlanes]
  cases self.healthyPool health pool <;> simp

end

end PathOps.Models

theorem healthyPool_sublist : (self.healthyPool health pool).Sublist pool := by
  rw [healthyPool, srvTier]
  split_ifs
  · exact filter_sublist
  · exact filter_sublist.trans filter_sublist

theorem selection_nil {fallsBack : Bool} :
    self.selection keyOf ctxKey health [] scope fallsBack lane lanes = .ok (none, lanes) := by
  have hnl : self.healthyPool health [] = [] := sublist_nil.1 healthyPool_sublist
  simp [selection, hnl]

/-! ### Pools -/

theorem familyEligibilityIndices_eq (destination : IpAddr) :
    self.familyEligibilityIndices destination = self.familyPool destination := by
  have hm : ∀ e ∈ self.targets.zipIdx, backendHostMatchesIpFamily e.1.host destination =
      self.targets[e.2]?.any fun t => backendHostMatchesIpFamily t.host destination := by
    intro e he
    rw [mem_zipIdx_iff_getElem?.1 he, Option.any_some]
  rw [familyEligibilityIndices, filter_congr hm, familyPool, indicesWhere,
    range_eq_range', ← zipIdx_map_snd, filter_map]
  rfl

/-- The bits that a sweep over targets with their indices sets. -/
theorem getLsbD_foldl_or {α : Type} (p : α → Bool) (l : List (α × ℕ)) (bits : BitVec 128) {i : ℕ}
    (hl : ∀ e ∈ l, e.2 < 128) :
    (l.foldl (fun bits e => if p e.1 then bits ||| (1#128 <<< e.2) else bits) bits).getLsbD i =
      (bits.getLsbD i || l.any fun e => p e.1 && e.2 == i) := by
  induction l generalizing bits with
  | nil => simp
  | cons e l ih =>
    have he := hl e mem_cons_self
    rw [foldl_cons, ih _ fun e he => hl e (mem_cons_of_mem _ he), any_cons]
    split_ifs with hp
    · have hbt : (1#128 <<< e.2).getLsbD i = (e.2 == i) := by
        by_cases hi : i < 128
        · rw [getLsbD_one_shiftLeft hi, Bool.eq_iff_iff, decide_eq_true_eq, beq_iff_eq, eq_comm]
        · rw [BitVec.getLsbD_of_ge _ _ (not_lt.1 hi)]
          exact (beq_eq_false_iff_ne.2 fun (h : e.2 = i) => hi (h ▸ he)).symm
      rw [BitVec.getLsbD_or, hbt, hp, Bool.true_and, Bool.or_assoc]
    · rw [Bool.not_eq_true] at hp
      rw [hp, Bool.false_and, Bool.false_or]

theorem holds_familyEligibilityBitset (hn : self.targets.length ≤ maxBitsetTargets)
    (destination : IpAddr) :
    Holds (self.familyEligibilityBitset destination) (self.familyPool destination) := by
  have hlt : ∀ e ∈ self.targets.zipIdx, e.2 < 128 := fun e he =>
    (snd_lt_of_mem_zipIdx he).trans_le hn
  have hw : self.targets.zipIdx.takeWhile (fun e => e.2 < maxBitsetTargets) =
      self.targets.zipIdx := takeWhile_eq_self_iff.2 fun e he => decide_eq_true (hlt e he)
  refine holds_fromBits (positions_eq (scope_indicesWhere _ _).ascending fun i => ?_)
  rw [hw, getLsbD_foldl_or (fun t => backendHostMatchesIpFamily t.host destination) _ 0 hlt,
    show BitVec.getLsbD (0 : BitVec 128) i = false from BitVec.getLsbD_zero, Bool.false_or,
    any_eq_true, familyPool, indicesWhere,
    mem_filter, mem_range, Option.any_eq_true]
  constructor
  · rintro ⟨⟨t, j⟩, hmm, hm⟩
    rw [Bool.and_eq_true, beq_iff_eq] at hm
    obtain ⟨hm, rfl⟩ := hm
    have ht := mem_zipIdx_iff_getElem?.1 hmm
    exact ⟨(List.getElem?_eq_some_iff.1 ht).1, t, ht, hm⟩
  · rintro ⟨-, t, ht, hm⟩
    exact ⟨(t, i), mem_zipIdx_iff_getElem?.2 ht, by simp [hm]⟩

theorem scope_familyPool (destination : IpAddr) : self.Scoped (self.familyPool destination) :=
  scope_indicesWhere _ _

theorem subsetPortIntersectionVec_eq {portIndices : List ℕ}
    (hs : self.Scoped portIndices) :
    self.subsetPortIntersectionVec is portIndices = is.filter (· ∈ portIndices) :=
  filter_congr fun i _ => getElem?_membershipMask hs.lt i

theorem bitsetRep_indices (hn : self.targets.length ≤ maxBitsetTargets)
    (hs : self.Scoped is) : BitsetRep self (bitsetForIndices is) is :=
  ⟨holds_bitsetForIndices hs.ascending fun i hi => (hs.lt i hi).trans_le hn, hs.lt⟩

variable {upstreamId : Bytes}

theorem scope_subsetPool (hb : self.Built upstreamId) (name : Bytes) :
    self.Scoped (self.subsetPool name) := by
  rw [subsetPool]
  cases hget : self.subsetIndices.get name with
  | none => exact ⟨.nil, nofun⟩
  | some indices => exact hb.subsetScope name indices hget

theorem scope_pool (hb : self.Built upstreamId) (among : Among) :
    self.Scoped (self.pool among) := by
  have hp : ∀ {port state}, self.portOverrides.get port = some state →
      self.Scoped state.targetIndices := fun h => (hb.portScope _ _ h).1
  cases among with
  | all => exact .range _
  | family destination => exact scope_familyPool destination
  | subset name => exact scope_subsetPool hb name
  | port port =>
    rw [pool]
    split
    · exact .range _
    · next h => exact hp h
  | portFamily port destination =>
    rw [pool]
    split
    · exact scope_familyPool destination
    · next h => exact (hp h).filter _
  | portSubset port name =>
    rw [pool]
    split
    · exact scope_subsetPool hb name
    · exact (scope_subsetPool hb name).filter _

/-- A subset that is not empty was defined. -/
theorem subsetIndices_of_ne_nil {name : Bytes} (hne : self.subsetPool name ≠ []) :
    self.subsetIndices.get name = some (self.subsetPool name) := by
  rw [subsetPool] at hne ⊢
  cases hget : self.subsetIndices.get name with
  | none =>
    rw [hget] at hne
    exact absurd rfl hne
  | some indices => rfl

/-- How a subset is looked up that must not be empty. -/
theorem match_subset {α : Type} (name : Bytes) (unknown : α) (known : List ℕ → α) :
    (match self.subsetIndices.get name with
      | none | some [] => unknown
      | some indices => known indices) =
    if self.subsetPool name = [] then unknown else known (self.subsetPool name) := by
  rw [subsetPool]
  rcases self.subsetIndices.get name with _ | _ | ⟨i, is⟩ <;> rfl

theorem laneFor_ok (hb : self.Built upstreamId) {among : Among}
    (hne : self.pool among ≠ []) : LaneOk self.toLoadBalancer (self.laneFor among) := by
  have hp : LaneOk self.toLoadBalancer self.parentLane := by
    refine hb.parent fun hnl => hne (eq_nil_iff_forall_not_mem.2 fun i hi => ?_)
    have hlt := (scope_pool hb among).lt i hi
    rw [hnl] at hlt
    exact Nat.not_lt_zero i hlt
  have hs : ∀ name, self.subsetPool name ≠ [] →
      LaneOk self.toLoadBalancer (self.subsetLane name) := fun name hne =>
    hb.subset name _ (subsetIndices_of_ne_nil hne) hne
  cases among with
  | all => exact hp
  | family destination => exact hp
  | subset name => exact hs name hne
  | port port =>
    rw [laneFor]
    split
    · exact hp
    · next h => exact hb.port _ _ h
  | portFamily port destination =>
    rw [laneFor]
    split
    · exact hp
    · next h => exact hb.port _ _ h
  | portSubset port name =>
    rw [pool] at hne
    rw [laneFor]
    split at hne
    · exact hs name hne
    · next h =>
      have hne' : self.subsetPool name ≠ [] := fun hnl => hne (by rw [hnl]; rfl)
      exact hb.portSubset _ _ _ _ h (subsetIndices_of_ne_nil hne') hne'

/-! ### Vectors -/

theorem Scope.sublist {n : ℕ} {part : List ℕ} (h : Scope n is) (hp : part.Sublist is) :
    Scope n part :=
  ⟨h.ascending.sublist hp, fun i hi => h.lt i (hp.subset hi)⟩

theorem vecHealthy (hs : self.Sized) (hp : self.Scoped pool)
    (hsc : self.Scoped scope) (hln : LaneOk self.toLoadBalancer lane)
    (hlanes : lanes.Ok self) :
    (self.healthyTargetsVecForIndices health pool >>= fun healthy =>
      self.vecPath.selectHealthy self ctxKey healthy scope lane lanes) =
    self.selection .indices ctxKey health pool scope false lane lanes :=
  (vecPath_models hs).selectHealthy
    ⟨_, healthyTargetsVecForIndices_ok hs hp health, rfl, hp.sublist healthyPool_sublist⟩
    ⟨rfl, hsc⟩ hln hlanes

theorem bitsetHealthy (hs : self.Sized) (hn : self.targets.length ≤ maxBitsetTargets)
    (hp : self.Scoped pool) {b : HealthBitset} (hsc : BitsetRep self b scope)
    {compute : Except Panic HealthBitset}
    (hcm : ∃ c, compute = .ok c ∧ Holds c (self.healthyPool health pool))
    (hln : LaneOk self.toLoadBalancer lane) (hlanes : lanes.Ok self) :
    (compute >>= fun healthy => self.bitsetPath.selectHealthy self ctxKey healthy b lane lanes) =
    self.selection .ofBitset ctxKey health pool scope false lane lanes := by
  obtain ⟨c, hc, hh⟩ := hcm
  exact (bitsetPath_models hs hn).selectHealthy
    ⟨c, hc, hh, fun i hi => hp.lt i (healthyPool_sublist.subset hi)⟩ hsc hln hlanes

theorem selectionAmong_nil (among : Among) (hnl : self.pool among = []) :
    self.selectionAmong keyOf ctxKey health lanes among = .ok (none, lanes) := by
  rw [selectionAmong, hnl, selection_nil]

/-- Without an override, a port has the pool and the lane of its parent. -/
theorem selectionAmong_of_none {port : UInt16} (hp : self.portOverrides.get port = none) :
    (self.selectionAmong keyOf ctxKey health lanes (.port port) =
        self.selectionAmong keyOf ctxKey health lanes .all) ∧
      (∀ destination, self.selectionAmong keyOf ctxKey health lanes (.portFamily port destination) =
        self.selectionAmong keyOf ctxKey health lanes (.family destination)) ∧
      ∀ name, self.selectionAmong keyOf ctxKey health lanes (.portSubset port name) =
        self.selectionAmong keyOf ctxKey health lanes (.subset name) := by
  simp [selectionAmong, pool, laneFor, hp, Among.fallsBack]

section
variable (hb : self.Built upstreamId)
include hb

theorem pool_eq_nil (hnn : self.targets.length = 0) (among : Among) : self.pool among = [] :=
  eq_nil_iff_forall_not_mem.2 fun i hi =>
    Nat.not_lt_zero i (hnn ▸ (scope_pool hb among).lt i hi)

theorem port_not_empty {port : UInt16} {portState : PortLbState}
    (hp : self.portOverrides.get port = some portState) :
    ¬(self.targets.length = 0 ∨ portState.targetIndices = []) := by
  obtain ⟨hs, hne⟩ := hb.portScope _ _ hp
  obtain ⟨i, hi⟩ := exists_mem_of_ne_nil _ hne
  have hlt := hs.lt i hi
  rintro (hnn | hnl)
  · omega
  · exact hne hnl

variable (among : Among) (hlanes : lanes.Ok self) (hp : self.pool among = is) (hne : is ≠ [])
  (hln : self.laneFor among = lane)
include hlanes hp hne hln

theorem vecOrFallback (hf : among.fallsBack = true) {all : Except Panic Candidates}
    (ha : all = .ok (self.attach is)) :
    (self.healthyTargetsVecForIndices health is >>= fun healthy =>
      self.vecPath.selectOrFallback self ctxKey healthy all is lane lanes) =
    self.selectionAmong .indices ctxKey health lanes among := by
  subst hp hln
  have hsc := scope_pool hb among
  rw [selectionAmong, hf]
  exact (vecPath_models hb.sized).selectOrFallback
    ⟨_, healthyTargetsVecForIndices_ok hb.sized hsc health, rfl, hsc.sublist healthyPool_sublist⟩
    ⟨_, ha, rfl, hsc⟩ ⟨rfl, hsc⟩ hne (laneFor_ok hb hne) hlanes

theorem vecHealthyAmong (hf : among.fallsBack = false) :
    (self.healthyTargetsVecForIndices health is >>= fun healthy =>
      self.vecPath.selectHealthy self ctxKey healthy is lane lanes) =
    self.selectionAmong .indices ctxKey health lanes among := by
  subst hp hln
  rw [selectionAmong, hf]
  exact vecHealthy hb.sized (scope_pool hb among) (scope_pool hb among) (laneFor_ok hb hne) hlanes

variable (hn : self.targets.length ≤ maxBitsetTargets) {b : HealthBitset} (hr : Holds b is)
  {compute : Except Panic HealthBitset}
  (hcm : ∃ c, compute = .ok c ∧ Holds c (self.healthyPool health is))
include hn hr hcm

theorem bitsetOrFallback (hf : among.fallsBack = true) :
    (compute >>= fun healthy =>
      self.bitsetPath.selectOrFallback self ctxKey healthy (.ok b) b lane lanes) =
    self.selectionAmong .ofBitset ctxKey health lanes among := by
  subst hp hln
  have hsc := scope_pool hb among
  obtain ⟨c, hc, hh⟩ := hcm
  rw [selectionAmong, hf]
  exact (bitsetPath_models hb.sized hn).selectOrFallback
    ⟨c, hc, hh, (hsc.sublist healthyPool_sublist).lt⟩ ⟨b, rfl, hr, hsc.lt⟩ ⟨hr, hsc.lt⟩ hne
    (laneFor_ok hb hne) hlanes

theorem bitsetHealthyAmong (hf : among.fallsBack = false) :
    (compute >>= fun healthy => self.bitsetPath.selectHealthy self ctxKey healthy b lane lanes) =
    self.selectionAmong .ofBitset ctxKey health lanes among := by
  subst hp hln
  have hsc := scope_pool hb among
  rw [selectionAmong, hf]
  exact bitsetHealthy hb.sized hn hsc ⟨hr, hsc.lt⟩ hcm (laneFor_ok hb hne) hlanes

end

theorem range_ne_nil {n : ℕ} (hne : n ≠ 0) : range n ≠ [] := mt range_eq_nil.1 hne

section
variable (hb : self.Built upstreamId) (hlanes : lanes.Ok self)
include hb hlanes

/-- **The copy on vectors.** -/
theorem selectAmongVec_eq (among : Among) :
    self.selectAmongVec ctxKey health lanes among =
      self.selectionAmong .indices ctxKey health lanes among := by
  simp only [selectAmongVec, match_subset]
  split_ifs with hnn
  · exact (selectionAmong_nil _ (pool_eq_nil hb hnn _)).symm
  have ha : self.selectVecFallback ctxKey health lanes =
      self.selectionAmong .indices ctxKey health lanes .all := by
    rw [selectVecFallback, healthyTargetsVec_ok hb.sized,
      ← healthyTargetsVecForIndices_ok hb.sized (.range _)]
    exact vecOrFallback hb .all hlanes rfl (range_ne_nil hnn) rfl rfl (congrArg Except.ok zipIdx_attach)
  have hf : ∀ destination, self.selectMatchingFamilyVecFallback ctxKey health destination lanes =
      self.selectionAmong .indices ctxKey health lanes (.family destination) := by
    intro destination
    dsimp only [selectMatchingFamilyVecFallback]
    rw [familyEligibilityIndices_eq]
    split_ifs with he
    · exact (selectionAmong_nil (.family destination) (isEmpty_iff.1 he)).symm
    · exact vecOrFallback hb (.family destination) hlanes rfl (mt isEmpty_iff.2 he) rfl rfl rfl
  have hs : ∀ name, (if self.subsetPool name = [] then .ok (none, lanes)
      else self.selectSubsetVecFallback ctxKey name (self.subsetPool name) health lanes) =
      self.selectionAmong .indices ctxKey health lanes (.subset name) := by
    intro name
    split_ifs with he
    · exact (selectionAmong_nil (.subset name) he).symm
    · exact vecHealthyAmong hb (.subset name) hlanes rfl he rfl rfl
  cases among with
  | all => exact ha
  | family destination => exact hf destination
  | subset name => exact hs name
  | port port =>
    dsimp only
    cases hp : self.portOverrides.get port with
    | none => exact ha.trans (selectionAmong_of_none hp).1.symm
    | some portState =>
      obtain ⟨hsc, hne⟩ := hb.portScope _ _ hp
      refine vecOrFallback hb (.port port) hlanes ?_ hne ?_ rfl
        ((mapM_attach id hsc.lt).trans (by rw [map_id]))
      all_goals simp only [pool, laneFor, hp]
  | portFamily port destination =>
    dsimp only
    cases hp : self.portOverrides.get port with
    | none => exact (hf destination).trans ((selectionAmong_of_none hp).2.1 _).symm
    | some portState =>
      have hpl : self.pool (.portFamily port destination) =
          portState.targetIndices.filter (· ∈ self.familyPool destination) := by
        simp only [pool, hp]
      dsimp only [selectPortMatchingFamilyVecFallback]
      rw [familyEligibilityIndices_eq, subsetPortIntersectionVec_eq (scope_familyPool destination)]
      split_ifs with hf he
      · rw [selectionAmong_nil _ (by rw [hpl, isEmpty_iff.1 hf]; simp)]
      · rw [selectionAmong_nil _ (hpl.trans (isEmpty_iff.1 he))]
      · exact vecOrFallback hb _ hlanes hpl (mt isEmpty_iff.2 he)
          (by simp only [laneFor, hp]) rfl rfl
  | portSubset port name =>
    dsimp only
    cases hp : self.portOverrides.get port with
    | none => exact (hs name).trans ((selectionAmong_of_none hp).2.2 _).symm
    | some portState =>
      have hpl : self.pool (.portSubset port name) =
          (self.subsetPool name).filter (· ∈ portState.targetIndices) := by
        simp only [pool, hp]
      dsimp only [selectPortSubsetVecFallback]
      rw [subsetPortIntersectionVec_eq (hb.portScope _ _ hp).1]
      split_ifs with hs he
      · rw [selectionAmong_nil _ (by rw [hpl, hs, filter_nil])]
      · rw [selectionAmong_nil _ (hpl.trans (isEmpty_iff.1 he))]
      · exact vecHealthyAmong hb _ hlanes hpl (mt isEmpty_iff.2 he)
          (by simp only [laneFor, hp]) rfl

/-! ### Bitsets -/

/-- **The copy on bitsets.** -/
theorem selectAmong_bitset_eq (hn : self.targets.length ≤ maxBitsetTargets) (among : Among) :
    self.selectAmong ctxKey health lanes among =
      self.selectionAmong .ofBitset ctxKey health lanes among := by
  have hlr : ¬maxBitsetTargets < self.targets.length := not_lt.2 hn
  have hnl : ∀ among, self.targets.length = 0 → .ok (none, lanes) =
      self.selectionAmong .ofBitset ctxKey health lanes among := fun among hnn =>
    (selectionAmong_nil _ (pool_eq_nil hb hnn among)).symm
  have ha : self.select ctxKey health lanes =
      self.selectionAmong .ofBitset ctxKey health lanes .all := by
    simp only [select, if_neg hlr]
    split_ifs with hnn
    · exact hnl _ hnn
    · exact bitsetOrFallback hb .all hlanes rfl (range_ne_nil hnn) rfl hn (holds_all hn)
        (computeHealthBitset_ok hb.sized hn health) rfl
  have hf : ∀ destination, self.selectMatchingFamily ctxKey health destination lanes =
      self.selectionAmong .ofBitset ctxKey health lanes (.family destination) := by
    intro destination
    have hh := holds_familyEligibilityBitset hn destination
    simp only [selectMatchingFamily, if_neg hlr, hh.isEmpty]
    split_ifs with hnn he
    · exact hnl _ hnn
    · exact (selectionAmong_nil (.family destination) (isEmpty_iff.1 he)).symm
    · exact bitsetOrFallback hb (.family destination) hlanes rfl (mt isEmpty_iff.2 he) rfl hn hh
        (computeHealthBitsetForMask_ok hb.sized hn (scope_familyPool destination) hh health) rfl
  have hs : ∀ name, self.selectFromSubset ctxKey name health lanes =
      self.selectionAmong .ofBitset ctxKey health lanes (.subset name) := by
    intro name
    have hsc := scope_subsetPool hb name
    simp only [selectFromSubset, match_subset, if_neg hlr]
    split_ifs with hnn he
    · exact hnl _ hnn
    · exact (selectionAmong_nil (.subset name) he).symm
    · exact bitsetHealthyAmong hb (.subset name) hlanes rfl he rfl hn (bitsetRep_indices hn hsc).1
        (computeHealthBitsetForIndices_ok hb.sized hn hsc health) rfl
  cases among with
  | all => exact ha
  | family destination => exact hf destination
  | subset name => exact hs name
  | port port =>
    simp only [selectAmong, selectForPort]
    cases hp : self.portOverrides.get port with
    | none => exact ha.trans (selectionAmong_of_none hp).1.symm
    | some portState =>
      obtain ⟨hsc, hne⟩ := hb.portScope _ _ hp
      simp only [if_neg hlr, if_neg (port_not_empty hb hp)]
      refine bitsetOrFallback hb (.port port) hlanes ?_ hne ?_ hn (bitsetRep_indices hn hsc).1
        (computeHealthBitsetForIndices_ok hb.sized hn hsc health) rfl
      all_goals simp only [pool, laneFor, hp]
  | portFamily port destination =>
    simp only [selectAmong, selectForPortMatchingFamily]
    cases hp : self.portOverrides.get port with
    | none => exact (hf destination).trans ((selectionAmong_of_none hp).2.1 _).symm
    | some portState =>
      have hpl : self.pool (.portFamily port destination) =
          portState.targetIndices.filter (· ∈ self.familyPool destination) := by
        simp only [pool, hp]
      have hsc := (hb.portScope _ _ hp).1
      have hh := holds_familyEligibilityBitset hn destination
      have hbt := (bitsetRep_indices hn hsc).1.intersect hh
      simp only [if_neg hlr, if_neg (port_not_empty hb hp), hh.isEmpty, hbt.isEmpty]
      split_ifs with hf he
      · rw [selectionAmong_nil _ (by rw [hpl, isEmpty_iff.1 hf]; simp)]
      · rw [selectionAmong_nil _ (hpl.trans (isEmpty_iff.1 he))]
      · exact bitsetOrFallback hb _ hlanes hpl (mt isEmpty_iff.2 he)
          (by simp only [laneFor, hp]) hn hbt
          (computeHealthBitsetForMask_ok hb.sized hn (hsc.filter _) hbt health) rfl
  | portSubset port name =>
    simp only [selectAmong, selectForPortFromSubset]
    cases hp : self.portOverrides.get port with
    | none => exact (hs name).trans ((selectionAmong_of_none hp).2.2 _).symm
    | some portState =>
      have hpl : self.pool (.portSubset port name) =
          (self.subsetPool name).filter (· ∈ portState.targetIndices) := by
        simp only [pool, hp]
      have hsc := scope_subsetPool hb name
      have hbt := (bitsetRep_indices hn hsc).1.intersect
        (bitsetRep_indices hn (hb.portScope _ _ hp).1).1
      simp only [if_neg hlr, if_neg (port_not_empty hb hp), match_subset,
        subsetPortMask, hbt.isEmpty]
      split_ifs with hs he
      · rw [selectionAmong_nil _ (by rw [hpl, hs, filter_nil])]
      · rw [selectionAmong_nil _ (hpl.trans (isEmpty_iff.1 he))]
      · exact bitsetHealthyAmong hb _ hlanes hpl (mt isEmpty_iff.2 he)
          (by simp only [laneFor, hp]) hn hbt
          (computeHealthBitsetForMask_ok hb.sized hn (hsc.filter _) hbt health) rfl

end

/-! ## Which copy -/

theorem selectAmong_vec (hb : self.Built upstreamId)
    (hlr : maxBitsetTargets < self.targets.length) (among : Among) :
    self.selectAmong ctxKey health lanes among = self.selectAmongVec ctxKey health lanes among := by
  have hs : self.targets.length ≠ 0 := (Nat.zero_lt_of_lt hlr).ne'
  cases among <;>
    simp only [selectAmong, selectAmongVec, select, selectMatchingFamily, selectFromSubset,
      selectForPort, selectForPortMatchingFamily, selectForPortFromSubset, if_neg hs, if_pos hlr]
  all_goals split
  all_goals first | rfl | (next h => rw [if_neg (port_not_empty hb h)])

/-- **Every selection** is the one on indices. -/
theorem selectAmong_eq (hb : self.Built upstreamId) (hlanes : lanes.Ok self)
    (among : Among) : self.selectAmong ctxKey health lanes among =
      self.selectionAmong self.keyOf ctxKey health lanes among := by
  rw [keyOf]
  split_ifs with hlr
  · rw [selectAmong_vec hb hlr, selectAmongVec_eq hb hlanes]
  · exact selectAmong_bitset_eq hb hlanes (not_lt.1 hlr) among

/-! ## What is selected -/

/-- Keys stand for the pools that they are the keys of. -/
def KeyOk (s : Selector) (keyOf : List ℕ → WrrScheduleKey) : Prop :=
  ∀ part, Scope s.targets.length part → (keyOf part).members = part

theorem keyOk_indices : KeyOk self .indices := fun _ _ => rfl

theorem keyOk_ofBitset (hn : self.targets.length ≤ maxBitsetTargets) : KeyOk self .ofBitset :=
  fun _ h => members_ofBitset h.ascending fun i hi => (h.lt i hi).trans_le hn

theorem keyOk_keyOf : KeyOk self self.keyOf := by
  rw [keyOf]
  split_ifs with hlr
  · exact keyOk_indices
  · exact keyOk_ofBitset (not_lt.1 hlr)

/-- What is selected from `candidates`.  A target from elsewhere in the `scope` is one that strict
    locality insists on, as no candidate is local. -/
structure Selected (s : Selector) (candidates scope : List ℕ) (isFallback : Bool)
    (sel : TargetSelection) : Prop where
  target : s.targets[sel.target.1]? = some sel.target.2
  fresh : sel.isFallback = false → isFallback = false ∧ sel.target.1 ∈ candidates
  mem : sel.target.1 ∈ candidates ∨ sel.target.1 ∈ scope ∧ s.isLocal sel.target.1 = true ∧
    s.localityLbStrict = true ∧ s.targetLocalityRanks = [] ∧ ∀ i ∈ candidates, s.isLocal i = false
  local_ : s.crossClusterFailoverPresent = true → (∃ i ∈ candidates, s.isLocal i = true) →
    s.isLocal sel.target.1 = true

theorem selectPreferred_ok (hk : KeyOk self keyOf) (his : self.Scoped is)
    (hs : self.Scoped scope) (hne : is ≠ [])
    (hln : LaneOk self.toLoadBalancer lane) (hlanes : lanes.Ok self) (isFallback : Bool) :
    ∃ sel lanes', (self.listPath keyOf).selectPreferred self ctxKey isFallback is scope lane lanes =
      .ok (some sel, lanes') ∧ lanes'.Ok self ∧ Selected self is scope isFallback sel := by
  obtain ⟨⟨part, degraded⟩, hpr, ⟨hp, hd⟩, hlc⟩ :=
    @preferred_ok self is scope lane.localityLb lane.failoverEnabled
  have hls : (self.listPath keyOf).preferredLocality self is scope lane.localityLb
      lane.failoverEnabled = .ok (part, degraded) := hpr
  -- both kinds of preferred targets are in bounds, and there is one
  obtain ⟨hs', hne'⟩ : self.Scoped part ∧ part ≠ [] := by
    cases degraded with
    | false => exact ⟨his.sublist (hp rfl).sublist, (hp rfl).ne_nil hne⟩
    | true =>
      have hf : part = scope.filter self.isLocal := (hd rfl).1
      exact ⟨hf ▸ hs.filter _, (hd rfl).2.1⟩
  obtain ⟨i, hi, lanes', hpk, hok⟩ := @selectUsing_ok self keyOf part ctxKey lane lanes
    (fun part hsb => hk part (hs'.sublist hsb)) hne' hln hlanes
  have hi' := hs'.lt i hi
  refine ⟨⟨(i, self.targets[i]), isFallback || degraded⟩, lanes', ?_, hok,
    getElem?_eq_getElem hi', fun hfl => ?_, ?_, fun hc hex => hlc hc hex i hi⟩
  · simp only [PathOps.selectPreferred, hls, hpk, ok_bind, handle_some hi', Option.map_some]
    rfl
  · rw [Bool.or_eq_false_iff] at hfl
    exact ⟨hfl.1, (hp hfl.2).sublist.subset hi⟩
  · cases degraded with
    | false => exact .inl ((hp rfl).sublist.subset hi)
    | true =>
      obtain ⟨hf, -, hst, hr, hnn⟩ := hd rfl
      obtain ⟨hm, hlo⟩ := mem_filter.1 (hf ▸ hi : i ∈ scope.filter self.isLocal)
      exact .inr ⟨hm, hlo, hst, hr, hnn⟩

/-- **What a selection from a pool selects.** -/
theorem selection_ok (hk : KeyOk self keyOf) (hp : self.Scoped pool)
    (hs : self.Scoped scope)
    (hln : pool ≠ [] → LaneOk self.toLoadBalancer lane) (hlanes : lanes.Ok self)
    (fallsBack : Bool) :
    ∃ r lanes', self.selection keyOf ctxKey health pool scope fallsBack lane lanes = .ok (r, lanes') ∧
      lanes'.Ok self ∧ (r.isSome ↔ self.candidates health pool fallsBack ≠ []) ∧
      ∀ sel, r = some sel → Selected self (self.candidates health pool fallsBack) scope
        (self.healthyPool health pool).isEmpty sel := by
  have hsb : (self.healthyPool health pool).Sublist pool := healthyPool_sublist
  by_cases hh : self.healthyPool health pool = []
  · by_cases hf : fallsBack = true ∧ pool ≠ []
    · obtain ⟨sel, lanes', heq, hok, hsl⟩ := @selectPreferred_ok self keyOf _ scope ctxKey lane
        lanes hk hp hs hf.2 (hln hf.2) hlanes true
      refine ⟨some sel, lanes', ?_, hok, ?_, ?_⟩
      · rw [← heq, selection, if_neg (not_not.2 hh), if_pos hf]
      · simp [candidates, hh, hf]
      · rintro _ ⟨⟩
        simpa [candidates, hh, hf.1] using hsl
    · refine ⟨none, lanes, ?_, hlanes, ?_, nofun⟩
      · rw [selection, if_neg (not_not.2 hh), if_neg hf]
      · simpa [candidates, hh] using hf
  · have hne : pool ≠ [] := fun hnl => hh (sublist_nil.1 (hnl ▸ hsb))
    obtain ⟨sel, lanes', heq, hok, hsl⟩ := @selectPreferred_ok self keyOf _ scope ctxKey lane lanes
      hk (hp.sublist hsb) hs hh (hln hne) hlanes false
    refine ⟨some sel, lanes', ?_, hok, ?_, ?_⟩
    · rw [← heq, selection, if_pos hh]
    · simp [candidates, hh]
    · rintro _ ⟨⟩
      simpa [candidates, hh, isEmpty_eq_false_iff.2 hh] using hsl

end

end Ferrum.Balancer
