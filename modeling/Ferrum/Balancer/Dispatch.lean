/-
  How one target is picked from a pool.

  A distribution over localities first restricts the pool to one of its buckets.  Then the algorithm
  of the lane picks a target, on bitsets or on vectors (`PathOps`).

  * `Selector.listPath`: what the algorithms pick, by indices.
  * `selectUsing_eq`: both paths pick that.
  * `selectUsing_ok`: a target of the pool is picked, whatever the state.
-/
import Ferrum.Balancer.Pick

namespace Ferrum.Balancer

open Lib List

attribute [local instance] Selector.intPreorder

/-! ## State -/

/-- What selections change: the counters and schedules of the lanes. -/
structure Lanes where
  rr : LaneId → Counters
  distribute : LaneId → Counters
  wrr : LaneId → WrrLaneState

def newSelectionCounters : Counters := fun i => i.val.toUInt64 * goldenRatio

def LoadBalancer.newLanes (lb : LoadBalancer) : Lanes where
  rr _ := newSelectionCounters
  distribute _ := newSelectionCounters
  wrr id := .new (lb.wrrLen id)

namespace Lanes

def setRr (lanes : Lanes) (id : LaneId) (counters : Counters) : Lanes :=
  { lanes with rr := Function.update lanes.rr id counters }

def setDistribute (lanes : Lanes) (id : LaneId) (counters : Counters) : Lanes :=
  { lanes with distribute := Function.update lanes.distribute id counters }

def setWrr (lanes : Lanes) (id : LaneId) (wrr : WrrLaneState) : Lanes :=
  { lanes with wrr := Function.update lanes.wrr id wrr }

end Lanes

/-! ## Paths -/

/-- The operations of a path: on pools, and how a target is picked from one. -/
structure PathOps (P S : Type) extends PoolOps P S where
  /-- Whether a bucket has a member of the pool. -/
  meets : P → LocalityDistributeGroup → Bool
  /-- The members of the pool in a bucket. -/
  group : P → LocalityDistributeGroup → P
  /-- The member that a ticket falls on. -/
  nth : P → ℕ → Except Panic Chosen
  wrr : P → WrrLaneState → Except Panic (Chosen × WrrLaneState)
  leastConnections : P → Except Panic Chosen
  leastLatency : P → Counters → Except Panic (Chosen × Counters)
  consistentHash : Bytes → P → HashRing → Except Panic Chosen

namespace PathOps
variable {P S : Type} (ops : PathOps P S) (self : Selector)

/-- The bucket that a pick falls on, and else the first one with a member. -/
def groupFor (healthy : P) (pick : ℕ) : List LocalityDistributeGroup → ℕ → Option P → Option P
  | [], _, firstEligible => firstEligible
  | g :: groups, acc, firstEligible =>
    let masked := ops.group healthy g
    if ops.isEmpty masked then groupFor healthy pick groups acc firstEligible
    else
      let acc := satAdd acc g.weight
      if pick < acc then some masked
      else groupFor healthy pick groups acc (firstEligible.or (some masked))

def distributeTotal (healthy : P) (groups : List LocalityDistributeGroup) : ℕ :=
  groups.foldl (fun total g => if ops.meets healthy g then satAdd total g.weight else total) 0

end PathOps

/-- The pick among weights of a total.  Consistent hashing takes it from the request. -/
def Selector.distributePick (self : Selector) (ctxKey : Bytes) (total : ℕ)
    (algorithm : LoadBalancerAlgorithm) (counter : LaneId) (lanes : Lanes) : ℕ × Lanes :=
  if algorithm = .consistentHashing then
    ((goldenRatioHash (fxHashStr ctxKey)).toNat % total, lanes)
  else
    let counters := lanes.distribute counter
    ((goldenRatioHash (counters self.shard)).toNat % total,
      lanes.setDistribute counter (counters.tick self.shard))

namespace PathOps
variable {P S : Type} (ops : PathOps P S) (self : Selector)

def distributeGroup (healthy : P) (ctxKey : Bytes) (algorithm : LoadBalancerAlgorithm)
    (locality : Option LocalityLbState) (lanes : Lanes) : Option P × Lanes :=
  match locality with
  | none => (none, lanes)
  | some state =>
    match state.distributeGroups with
    | none => (none, lanes)
    | some groups =>
      let total := ops.distributeTotal healthy groups
      if total = 0 then (none, lanes)
      else
        let (pick, lanes) :=
          self.distributePick ctxKey total algorithm state.distributeCounter lanes
        (ops.groupFor healthy pick groups 0 none, lanes)

/-- The algorithm of the lane. -/
def dispatch (ctxKey : Bytes) (healthy : P) (lane : Lane) (lanes : Lanes) :
    Except Panic (Chosen × Lanes) :=
  let counters := lanes.rr lane.rrCounter
  let ticket := counters self.shard
  match lane.algorithm with
  | .roundRobin | .passthrough => do
    return (← ops.nth healthy ticket.toNat, lanes.setRr lane.rrCounter (counters.tick self.shard))
  | .random => do
    return (← ops.nth healthy (goldenRatioHash ticket).toNat,
      lanes.setRr lane.rrCounter (counters.tick self.shard))
  | .weightedRoundRobin => do
    let (chosen, wrr) ← ops.wrr healthy (lanes.wrr lane.wrrState)
    return (chosen, lanes.setWrr lane.wrrState wrr)
  | .leastConnections => do return (← ops.leastConnections healthy, lanes)
  | .leastLatency => do
    let (chosen, counters) ← ops.leastLatency healthy counters
    return (chosen, lanes.setRr lane.rrCounter counters)
  | .consistentHashing => do
    return (← ops.consistentHash ctxKey healthy lane.hashRing, lanes)

def selectUsing (ctxKey : Bytes) (healthy : P) (lane : Lane) (lanes : Lanes) :
    Except Panic (Chosen × Lanes) :=
  if ops.isEmpty healthy then .ok (none, lanes)
  else
    let (group, lanes) :=
      ops.distributeGroup self healthy ctxKey lane.algorithm lane.localityLb lanes
    ops.dispatch self ctxKey (group.getD healthy) lane lanes

end PathOps

namespace Selector
variable (self : Selector)

def bitsetPath : PathOps HealthBitset HealthBitset where
  toPoolOps := self.bitsetOps
  meets healthy g := g.targetIndices.any healthy.contains
  group healthy g :=
    g.targetIndices.foldl (fun masked idx => if healthy.contains idx then masked.set idx else masked)
      .empty
  nth healthy ticket :=
    if healthy.isAll self.targets.length then do
      return some (← self.target (ticket % self.targets.length))
    else do return some (← self.target (← healthy.nthSetBit ticket))
  wrr := self.selectWrrBitset
  leastConnections := self.selectLeastConnectionsBitset
  leastLatency := self.selectLeastLatencyBitset
  consistentHash := self.selectConsistentHashBitsetWithRing

def vecPath : PathOps Candidates (List ℕ) where
  toPoolOps := self.vecOps
  meets candidates g := candidates.any fun c => g.targetMembership[c.1]?.getD false
  group candidates g := candidates.filter fun c => g.targetMembership[c.1]?.getD false
  nth candidates ticket := do return some (← index candidates (ticket % candidates.length))
  wrr := self.selectWrrVec
  leastConnections := self.selectLeastConnectionsVec
  leastLatency := self.selectLeastLatencyVec
  consistentHash := self.selectConsistentHashVecWithRing

def selectWithBitsetUsing := self.bitsetPath.selectUsing self

def selectFromCandidatesVecUsing := self.vecPath.selectUsing self

/-! ## On indices -/

/-- What the algorithms pick.  Schedules are looked up by `keyOf` the members. -/
def listPath (keyOf : List ℕ → WrrScheduleKey) : PathOps (List ℕ) (List ℕ) where
  toPoolOps := self.listOps
  meets is g := is.any fun i => g.targetIndices.contains i
  group is g := is.filter fun i => g.targetIndices.contains i
  nth is ticket := .ok (self.handle is[ticket % is.length]?)
  wrr is lane := self.found (lane.choose self.weight (keyOf is) is self.shard self.contended)
  leastConnections is := .ok (self.handle (is.argmin self.connectionsOf))
  leastLatency is counters := self.found (self.chooseLeastLatency is counters)
  consistentHash ctxKey is ring := .ok (self.handle (ringChoice ctxKey ring is))

end Selector

/-! ## Simulation -/

/-- The operations of the path do on pools what lists of indices do, if the state is in order. -/
structure PathOps.Models {P S : Type} (ops : PathOps P S) (s : Selector)
    (keyOf : List ℕ → WrrScheduleKey) (rep : P → List ℕ → Prop)
    (scopeRep : S → List ℕ → Prop) : Prop where
  pool : ops.toPoolOps.Models s rep scopeRep
  meets : ∀ {c is}, rep c is → ∀ {g}, GroupOk s.targets.length g →
    ops.meets c g = (s.listPath keyOf).meets is g
  group : ∀ {c is}, rep c is → ∀ {g}, GroupOk s.targets.length g →
    rep (ops.group c g) ((s.listPath keyOf).group is g)
  nth : ∀ {c is}, rep c is → is ≠ [] → ∀ ticket,
    ops.nth c ticket = (s.listPath keyOf).nth is ticket
  wrr : ∀ {c is}, rep c is → is ≠ [] → ∀ {lane : WrrLaneState}, lane.Ok s.weight →
    0 < lane.targetLen → ops.wrr c lane = (s.listPath keyOf).wrr is lane
  leastConnections : ∀ {c is}, rep c is → is ≠ [] →
    ops.leastConnections c = (s.listPath keyOf).leastConnections is
  leastLatency : ∀ {c is}, rep c is → is ≠ [] → ∀ counters,
    ops.leastLatency c counters = (s.listPath keyOf).leastLatency is counters
  consistentHash : ∀ {c is}, rep c is → is ≠ [] → ∀ {ring : HashRing}, ring ≠ [] →
    (∀ e ∈ ring, e.2 < s.targets.length) → ∀ ctxKey,
      ops.consistentHash ctxKey c ring = (s.listPath keyOf).consistentHash ctxKey is ring

/-- All schedules are as they were published, in lanes for the balancer. -/
structure Lanes.Ok (s : Selector) (lanes : Lanes) : Prop where
  wrr : ∀ id, (lanes.wrr id).Ok s.weight
  targetLen : ∀ id, (lanes.wrr id).targetLen = s.wrrLen id

section
variable {P S : Type} {ops : PathOps P S} {self : Selector} {keyOf : List ℕ → WrrScheduleKey}
  {rep : P → List ℕ → Prop} {scopeRep : S → List ℕ → Prop} {c : P} {is : List ℕ} {ctxKey : Bytes}
  {lane : Lane} {lanes : Lanes}

namespace PathOps.Models

variable {groups : List LocalityDistributeGroup}

theorem distributeTotal (h : ops.Models self keyOf rep scopeRep) (hc : rep c is)
    (hgr : ∀ g ∈ groups, GroupOk self.targets.length g) :
    ops.distributeTotal c groups = (self.listPath keyOf).distributeTotal is groups := by
  refine foldl_ext _ _ _ fun total g hg => ?_
  rw [h.meets hc (hgr g hg)]

/-- The bucket of a pool that belongs to that of its indices. -/
theorem groupFor (h : ops.Models self keyOf rep scopeRep) (hc : rep c is) (pick : ℕ)
    (hgr : ∀ g ∈ groups, GroupOk self.targets.length g) (acc : ℕ) {first : Option P}
    {first' : Option (List ℕ)} (hf : Option.Rel rep first first') :
    Option.Rel rep (ops.groupFor c pick groups acc first)
      ((self.listPath keyOf).groupFor is pick groups acc first') := by
  induction groups generalizing acc first first' with
  | nil => exact hf
  | cons g groups ih =>
    have hg := h.group hc (hgr g mem_cons_self)
    have ht := fun acc {f f'} => @ih (fun g hg => hgr g (mem_cons_of_mem _ hg)) acc f f'
    dsimp only [PathOps.groupFor]
    rw [h.pool.isEmpty hg]
    show Option.Rel rep _ (if ((self.listPath keyOf).group is g).isEmpty = true then _ else _)
    split_ifs
    · exact ht _ hf
    · exact .some hg
    · refine ht _ ?_
      cases hf with
      | some hr => exact .some hr
      | none => exact .some hg

theorem distributeGroup (h : ops.Models self keyOf rep scopeRep) (hc : rep c is)
    (algorithm : LoadBalancerAlgorithm) {locality : Option LocalityLbState}
    (hlc : ∀ state, locality = some state → GroupsOk self.targets.length state) :
    Option.Rel rep (ops.distributeGroup self c ctxKey algorithm locality lanes).1
        ((self.listPath keyOf).distributeGroup self is ctxKey algorithm locality lanes).1 ∧
      (ops.distributeGroup self c ctxKey algorithm locality lanes).2 =
        ((self.listPath keyOf).distributeGroup self is ctxKey algorithm locality lanes).2 := by
  cases locality with
  | none => exact ⟨.none, rfl⟩
  | some state =>
    cases hgr : state.distributeGroups with
    | none =>
      simp only [PathOps.distributeGroup, hgr]
      exact ⟨.none, trivial⟩
    | some groups =>
      have hok := hlc state rfl groups hgr
      simp only [PathOps.distributeGroup, hgr, h.distributeTotal hc hok]
      split_ifs
      · exact ⟨.none, rfl⟩
      · exact ⟨h.groupFor hc _ hok 0 .none, rfl⟩

theorem dispatch (h : ops.Models self keyOf rep scopeRep) (hc : rep c is) (hne : is ≠ [])
    (hln : LaneOk self.toLoadBalancer lane) (hls : lanes.Ok self) :
    ops.dispatch self ctxKey c lane lanes =
      (self.listPath keyOf).dispatch self ctxKey is lane lanes := by
  rw [PathOps.dispatch, PathOps.dispatch]
  cases ha : lane.algorithm with
  | roundRobin => simp only [h.nth hc hne]
  | passthrough => simp only [h.nth hc hne]
  | random => simp only [h.nth hc hne]
  | weightedRoundRobin =>
    have hac := hls.targetLen lane.wrrState ▸ hln.wrr ha
    simp only [h.wrr hc hne (hls.wrr _) hac]
  | leastConnections => simp only [h.leastConnections hc hne]
  | leastLatency => simp only [h.leastLatency hc hne]
  | consistentHashing =>
    simp only [h.consistentHash hc hne (hln.ring ha) hln.ring_lt]

end PathOps.Models

/-! ### Bitsets -/

/-- The key of the schedule for the healthy set of indices below 128. -/
def WrrScheduleKey.ofBitset (is : List ℕ) : WrrScheduleKey := .bitset (bitsetForIndices is).bits

theorem members_ofBitset (hs : is.Pairwise (· < ·)) (hlt : ∀ i ∈ is, i < maxBitsetTargets) :
    (WrrScheduleKey.ofBitset is).members = is :=
  (holds_bitsetForIndices hs hlt).bits

variable {b : HealthBitset} {g : LocalityDistributeGroup}

section
variable (hn : self.targets.length ≤ maxBitsetTargets) (hb : BitsetRep self b is)
  (hg : GroupOk self.targets.length g)
include hn hb hg

theorem bitsetGroup_rep :
    BitsetRep self (self.bitsetPath.group b g) (is.filter fun i => g.targetIndices.contains i) := by
  refine ⟨?_, fun i hi => hb.2 i (mem_filter.1 hi).1⟩
  have hf : self.bitsetPath.group b g =
      (g.targetIndices.filter b.contains).foldl HealthBitset.set .empty := (foldl_filter ..).symm
  have hnd : is.Nodup := hb.1.ascending.imp Nat.ne_of_lt
  rw [hf]
  refine holds_foldl_set ?_ (hb.1.ascending.filter _) fun i hi => hb.1.lt (mem_filter.1 hi).1
  rw [perm_ext_iff_of_nodup (hg.indices_nodup.filter _) (hnd.filter _)]
  intro i
  simp only [mem_filter, contains_iff_mem]
  constructor
  · rintro ⟨hi, hc⟩
    rw [hb.1.contains ((hg.indices_lt i hi).trans_le hn), decide_eq_true_eq] at hc
    exact ⟨hc, hi⟩
  · rintro ⟨hi, hgr⟩
    rw [hb.1.contains (hb.1.lt hi), decide_eq_true_eq]
    exact ⟨hgr, hi⟩

theorem bitsetMeets_eq :
    g.targetIndices.any b.contains = is.any fun i => g.targetIndices.contains i := by
  rw [Bool.eq_iff_iff, any_eq_true, any_eq_true]
  constructor
  · rintro ⟨i, hi, hc⟩
    rw [hb.1.contains ((hg.indices_lt i hi).trans_le hn), decide_eq_true_eq] at hc
    exact ⟨i, hc, contains_iff_mem.2 hi⟩
  · rintro ⟨i, hi, hgr⟩
    refine ⟨i, contains_iff_mem.1 hgr, ?_⟩
    rw [hb.1.contains (hb.1.lt hi), decide_eq_true_eq]
    exact hi

end

/-- If all targets are members, then the ticket falls on the target of that index. -/
theorem bitsetNth_eq (hb : BitsetRep self b is) (hne : is ≠ []) (ticket : ℕ) :
    self.bitsetPath.nth b ticket = .ok (self.handle is[ticket % is.length]?) := by
  have hpos := length_pos_of_ne_nil hne
  show (if b.isAll self.targets.length = true then _ else _) = _
  split_ifs with ha
  · have hln : is.length = self.targets.length := hb.1.count ▸ beq_iff_eq.1 ha
    have hp : is.Perm (List.range self.targets.length) :=
      (List.Nodup.subperm (hb.1.ascending.imp Nat.ne_of_lt)
        fun i hi => mem_range.2 (hb.2 i hi)).perm_of_length_le (by rw [hln, length_range])
    have hr : is = List.range self.targets.length :=
      eq_of_ascending hb.1.ascending pairwise_lt_range fun i => hp.mem_iff
    have hm : ticket % self.targets.length < self.targets.length :=
      Nat.mod_lt _ (hln ▸ hpos)
    rw [target_ok hm, hr, length_range, getElem?_range hm]
  · obtain ⟨i, hget, hn⟩ := hb.1.nthSetBit hne ticket
    rw [hn, hget]
    exact target_ok (hb.2 i (mem_of_getElem? hget))

theorem bitsetPath_models (hs : self.Sized) (hn : self.targets.length ≤ maxBitsetTargets) :
    self.bitsetPath.Models self .ofBitset (BitsetRep self) (BitsetRep self) where
  pool := bitsetOps_models hn
  meets hb _ hg := bitsetMeets_eq hn hb hg
  group hb _ hg := bitsetGroup_rep hn hb hg
  nth hb hne ticket := bitsetNth_eq hb hne ticket
  wrr {b is} hb hne lane hok ha := by
    have hk : WrrScheduleKey.bitset b.bits = .ofBitset is := by
      rw [WrrScheduleKey.ofBitset,
        (holds_bitsetForIndices hb.1.ascending fun i => hb.1.lt).unique hb.1]
    show _ = self.found (lane.choose self.weight (.ofBitset is) is self.shard self.contended)
    rw [← hk]
    exact select_eq (wrrBitsetPath_offers hb.1 hb.2) hne hok ha
  leastConnections hb hne := selectLeastConnectionsBitset_eq hs hn hb hne
  leastLatency hb hne counters := selectLeastLatencyBitset_eq hs hn hb hne counters
  consistentHash hb hne _ hr hlt _ :=
    selectConsistentHashBitsetWithRing_eq hb.1 hb.2 hne hr fun e he => (hlt e he).trans_le hn

/-! ### Vectors -/

theorem vecPath_models (hs : self.Sized) :
    self.vecPath.Models self .indices (VecRep self) (ScopeRep self) where
  pool := vecOps_models
  meets {c is} hc g hg := by
    have ha := attach_fst hc.2.lt
    show c.any _ = is.any _
    rw [hc.1]
    nth_rw 2 [← ha]
    rw [any_map]
    simp only [hg.membership, Function.comp_def, contains_eq_mem]
  group {c is} hc g hg := by
    have hf := vecRep_filter hc fun i => g.targetIndices.contains i
    have heq : self.vecPath.group c g = c.filter fun e => g.targetIndices.contains e.1 := by
      show c.filter _ = _
      simp only [hg.membership, contains_eq_mem]
    exact heq ▸ hf
  nth {c is} hc hne ticket := by
    obtain ⟨i, -, hget⟩ := getElem_mod hne ticket
    show (do return some (← index c (ticket % c.length)) : Except Panic Chosen) =
      .ok (self.handle is[ticket % is.length]?)
    rw [hc.1, length_attach hc.2.lt, index_attach hc.2.lt hget, hget]
  wrr {c is} hc hne lane hok hac := by
    have hsl := select_eq (wrrVecPath_offers hc.2) hne hok hac
    show (Selector.wrrVecPath c).select self.shard self.contended lane = _
    rw [hc.1, hsl]
    show self.found (lane.choose self.weight (.indices ((self.attach is).map Prod.fst)) is _ _) = _
    rw [attach_fst hc.2.lt]
    rfl
  leastConnections hc hne := by
    rw [hc.1]
    exact selectLeastConnectionsVec_eq hs hc.2.lt hne
  leastLatency hc hne counters := by
    rw [hc.1]
    exact selectLeastLatencyVec_eq hs hc.2.lt hne counters
  consistentHash hc hne _ hr _ _ := by
    rw [hc.1]
    exact selectConsistentHashVecWithRing_eq hc.2.lt hne hr

/-! ## What is picked -/

theorem groupFor_part (pick : ℕ) (groups : List LocalityDistributeGroup) (acc : ℕ)
    {first : Option (List ℕ)} (hf : ∀ part, first = some part → part ≠ [] ∧ part.Sublist is)
    {part : List ℕ}
    (h : (self.listPath keyOf).groupFor is pick groups acc first = some part) :
    part ≠ [] ∧ part.Sublist is := by
  induction groups generalizing acc first with
  | nil => exact hf part h
  | cons g groups ih =>
    have hs : ((self.listPath keyOf).group is g).Sublist is := filter_sublist
    dsimp only [PathOps.groupFor] at h
    split_ifs at h with he hpk
    · exact ih _ hf h
    · cases h
      exact ⟨fun hn => he (List.isEmpty_iff.2 hn), hs⟩
    · refine ih _ (fun part hp => ?_) h
      cases first with
      | some found =>
        cases hp
        exact hf _ rfl
      | none =>
        cases hp
        exact ⟨fun hn => he (List.isEmpty_iff.2 hn), hs⟩

/-- The part of the pool that a distribution leaves. -/
theorem distributeGroup_part (hne : is ≠ []) (algorithm : LoadBalancerAlgorithm)
    (locality : Option LocalityLbState) :
    ((((self.listPath keyOf).distributeGroup self is ctxKey algorithm locality lanes).1.getD is) ≠ [] ∧
      (((self.listPath keyOf).distributeGroup self is ctxKey algorithm locality lanes).1.getD
        is).Sublist is) ∧
    ((self.listPath keyOf).distributeGroup self is ctxKey algorithm locality lanes).2.wrr =
      lanes.wrr := by
  cases locality with
  | none => exact ⟨⟨hne, .refl is⟩, rfl⟩
  | some state =>
    cases hgr : state.distributeGroups with
    | none =>
      simp only [PathOps.distributeGroup, hgr]
      exact ⟨⟨hne, .refl is⟩, trivial⟩
    | some groups =>
      simp only [PathOps.distributeGroup, hgr]
      split_ifs
      · exact ⟨⟨hne, .refl is⟩, rfl⟩
      · refine ⟨?_, ?_⟩
        · cases hp : (self.listPath keyOf).groupFor is _ groups 0 none with
          | none => exact ⟨hne, .refl is⟩
          | some part => exact groupFor_part _ groups 0 (fun _ h => absurd h.symm (Option.some_ne_none _)) hp
        · rw [Selector.distributePick]
          split_ifs <;> rfl

theorem Lanes.Ok.congr (h : lanes.Ok self) {lanes' : Lanes} (hw : lanes'.wrr = lanes.wrr) :
    lanes'.Ok self := by
  refine ⟨fun id => ?_, fun id => ?_⟩
  · rw [hw]
    exact h.wrr id
  · rw [hw]
    exact h.targetLen id

theorem Lanes.Ok.setWrr (h : lanes.Ok self) {id : LaneId} {wrr : WrrLaneState}
    (hok : wrr.Ok self.weight) (hln : wrr.targetLen = (lanes.wrr id).targetLen) :
    (lanes.setWrr id wrr).Ok self := by
  refine ⟨fun id' => ?_, fun id' => ?_⟩
  · simp only [Lanes.setWrr, Function.update_apply]
    split_ifs
    · exact hok
    · exact h.wrr id'
  · simp only [Lanes.setWrr, Function.update_apply]
    split_ifs with heq
    · rw [heq, hln, h.targetLen]
    · exact h.targetLen id'

/-- Everything a pick leaves: a member of the pool, and lanes in order. -/
def Picked (s : Selector) (is : List ℕ) (r : Except Panic (Chosen × Lanes)) : Prop :=
  ∃ i ∈ is, ∃ lanes, r = .ok (s.handle (some i), lanes) ∧ lanes.Ok s

theorem chooseLeastLatency_mem (hne : is ≠ []) (counters : Counters) :
    ∃ i ∈ is, (self.chooseLeastLatency is counters).1 = some i := by
  obtain ⟨next, hn, hget⟩ := getElem_mod hne (counters self.shard).toNat
  have hls : ∀ {among : List ℕ} {i}, self.leastKnown among = some i → i ∈ among := by
    intro among i h
    exact argmin_mem (Option.filter_eq_some_iff.1 h).1
  simp only [Selector.chooseLeastLatency, hget]
  split_ifs
  · exact ⟨next, hn, rfl⟩
  · split
    · next i hi =>
      obtain ⟨k, -, hk⟩ := Option.bind_eq_some_iff.1 hi
      exact ⟨i, (mem_filter.1 (mem_of_getElem? hk)).1, rfl⟩
    · cases hkn : self.leastKnown (is.filter self.isWarmed) with
      | some i => exact ⟨i, (mem_filter.1 (hls hkn)).1, rfl⟩
      | none => exact ⟨next, hn, rfl⟩
  · cases hkn : self.leastKnown is with
    | some i => exact ⟨i, hls hkn, rfl⟩
    | none => exact ⟨next, hn, rfl⟩

theorem dispatch_ok (hk : (keyOf is).members = is) (hne : is ≠ [])
    (hla : LaneOk self.toLoadBalancer lane) (hln : lanes.Ok self) :
    Picked self is ((self.listPath keyOf).dispatch self ctxKey is lane lanes) := by
  have hn : ∀ ticket lanes', lanes'.Ok self → Picked self is
      (((self.listPath keyOf).nth is ticket).bind fun chosen => .ok (chosen, lanes')) := by
    intro ticket lanes' hln'
    obtain ⟨i, hi, hget⟩ := getElem_mod hne ticket
    exact ⟨i, hi, lanes', congrArg (fun o => Except.ok (self.handle o, lanes')) hget, hln'⟩
  rw [PathOps.dispatch]
  cases ha : lane.algorithm with
  | roundRobin | passthrough | random =>
    exact hn _ _ (hln.congr rfl)
  | weightedRoundRobin =>
    have hac := hln.targetLen lane.wrrState ▸ hla.wrr ha
    obtain ⟨⟨i, hc, hi, -⟩, hok, hlen⟩ := @WrrLaneState.Ok.choose self.weight is
      (lanes.wrr lane.wrrState) (keyOf is) self.shard self.contended (hln.wrr _) hac hne hk
    refine ⟨i, hi, _, ?_, hln.setWrr hok hlen⟩
    rw [← hc]
    rfl
  | leastConnections =>
    cases hls : is.argmin self.connectionsOf with
    | none => exact absurd (argmin_eq_none.1 hls) hne
    | some i =>
      refine ⟨i, argmin_mem hls, lanes, ?_, hln⟩
      rw [← hls]
      rfl
  | leastLatency =>
    obtain ⟨i, hi, hc⟩ := @chooseLeastLatency_mem self is hne (lanes.rr lane.rrCounter)
    refine ⟨i, hi, _, ?_, @Lanes.Ok.congr _ _ hln (lanes.setRr lane.rrCounter
      (self.chooseLeastLatency is (lanes.rr lane.rrCounter)).2) rfl⟩
    rw [← hc]
    rfl
  | consistentHashing =>
    obtain ⟨i, hi, hch⟩ := @ringChoice_mem is lane.hashRing ctxKey hne
    refine ⟨i, hi, lanes, ?_, hln⟩
    rw [← hch]
    rfl

/-- **Picking a target** from a pool that is not empty. -/
theorem selectUsing_ok (hk : ∀ part : List ℕ, part.Sublist is → (keyOf part).members = part)
    (hne : is ≠ []) (hla : LaneOk self.toLoadBalancer lane) (hln : lanes.Ok self) :
    Picked self is ((self.listPath keyOf).selectUsing self ctxKey is lane lanes) := by
  have hr : (self.listPath keyOf).isEmpty is = false := isEmpty_eq_false_iff.2 hne
  obtain ⟨⟨hp, hs⟩, hw⟩ := @distributeGroup_part self keyOf is ctxKey lanes hne
    lane.algorithm lane.localityLb
  rw [PathOps.selectUsing, hr, if_neg Bool.false_ne_true]
  obtain ⟨i, hi, hpk⟩ := dispatch_ok (hk _ hs) hp hla (hln.congr hw)
  exact ⟨i, hs.subset hi, hpk⟩

/-- **Both paths** pick what is picked by indices. -/
theorem selectUsing_eq (h : ops.Models self keyOf rep scopeRep) (hc : rep c is)
    (hln : LaneOk self.toLoadBalancer lane) (hls : lanes.Ok self) :
    ops.selectUsing self ctxKey c lane lanes =
      (self.listPath keyOf).selectUsing self ctxKey is lane lanes := by
  rw [PathOps.selectUsing, PathOps.selectUsing, h.pool.isEmpty hc]
  show _ = if is.isEmpty = true then _ else _
  split_ifs with he
  · rfl
  · have hne : is ≠ [] := fun hn => he (List.isEmpty_iff.2 hn)
    obtain ⟨hr, heq⟩ := @PathOps.Models.distributeGroup _ _ _ _ _ _ _ _ _ ctxKey lanes h hc
      lane.algorithm _ hln.groups
    obtain ⟨⟨hp, -⟩, hw⟩ := @distributeGroup_part self keyOf is ctxKey lanes hne
      lane.algorithm lane.localityLb
    simp only [heq]
    refine h.dispatch ?_ hp hln (hls.congr hw)
    -- either both have a bucket or both keep the pool
    generalize (ops.distributeGroup self c ctxKey lane.algorithm lane.localityLb lanes).1 = a,
      ((self.listPath keyOf).distributeGroup self is ctxKey lane.algorithm lane.localityLb lanes).1 =
        b at hr
    cases hr with
    | some hpl => exact hpl
    | none => exact hc

end

end Ferrum.Balancer
