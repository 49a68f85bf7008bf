/-
  A load balancer as it is built for an upstream.

  * `LoadBalancer.withSubsetsAndPortOverrides`: everything that is computed before the first
    selection; the counters and schedules that selections change are kept elsewhere.
  * `Lane`: what a selection is made with.  `parentLane`, `subsetLane`, `portLane` and
    `portSubsetLane` are those of the balancer.
  * `LoadBalancer.Built`: what holds of every balancer that was built.  Indices are in bounds, and
    a lane has a schedule and a ring whenever its algorithm uses one.
-/
import Ferrum.Balancer.Locality

namespace Ferrum.Balancer

open Lib List Option

/-! ## Hashes -/

def goldenRatio : UInt64 := 0x9E3779B97F4A7C15

def goldenRatioHash (val : UInt64) : UInt64 := val * goldenRatio

def rotateLeft (h k : UInt64) : UInt64 := (h <<< k) ||| (h >>> (64 - k))

def fxHashStr (s : Bytes) : UInt64 :=
  s.foldl (fun hash b => (rotateLeft hash 5 ^^^ b.toUInt64) * 0x517cc1b727220a95) 0

/-- Hashes in order, each with the index of its target. -/
abbrev HashRing := List (UInt64 × ℕ)

def vnodes : ℕ := 150

def buildHashRingForIndices (hostPortKeys : List Bytes) (indices : List ℕ) : HashRing :=
  sortByKey (fun e => e.1.toNat) (indices.flatMap fun idx =>
    match hostPortKeys[idx]? with
    | none => []
    | some key => (List.range vnodes).map fun vnode =>
      (fxHashStr (key ++ lit ":" ++ lit (toString vnode)), idx))

variable {e : UInt64 × ℕ} {indices : List ℕ} {port : UInt16} {state : PortLbState}

theorem mem_hashRing {keys : List Bytes} (h : e ∈ buildHashRingForIndices keys indices) :
    e.2 ∈ indices ∧ e.2 < keys.length := by
  obtain ⟨idx, hi, he⟩ := mem_flatMap.1 ((sortByKey_perm _ _).subset h)
  split at he
  · cases he
  · next key hk =>
    obtain ⟨vnode, -, rfl⟩ := mem_map.1 he
    exact ⟨hi, (List.getElem?_eq_some_iff.1 hk).1⟩

theorem hashRing_ne_nil {keys : List Bytes} {indices : List ℕ} {idx : ℕ} (hi : idx ∈ indices)
    (hlt : idx < keys.length) : buildHashRingForIndices keys indices ≠ [] := by
  intro h
  have hm : (fxHashStr (keys[idx] ++ lit ":" ++ lit (toString 0)), idx) ∈
      buildHashRingForIndices keys indices := by
    refine (sortByKey_perm _ _).symm.subset (mem_flatMap.2 ⟨idx, hi, ?_⟩)
    rw [getElem?_eq_getElem hlt]
    exact mem_map.2 ⟨0, mem_range.2 (by decide), rfl⟩
  rw [h] at hm
  cases hm

/-! ## The balancer -/

structure PortLbState where
  targetIndices : List ℕ
  algorithm : LoadBalancerAlgorithm
  algorithmOverridden : Bool
  /-- For how many targets there is weighted round-robin state; none if zero. -/
  wrrTargetLen : ℕ
  hashRing : HashRing
  localityLb : Option LocalityLbState
  failoverEnabled : Bool

structure LoadBalancer where
  targets : List UpstreamTarget
  targetKeys : List Bytes
  hostPortKeys : List Bytes
  targetLocalityRanks : List ℕ
  srvPriorities : List ℕ
  algorithm : LoadBalancerAlgorithm
  wrrTargetLen : ℕ
  hashRing : HashRing
  subsetIndices : HMap Bytes (List ℕ)
  subsetAlgorithms : HMap Bytes LoadBalancerAlgorithm
  subsetFailoverEnabled : List Bytes
  subsetWrrState : HMap Bytes ℕ
  subsetHashRings : HMap Bytes HashRing
  portOverrides : HMap UInt16 PortLbState
  localityLb : Option LocalityLbState
  failoverEnabled : Bool
  localityLbStrict : Bool
  localLocalityMask : List Bool
  crossClusterFailoverPresent : Bool

open LoadBalancer

/-- The targets that satisfy `p`, by index. -/
def indicesWhere (targets : List UpstreamTarget) (p : UpstreamTarget → Bool) : List ℕ :=
  (List.range targets.length).filter fun i => targets[i]?.any p

/-- The tags of the target have all labels of the subset. -/
def SubsetDefinition.matches_ (d : SubsetDefinition) (t : UpstreamTarget) : Bool :=
  d.labels.toList.all fun e => t.tags.get e.1 == some e.2

def SubsetDefinition.algorithm (d : SubsetDefinition) : Option LoadBalancerAlgorithm :=
  d.trafficPolicy.bind SubsetTrafficPolicy.loadBalancerAlgorithm

def activeWrrLen (algorithm : LoadBalancerAlgorithm) (len : ℕ) : ℕ :=
  if algorithm = .weightedRoundRobin then len else 0

def LoadBalancer.withSubsetsAndPortOverrides (upstreamId : Bytes) (targets : List UpstreamTarget)
    (c : BalancerConfig) : LoadBalancer :=
  let hostPortKeys := targets.map targetHostPortKey
  let defs := c.subsets.getD []
  let subsetUsesConsistentHashing := defs.any fun d => d.algorithm == some .consistentHashing
  let subsetIndices := defs.foldl
    (fun m d => m.insert d.name (indicesWhere targets d.matches_)) HMap.empty
  let subsetAlgorithms := defs.foldl
    (fun m d => m.insert d.name (d.algorithm.getD c.algorithm)) HMap.empty
  let failoverEnabled := c.healthChecks.any fun checks => checks.active || checks.passive
  let buildLocality (setting : Option UpstreamLocalityLbSetting) (owner : LaneId) :=
    buildLocalityLbState setting c.sourceLocality c.sourceLabels targets owner
  let crossClusterFailoverPresent := targets.any targetIsCrossCluster
  { targets
    targetKeys := targets.map (targetKey upstreamId)
    hostPortKeys
    targetLocalityRanks :=
      match c.sourceLocality.bind LocalityPreference.parse with
      | some source => targets.map (localityTier source)
      | none => []
    srvPriorities := buildSrvPriorities targets
    algorithm := c.algorithm
    wrrTargetLen := activeWrrLen c.algorithm targets.length
    hashRing :=
      if c.algorithm = .consistentHashing ∨ subsetUsesConsistentHashing then
        buildHashRingForIndices hostPortKeys (List.range targets.length)
      else []
    subsetIndices
    subsetAlgorithms
    subsetFailoverEnabled :=
      (defs.filter fun d => d.trafficPolicy.any SubsetTrafficPolicy.passiveHealthCheck).map
        SubsetDefinition.name
    subsetWrrState :=
      (subsetAlgorithms.retain fun _ algorithm => algorithm == .weightedRoundRobin).mapVal
        fun _ _ => targets.length
    subsetHashRings :=
      (subsetAlgorithms.retain fun name algorithm =>
        algorithm == .consistentHashing && (subsetIndices.get name).isSome).mapVal
          fun name _ => buildHashRingForIndices hostPortKeys ((subsetIndices.get name).getD [])
    portOverrides :=
      -- a port that no target has is left to the parent
      (c.portOverrides.retain fun port _ =>
        indicesWhere targets (·.dispatchPolicyPort == port) ≠ []).mapVal fun port o =>
          let targetIndices := indicesWhere targets (·.dispatchPolicyPort == port)
          let algorithm := o.algorithm.getD c.algorithm
          { targetIndices
            algorithm
            algorithmOverridden := o.algorithm.isSome
            wrrTargetLen := activeWrrLen algorithm targets.length
            hashRing :=
              if algorithm = .consistentHashing then
                buildHashRingForIndices hostPortKeys targetIndices
              else []
            localityLb := buildLocality (o.localityLbSetting.or c.localityLbSetting) (.port port)
            failoverEnabled := failoverEnabled || o.passiveHealthCheck }
    localityLb := buildLocality c.localityLbSetting .parent
    failoverEnabled
    localityLbStrict := c.localityLbStrict
    localLocalityMask :=
      if c.localityLbStrict || crossClusterFailoverPresent then targets.map targetIsLocal else []
    crossClusterFailoverPresent }

/-! ## Lanes -/

/-- What a selection is made with, besides its candidates. -/
structure Lane where
  algorithm : LoadBalancerAlgorithm
  rrCounter : LaneId
  wrrState : LaneId
  hashRing : HashRing
  localityLb : Option LocalityLbState
  failoverEnabled : Bool

namespace LoadBalancer
variable (lb : LoadBalancer)

def subsetAlgorithm (name : Bytes) : LoadBalancerAlgorithm :=
  (lb.subsetAlgorithms.get name).getD lb.algorithm

def failoverEnabledForSubset (name : Bytes) : Bool :=
  lb.failoverEnabled || lb.subsetFailoverEnabled.contains name

/-- Whose weighted round-robin state a subset uses. -/
def subsetWrr (name : Bytes) : LaneId :=
  if (lb.subsetWrrState.get name).isSome then .subset name else .parent

def subsetHashRing (name : Bytes) : HashRing := (lb.subsetHashRings.get name).getD lb.hashRing

def parentLane : Lane :=
  ⟨lb.algorithm, .parent, .parent, lb.hashRing, lb.localityLb, lb.failoverEnabled⟩

def subsetLane (name : Bytes) : Lane :=
  ⟨lb.subsetAlgorithm name, .parent, lb.subsetWrr name, lb.subsetHashRing name, lb.localityLb,
    lb.failoverEnabledForSubset name⟩

def portLane (port : UInt16) (state : PortLbState) : Lane :=
  ⟨state.algorithm, .port port, .port port, state.hashRing, state.localityLb.or lb.localityLb,
    state.failoverEnabled⟩

/-- The algorithm of the port, if it has one of its own, and else that of the subset. -/
def portSubsetLane (port : UInt16) (state : PortLbState) (name : Bytes) : Lane :=
  let locality := state.localityLb.or lb.localityLb
  let failover := state.failoverEnabled || lb.failoverEnabledForSubset name
  if state.algorithmOverridden then
    ⟨state.algorithm, .port port, .port port, state.hashRing, locality, failover⟩
  else ⟨lb.subsetAlgorithm name, .parent, lb.subsetWrr name, lb.subsetHashRing name, locality,
    failover⟩

/-- For how many targets there is weighted round-robin state. -/
def wrrLen : LaneId → ℕ
  | .parent => lb.wrrTargetLen
  | .subset name => (lb.subsetWrrState.get name).getD 0
  | .port port => ((lb.portOverrides.get port).map PortLbState.wrrTargetLen).getD 0

end LoadBalancer

/-! ## What was built -/

/-- Indices in ascending order, within bounds. -/
structure Scope (n : ℕ) (indices : List ℕ) : Prop where
  ascending : indices.Pairwise (· < ·)
  lt : ∀ i ∈ indices, i < n

/-- Indices of targets, in order. -/
abbrev LoadBalancer.Scoped (lb : LoadBalancer) : List ℕ → Prop := Scope lb.targets.length

theorem Scope.range (n : ℕ) : Scope n (List.range n) :=
  ⟨pairwise_lt_range, fun _ hi => mem_range.1 hi⟩

theorem Scope.filter {n : ℕ} (h : Scope n indices) (p : ℕ → Bool) : Scope n (indices.filter p) :=
  ⟨h.ascending.filter p, fun i hi => h.lt i (mem_filter.1 hi).1⟩

theorem scope_indicesWhere (targets : List UpstreamTarget) (p : UpstreamTarget → Bool) :
    Scope targets.length (indicesWhere targets p) :=
  (Scope.range _).filter _

/-- A lane can select among any of the `n` targets. -/
structure LaneOk (lb : LoadBalancer) (lane : Lane) : Prop where
  wrr : lane.algorithm = .weightedRoundRobin → 0 < lb.wrrLen lane.wrrState
  ring : lane.algorithm = .consistentHashing → lane.hashRing ≠ []
  ring_lt : ∀ e ∈ lane.hashRing, e.2 < lb.targets.length
  groups : ∀ state, lane.localityLb = some state → GroupsOk lb.targets.length state

/-- What holds of a balancer for the upstream `upstreamId`. -/
structure LoadBalancer.Built (upstreamId : Bytes) (lb : LoadBalancer) : Prop where
  targetKeys : lb.targetKeys = lb.targets.map (targetKey upstreamId)
  hostPortKeys : lb.hostPortKeys = lb.targets.map targetHostPortKey
  parent : lb.targets ≠ [] → LaneOk lb lb.parentLane
  subsetScope : ∀ name indices, lb.subsetIndices.get name = some indices →
    Scope lb.targets.length indices
  subset : ∀ name indices, lb.subsetIndices.get name = some indices → indices ≠ [] →
    LaneOk lb (lb.subsetLane name)
  portScope : ∀ port state, lb.portOverrides.get port = some state →
    Scope lb.targets.length state.targetIndices ∧ state.targetIndices ≠ []
  port : ∀ port state, lb.portOverrides.get port = some state →
    LaneOk lb (lb.portLane port state)
  portSubset : ∀ port state name indices, lb.portOverrides.get port = some state →
    lb.subsetIndices.get name = some indices → indices ≠ [] →
      LaneOk lb (lb.portSubsetLane port state name)

variable {upstreamId : Bytes} {targets : List UpstreamTarget} {c : BalancerConfig}

/-- The definition of a subset that counts: the last one of its name. -/
def BalancerConfig.subset? (c : BalancerConfig) (name : Bytes) : Option SubsetDefinition :=
  (c.subsets.getD []).reverse.find? fun d => d.name = name

theorem subsetIndices_eq (name : Bytes) :
    (withSubsetsAndPortOverrides upstreamId targets c).subsetIndices.get name =
      (c.subset? name).map fun d => indicesWhere targets d.matches_ := by
  refine (HMap.get_foldl_insert SubsetDefinition.name
    (fun d => indicesWhere targets d.matches_) _).trans ?_
  rw [HMap.get_empty, or_none]
  rfl

theorem subsetAlgorithms_eq (name : Bytes) :
    (withSubsetsAndPortOverrides upstreamId targets c).subsetAlgorithms.get name =
      (c.subset? name).map fun d => d.algorithm.getD c.algorithm := by
  refine (HMap.get_foldl_insert SubsetDefinition.name
    (fun d => d.algorithm.getD c.algorithm) _).trans ?_
  rw [HMap.get_empty, or_none]
  rfl

/-- The state of a port that has an override and a target. -/
theorem portOverrides_eq
    (h : (withSubsetsAndPortOverrides upstreamId targets c).portOverrides.get port =
      some state) :
    state.targetIndices = indicesWhere targets (·.dispatchPolicyPort == port) ∧
      state.targetIndices ≠ [] ∧
      state.wrrTargetLen = activeWrrLen state.algorithm targets.length ∧
      state.hashRing = (if state.algorithm = .consistentHashing then
        buildHashRingForIndices (targets.map targetHostPortKey) state.targetIndices else []) ∧
      ∃ setting, state.localityLb =
        buildLocalityLbState setting c.sourceLocality c.sourceLabels targets (.port port) := by
  rw [withSubsetsAndPortOverrides] at h
  simp only [HMap.get_mapVal, HMap.get_retain, map_eq_some_iff, filter_eq_some_iff]
    at h
  obtain ⟨o, ⟨ho, hne⟩, rfl⟩ := h
  exact ⟨rfl, by simpa using hne, rfl, rfl, _, rfl⟩

theorem activeWrrLen_pos {algorithm : LoadBalancerAlgorithm} {len : ℕ} (hln : 0 < len)
    (h : algorithm = .weightedRoundRobin) : 0 < activeWrrLen algorithm len := by
  rwa [activeWrrLen, if_pos h]

theorem ring_lt_of_mem {p : Prop} [Decidable p]
    (h : e ∈ if p then buildHashRingForIndices (targets.map targetHostPortKey) indices else []) :
    e.2 < targets.length := by
  split_ifs at h
  · simpa using (mem_hashRing h).2
  · cases h

theorem built_parent (hne : targets ≠ []) :
    LaneOk (withSubsetsAndPortOverrides upstreamId targets c)
      (withSubsetsAndPortOverrides upstreamId targets c).parentLane where
  wrr h := activeWrrLen_pos (length_pos_of_ne_nil hne) h
  ring h := by
    have hpos := length_pos_of_ne_nil hne
    have hr := @hashRing_ne_nil (targets.map targetHostPortKey) _ 0 (mem_range.2 hpos)
      (by simpa using hpos)
    exact (if_pos (Or.inl h)).trans_ne hr
  ring_lt e he := ring_lt_of_mem he
  groups state h := buildLocalityLbState_ok h

theorem built_subset {name : Bytes}
    (h : (withSubsetsAndPortOverrides upstreamId targets c).subsetIndices.get name =
      some indices) (hne : indices ≠ []) :
    LaneOk (withSubsetsAndPortOverrides upstreamId targets c)
      ((withSubsetsAndPortOverrides upstreamId targets c).subsetLane name) := by
  have hin := h
  rw [subsetIndices_eq, map_eq_some_iff] at hin
  obtain ⟨d, hd, rfl⟩ := hin
  obtain ⟨i, hi⟩ := exists_mem_of_ne_nil _ hne
  have hlt := (scope_indicesWhere targets d.matches_).lt i hi
  have hal := @subsetAlgorithms_eq upstreamId targets c name
  rw [hd, map_some] at hal
  set lb := withSubsetsAndPortOverrides upstreamId targets c with hlb
  have hs : lb.subsetAlgorithm name = d.algorithm.getD c.algorithm := by
    rw [subsetAlgorithm, hal, getD_some]
  have hwr : lb.subsetWrrState.get name =
      if d.algorithm.getD c.algorithm = .weightedRoundRobin then some targets.length else none := by
    have : lb.subsetWrrState = (lb.subsetAlgorithms.retain fun _ algorithm =>
      algorithm == .weightedRoundRobin).mapVal fun _ _ => targets.length := rfl
    rw [this, HMap.get_mapVal, HMap.get_retain, hal, filter_some]
    by_cases hw : d.algorithm.getD c.algorithm = .weightedRoundRobin <;> simp [hw]
  have hr : lb.subsetHashRings.get name =
      if d.algorithm.getD c.algorithm = .consistentHashing then
        some (buildHashRingForIndices (targets.map targetHostPortKey)
          (indicesWhere targets d.matches_)) else none := by
    have : lb.subsetHashRings = (lb.subsetAlgorithms.retain fun name algorithm =>
      algorithm == .consistentHashing && (lb.subsetIndices.get name).isSome).mapVal
        fun name _ => buildHashRingForIndices (targets.map targetHostPortKey)
          ((lb.subsetIndices.get name).getD []) := rfl
    rw [this, HMap.get_mapVal, HMap.get_retain, hal, filter_some, h]
    by_cases hw : d.algorithm.getD c.algorithm = .consistentHashing <;> simp [hw]
  refine ⟨fun ha => ?_, fun ha => ?_, fun e he => ?_,
    fun state hst => buildLocalityLbState_ok hst⟩
  · have hw := hs.symm.trans ha
    rw [if_pos hw] at hwr
    have hid : lb.subsetWrr name = .subset name := by
      rw [subsetWrr, hwr]
      rfl
    show 0 < lb.wrrLen (lb.subsetWrr name)
    rw [hid, wrrLen, hwr]
    exact Nat.zero_lt_of_lt hlt
  · have hc := hs.symm.trans ha
    rw [if_pos hc] at hr
    show lb.subsetHashRing name ≠ []
    rw [subsetHashRing, hr]
    exact hashRing_ne_nil hi (by simpa using hlt)
  · have he : e ∈ lb.subsetHashRing name := he
    rw [subsetHashRing, hr] at he
    show e.2 < targets.length
    split_ifs at he
    · simpa using (mem_hashRing he).2
    · exact ring_lt_of_mem he

section
variable
  (h : (withSubsetsAndPortOverrides upstreamId targets c).portOverrides.get port = some state)
include h

theorem localityLb_or_ok {s : LocalityLbState} (hs : state.localityLb.or
      (withSubsetsAndPortOverrides upstreamId targets c).localityLb = some s) :
    GroupsOk targets.length s := by
  obtain ⟨-, -, -, -, setting, hst⟩ := portOverrides_eq h
  rcases or_eq_some_iff.1 hs with hs | ⟨-, hs⟩
  · exact buildLocalityLbState_ok (hst ▸ hs)
  · exact buildLocalityLbState_ok hs

theorem built_port :
    LaneOk (withSubsetsAndPortOverrides upstreamId targets c)
      ((withSubsetsAndPortOverrides upstreamId targets c).portLane port state) := by
  obtain ⟨hin, hne, hw, hr, -⟩ := portOverrides_eq h
  obtain ⟨i, hi⟩ := exists_mem_of_ne_nil _ hne
  have hlt : i < targets.length := (scope_indicesWhere targets _).lt i (hin ▸ hi)
  refine ⟨fun ha => ?_, fun ha => ?_, fun e he => ?_,
    fun s hs => localityLb_or_ok h hs⟩
  · show 0 < (((withSubsetsAndPortOverrides upstreamId targets c).portOverrides.get
      port).map PortLbState.wrrTargetLen).getD 0
    rw [h, map_some, getD_some, hw]
    exact activeWrrLen_pos (Nat.zero_lt_of_lt hlt) ha
  · show state.hashRing ≠ []
    exact (hr.trans (if_pos ha)).trans_ne (hashRing_ne_nil hi (by simpa using hlt))
  · have he : e ∈ state.hashRing := he
    exact ring_lt_of_mem (hr ▸ he)

end

/-- **Every balancer that is built** can select in all of its lanes. -/
theorem built (upstreamId : Bytes) (targets : List UpstreamTarget) (c : BalancerConfig) :
    (withSubsetsAndPortOverrides upstreamId targets c).Built upstreamId where
  targetKeys := rfl
  hostPortKeys := rfl
  parent := built_parent
  subsetScope name indices h := by
    rw [subsetIndices_eq, map_eq_some_iff] at h
    obtain ⟨d, -, rfl⟩ := h
    exact scope_indicesWhere targets _
  subset name indices h hne := built_subset h hne
  portScope port state h := by
    obtain ⟨hi, hne, -⟩ := portOverrides_eq h
    exact ⟨hi ▸ scope_indicesWhere targets _, hne⟩
  port port state h := built_port h
  portSubset port state name indices hpr hsb hne := by
    have hp := built_port hpr
    have hs := built_subset hsb hne
    rw [portSubsetLane]
    split_ifs
    · exact ⟨hp.wrr, hp.ring, hp.ring_lt, hp.groups⟩
    · exact ⟨hs.wrr, hs.ring, hs.ring_lt, hp.groups⟩

theorem built_of {lb : LoadBalancer} (h : lb = withSubsetsAndPortOverrides upstreamId targets c) :
    lb.Built upstreamId := h ▸ built upstreamId targets c

end Ferrum.Balancer
