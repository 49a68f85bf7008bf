/-
  What a load balancer precomputes about the localities and priorities of its targets.

  * `buildLocalityLbState`: the buckets of a distribution, the region to fail over to, or the ranks
    of a failover priority.
  * `buildSrvPriorities`: the SRV priorities of the targets, if there are at least two of them.
  * `GroupsOk`: the buckets have a positive weight, and both records of their members agree.
-/
import Ferrum.Balancer.Config
import Ferrum.Lib.Argmin

namespace Ferrum.Balancer

open Lib Mesh List

/-! ## State of the locality setting -/

/-- Where the counters and schedules of a balancer are kept. -/
inductive LaneId where
  | parent
  | subset (name : Bytes)
  | port (port : UInt16)
  deriving DecidableEq

structure LocalityDistributeGroup where
  weight : ℕ
  targetIndices : List ℕ
  targetMembership : List Bool

structure LocalityLbState where
  enabled : Bool := true
  distributeWeights : Option (List ℕ) := none
  distributeGroups : Option (List LocalityDistributeGroup) := none
  /-- Who has the counters of the distribution. -/
  distributeCounter : LaneId
  failoverTargetMatches : Option (List Bool) := none
  failoverPriorityRanks : Option (List ℕ) := none

def membershipMaskForIndices (len : ℕ) (indices : List ℕ) : List Bool :=
  indices.foldl (fun mask idx => mask.set idx true) (List.replicate len false)

def targetLocality (t : UpstreamTarget) : Option LocalityPreference :=
  t.locality.bind LocalityPreference.parse

/-! ## Distribution -/

def localityDistributeWeightScale : ℕ := 1000000

/-- The position of the most specific entry that matches, the first of equals. -/
def bestToEntry (toEntries : List (LocalityPreference × UInt32)) (target : LocalityPreference) :
    Option ℕ :=
  let step (best : Option (ℕ × ℕ)) (entry : (LocalityPreference × UInt32) × ℕ) :=
    if localityMatchForDistribute entry.1.1 target then
      let specificity := localityDistributeSpecificity entry.1.1
      if best.all fun b => b.2 < specificity then some (entry.2, specificity) else best
    else best
  (toEntries.zipIdx.foldl step none).map Prod.fst

/-- The share of an endpoint in the weight of its locality. -/
structure Allocation where
  idx : ℕ
  share : ℕ
  remainder : ℕ
  endpointWeight : ℕ

def allocate (scaledWeight total : ℕ) (matching : List (ℕ × ℕ)) : List Allocation :=
  matching.map fun (idx, endpointWeight) =>
    if endpointWeight = 0 then ⟨idx, 0, 0, 0⟩
    else
      let numerator := scaledWeight * endpointWeight
      ⟨idx, numerator / total, numerator % total, endpointWeight⟩

/-- What an endpoint gets of the rest. -/
def Allocation.extra (a : Allocation) (leftover : ℕ) : ℕ :=
  if 0 < a.endpointWeight ∧ 0 < leftover then 1 else 0

/-- The endpoints with a share, when the greatest fractions get what is left over. -/
def settle : ℕ → List Allocation → List (ℕ × ℕ)
  | _, [] => []
  | leftover, a :: rest =>
    if a.share + a.extra leftover = 0 then settle (leftover - a.extra leftover) rest
    else (a.idx, a.share + a.extra leftover) :: settle (leftover - a.extra leftover) rest

/-- The bucket of a locality: its endpoints with their shares. -/
def distributeShares (toWeight : UInt32) (matching : List (ℕ × ℕ)) : List (ℕ × ℕ) :=
  let total := (matching.map Prod.snd).sum
  if total = 0 then []
  else
    let scaledWeight := toWeight.toNat * localityDistributeWeightScale
    let allocations := allocate scaledWeight total matching
    let allocated := (allocations.map Allocation.share).sum
    let sorted := sortByKey (fun a => toLex (OrderDual.toDual a.remainder, a.idx)) allocations
    settle (scaledWeight - allocated) sorted

/-- The endpoints whose best entry is the `toIdx`-th, with their weights. -/
def matchingTargets (toEntries : List (LocalityPreference × UInt32))
    (targets : List UpstreamTarget) (toIdx : ℕ) : List (ℕ × ℕ) :=
  targets.zipIdx.filterMap fun (t, idx) =>
    match targetLocality t with
    | some target =>
      if bestToEntry toEntries target = some toIdx then some (idx, t.weight.toNat) else none
    | none => none

/-- What an entry distributes: the weights of the targets, their total and the buckets. -/
structure Distribution where
  weights : List ℕ
  total : ℕ := 0
  groups : List LocalityDistributeGroup := []

/-- One locality more. -/
def Distribution.add (targetCount : ℕ) (d : Distribution) (shares : List (ℕ × ℕ)) : Distribution :=
  let groupTotal := shares.foldl (fun total e => satAdd total e.2) 0
  let indices := shares.map Prod.fst
  { weights := shares.foldl (fun weights e => weights.modify e.1 fun w => satAdd w e.2) d.weights
    total := shares.foldl (fun total e => satAdd total e.2) d.total
    groups :=
      if 0 < groupTotal then
        d.groups ++ [⟨groupTotal, indices, membershipMaskForIndices targetCount indices⟩]
      else d.groups }

def distributeEntry (targets : List UpstreamTarget)
    (toEntries : List (LocalityPreference × UInt32)) : Distribution :=
  toEntries.zipIdx.foldl
    (fun d entry => d.add targets.length
      (distributeShares entry.1.2 (matchingTargets toEntries targets entry.2)))
    { weights := List.replicate targets.length 0 }

/-- The first entry for the source that reaches a target. -/
def distributeFor (source : LocalityPreference) (targets : List UpstreamTarget) :
    List LocalityDistribute → Option Distribution
  | [] => none
  | entry :: rest =>
    match LocalityPreference.parse entry.from_ with
    | none => distributeFor source targets rest
    | some entryFrom =>
      if localityFromMatchesSource entryFrom source then
        let toEntries := entry.to_.filterMap fun (toLocality, toWeight) =>
          (LocalityPreference.parse toLocality).map fun toPref => (toPref, toWeight)
        let result := distributeEntry targets toEntries
        -- an entry that names no target is skipped
        if 0 < result.total then some result else distributeFor source targets rest
      else distributeFor source targets rest

/-! ## Failover -/

/-- The targets in the first configured region that has one. -/
def failoverFor (source : LocalityPreference) (targets : List UpstreamTarget) :
    List LocalityFailover → Option (List Bool)
  | [] => none
  | entry :: rest =>
    if entry.from_ ≠ source.region then failoverFor source targets rest
    else
      let matches_ := targets.map fun t => (targetLocality t).any fun p => p.region == entry.to_
      if matches_.any id then some matches_ else failoverFor source targets rest

def failoverPriorityLabelNetwork : Bytes := lit "topology.istio.io/network"
def failoverPriorityLabelCluster : Bytes := lit "topology.istio.io/cluster"
def failoverPriorityLabelRegion : Bytes := lit "topology.kubernetes.io/region"
def failoverPriorityLabelZone : Bytes := lit "topology.kubernetes.io/zone"
def failoverPriorityLabelSubzone : Bytes := lit "topology.istio.io/subzone"

/-- A label, and the value that overrides the one of the source. -/
def parseFailoverPriorityEntry (raw : Bytes) : Option (Bytes × Option Bytes) :=
  if trim raw = [] ∨ trim raw ≠ raw then none
  else
    match splitOnce raw (byte '=') with
    | some (key, value) =>
      if key = [] ∨ value.contains (byte '=') then none else some (key, some value)
    | none => some (raw, none)

def localitySegment (raw : Option Bytes) (index : ℕ) : Option Bytes :=
  match raw with
  | none => none
  | some raw =>
    if trim raw = [] then none
    else
      let parts := (splitn (byte '/') 3 (trim raw)).map trim
      match parts[0]? with
      | none => none
      | some region =>
        if region = [] then none
        else if index = 0 then some region
        else parts[index]?.filter (· ≠ [])

def endpointFailoverPriorityLabel (t : UpstreamTarget) (key : Bytes) : Bytes :=
  match t.tags.get key with
  | some value => value
  | none =>
    if key = failoverPriorityLabelRegion then (localitySegment t.locality 0).getD []
    else if key = failoverPriorityLabelZone then (localitySegment t.locality 1).getD []
    else if key = failoverPriorityLabelSubzone then (localitySegment t.locality 2).getD []
    else if key = failoverPriorityLabelNetwork then (t.tags.get (lit "mesh.network")).getD []
    else if key = failoverPriorityLabelCluster then (t.tags.get (lit "mesh.cluster")).getD []
    else []

/-- The rank of a target: `lowest` minus the position of the first label that differs.  A network
    that differs at the first position adds `lowest`. -/
def failoverPriorityRank (includesNetwork : Bool) (lowest : ℕ) (t : UpstreamTarget) :
    ℕ → List (Bytes × Bytes) → ℕ
  | _, [] => 0
  | j, (key, expected) :: rest =>
    if endpointFailoverPriorityLabel t key = expected then
      failoverPriorityRank includesNetwork lowest t (j + 1) rest
    else if j = 0 ∧ includesNetwork then
      failoverPriorityRank includesNetwork lowest t (j + 1) rest + lowest
    else lowest - j

def computeFailoverPriorityRanks (failoverPriority : List Bytes)
    (sourceLabels : HMap Bytes Bytes) (targets : List UpstreamTarget) : List ℕ :=
  let lowest := failoverPriority.length
  match failoverPriority.mapM parseFailoverPriorityEntry with
  | none => targets.map fun _ => lowest
  | some entries =>
    let includesNetwork := failoverPriority.head? == some failoverPriorityLabelNetwork
    let overridden : HMap Bytes Bytes := entries.foldl
      (fun m (key, value) => match value with | some v => m.insert key v | none => m) HMap.empty
    let expected := entries.map fun (key, _) =>
      (key, (overridden.get key).getD ((sourceLabels.get key).getD []))
    targets.map fun t => failoverPriorityRank includesNetwork lowest t 0 expected

/-! ## The state -/

def buildLocalityLbState (setting : Option UpstreamLocalityLbSetting)
    (sourceLocality : Option Bytes) (sourceLabels : HMap Bytes Bytes)
    (targets : List UpstreamTarget) (owner : LaneId) : Option LocalityLbState :=
  match setting with
  | none => none
  | some setting =>
    if !setting.enabled then some { enabled := false, distributeCounter := owner }
    else if setting.failoverPriority ≠ [] ∧ !sourceLabels.isEmpty then
      some
        { distributeCounter := owner
          failoverPriorityRanks :=
            some (computeFailoverPriorityRanks setting.failoverPriority sourceLabels targets) }
    else
      match sourceLocality.bind LocalityPreference.parse with
      | none => some { distributeCounter := owner }
      | some source =>
        match distributeFor source targets setting.distribute with
        | some d => some
          { distributeWeights := some d.weights
            distributeGroups := some d.groups
            distributeCounter := owner }
        | none => some
          { distributeCounter := owner
            failoverTargetMatches := failoverFor source targets setting.failover }

/-- The tier of a target for the source: exact, zone, region or none. -/
def localityTier (source : LocalityPreference) (t : UpstreamTarget) : ℕ :=
  match targetLocality t with
  | none => 3
  | some target =>
    if source.exactMatches target then 0
    else if source.sameZone target then 1
    else if source.sameRegion target then 2
    else 3

/-! ## SRV priorities -/

/-- Above every priority. -/
def srvPriorityNone : ℕ := 2 ^ 32 - 1

def maxSrvPriorityTiers : ℕ := 8

/-- Canonical decimal digits of a `u16`. -/
def parseSrvPriorityTag (value : Bytes) : Option ℕ :=
  if value = [] ∨ !value.all isAsciiDigit then none
  else if 1 < value.length ∧ value.head? = some (byte '0') then none
  else parseUnsigned 65535 value

/-- The priorities of the rest of the targets, and the distinct ones seen. -/
def srvPriorities : List UpstreamTarget → List ℕ → Option (List ℕ × List ℕ)
  | [], distinct => some ([], distinct)
  | t :: rest, distinct =>
    match t.tags.get srvPriorityTag with
    | none => (srvPriorities rest distinct).map fun (ps, d) => (srvPriorityNone :: ps, d)
    | some raw =>
      match parseSrvPriorityTag raw with
      | none => none
      | some priority =>
        if distinct.contains priority then
          (srvPriorities rest distinct).map fun (ps, d) => (priority :: ps, d)
        else if distinct.length = maxSrvPriorityTiers then none
        else (srvPriorities rest (distinct ++ [priority])).map fun (ps, d) => (priority :: ps, d)

/-- Empty unless there are at least two priorities, all well-formed. -/
def buildSrvPriorities (targets : List UpstreamTarget) : List ℕ :=
  match srvPriorities targets [] with
  | some (priorities, distinct) => if distinct.length < 2 then [] else priorities
  | none => []

/-! ## Buckets -/

/-- A bucket is not empty, and its mask has the members that its indices are. -/
structure GroupOk (n : ℕ) (g : LocalityDistributeGroup) : Prop where
  weight : 0 < g.weight
  indices_lt : ∀ i ∈ g.targetIndices, i < n
  indices_nodup : g.targetIndices.Nodup
  membership : ∀ i, g.targetMembership[i]?.getD false = decide (i ∈ g.targetIndices)

/-- All buckets of a state are in order. -/
def GroupsOk (n : ℕ) (state : LocalityLbState) : Prop :=
  ∀ groups, state.distributeGroups = some groups → ∀ g ∈ groups, GroupOk n g

theorem getElem?_membershipMask {len : ℕ} {indices : List ℕ} (h : ∀ i ∈ indices, i < len) (i : ℕ) :
    (membershipMaskForIndices len indices)[i]?.getD false = decide (i ∈ indices) := by
  have key : ∀ (indices : List ℕ) (mask : List Bool), (∀ i ∈ indices, i < mask.length) →
      (indices.foldl (fun mask idx => mask.set idx true) mask)[i]?.getD false =
        (mask[i]?.getD false || decide (i ∈ indices)) := by
    intro indices
    induction indices with
    | nil => simp
    | cons idx indices ih =>
      intro mask hlt
      rw [foldl_cons, ih _ (by simpa using fun i hi => hlt i (mem_cons_of_mem _ hi)),
        getElem?_set]
      have hid := hlt idx mem_cons_self
      by_cases he : idx = i
      · subst he
        simp [hid]
      · simp [he, Ne.symm he]
  rw [membershipMaskForIndices, key indices _ (by simpa using h), getElem?_replicate]
  split_ifs <;> simp

theorem mem_settle {leftover : ℕ} {as : List Allocation} {e : ℕ × ℕ} (h : e ∈ settle leftover as) :
    0 < e.2 ∧ ∃ a ∈ as, a.idx = e.1 := by
  induction as generalizing leftover with
  | nil => cases h
  | cons a as ih =>
    rw [settle] at h
    split_ifs at h with hz
    · obtain ⟨hpos, b, hb, he⟩ := ih h
      exact ⟨hpos, b, mem_cons_of_mem _ hb, he⟩
    · rcases mem_cons.1 h with rfl | h
      · exact ⟨Nat.pos_of_ne_zero hz, a, mem_cons_self, rfl⟩
      · obtain ⟨hpos, b, hb, he⟩ := ih h
        exact ⟨hpos, b, mem_cons_of_mem _ hb, he⟩

theorem settle_sublist (leftover : ℕ) (as : List Allocation) :
    ((settle leftover as).map Prod.fst).Sublist (as.map Allocation.idx) := by
  induction as generalizing leftover with
  | nil => exact .slnil
  | cons a as ih =>
    rw [settle]
    split_ifs
    · exact (ih _).cons _
    · exact (ih _).cons_cons _

theorem map_idx_allocate (scaledWeight total : ℕ) (matching : List (ℕ × ℕ)) :
    (allocate scaledWeight total matching).map Allocation.idx = matching.map Prod.fst := by
  rw [allocate, map_map]
  refine map_congr_left fun e _ => ?_
  simp only [Function.comp_apply]
  split_ifs <;> rfl

theorem distributeShares_indices (toWeight : UInt32) {matching : List (ℕ × ℕ)}
    (h : (matching.map Prod.fst).Nodup) :
    ((distributeShares toWeight matching).map Prod.fst).Nodup ∧
      ∀ e ∈ distributeShares toWeight matching, e.1 ∈ matching.map Prod.fst := by
  rw [distributeShares]
  simp only
  split_ifs with ht
  · exact ⟨nodup_nil, nofun⟩
  · have hp := (sortByKey_perm
      (fun a : Allocation => toLex (OrderDual.toDual a.remainder, a.idx))
      (allocate (toWeight.toNat * localityDistributeWeightScale)
        (matching.map Prod.snd).sum matching)).map Allocation.idx
    rw [map_idx_allocate] at hp
    refine ⟨(settle_sublist _ _).nodup (hp.nodup_iff.2 h), fun e he => ?_⟩
    obtain ⟨-, a, ha, hae⟩ := mem_settle he
    exact hp.subset (hae ▸ mem_map_of_mem ha)

theorem matchingTargets_nodup (toEntries : List (LocalityPreference × UInt32))
    (targets : List UpstreamTarget) (toIdx : ℕ) :
    ((matchingTargets toEntries targets toIdx).map Prod.fst).Nodup := by
  have hs : ((matchingTargets toEntries targets toIdx).map Prod.fst).Sublist
      (targets.zipIdx.map Prod.snd) := by
    rw [matchingTargets]
    induction targets.zipIdx with
    | nil => exact .slnil
    | cons e es ih =>
      rw [filterMap_cons, map_cons]
      obtain ⟨t, idx⟩ := e
      simp only
      cases targetLocality t with
      | none => exact ih.cons _
      | some target =>
        simp only
        split_ifs
        · exact ih.cons_cons _
        · exact ih.cons _
  refine hs.nodup ?_
  rw [zipIdx_map_snd]
  exact nodup_range'

variable {targets : List UpstreamTarget}

theorem matchingTargets_lt {toEntries : List (LocalityPreference × UInt32)} {toIdx i : ℕ}
    (h : i ∈ (matchingTargets toEntries targets toIdx).map Prod.fst) : i < targets.length := by
  obtain ⟨e, he, rfl⟩ := mem_map.1 h
  obtain ⟨⟨t, idx⟩, hm, heq⟩ := mem_filterMap.1 he
  have hlt : idx < targets.length := by
    have := mem_zipIdx' hm
    exact this.1
  simp only at heq
  split at heq
  · split_ifs at heq
    cases heq
    exact hlt
  · cases heq

theorem distributeEntry_ok (targets : List UpstreamTarget)
    (toEntries : List (LocalityPreference × UInt32)) :
    ∀ g ∈ (distributeEntry targets toEntries).groups, GroupOk targets.length g := by
  rw [distributeEntry]
  refine foldlRecOn (motive := fun d : Distribution => ∀ g ∈ d.groups, GroupOk targets.length g)
    _ _ nofun ?_
  intro d hd entry _ g hg
  rw [Distribution.add] at hg
  simp only at hg
  split_ifs at hg with hpos
  · rcases mem_append.1 hg with hg | hg
    · exact hd g hg
    · cases mem_singleton.1 hg
      obtain ⟨hn, hm⟩ := distributeShares_indices entry.1.2
        (matchingTargets_nodup toEntries targets entry.2)
      have hlt : ∀ i ∈ (distributeShares entry.1.2
          (matchingTargets toEntries targets entry.2)).map Prod.fst, i < targets.length := by
        intro i hi
        obtain ⟨e, he, rfl⟩ := mem_map.1 hi
        exact matchingTargets_lt (hm e he)
      exact ⟨hpos, hlt, hn, getElem?_membershipMask hlt⟩
  · exact hd g hg

theorem distributeFor_ok {source : LocalityPreference} {entries : List LocalityDistribute}
    {d : Distribution} (h : distributeFor source targets entries = some d) :
    ∀ g ∈ d.groups, GroupOk targets.length g := by
  induction entries with
  | nil => cases h
  | cons entry rest ih =>
    rw [distributeFor] at h
    split at h
    · exact ih h
    · dsimp only at h
      split_ifs at h
      · cases h
        exact distributeEntry_ok targets _
      · exact ih h
      · exact ih h

/-- **The buckets of a locality setting are in order.** -/
theorem buildLocalityLbState_ok {setting : Option UpstreamLocalityLbSetting}
    {sourceLocality : Option Bytes} {sourceLabels : HMap Bytes Bytes} {owner : LaneId}
    {state : LocalityLbState}
    (h : buildLocalityLbState setting sourceLocality sourceLabels targets owner = some state) :
    GroupsOk targets.length state := by
  intro groups hgr
  cases setting with
  | none => cases h
  | some setting =>
    rw [buildLocalityLbState] at h
    split_ifs at h
    · cases h
      cases hgr
    · cases h
      cases hgr
    · split at h
      · cases h
        cases hgr
      · split at h
        · next hd =>
          cases h
          cases hgr
          exact distributeFor_ok hd
        · cases h
          cases hgr

end Ferrum.Balancer
