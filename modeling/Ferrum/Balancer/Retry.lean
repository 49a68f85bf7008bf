/-
  Selections for a retry.

  A retry leaves out the target that was tried before, and targets that a transport cannot use.  The
  first of these stays in the scope in which strict locality looks for local targets.  No retry falls
  back on unhealthy targets.

  * `selectExcludingAmong_eq`, `selectExcludingAmongVec_eq`: retries are selections on indices.
-/
import Ferrum.Balancer.Select

namespace Ferrum.Balancer

open Lib List Selector

inductive RetryExcludeContract where
  | configuredStickyIdentity
  | effectiveEndpointLane
  deriving DecidableEq

def retryExcludeMatches (target exclude : UpstreamTarget) : RetryExcludeContract → Bool
  | .configuredStickyIdentity => sameStickyIdentity target exclude
  | .effectiveEndpointLane =>
    target.host == exclude.host && target.port == exclude.port
      && target.dispatchPolicyPort == exclude.dispatchPolicyPort

structure RetryCandidateFilter where
  exclude : UpstreamTarget
  eligible : Option (UpstreamTarget → Bool)

namespace RetryCandidateFilter
variable (filter : RetryCandidateFilter)

def isHardIneligible (target : UpstreamTarget) : Bool :=
  filter.eligible.any fun eligible => !eligible target

def excludesRetry (target : UpstreamTarget) (contract : RetryExcludeContract) : Bool :=
  retryExcludeMatches target filter.exclude contract

def rejects (target : UpstreamTarget) (contract : RetryExcludeContract) : Bool :=
  filter.excludesRetry target contract || filter.isHardIneligible target

end RetryCandidateFilter

/-! ## Candidates -/

/-- What may be selected, and where local targets are looked for. -/
def splitRetryCandidateAndLocalityScopeBitset (targets : List UpstreamTarget)
    (filter : RetryCandidateFilter) (contract : RetryExcludeContract) (scope : HealthBitset) :
    HealthBitset × HealthBitset :=
  match filter.eligible with
  | none =>
    (targets.zipIdx.foldl
      (fun mask e => if filter.excludesRetry e.1 contract then mask.clear e.2 else mask) scope, scope)
  | some _ => targets.zipIdx.foldl
    (fun masks e => (if filter.rejects e.1 contract then masks.1.clear e.2 else masks.1,
      if filter.isHardIneligible e.1 then masks.2.clear e.2 else masks.2)) (scope, scope)

def buildEligibleRetryCandidateAndLocalityScopeIndices (targets : List UpstreamTarget)
    (filter : RetryCandidateFilter) (contract : RetryExcludeContract) (scopeIndices : List ℕ) :
    Except Panic (List ℕ × List ℕ) :=
  scopeIndices.foldlM (fun acc idx => do
    let target ← index targets idx
    return (if !filter.rejects target contract then acc.1 ++ [idx] else acc.1,
      if !filter.isHardIneligible target then acc.2 ++ [idx] else acc.2)) ([], [])

/-- The same for any filter. -/
def splitRetryCandidateAndLocalityScopeIndices (targets : List UpstreamTarget)
    (filter : RetryCandidateFilter) (contract : RetryExcludeContract) (scopeIndices : List ℕ) :
    Except Panic (List ℕ × List ℕ) :=
  if filter.eligible.isSome then
    buildEligibleRetryCandidateAndLocalityScopeIndices targets filter contract scopeIndices
  else do
    let candidateIndices ← scopeIndices.foldlM (fun acc idx => do
      return if !filter.rejects (← index targets idx) contract then acc ++ [idx] else acc) []
    return (candidateIndices, scopeIndices)

/-! ## Retries -/

/-- A retry returns no flag. -/
def withoutFlag (r : Selecting) : Except Panic (Chosen × Lanes) := do
  let (sel, lanes) ← r
  return (sel.map TargetSelection.target, lanes)

/-- What identifies a retry: the request, and what it leaves out. -/
structure Retry where
  ctxKey : Bytes
  filter : RetryCandidateFilter
  contract : RetryExcludeContract
  health : Option HealthContext

namespace Selector
variable (self : Selector) (retry : Retry)

/-- A retry among the members of a set. -/
def retryBitset (scope : HealthBitset) (lane : Lane) (lanes : Lanes) :
    Except Panic (Chosen × Lanes) :=
  let (candidateMask, localityScope) :=
    splitRetryCandidateAndLocalityScopeBitset self.targets retry.filter retry.contract scope
  if candidateMask.isEmpty then .ok (none, lanes)
  else withoutFlag do
    let healthy ← self.computeHealthBitsetForMask retry.health candidateMask
    self.bitsetPath.selectHealthy self retry.ctxKey healthy localityScope lane lanes

/-- A retry among indices. -/
def retryVec (scopeIndices : List ℕ) (lane : Lane) (lanes : Lanes) :
    Except Panic (Chosen × Lanes) := do
  let (candidateIndices, localityScope) ←
    splitRetryCandidateAndLocalityScopeIndices self.targets retry.filter retry.contract scopeIndices
  if candidateIndices.isEmpty then .ok (none, lanes)
  else withoutFlag do
    let healthy ← self.healthyTargetsVecForIndices retry.health candidateIndices
    self.vecPath.selectHealthy self retry.ctxKey healthy localityScope lane lanes

def selectExcludingVecFallback (lanes : Lanes) : Except Panic (Chosen × Lanes) :=
  self.retryVec retry (List.range self.targets.length) self.parentLane lanes

def selectExcludingPortVecFallback (port : UInt16) (portState : PortLbState) (lanes : Lanes) :
    Except Panic (Chosen × Lanes) :=
  self.retryVec retry portState.targetIndices (self.portLane port portState) lanes

def selectExcludingSubsetVecFallback (name : Bytes) (subsetIndices : List ℕ) (lanes : Lanes) :
    Except Panic (Chosen × Lanes) :=
  self.retryVec retry subsetIndices (self.subsetLane name) lanes

def selectExcludingPortSubsetVecFallback (port : UInt16) (portState : PortLbState) (name : Bytes)
    (subsetIndices : List ℕ) (lanes : Lanes) : Except Panic (Chosen × Lanes) :=
  self.retryVec retry (self.subsetPortIntersectionVec subsetIndices portState.targetIndices)
    (self.portSubsetLane port portState name) lanes

def selectExcludingWith (lanes : Lanes) : Except Panic (Chosen × Lanes) :=
  let n := self.targets.length
  if n = 0 then .ok (none, lanes)
  else if maxBitsetTargets < n then self.selectExcludingVecFallback retry lanes
  else self.retryBitset retry (.all n) self.parentLane lanes

def selectExcludingForPortWith (port : UInt16) (lanes : Lanes) : Except Panic (Chosen × Lanes) :=
  match self.portOverrides.get port with
  | none => self.selectExcludingWith retry lanes
  | some portState =>
    let n := self.targets.length
    if n = 0 ∨ portState.targetIndices = [] then .ok (none, lanes)
    else if maxBitsetTargets < n then
      self.selectExcludingPortVecFallback retry port portState lanes
    else self.retryBitset retry (bitsetForIndices portState.targetIndices)
      (self.portLane port portState) lanes

def selectExcludingFromSubsetWith (name : Bytes) (lanes : Lanes) : Except Panic (Chosen × Lanes) :=
  let n := self.targets.length
  if n = 0 then .ok (none, lanes)
  else match self.subsetIndices.get name with
  | none | some [] => .ok (none, lanes)
  | some subsetTargetIndices =>
    if maxBitsetTargets < n then
      self.selectExcludingSubsetVecFallback retry name subsetTargetIndices lanes
    else self.retryBitset retry (bitsetForIndices subsetTargetIndices) (self.subsetLane name) lanes

def selectExcludingForPortFromSubsetWith (port : UInt16) (name : Bytes) (lanes : Lanes) :
    Except Panic (Chosen × Lanes) :=
  match self.portOverrides.get port with
  | none => self.selectExcludingFromSubsetWith retry name lanes
  | some portState =>
    let n := self.targets.length
    if n = 0 ∨ portState.targetIndices = [] then .ok (none, lanes)
    else match self.subsetIndices.get name with
    | none | some [] => .ok (none, lanes)
    | some subsetTargetIndices =>
      if maxBitsetTargets < n then
        self.selectExcludingPortSubsetVecFallback retry port portState name subsetTargetIndices lanes
      else self.retryBitset retry (subsetPortMask subsetTargetIndices portState.targetIndices)
        (self.portSubsetLane port portState name) lanes

end Selector

/-! ## By port and subset -/

/-- The targets of a port and of a subset, if they are given. -/
def Among.of : Option UInt16 → Option Bytes → Among
  | none, none => .all
  | none, some name => .subset name
  | some p, none => .port p
  | some p, some name => .portSubset p name

namespace Selector
variable (self : Selector) (retry : Retry)

def selectExcludingAmong (lanes : Lanes) :
    Option UInt16 → Option Bytes → Except Panic (Chosen × Lanes)
  | none, none => self.selectExcludingWith retry lanes
  | none, some name => self.selectExcludingFromSubsetWith retry name lanes
  | some port, none => self.selectExcludingForPortWith retry port lanes
  | some port, some name => self.selectExcludingForPortFromSubsetWith retry port name lanes

/-- The copy on vectors, for any number of targets. -/
def selectExcludingAmongVec (lanes : Lanes) (port : Option UInt16) (name : Option Bytes) :
    Except Panic (Chosen × Lanes) :=
  let ofAll := self.selectExcludingVecFallback retry lanes
  let ofSubset name :=
    match self.subsetIndices.get name with
    | none | some [] => .ok (none, lanes)
    | some indices => self.selectExcludingSubsetVecFallback retry name indices lanes
  if self.targets.length = 0 then .ok (none, lanes)
  else match port, name with
  | none, none => ofAll
  | none, some name => ofSubset name
  | some port, none =>
    match self.portOverrides.get port with
    | none => ofAll
    | some portState => self.selectExcludingPortVecFallback retry port portState lanes
  | some port, some name =>
    match self.portOverrides.get port with
    | none => ofSubset name
    | some portState =>
      match self.subsetIndices.get name with
      | none | some [] => .ok (none, lanes)
      | some indices =>
        self.selectExcludingPortSubsetVecFallback retry port portState name indices lanes

/-- Whether the target at an index satisfies `p`. -/
def at_ (p : UpstreamTarget → Bool) (i : ℕ) : Bool := self.targets[i]?.any p

/-- What of a pool a retry may select. -/
def retryPool (pool : List ℕ) : List ℕ :=
  pool.filter fun i => !self.at_ (retry.filter.rejects · retry.contract) i

/-- Where a retry looks for local targets. -/
def retryScope (pool : List ℕ) : List ℕ :=
  pool.filter fun i => !self.at_ retry.filter.isHardIneligible i

def retrySelection (keyOf : List ℕ → WrrScheduleKey) (lanes : Lanes) (among : Among) :
    Except Panic (Chosen × Lanes) :=
  withoutFlag (self.selection keyOf retry.ctxKey retry.health (self.retryPool retry (self.pool among))
    (self.retryScope retry (self.pool among)) false (self.laneFor among) lanes)

end Selector

/-! ## Simulation -/

section
variable {self : Selector} {retry : Retry} {b : HealthBitset} {pool : List ℕ} {lane : Lane}
  {lanes : Lanes} {upstreamId : Bytes}

/-- The members that are left after a sweep over targets with their indices. -/
theorem holds_foldl_clear (p : UpstreamTarget → Bool) {l : List (UpstreamTarget × ℕ)}
    (hl : ∀ e ∈ l, e.2 < 128) (hb : Holds b pool) :
    Holds (l.foldl (fun mask e => if p e.1 then mask.clear e.2 else mask) b)
      (pool.filter fun i => !l.any fun e => p e.1 && e.2 == i) := by
  induction l generalizing b pool with
  | nil => simpa using hb
  | cons e l ih =>
    have ht := fun {b pool} => @ih b pool fun e he => hl e (mem_cons_of_mem _ he)
    rw [foldl_cons]
    split_ifs with hp
    · have hc := ht (hb.clear (hl e mem_cons_self))
      rw [filter_filter] at hc
      refine (filter_congr fun i _ => ?_) ▸ hc
      rw [any_cons, hp, Bool.true_and, Bool.not_or, Bool.and_comm]
      congr 1
      rw [Bool.eq_iff_iff, Bool.not_eq_true', beq_eq_false_iff_ne, decide_eq_true_eq]
      exact ne_comm
    · simpa [any_cons, Bool.eq_false_iff.2 hp] using ht hb

theorem holds_without (hn : self.targets.length ≤ maxBitsetTargets) (p : UpstreamTarget → Bool)
    (hb : Holds b pool) :
    Holds (self.targets.zipIdx.foldl (fun mask e => if p e.1 then mask.clear e.2 else mask) b)
      (pool.filter fun i => !self.at_ p i) := by
  have hlt : ∀ e ∈ self.targets.zipIdx, e.2 < 128 := fun e he =>
    (snd_lt_of_mem_zipIdx he).trans_le hn
  have ha : ∀ i, (self.targets.zipIdx.any fun e => p e.1 && e.2 == i) = self.at_ p i := by
    intro i
    rw [Bool.eq_iff_iff, any_eq_true, at_, Option.any_eq_true]
    constructor
    · rintro ⟨⟨t, j⟩, hm, hp⟩
      rw [Bool.and_eq_true, beq_iff_eq] at hp
      obtain ⟨hp, rfl⟩ := hp
      exact ⟨t, mem_zipIdx_iff_getElem?.1 hm, hp⟩
    · rintro ⟨t, ht, hp⟩
      exact ⟨(t, i), mem_zipIdx_iff_getElem?.2 ht, by simp [hp]⟩
  have hc := holds_foldl_clear p hlt hb
  simp only [ha] at hc
  exact hc

theorem rejects_of_none (hn : retry.filter.eligible = none) :
    (retry.filter.rejects · retry.contract) = (retry.filter.excludesRetry · retry.contract) := by
  funext t
  rw [RetryCandidateFilter.rejects, RetryCandidateFilter.isHardIneligible, hn, Option.any_none,
    Bool.or_false]

theorem retryScope_of_none (hn : retry.filter.eligible = none) :
    self.retryScope retry pool = pool := by
  refine filter_eq_self.2 fun i _ => ?_
  rw [at_]
  cases self.targets[i]? <;> simp [RetryCandidateFilter.isHardIneligible, hn]

theorem splitRetryBitset_ok (hn : self.targets.length ≤ maxBitsetTargets) (hb : Holds b pool) :
    Holds (splitRetryCandidateAndLocalityScopeBitset self.targets retry.filter retry.contract b).1
        (self.retryPool retry pool) ∧
      Holds (splitRetryCandidateAndLocalityScopeBitset self.targets retry.filter retry.contract b).2
        (self.retryScope retry pool) := by
  rw [splitRetryCandidateAndLocalityScopeBitset]
  cases hf : retry.filter.eligible with
  | none =>
    rw [retryScope_of_none hf, retryPool, rejects_of_none hf]
    exact ⟨holds_without hn (retry.filter.excludesRetry · retry.contract) hb, hb⟩
  | some eligible =>
    simp only
    rw [foldl_pair (fun (mask : HealthBitset) (e : UpstreamTarget × ℕ) =>
      if retry.filter.rejects e.1 retry.contract then mask.clear e.2 else mask)
      (fun (mask : HealthBitset) (e : UpstreamTarget × ℕ) =>
        if retry.filter.isHardIneligible e.1 then mask.clear e.2 else mask)]
    exact ⟨holds_without hn (retry.filter.rejects · retry.contract) hb,
      holds_without hn retry.filter.isHardIneligible hb⟩

theorem splitRetryIndices_ok (hp : self.Scoped pool) :
    splitRetryCandidateAndLocalityScopeIndices self.targets retry.filter retry.contract pool =
      .ok (self.retryPool retry pool, self.retryScope retry pool) := by
  have hin : ∀ i ∈ pool, ∃ t, index self.targets i = .ok t ∧ ∀ p, self.at_ p i = p t := by
    intro i hi
    have hlt := hp.lt i hi
    refine ⟨self.targets[i], index_lt hlt, fun p => ?_⟩
    rw [at_, getElem?_eq_getElem hlt, Option.any_some]
  rw [splitRetryCandidateAndLocalityScopeIndices]
  split_ifs with he
  · refine (foldlM_ok (g := fun acc i =>
      (if !self.at_ (retry.filter.rejects · retry.contract) i then acc.1 ++ [i] else acc.1,
        if !self.at_ retry.filter.isHardIneligible i then acc.2 ++ [i] else acc.2))
      fun acc i hi => ?_).trans ?_
    · obtain ⟨t, ht, hat⟩ := hin i hi
      rw [ht, hat, hat]
      rfl
    · rw [foldl_pair (fun (acc : List ℕ) i =>
        if !self.at_ (retry.filter.rejects · retry.contract) i then acc ++ [i] else acc)
        (fun acc i => if !self.at_ retry.filter.isHardIneligible i then acc ++ [i] else acc),
        foldl_append_filter, foldl_append_filter]
      rfl
  · have hn : retry.filter.eligible = none := by simpa using he
    rw [foldlM_ok (g := fun acc i =>
      if !self.at_ (retry.filter.rejects · retry.contract) i then acc ++ [i] else acc)
      fun acc i hi => ?_, foldl_append_filter, retryScope_of_none hn]
    · rfl
    · obtain ⟨t, ht, hat⟩ := hin i hi
      rw [ht, hat]
      rfl

/-! ### The two copies -/

theorem scope_retryPool (hp : self.Scoped pool) : self.Scoped (self.retryPool retry pool) :=
  hp.filter _

theorem scope_retryScope (hp : self.Scoped pool) : self.Scoped (self.retryScope retry pool) :=
  hp.filter _

theorem ne_nil_of_retryPool (hne : self.retryPool retry pool ≠ []) : pool ≠ [] := by
  rintro rfl
  exact hne rfl

theorem retryBitset_eq (hs : self.Sized) (hn : self.targets.length ≤ maxBitsetTargets)
    (hp : self.Scoped pool) (hb : Holds b pool)
    (hln : pool ≠ [] → LaneOk self.toLoadBalancer lane) (hlanes : lanes.Ok self) :
    self.retryBitset retry b lane lanes =
      withoutFlag (self.selection .ofBitset retry.ctxKey retry.health (self.retryPool retry pool)
        (self.retryScope retry pool) false lane lanes) := by
  obtain ⟨hc, hsc⟩ := @splitRetryBitset_ok self retry b pool hn hb
  dsimp only [retryBitset]
  rw [hc.isEmpty]
  split_ifs with he
  · rw [List.isEmpty_iff.1 he, selection_nil]
    rfl
  · have hne := ne_nil_of_retryPool (mt List.isEmpty_iff.2 he)
    exact congrArg withoutFlag (bitsetHealthy hs hn (scope_retryPool hp)
      ⟨hsc, (scope_retryScope hp).lt⟩
      (computeHealthBitsetForMask_ok hs hn (scope_retryPool hp) hc retry.health)
      (hln hne) hlanes)

theorem retryVec_eq (hs : self.Sized) (hp : self.Scoped pool)
    (hln : pool ≠ [] → LaneOk self.toLoadBalancer lane) (hlanes : lanes.Ok self) :
    self.retryVec retry pool lane lanes =
      withoutFlag (self.selection .indices retry.ctxKey retry.health (self.retryPool retry pool)
        (self.retryScope retry pool) false lane lanes) := by
  rw [retryVec, splitRetryIndices_ok hp, ok_bind]
  dsimp only
  split_ifs with he
  · rw [List.isEmpty_iff.1 he, selection_nil]
    rfl
  · have hne := ne_nil_of_retryPool (mt List.isEmpty_iff.2 he)
    exact congrArg withoutFlag
      (vecHealthy hs (scope_retryPool hp) (scope_retryScope hp) (hln hne) hlanes)

theorem retrySelection_nil {keyOf : List ℕ → WrrScheduleKey} {among : Among}
    (hn : self.pool among = []) :
    self.retrySelection retry keyOf lanes among = .ok (none, lanes) := by
  rw [retrySelection, hn]
  show withoutFlag (self.selection _ _ _ [] _ _ _ _) = _
  rw [selection_nil]
  rfl

/-- Without an override, a port has the pool and the lane of its parent. -/
theorem retrySelection_of_none {keyOf : List ℕ → WrrScheduleKey} {port : UInt16}
    (hp : self.portOverrides.get port = none) (name : Option Bytes) :
    self.retrySelection retry keyOf lanes (.of (some port) name) =
      self.retrySelection retry keyOf lanes (.of none name) := by
  cases name <;>
    simp only [retrySelection, Among.of, pool, laneFor, hp]

theorem pool_portSubset {port : UInt16} {portState : PortLbState} {name : Bytes}
    (hp : self.portOverrides.get port = some portState) :
    self.pool (.of (some port) (some name)) =
      (self.subsetPool name).filter (· ∈ portState.targetIndices) := by
  simp only [Among.of, pool, hp]

section
variable (hb : self.Built upstreamId) (hlanes : lanes.Ok self)
include hb hlanes

/-- A retry on the pool and the lane of a selection. -/
theorem retryVec_among {indices : List ℕ} {among : Among} (hp : self.pool among = indices)
    (hln : self.laneFor among = lane) :
    self.retryVec retry indices lane lanes = self.retrySelection retry .indices lanes among := by
  subst hp hln
  exact retryVec_eq hb.sized (scope_pool hb among) (laneFor_ok hb) hlanes

theorem retryBitset_among (hn : self.targets.length ≤ maxBitsetTargets) {among : Among}
    (hp : Holds b (self.pool among)) (hln : self.laneFor among = lane) :
    self.retryBitset retry b lane lanes = self.retrySelection retry .ofBitset lanes among := by
  subst hln
  exact retryBitset_eq hb.sized hn (scope_pool hb among) hp (laneFor_ok hb) hlanes

/-- **Retries on vectors.** -/
theorem selectExcludingAmongVec_eq (port : Option UInt16) (name : Option Bytes) :
    self.selectExcludingAmongVec retry lanes port name =
      self.retrySelection retry .indices lanes (.of port name) := by
  dsimp only [selectExcludingAmongVec]
  split_ifs with hn
  · exact (retrySelection_nil (pool_eq_nil hb hn _)).symm
  have ha : self.selectExcludingVecFallback retry lanes =
      self.retrySelection retry .indices lanes .all := retryVec_among hb hlanes rfl rfl
  have hs : ∀ name, (match self.subsetIndices.get name with
      | none | some [] => .ok (none, lanes)
      | some indices => self.selectExcludingSubsetVecFallback retry name indices lanes) =
      self.retrySelection retry .indices lanes (.subset name) := by
    intro name
    refine (match_subset name _ fun indices =>
      self.selectExcludingSubsetVecFallback retry name indices lanes).trans ?_
    split_ifs with he
    · exact (@retrySelection_nil self retry lanes _ (.subset name) he).symm
    · exact retryVec_among hb hlanes rfl rfl
  rcases port with _ | port <;> rcases name with _ | name
  · exact ha
  · exact hs name
  · dsimp only
    cases hp : self.portOverrides.get port with
    | none => exact ha.trans (retrySelection_of_none hp none).symm
    | some portState =>
      refine retryVec_among hb hlanes ?_ ?_
      all_goals simp only [Among.of, pool, laneFor, hp]
  · dsimp only
    cases hp : self.portOverrides.get port with
    | none => exact (hs name).trans (retrySelection_of_none hp (some name)).symm
    | some portState =>
      have hpl := @pool_portSubset self port portState name hp
      refine (match_subset name _ fun indices =>
        self.selectExcludingPortSubsetVecFallback retry port portState name indices lanes).trans ?_
      split_ifs with he
      · exact (retrySelection_nil (by rw [hpl, he, filter_nil])).symm
      · exact retryVec_among hb hlanes
          (by rw [hpl, subsetPortIntersectionVec_eq (hb.portScope _ _ hp).1])
          (by simp only [Among.of, laneFor, hp])

section
variable (hn : self.targets.length ≤ maxBitsetTargets)
include hn

theorem selectExcludingWith_bitset_eq :
    self.selectExcludingWith retry lanes = self.retrySelection retry .ofBitset lanes .all := by
  dsimp only [selectExcludingWith]
  split_ifs with hnn hlr
  · exact (retrySelection_nil (pool_eq_nil hb hnn _)).symm
  · exact absurd hlr (not_lt.2 hn)
  · exact retryBitset_among hb hlanes hn (holds_all hn) rfl

theorem selectExcludingFromSubsetWith_bitset_eq (name : Bytes) :
    self.selectExcludingFromSubsetWith retry name lanes =
      self.retrySelection retry .ofBitset lanes (.subset name) := by
  have hs := scope_subsetPool hb name
  simp only [selectExcludingFromSubsetWith, if_neg (not_lt.2 hn)]
  split_ifs with hnn
  · exact (retrySelection_nil (pool_eq_nil hb hnn _)).symm
  · refine (match_subset name _ fun indices =>
      self.retryBitset retry (bitsetForIndices indices) (self.subsetLane name) lanes).trans ?_
    split_ifs with he
    · exact (@retrySelection_nil self retry lanes _ (.subset name) he).symm
    · exact @retryBitset_among self retry _ _ lanes _ hb hlanes hn (.subset name)
        (bitsetRep_indices hn hs).1 rfl

/-- **Retries on bitsets.** -/
theorem selectExcludingAmong_bitset_eq (port : Option UInt16) (name : Option Bytes) :
    self.selectExcludingAmong retry lanes port name =
      self.retrySelection retry .ofBitset lanes (.of port name) := by
  have hlr : ¬maxBitsetTargets < self.targets.length := not_lt.2 hn
  rcases port with _ | port <;> rcases name with _ | name
  · exact selectExcludingWith_bitset_eq hb hlanes hn
  · exact selectExcludingFromSubsetWith_bitset_eq hb hlanes hn name
  · simp only [selectExcludingAmong, selectExcludingForPortWith]
    cases hp : self.portOverrides.get port with
    | none =>
      rw [retrySelection_of_none hp]
      exact selectExcludingWith_bitset_eq hb hlanes hn
    | some portState =>
      have hs := (hb.portScope _ _ hp).1
      simp only [if_neg hlr, if_neg (port_not_empty hb hp)]
      refine retryBitset_among hb hlanes hn ?_ ?_
      · simpa only [Among.of, pool, hp] using (bitsetRep_indices hn hs).1
      · simp only [Among.of, laneFor, hp]
  · simp only [selectExcludingAmong, selectExcludingForPortFromSubsetWith]
    cases hp : self.portOverrides.get port with
    | none =>
      rw [retrySelection_of_none hp]
      exact selectExcludingFromSubsetWith_bitset_eq hb hlanes hn name
    | some portState =>
      have hbt := (bitsetRep_indices hn (scope_subsetPool hb name)).1.intersect
        (bitsetRep_indices hn (hb.portScope _ _ hp).1).1
      have hpl := @pool_portSubset self port portState name hp
      simp only [if_neg hlr, if_neg (port_not_empty hb hp)]
      refine (match_subset name _ fun indices => self.retryBitset retry
        (subsetPortMask indices portState.targetIndices)
        (self.portSubsetLane port portState name) lanes).trans ?_
      split_ifs with he
      · exact (retrySelection_nil (by rw [hpl, he, filter_nil])).symm
      · exact retryBitset_among hb hlanes hn (hpl ▸ hbt)
          (by simp only [Among.of, laneFor, hp])

end

end

theorem selectExcludingAmong_vec (hb : self.Built upstreamId)
    (hlr : maxBitsetTargets < self.targets.length) (port : Option UInt16) (name : Option Bytes) :
    self.selectExcludingAmong retry lanes port name =
      self.selectExcludingAmongVec retry lanes port name := by
  have hs : self.targets.length ≠ 0 := (Nat.zero_lt_of_lt hlr).ne'
  rcases port with _ | port <;> rcases name with _ | name <;>
    simp only [selectExcludingAmong, selectExcludingAmongVec, selectExcludingWith,
      selectExcludingFromSubsetWith, selectExcludingForPortWith,
      selectExcludingForPortFromSubsetWith, if_neg hs, if_pos hlr]
  all_goals split
  all_goals first | rfl | (next h => rw [if_neg (port_not_empty hb h)])

/-- **Every retry** is a selection on indices. -/
theorem selectExcludingAmong_eq (hb : self.Built upstreamId) (hlanes : lanes.Ok self)
    (port : Option UInt16) (name : Option Bytes) :
    self.selectExcludingAmong retry lanes port name =
      self.retrySelection retry self.keyOf lanes (.of port name) := by
  rw [keyOf]
  split_ifs with hlr
  · rw [selectExcludingAmong_vec hb hlr, selectExcludingAmongVec_eq hb hlanes]
  · exact selectExcludingAmong_bitset_eq hb hlanes (not_lt.1 hlr) port name

end

end Ferrum.Balancer
