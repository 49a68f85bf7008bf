/-
  The healthy targets of a pool.

  A target is out of a pool while it is actively unhealthy, or ejected by passive checks.  At most a
  percentage of the pool stays ejected: the earliest ejections beyond it are readmitted.  Of what is
  left, only the best SRV priority counts.  The selectors have five builders of such pools, on bitsets
  and on vectors, for all targets, for given indices and for a mask.

  * `healthyPool`: the pool as it should be.
  * `computeHealthBitset_ok`, `healthyTargetsVec_ok` and the like: every builder yields it.
  * `ejection_cap`: how many ejections are retained, and which.
-/
import Ferrum.Balancer.Build
import Ferrum.Balancer.Bitset

namespace Ferrum.Balancer

open Lib List

structure HealthContext where
  /-- By the keys of the targets. -/
  activeUnhealthy : HMap Bytes ℕ
  /-- When the endpoint was ejected. -/
  proxyPassive : Option (HMap Bytes ℕ)
  maxEjectionPercent : Option UInt8

/-- A sort by the second component, which may put equals in any order. -/
structure UnstableSort where
  sort : List (ℕ × ℕ) → List (ℕ × ℕ)
  perm : ∀ l, (sort l).Perm l
  sorted : ∀ l, (sort l).Pairwise fun a b => a.2 ≤ b.2

/-- The stable sort is one. -/
def stableSort : UnstableSort where
  sort := sortByKey Prod.snd
  perm := sortByKey_perm _
  sorted := sortByKey_pairwise _

/-- How many ejections may be retained among `totalTargets`. -/
def maxEjected (totalTargets : ℕ) (maxPct : UInt8) : ℕ :=
  min ((min (totalTargets * (maxPct.toNat + 1)) (2 ^ 64 - 1) - 1) / 100) totalTargets

/-- The ejections, the earliest first if some are to be readmitted, and how many that are. -/
def passiveEjectionsToReadmit (sort : UnstableSort) (passiveEjected : List (ℕ × ℕ))
    (totalTargets : ℕ) (maxEjectionPercent : Option UInt8) : List (ℕ × ℕ) × ℕ :=
  match maxEjectionPercent with
  | none => (passiveEjected, 0)
  | some maxPct =>
    if passiveEjected = [] ∨ totalTargets = 0 then (passiveEjected, 0)
    else if passiveEjected.length ≤ maxEjected totalTargets maxPct then (passiveEjected, 0)
    else (sort.sort passiveEjected, passiveEjected.length - maxEjected totalTargets maxPct)

def counterShards : ℕ := 16

/-- The values of `i64`. -/
abbrev I64 := { x : ℤ // i64Min ≤ x ∧ x ≤ i64Max }

/-- A balancer with what one of its selections reads besides: the gauges, and the thread it runs
    on. -/
structure Selector extends LoadBalancer where
  sort : UnstableSort
  activeConnections : HMap Bytes I64
  latencyEwma : HMap Bytes UInt64
  latencySampleCount : HMap Bytes UInt64
  /-- The counters of the thread. -/
  shard : Fin counterShards
  /-- Whether another thread holds the lock on schedules. -/
  contended : Bool

open Selector

/-- A selector while there is no load, and no other thread. -/
def LoadBalancer.idle (lb : LoadBalancer) : Selector :=
  { lb with
    sort := stableSort
    activeConnections := HMap.empty
    latencyEwma := HMap.empty
    latencySampleCount := HMap.empty
    shard := ⟨0, by decide⟩
    contended := false }

/-- Targets with their indices. -/
abbrev Candidates := List (ℕ × UpstreamTarget)

inductive Verdict where
  | active
  | passive (ejectedAt : ℕ)
  | healthy
  deriving DecidableEq

/-- There is nothing to filter. -/
def HealthContext.isClear (h : HealthContext) : Bool :=
  h.activeUnhealthy.isEmpty && h.proxyPassive.all HMap.isEmpty

namespace Selector
variable (self : Selector)

/-! ## SRV priorities -/

def srvPriority (idx : ℕ) : ℕ := self.srvPriorities[idx]?.getD srvPriorityNone

/-- The least priority of the members, as a loop finds it. -/
def bestPriority (indices : List ℕ) : ℕ :=
  indices.foldl
    (fun best idx => if self.srvPriority idx < best then self.srvPriority idx else best)
    srvPriorityNone

def inBestTier (best idx : ℕ) : Bool :=
  self.srvPriority idx == best || self.srvPriority idx == srvPriorityNone

def filterSrvPriorityBitset (healthy : HealthBitset) : HealthBitset :=
  if self.srvPriorities = [] then healthy
  else
    let best := self.bestPriority healthy.visits
    if best = srvPriorityNone then healthy
    else healthy.visits.foldl
      (fun selected idx => if self.inBestTier best idx then selected.set idx else selected) .empty

def filterSrvPriorityVec (healthy : Candidates) : Candidates :=
  if self.srvPriorities = [] ∨ healthy = [] then healthy
  else
    let best := self.bestPriority (healthy.map Prod.fst)
    if best = srvPriorityNone then healthy
    else healthy.filter fun candidate => self.inBestTier best candidate.1

/-! ## Health -/

/-- What the health checks say about a target. -/
def verdict (h : HealthContext) (i : ℕ) : Except Panic Verdict := do
  let key ← index self.targetKeys i
  if (h.activeUnhealthy.get key).isSome then return .active
  match h.proxyPassive with
  | none => return .healthy
  | some unhealthy =>
    let key ← index self.hostPortKeys i
    match unhealthy.get key with
    | some ejectedAt => return .passive ejectedAt
    | none => return .healthy

def noteBitset (h : HealthContext) (acc : HealthBitset × List (ℕ × ℕ)) (i : ℕ) :
    Except Panic (HealthBitset × List (ℕ × ℕ)) := do
  match ← self.verdict h i with
  | .active => return acc
  | .passive ejectedAt => return (acc.1, acc.2 ++ [(i, ejectedAt)])
  | .healthy => return (acc.1.set i, acc.2)

/-- The same for an index that is checked first. -/
def noteIndexBitset (h : HealthContext) (acc : HealthBitset × List (ℕ × ℕ)) (i : ℕ) :
    Except Panic (HealthBitset × List (ℕ × ℕ)) :=
  if self.targets.length ≤ i then .ok acc else self.noteBitset h acc i

def readmitBitset (h : HealthContext) (total : ℕ) (acc : HealthBitset × List (ℕ × ℕ)) :
    HealthBitset :=
  let (ejected, toReadmit) :=
    passiveEjectionsToReadmit self.sort acc.2 total h.maxEjectionPercent
  (ejected.take toReadmit).foldl (fun b e => b.set e.1) acc.1

def computeHealthBitset (health : Option HealthContext) : Except Panic HealthBitset :=
  let n := self.targets.length
  match health with
  | none => .ok (self.filterSrvPriorityBitset (.all n))
  | some h =>
    if h.isClear then .ok (self.filterSrvPriorityBitset (.all n))
    else do
      let acc ← (List.range n).foldlM (self.noteBitset h) (.empty, [])
      return self.filterSrvPriorityBitset (self.readmitBitset h n acc)

def computeHealthBitsetForIndices (health : Option HealthContext) (indices : List ℕ) :
    Except Panic HealthBitset :=
  match health with
  | none => .ok (self.filterSrvPriorityBitset (bitsetForIndices indices))
  | some h =>
    if h.isClear then .ok (self.filterSrvPriorityBitset (bitsetForIndices indices))
    else do
      let acc ← indices.foldlM (self.noteIndexBitset h) (.empty, [])
      return self.filterSrvPriorityBitset (self.readmitBitset h indices.length acc)

def computeHealthBitsetForMask (health : Option HealthContext) (mask : HealthBitset) :
    Except Panic HealthBitset :=
  match health with
  | none => .ok (self.filterSrvPriorityBitset mask)
  | some h =>
    if h.isClear then .ok (self.filterSrvPriorityBitset mask)
    else do
      let acc ← mask.visits.foldlM (self.noteIndexBitset h) (.empty, [])
      return self.filterSrvPriorityBitset (self.readmitBitset h mask.count acc)

def noteVec (h : HealthContext) (acc : Candidates × List (ℕ × ℕ)) (i : ℕ)
    (target : UpstreamTarget) : Except Panic (Candidates × List (ℕ × ℕ)) := do
  match ← self.verdict h i with
  | .active => return acc
  | .passive ejectedAt => return (acc.1, acc.2 ++ [(i, ejectedAt)])
  | .healthy => return (acc.1 ++ [(i, target)], acc.2)

/-- Readmitted targets are put back in order. -/
def readmitVec (h : HealthContext) (total : ℕ) (acc : Candidates × List (ℕ × ℕ)) :
    Except Panic Candidates :=
  let (ejected, toReadmit) :=
    passiveEjectionsToReadmit self.sort acc.2 total h.maxEjectionPercent
  if 0 < toReadmit then do
    let readmitted ← (ejected.take toReadmit).mapM fun e => do
      return (e.1, ← index self.targets e.1)
    return sortByKey Prod.fst (acc.1 ++ readmitted)
  else .ok acc.1

def healthyTargetsVec (health : Option HealthContext) : Except Panic Candidates :=
  let all := self.targets.zipIdx.map fun (target, i) => (i, target)
  match health with
  | none => .ok (self.filterSrvPriorityVec all)
  | some h => do
    let acc ← all.foldlM (fun acc e => self.noteVec h acc e.1 e.2) ([], [])
    return self.filterSrvPriorityVec (← self.readmitVec h self.targets.length acc)

/-- The targets at the indices that are in bounds. -/
def attach (indices : List ℕ) : Candidates :=
  indices.filterMap fun idx => self.targets[idx]?.map fun target => (idx, target)

def healthyTargetsVecForIndices (health : Option HealthContext) (indices : List ℕ) :
    Except Panic Candidates :=
  match health with
  | none => .ok (self.filterSrvPriorityVec (self.attach indices))
  | some h => do
    let acc ← indices.foldlM
      (fun acc i => match self.targets[i]? with
        | some target => self.noteVec h acc i target
        | none => .ok acc) ([], [])
    return self.filterSrvPriorityVec (← self.readmitVec h indices.length acc)

/-! ## The pool as it should be -/

def activelyUnhealthy (h : HealthContext) (i : ℕ) : Bool :=
  self.targetKeys[i]?.any fun key => (h.activeUnhealthy.get key).isSome

/-- When a target was ejected that is not actively unhealthy. -/
def ejectedAt (h : HealthContext) (i : ℕ) : Option ℕ :=
  if self.activelyUnhealthy h i then none
  else h.proxyPassive.bind fun unhealthy => self.hostPortKeys[i]?.bind unhealthy.get

/-- The ejections in a pool. -/
def ejections (h : HealthContext) (pool : List ℕ) : List (ℕ × ℕ) :=
  pool.filterMap fun i => (self.ejectedAt h i).map fun at_ => (i, at_)

def readmitted (h : HealthContext) (pool : List ℕ) : List ℕ :=
  let (ejected, toReadmit) :=
    passiveEjectionsToReadmit self.sort (self.ejections h pool) pool.length h.maxEjectionPercent
  (ejected.take toReadmit).map Prod.fst

/-- The target is under an ejection that the cap retains. -/
def retained (h : HealthContext) (pool : List ℕ) (i : ℕ) : Bool :=
  (self.ejectedAt h i).isSome && !(self.readmitted h pool).contains i

/-- The target is neither actively unhealthy nor under a retained ejection. -/
def acceptable (health : Option HealthContext) (pool : List ℕ) (i : ℕ) : Bool :=
  health.all fun h => !self.activelyUnhealthy h i && !self.retained h pool i

/-- The members of the best SRV priority, and those that have none. -/
def srvTier (pool : List ℕ) : List ℕ :=
  if self.srvPriorities = [] ∨ self.bestPriority pool = srvPriorityNone then pool
  else pool.filter (self.inBestTier (self.bestPriority pool))

def healthyPool (health : Option HealthContext) (pool : List ℕ) : List ℕ :=
  self.srvTier (pool.filter (self.acceptable health pool))

/-- What the health checks say, where it is asked for a target. -/
def verdictOf (h : HealthContext) (i : ℕ) : Verdict :=
  if self.activelyUnhealthy h i then .active
  else match self.ejectedAt h i with
    | some ejectedAt => .passive ejectedAt
    | none => .healthy

end Selector

/-- There is a key for every target. -/
structure Selector.Sized (s : Selector) : Prop where
  targetKeys : s.targetKeys.length = s.targets.length
  hostPortKeys : s.hostPortKeys.length = s.targets.length

theorem LoadBalancer.Built.sized {upstreamId : Bytes} {self : Selector}
    (h : self.Built upstreamId) : self.Sized where
  targetKeys := by rw [h.targetKeys, length_map]
  hostPortKeys := by rw [h.hostPortKeys, length_map]

/-! ## The sweep over a pool -/

section
variable {self : Selector} {h : HealthContext} {pool : List ℕ} {i : ℕ}

theorem verdict_ok (hs : self.Sized) (hi : i < self.targets.length) :
    self.verdict h i = .ok (self.verdictOf h i) := by
  have hk : self.targetKeys[i]? = some (self.targetKeys.get ⟨i, hs.targetKeys ▸ hi⟩) :=
    getElem?_eq_getElem _
  have hh : self.hostPortKeys[i]? = some (self.hostPortKeys.get ⟨i, hs.hostPortKeys ▸ hi⟩) :=
    getElem?_eq_getElem _
  simp only [verdict, verdictOf, ejectedAt, activelyUnhealthy,
    index_ok hk, index_ok hh, hk, hh, Option.any_some, Option.bind_some]
  show (if _ then _ else _) = _
  split_ifs with ha
  · rfl
  · cases hp : h.proxyPassive with
    | none => rfl
    | some unhealthy =>
      simp only [Option.bind_some]
      show (match unhealthy.get (self.hostPortKeys.get ⟨i, hs.hostPortKeys ▸ hi⟩) with
        | some at_ => .ok (.passive at_) | none => .ok .healthy : Except Panic Verdict) = _
      cases unhealthy.get (self.hostPortKeys.get ⟨i, hs.hostPortKeys ▸ hi⟩) <;> rfl

theorem verdictOf_healthy : self.verdictOf h i = .healthy ↔
    self.activelyUnhealthy h i = false ∧ self.ejectedAt h i = none := by
  rw [verdictOf]
  split_ifs with ha
  · simp [ha]
  · cases self.ejectedAt h i <;> simp [ha]

theorem verdictOf_passive {at_ : ℕ} :
    self.verdictOf h i = .passive at_ ↔ self.ejectedAt h i = some at_ := by
  rw [verdictOf]
  split_ifs with ha
  · simp [ejectedAt, ha]
  · cases self.ejectedAt h i <;> simp

/-- What a sweep finds: the healthy targets, and the ejections. -/
theorem foldl_note {β : Type} (put : β → ℕ → β) (acc : β × List (ℕ × ℕ)) :
    pool.foldl (fun acc i => match self.verdictOf h i with
      | .active => acc
      | .passive at_ => (acc.1, acc.2 ++ [(i, at_)])
      | .healthy => (put acc.1 i, acc.2)) acc =
    ((pool.filter fun i => self.verdictOf h i = .healthy).foldl put acc.1,
      acc.2 ++ self.ejections h pool) := by
  induction pool generalizing acc with
  | nil => simp [ejections]
  | cons i pool ih =>
    rw [foldl_cons, ih]
    cases hv : self.verdictOf h i with
    | active =>
      have hn : self.ejectedAt h i = none := by
        cases he : self.ejectedAt h i with
        | none => rfl
        | some at_ =>
          rw [verdictOf_passive.2 he] at hv
          cases hv
      simp [hv, hn, ejections]
    | passive at_ => simp [hv, verdictOf_passive.1 hv, ejections]
    | healthy => simp [hv, (verdictOf_healthy.1 hv).2, ejections]

theorem noteBitset_ok (hs : self.Sized) (hi : i < self.targets.length)
    (acc : HealthBitset × List (ℕ × ℕ)) :
    self.noteBitset h acc i = .ok (match self.verdictOf h i with
      | .active => acc
      | .passive at_ => (acc.1, acc.2 ++ [(i, at_)])
      | .healthy => (acc.1.set i, acc.2)) := by
  rw [noteBitset, verdict_ok hs hi]
  show (match self.verdictOf h i with | _ => _ : Except Panic _) = _
  cases self.verdictOf h i <;> rfl

/-- What a sweep on bitsets leaves. -/
def Selector.swept (self : Selector) (h : HealthContext) (pool : List ℕ) : HealthBitset × List (ℕ × ℕ) :=
  ((pool.filter fun i => self.verdictOf h i = .healthy).foldl HealthBitset.set .empty,
    self.ejections h pool)

theorem sweepBitset_ok (hs : self.Sized) (hsc : ∀ i ∈ pool, i < self.targets.length) :
    pool.foldlM (self.noteBitset h) (.empty, []) = .ok (self.swept h pool) := by
  rw [foldlM_ok fun acc i hi => noteBitset_ok hs (hsc i hi) acc, foldl_note]
  rfl

theorem sweepIndexBitset_ok (hs : self.Sized) (hsc : ∀ i ∈ pool, i < self.targets.length) :
    pool.foldlM (self.noteIndexBitset h) (.empty, []) = .ok (self.swept h pool) := by
  have hn : ∀ acc, ∀ i ∈ pool, self.noteIndexBitset h acc i = .ok _ := fun acc i hi =>
    (if_neg (not_le.2 (hsc i hi))).trans (noteBitset_ok hs (hsc i hi) acc)
  rw [foldlM_ok hn, foldl_note]
  rfl

/-! ## Readmission -/

theorem passiveEjectionsToReadmit_perm (sort : UnstableSort) (ejected : List (ℕ × ℕ)) (total : ℕ)
    (pct : Option UInt8) :
    (Prod.fst <| passiveEjectionsToReadmit sort ejected total pct).Perm ejected := by
  cases pct with
  | none => exact .refl _
  | some maxPct =>
    unfold passiveEjectionsToReadmit
    dsimp only
    split_ifs
    · exact .refl _
    · exact .refl _
    · exact sort.perm ejected

theorem mem_ejections {e : ℕ × ℕ} :
    e ∈ self.ejections h pool ↔ e.1 ∈ pool ∧ self.ejectedAt h e.1 = some e.2 := by
  simp only [ejections, mem_filterMap, Option.map_eq_some_iff]
  constructor
  · rintro ⟨i, hi, at_, hat, rfl⟩
    exact ⟨hi, hat⟩
  · rintro ⟨hi, hat⟩
    exact ⟨e.1, hi, e.2, hat, rfl⟩

theorem ejections_fst (pool : List ℕ) :
    (self.ejections h pool).map Prod.fst = pool.filter fun i => (self.ejectedAt h i).isSome := by
  induction pool with
  | nil => rfl
  | cons i pool ih =>
    rw [ejections] at ih ⊢
    cases hat : self.ejectedAt h i <;> simp [hat, ih]

theorem readmitted_sublist : ∃ l : List (ℕ × ℕ), l.Perm (self.ejections h pool) ∧
    ∃ k, self.readmitted h pool = (l.take k).map Prod.fst :=
  ⟨_, passiveEjectionsToReadmit_perm _ _ _ _, _, rfl⟩

theorem mem_of_mem_readmitted (hi : i ∈ self.readmitted h pool) :
    i ∈ pool ∧ (self.ejectedAt h i).isSome := by
  obtain ⟨l, hp, k, hk⟩ := @readmitted_sublist self h pool
  rw [hk] at hi
  obtain ⟨e, he, rfl⟩ := mem_map.1 hi
  obtain ⟨hm, hat⟩ := mem_ejections.1 (hp.subset (take_subset _ _ he))
  exact ⟨hm, hat ▸ rfl⟩

theorem readmitted_nodup (hp : pool.Nodup) : (self.readmitted h pool).Nodup := by
  obtain ⟨l, hpr, k, hk⟩ := @readmitted_sublist self h pool
  have hn : (l.map Prod.fst).Nodup := by
    rw [(hpr.map Prod.fst).nodup_iff, ejections_fst]
    exact hp.filter _
  rw [hk]
  exact ((take_sublist k l).map Prod.fst).nodup hn

theorem acceptable_iff : self.acceptable (some h) pool i = true ↔
    self.verdictOf h i = .healthy ∨ i ∈ self.readmitted h pool := by
  simp only [acceptable, retained, Option.all_some, Bool.and_eq_true,
    Bool.not_eq_true', Bool.and_eq_false_iff, Bool.not_eq_false', contains_eq_mem,
    decide_eq_true_eq, verdictOf_healthy]
  constructor
  · rintro ⟨ha, hnt | hm⟩
    · exact .inl ⟨ha, by simpa using hnt⟩
    · exact .inr hm
  · rintro (⟨ha, hn⟩ | hm)
    · exact ⟨ha, .inl (by simp [hn])⟩
    · refine ⟨?_, .inr hm⟩
      have hs := (mem_of_mem_readmitted hm).2
      rw [ejectedAt] at hs
      split_ifs at hs with ha
      · cases hs
      · simpa using ha

/-- The healthy targets and the readmitted ones are the acceptable ones. -/
theorem acceptable_perm (hp : pool.Nodup) :
    ((pool.filter fun i => self.verdictOf h i = .healthy) ++ self.readmitted h pool).Perm
      (pool.filter (self.acceptable (some h) pool)) := by
  have hd : ∀ i ∈ pool.filter fun i => self.verdictOf h i = .healthy,
      i ∉ self.readmitted h pool := by
    intro i hi hm
    have hn := (verdictOf_healthy.1 (of_decide_eq_true (mem_filter.1 hi).2)).2
    have hs := (mem_of_mem_readmitted hm).2
    rw [hn] at hs
    cases hs
  rw [perm_ext_iff_of_nodup
    (nodup_append.2 ⟨hp.filter _, readmitted_nodup hp, fun i hi j hj => by
      rintro rfl
      exact hd i hi hj⟩) (hp.filter _)]
  intro i
  rw [mem_append, mem_filter, mem_filter, acceptable_iff, decide_eq_true_eq]
  constructor
  · rintro (⟨hi, hv⟩ | hi)
    · exact ⟨hi, .inl hv⟩
    · exact ⟨(mem_of_mem_readmitted hi).1, .inr hi⟩
  · rintro ⟨hi, hv | hm⟩
    · exact .inl ⟨hi, hv⟩
    · exact .inr hm

/-- Without anything to filter, every target is acceptable. -/
theorem acceptable_of_isClear (hc : h.isClear = true) (i : ℕ) :
    self.acceptable (some h) pool i = true := by
  rw [HealthContext.isClear, Bool.and_eq_true] at hc
  refine acceptable_iff.2 (.inl (verdictOf_healthy.2 ⟨?_, ?_⟩))
  · simp only [activelyUnhealthy, HMap.get_of_isEmpty hc.1]
    cases self.targetKeys[i]? <;> rfl
  · rw [ejectedAt]
    split_ifs
    · rfl
    · cases hp : h.proxyPassive with
      | none => rfl
      | some unhealthy =>
        have he := hc.2
        rw [hp, Option.all_some] at he
        simp only [Option.bind_some, HMap.get_of_isEmpty he]
        cases self.hostPortKeys[i]? <;> rfl

theorem filter_acceptable_of_isClear (hc : h.isClear = true) :
    pool.filter (self.acceptable (some h) pool) = pool :=
  filter_eq_self.2 fun i _ => acceptable_of_isClear hc i

/-! ## SRV priorities -/

theorem filterSrvPriorityBitset_holds {b : HealthBitset} (hb : Holds b pool) :
    Holds (self.filterSrvPriorityBitset b) (self.srvTier pool) := by
  simp only [filterSrvPriorityBitset, srvTier, hb.visits]
  by_cases hn : self.srvPriorities = []
  · simp only [hn, if_true, true_or]
    exact hb
  · by_cases hbs : self.bestPriority pool = srvPriorityNone
    · simp only [hn, hbs, if_true, if_false, or_true]
      exact hb
    · simp only [hn, hbs, if_false, or_self]
      rw [← foldl_filter]
      exact holds_foldl_set (.refl _) (hb.ascending.filter _) fun i hi =>
        hb.lt (mem_filter.1 hi).1

theorem attach_cons (hi : i < self.targets.length) :
    self.attach (i :: pool) = (i, self.targets[i]) :: self.attach pool := by
  rw [Selector.attach, filterMap_cons, getElem?_eq_getElem hi]
  rfl

section
variable (hs : ∀ i ∈ pool, i < self.targets.length)
include hs

theorem attach_fst : (self.attach pool).map Prod.fst = pool := by
  induction pool with
  | nil => rfl
  | cons i pool ih =>
    rw [attach_cons (hs i mem_cons_self), map_cons,
      ih fun j hj => hs j (mem_cons_of_mem _ hj)]

theorem length_attach : (self.attach pool).length = pool.length := by
  rw [← length_map (f := Prod.fst), attach_fst hs]

theorem attach_isEmpty : (self.attach pool).isEmpty = pool.isEmpty := by
  rw [Bool.eq_iff_iff, isEmpty_iff_length_eq_zero, isEmpty_iff_length_eq_zero, length_attach hs]

end

theorem filter_attach (p : ℕ → Bool) :
    (self.attach pool).filter (fun c => p c.1) = self.attach (pool.filter p) := by
  induction pool with
  | nil => rfl
  | cons i pool ih =>
    rw [filter_cons]
    simp only [Selector.attach, filterMap_cons] at ih ⊢
    cases ht : self.targets[i]? with
    | none => split_ifs <;> simp [ih, ht]
    | some target => by_cases hp : p i <;> simp [ih, ht, hp]

theorem attach_append (pool' : List ℕ) :
    self.attach (pool ++ pool') = self.attach pool ++ self.attach pool' :=
  filterMap_append

theorem attach_perm {pool' : List ℕ} (hp : pool.Perm pool') :
    (self.attach pool).Perm (self.attach pool') := hp.filterMap _

theorem attach_sorted (hsc : ∀ i ∈ pool, i < self.targets.length)
    (hs : pool.Pairwise (· < ·)) :
    (self.attach pool).Pairwise fun a b => a.1 < b.1 := by
  have := pairwise_map.1 ((attach_fst hsc).symm ▸ hs)
  exact this

theorem filterSrvPriorityVec_eq (hs : ∀ i ∈ pool, i < self.targets.length) :
    self.filterSrvPriorityVec (self.attach pool) = self.attach (self.srvTier pool) := by
  simp only [filterSrvPriorityVec, srvTier, attach_fst hs]
  by_cases hn : self.srvPriorities = []
  · simp only [hn, if_true, true_or]
  · by_cases hb : self.bestPriority pool = srvPriorityNone
    · simp only [hn, hb, if_true, or_true, false_or, ite_self]
    · simp only [hn, hb, if_false, false_or]
      split_ifs with he
      · rw [← filter_attach, he, filter_nil]
      · exact filter_attach _

/-! ## The builders on bitsets -/

theorem readmitBitset_holds (hn : self.targets.length ≤ 128)
    (hs : self.Scoped pool) :
    Holds (self.readmitBitset h pool.length (self.swept h pool))
      (pool.filter (self.acceptable (some h) pool)) := by
  have hf : self.readmitBitset h pool.length (self.swept h pool) =
      ((pool.filter fun i => self.verdictOf h i = .healthy) ++ self.readmitted h pool).foldl
        HealthBitset.set .empty := by
    rw [foldl_append, readmitted, foldl_map]
    rfl
  rw [hf]
  exact holds_foldl_set (acceptable_perm (hs.ascending.imp Nat.ne_of_lt))
    (hs.ascending.filter _) fun i hi => (hs.lt i (mem_filter.1 hi).1).trans_le hn

/-- A builder that starts from a set of the whole pool. -/
theorem health_holds (hn : self.targets.length ≤ 128) (hs : self.Scoped pool)
    {whole : HealthBitset} (hw : Holds whole pool) (health : Option HealthContext)
    {sweep : HealthContext → Except Panic (HealthBitset × List (ℕ × ℕ))}
    (hsw : ∀ h, sweep h = .ok (self.swept h pool)) :
    ∃ b, (match health with
      | none => .ok (self.filterSrvPriorityBitset whole)
      | some h =>
        if h.isClear then .ok (self.filterSrvPriorityBitset whole)
        else do
          let acc ← sweep h
          return self.filterSrvPriorityBitset (self.readmitBitset h pool.length acc) :
      Except Panic HealthBitset) = .ok b ∧ Holds b (self.healthyPool health pool) := by
  cases health with
  | none =>
    refine ⟨_, rfl, ?_⟩
    have ha : pool.filter (self.acceptable none pool) = pool :=
      filter_eq_self.2 fun _ _ => rfl
    rw [healthyPool, ha]
    exact filterSrvPriorityBitset_holds hw
  | some h =>
    simp only [healthyPool]
    split_ifs with hc
    · refine ⟨_, rfl, ?_⟩
      rw [filter_acceptable_of_isClear hc]
      exact filterSrvPriorityBitset_holds hw
    · rw [hsw]
      exact ⟨_, rfl, filterSrvPriorityBitset_holds (readmitBitset_holds hn hs)⟩

theorem computeHealthBitset_ok (hs : self.Sized) (hn : self.targets.length ≤ 128)
    (health : Option HealthContext) :
    ∃ b, self.computeHealthBitset health = .ok b ∧
      Holds b (self.healthyPool health (List.range self.targets.length)) := by
  have hb := health_holds hn (.range _) (holds_all hn) health fun h =>
    @sweepBitset_ok self h _ hs fun i hi => mem_range.1 hi
  rw [length_range] at hb
  exact hb

theorem computeHealthBitsetForIndices_ok (hs : self.Sized) (hn : self.targets.length ≤ 128)
    (hsc : self.Scoped pool) (health : Option HealthContext) :
    ∃ b, self.computeHealthBitsetForIndices health pool = .ok b ∧
      Holds b (self.healthyPool health pool) :=
  health_holds hn hsc
    (holds_bitsetForIndices hsc.ascending fun i hi => (hsc.lt i hi).trans_le hn) health
    fun _ => sweepIndexBitset_ok hs hsc.lt

theorem computeHealthBitsetForMask_ok (hs : self.Sized) (hn : self.targets.length ≤ 128)
    (hsc : self.Scoped pool) {mask : HealthBitset} (hm : Holds mask pool)
    (health : Option HealthContext) :
    ∃ b, self.computeHealthBitsetForMask health mask = .ok b ∧
      Holds b (self.healthyPool health pool) := by
  simp only [computeHealthBitsetForMask, hm.visits, hm.count]
  exact health_holds hn hsc hm health fun h => sweepIndexBitset_ok hs hsc.lt

/-! ## The builders on vectors -/

theorem noteVec_ok (hs : self.Sized) (hi : i < self.targets.length)
    (acc : Candidates × List (ℕ × ℕ)) :
    (match self.targets[i]? with
      | some target => self.noteVec h acc i target
      | none => .ok acc) = .ok (match self.verdictOf h i with
        | .active => acc
        | .passive at_ => (acc.1, acc.2 ++ [(i, at_)])
        | .healthy => (acc.1 ++ self.attach [i], acc.2)) := by
  rw [attach_cons hi, getElem?_eq_getElem hi]
  simp only [noteVec, verdict_ok hs hi]
  show (match self.verdictOf h i with | _ => _ : Except Panic _) = _
  cases self.verdictOf h i <;> rfl

theorem foldl_attach (pool : List ℕ) (acc : Candidates) :
    pool.foldl (fun acc i => acc ++ self.attach [i]) acc = acc ++ self.attach pool := by
  induction pool generalizing acc with
  | nil => exact (append_nil acc).symm
  | cons i pool ih =>
    rw [foldl_cons, ih, append_assoc, ← attach_append]
    rfl

theorem sweepVec_ok (hs : self.Sized) (hsc : ∀ i ∈ pool, i < self.targets.length) :
    pool.foldlM (fun acc i => match self.targets[i]? with
      | some target => self.noteVec h acc i target
      | none => .ok acc) ([], []) = .ok
        (self.attach (pool.filter fun i => self.verdictOf h i = .healthy),
          self.ejections h pool) := by
  rw [foldlM_ok fun acc i hi => noteVec_ok hs (hsc i hi) acc,
    foldl_note (fun acc i => acc ++ self.attach [i]), foldl_attach]
  rfl

theorem foldlM_attach (pool : List ℕ) (acc : Candidates × List (ℕ × ℕ)) :
    (self.attach pool).foldlM (fun acc e => self.noteVec h acc e.1 e.2) acc =
      pool.foldlM (fun acc i => match self.targets[i]? with
        | some target => self.noteVec h acc i target
        | none => .ok acc) acc := by
  induction pool generalizing acc with
  | nil => rfl
  | cons i pool ih =>
    rw [foldlM_cons, Selector.attach, filterMap_cons]
    cases ht : self.targets[i]? with
    | none => exact ih acc
    | some target =>
      rw [Option.map_some, foldlM_cons]
      exact congrArg _ (funext ih)

theorem zipIdx_attach : (self.targets.zipIdx.map fun (target, i) => (i, target)) =
    self.attach (List.range self.targets.length) := by
  have hs := fun i (hi : i ∈ List.range self.targets.length) => mem_range.1 hi
  refine ext_getElem ?_ fun i h₁ h₂ => ?_
  · rw [length_map, length_zipIdx, ← @length_map _ _ _ Prod.fst, attach_fst hs, length_range]
  · have hi : i < self.targets.length := by simpa using h₁
    have hf : (self.attach (List.range self.targets.length))[i].1 = i := by
      rw [← getElem_map Prod.fst (h := by simpa using h₂)]
      simp only [attach_fst hs, getElem_range]
    have hm := getElem_mem h₂
    obtain ⟨j, -, hj⟩ := mem_filterMap.1 hm
    obtain ⟨target, ht, heq⟩ := Option.map_eq_some_iff.1 hj
    rw [← heq] at hf ⊢
    obtain rfl : j = i := hf
    rw [getElem?_eq_getElem hi] at ht
    cases ht
    simp

theorem mapM_attach {ι : Type} (f : ι → ℕ) {l : List ι} (hl : ∀ e ∈ l, f e < self.targets.length) :
    (l.mapM fun e => do return (f e, ← index self.targets (f e)) : Except Panic Candidates) =
      .ok (self.attach (l.map f)) := by
  induction l with
  | nil => rfl
  | cons e l ih =>
    have he := hl e mem_cons_self
    rw [mapM_cons, index_lt he, ih fun e he => hl e (mem_cons_of_mem _ he),
      map_cons, attach_cons he]
    rfl

theorem readmitVec_ok (hs : self.Scoped pool) :
    self.readmitVec h pool.length
      (self.attach (pool.filter fun i => self.verdictOf h i = .healthy), self.ejections h pool) =
        .ok (self.attach (pool.filter (self.acceptable (some h) pool))) := by
  have hp := @acceptable_perm self h pool (hs.ascending.imp Nat.ne_of_lt)
  have hsr := hs.ascending.filter (self.acceptable (some h) pool)
  have hlt : ∀ i ∈ pool.filter (self.acceptable (some h) pool), i < self.targets.length :=
    fun i hi => hs.lt i (mem_filter.1 hi).1
  rw [readmitVec]
  simp only
  set r := passiveEjectionsToReadmit self.sort (self.ejections h pool) pool.length
    h.maxEjectionPercent with hr
  have hrd : self.readmitted h pool = (r.1.take r.2).map Prod.fst := rfl
  split_ifs with hpos
  · have hre : ∀ e ∈ r.1.take r.2, e.1 < self.targets.length := by
      intro e he
      have hm : e.1 ∈ self.readmitted h pool := hrd ▸ mem_map_of_mem he
      exact hs.lt _ (mem_of_mem_readmitted hm).1
    rw [mapM_attach Prod.fst hre, ← hrd]
    show Except.ok (sortByKey Prod.fst (_ ++ _)) = _
    rw [← attach_append]
    exact congrArg _ (sortByKey_eq_of_perm _ _ (attach_perm hp) (attach_sorted hlt hsr))
  · have hz : r.2 = 0 := Nat.eq_zero_of_not_pos hpos
    rw [hrd, hz, take_zero, map_nil, append_nil] at hp
    rw [eq_of_ascending (hs.ascending.filter _) hsr fun i => hp.mem_iff]

theorem healthyTargetsVecForIndices_ok (hs : self.Sized) (hsc : self.Scoped pool)
    (health : Option HealthContext) :
    self.healthyTargetsVecForIndices health pool =
      .ok (self.attach (self.healthyPool health pool)) := by
  cases health with
  | none =>
    have ha : pool.filter (self.acceptable none pool) = pool :=
      filter_eq_self.2 fun _ _ => rfl
    rw [healthyPool, ha, ← filterSrvPriorityVec_eq hsc.lt]
    rfl
  | some h =>
    rw [healthyTargetsVecForIndices, sweepVec_ok hs hsc.lt]
    show (self.readmitVec h pool.length _ >>= fun healthy => _) = _
    rw [readmitVec_ok hsc, healthyPool, ← filterSrvPriorityVec_eq fun i hi =>
      hsc.lt i (mem_filter.1 hi).1]
    rfl

theorem healthyTargetsVec_ok (hs : self.Sized) (health : Option HealthContext) :
    self.healthyTargetsVec health =
      .ok (self.attach (self.healthyPool health (List.range self.targets.length))) := by
  rw [← healthyTargetsVecForIndices_ok hs (.range _) health]
  cases health with
  | none =>
    rw [healthyTargetsVec, zipIdx_attach]
    rfl
  | some h =>
    rw [healthyTargetsVec, healthyTargetsVecForIndices, zipIdx_attach, foldlM_attach, length_range]

/-! ## The cap -/

/-- The gate that an ejection passes: a percentage, rounded down. -/
theorem le_maxEjected {n k : ℕ} {maxPct : UInt8} (hn : 0 < n) (hf : 101 * n < 2 ^ 64)
    (hk : k ≤ n) : k ≤ maxEjected n maxPct ↔ 100 * k / n ≤ maxPct.toNat := by
  rw [maxEjected, le_min_iff, and_iff_left hk, Nat.le_div_iff_mul_le (by decide),
    ← Nat.lt_add_one_iff (m := 100 * k / n), Nat.div_lt_iff_lt_mul hn]
  generalize maxPct.toNat = p
  have hpos : 0 < n * (p + 1) := Nat.mul_pos hn p.succ_pos
  rw [mul_comm (p + 1)]
  omega

theorem isGreatest_maxEjected {n : ℕ} {maxPct : UInt8} (hn : 0 < n) (hf : 101 * n < 2 ^ 64) :
    IsGreatest {k | k ≤ n ∧ 100 * k / n ≤ maxPct.toNat} (maxEjected n maxPct) := by
  have hle : maxEjected n maxPct ≤ n := min_le_right _ _
  exact ⟨⟨hle, (le_maxEjected hn hf hle).1 le_rfl⟩, fun k hk => (le_maxEjected hn hf hk.1).2 hk.2⟩

theorem length_readmitted_add (hp : pool.Nodup) :
    (self.readmitted h pool).length + (pool.filter (self.retained h pool)).length =
      (self.ejections h pool).length := by
  have hpr : (self.readmitted h pool ++ pool.filter (self.retained h pool)).Perm
      (pool.filter fun i => (self.ejectedAt h i).isSome) := by
    rw [perm_ext_iff_of_nodup (nodup_append.2
      ⟨readmitted_nodup hp, hp.filter _, ?_⟩) (hp.filter _)]
    · intro i
      simp only [mem_append, mem_filter, retained, Bool.and_eq_true,
        Bool.not_eq_true', contains_eq_mem, decide_eq_false_iff_not]
      constructor
      · rintro (hi | ⟨hi, hs, -⟩)
        · exact mem_of_mem_readmitted hi
        · exact ⟨hi, hs⟩
      · rintro ⟨hi, hs⟩
        by_cases hm : i ∈ self.readmitted h pool
        · exact .inl hm
        · exact .inr ⟨hi, hs, hm⟩
    · rintro i hi j hj rfl
      simp only [mem_filter, retained, Bool.and_eq_true, Bool.not_eq_true',
        contains_eq_mem, decide_eq_false_iff_not] at hj
      exact hj.2.2 hi
  rw [← length_append, hpr.length_eq, ← ejections_fst, length_map]

/-- How many ejections are readmitted, and that they come first. -/
theorem readmitted_cases :
    (self.readmitted h pool = [] ∧ ∀ maxPct, h.maxEjectionPercent = some maxPct → pool ≠ [] →
      (self.ejections h pool).length ≤ maxEjected pool.length maxPct) ∨
    ∃ maxPct, h.maxEjectionPercent = some maxPct ∧
      maxEjected pool.length maxPct < (self.ejections h pool).length ∧
      self.readmitted h pool = ((self.sort.sort (self.ejections h pool)).take
        ((self.ejections h pool).length - maxEjected pool.length maxPct)).map Prod.fst := by
  rw [readmitted]
  cases hpt : h.maxEjectionPercent with
  | none => exact .inl ⟨rfl, nofun⟩
  | some maxPct =>
    unfold passiveEjectionsToReadmit
    dsimp only
    split_ifs with he hle
    · refine .inl ⟨rfl, fun p hp hne => ?_⟩
      rcases he with he | he
      · rw [he]
        exact Nat.zero_le _
      · exact absurd (length_eq_zero_iff.1 he) hne
    · exact .inl ⟨rfl, fun p hp _ => Option.some.inj hp ▸ hle⟩
    · exact .inr ⟨maxPct, rfl, not_le.1 hle, rfl⟩

/-- The readmitted ejections are the earliest. -/
theorem readmitted_earlier (hd : ((self.ejections h pool).map Prod.snd).Nodup) {j : ℕ}
    (hi : i ∈ self.readmitted h pool) (hj : j ∈ pool) (hr : self.retained h pool j = true) :
    ∃ a b, self.ejectedAt h i = some a ∧ self.ejectedAt h j = some b ∧ a < b := by
  rcases @readmitted_cases self h pool with
    ⟨hn, -⟩ | ⟨maxPct, -, -, heq⟩
  · rw [hn] at hi
    cases hi
  · rw [retained, Bool.and_eq_true, Bool.not_eq_true', contains_eq_mem,
      decide_eq_false_iff_not] at hr
    obtain ⟨b, hb⟩ := Option.isSome_iff_exists.1 hr.1
    set l := self.sort.sort (self.ejections h pool)
    set k := (self.ejections h pool).length - maxEjected pool.length maxPct
    have hp : l.Perm (self.ejections h pool) := self.sort.perm _
    rw [heq] at hi
    obtain ⟨e, he, rfl⟩ := mem_map.1 hi
    have hej := mem_ejections.1 (hp.subset (take_subset _ _ he))
    have hdr : (j, b) ∈ l.drop k := by
      have hm : (j, b) ∈ l := hp.symm.subset (mem_ejections.2 ⟨hj, hb⟩)
      rw [← take_append_drop k l, mem_append] at hm
      refine hm.resolve_left fun ht => hr.2 ?_
      rw [heq]
      exact mem_map.2 ⟨_, ht, rfl⟩
    refine ⟨e.2, b, hej.2, hb, lt_of_le_of_ne ?_ fun hsm => ?_⟩
    · have hs : l.Pairwise fun a b => a.2 ≤ b.2 := self.sort.sorted _
      rw [← take_append_drop k l, pairwise_append] at hs
      exact hs.2.2 e he _ hdr
    · have heq' : e = (j, b) := inj_on_of_nodup_map hd
        (mem_ejections.2 hej) (mem_ejections.2 ⟨hj, hb⟩) hsm
      refine hr.2 ?_
      rw [heq]
      exact mem_map.2 ⟨e, he, by rw [heq']⟩

theorem length_retained (hpl : pool.Nodup) (hne : pool ≠ []) {maxPct : UInt8}
    (hpt : h.maxEjectionPercent = some maxPct) :
    (pool.filter (self.retained h pool)).length =
      min (self.ejections h pool).length (maxEjected pool.length maxPct) := by
  have ha := @length_readmitted_add self h pool hpl
  rcases @readmitted_cases self h pool with
    ⟨hn, hle⟩ | ⟨p, hp, hlt, heq⟩
  · rw [hn, length_nil, Nat.zero_add] at ha
    rw [ha, min_eq_left (hle maxPct hpt hne)]
  · rw [hpt] at hp
    cases hp
    have hln : (self.readmitted h pool).length =
        (self.ejections h pool).length - maxEjected pool.length maxPct := by
      rw [heq, length_map, length_take, (self.sort.perm _).length_eq, min_eq_left (Nat.sub_le _ _)]
    omega

end

/-- **The cap on ejections**, and the pools of the five builders.  Ejections are those of members that
    are not actively unhealthy. -/
theorem ejection_cap {self : Selector} {upstreamId : Bytes} {targets : List UpstreamTarget}
    {c : BalancerConfig}
    (hself : self.toLoadBalancer = .withSubsetsAndPortOverrides upstreamId targets c)
    (h : HealthContext) {pool : List ℕ} (hscope : Scope targets.length pool) (hne : pool ≠ [])
    (hfit : 101 * pool.length < 2 ^ 64)
    (hdistinct : ((self.ejections h pool).map Prod.snd).Nodup) :
    (h.maxEjectionPercent = none →
      (pool.filter (self.retained h pool)).length = (self.ejections h pool).length) ∧
    (∀ maxPct, h.maxEjectionPercent = some maxPct →
      ∃ k, IsGreatest {k | k ≤ pool.length ∧ 100 * k / pool.length ≤ maxPct.toNat} k ∧
        (pool.filter (self.retained h pool)).length = min (self.ejections h pool).length k) ∧
    (∀ i ∈ self.readmitted h pool, ∀ j ∈ pool, self.retained h pool j = true →
      ∃ a b, self.ejectedAt h i = some a ∧ self.ejectedAt h j = some b ∧ a < b) ∧
    ∃ healthy, healthy = self.srvTier (pool.filter fun i =>
        !self.activelyUnhealthy h i && !self.retained h pool i) ∧
      (self.healthyTargetsVecForIndices (some h) pool).map (List.map Prod.fst) = .ok healthy ∧
      (pool = List.range targets.length →
        (self.healthyTargetsVec (some h)).map (List.map Prod.fst) = .ok healthy) ∧
      (targets.length ≤ maxBitsetTargets →
        (∃ b, self.computeHealthBitsetForIndices (some h) pool = .ok b ∧ Holds b healthy) ∧
        (∀ mask, Holds mask pool →
          ∃ b, self.computeHealthBitsetForMask (some h) mask = .ok b ∧ Holds b healthy) ∧
        (pool = List.range targets.length →
          ∃ b, self.computeHealthBitset (some h) = .ok b ∧ Holds b healthy)) := by
  have hb := built_of hself
  have ht : self.targets = targets := congrArg LoadBalancer.targets hself
  have hs := hb.sized
  have hpl : pool.Nodup := hscope.ascending.imp Nat.ne_of_lt
  have hpos := length_pos_of_ne_nil hne
  rw [← ht] at hscope ⊢
  have hlt : ∀ i ∈ self.healthyPool (some h) pool, i < self.targets.length := by
    intro i hi
    rw [healthyPool, srvTier] at hi
    split_ifs at hi
    · exact hscope.lt i (mem_filter.1 hi).1
    · exact hscope.lt i (mem_filter.1 (mem_filter.1 hi).1).1
  refine ⟨fun hnn => ?_, fun maxPct hpt => ?_, fun i hi j hj => readmitted_earlier hdistinct hi hj,
    self.healthyPool (some h) pool, rfl, ?_, ?_, fun hn => ⟨?_, fun mask hm => ?_, ?_⟩⟩
  · have ha := @length_readmitted_add self h pool hpl
    rcases @readmitted_cases self h pool with ⟨hnl, -⟩ | ⟨p, hp, -⟩
    · rw [hnl, length_nil, Nat.zero_add] at ha
      exact ha
    · rw [hnn] at hp
      cases hp
  · exact ⟨_, isGreatest_maxEjected hpos hfit, length_retained hpl hne hpt⟩
  · rw [healthyTargetsVecForIndices_ok hs hscope, Except.map, attach_fst hlt]
  · rintro rfl
    rw [healthyTargetsVec_ok hs, Except.map, attach_fst hlt]
  · exact computeHealthBitsetForIndices_ok hs hn hscope _
  · exact computeHealthBitsetForMask_ok hs hn hscope hm _
  · rintro rfl
    exact computeHealthBitset_ok hs hn _

def threeTargets : List UpstreamTarget :=
  [{ host := lit "a", port := 80 }, { host := lit "b", port := 80 }, { host := lit "c", port := 80 }]

def threeSelector : Selector :=
  (LoadBalancer.withSubsetsAndPortOverrides (lit "u") threeTargets {}).idle

/-- The first target is ejected after the second, and a third of them may be. -/
def twoEjected : HealthContext where
  activeUnhealthy := HMap.empty
  proxyPassive := some ((HMap.empty.insert (lit "a:80") 5).insert (lit "b:80") 3)
  maxEjectionPercent := some 33

theorem ejection_cap_three : threeSelector.readmitted twoEjected [0, 1, 2] = [1] ∧
    ([0, 1, 2].filter (threeSelector.retained twoEjected [0, 1, 2])).length = min 2 1 := by
  have hcap := @ejection_cap threeSelector (lit "u") threeTargets {} rfl twoEjected [0, 1, 2]
    ⟨by decide, by decide⟩ (by decide) (by decide) (by decide +kernel)
  obtain ⟨k, hk, hln⟩ := hcap.2.1 33 rfl
  have ho : k = 1 := hk.unique (isGreatest_maxEjected (n := 3) (by decide) (by decide))
  refine ⟨by decide +kernel, hln.trans ?_⟩
  rw [ho]
  decide +kernel

end Ferrum.Balancer
