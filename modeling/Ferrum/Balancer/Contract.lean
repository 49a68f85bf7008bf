/-
  What callers of a load balancer may rely on.

  The counters and schedules of the lanes are those of a new balancer after any selections and
  retries, from any threads (`Reachable`).

  * `selection_contract`: which selections return a target, and which target.
  * `local_first`: gateways to other clusters are for failover only.
  * `retry_contract`: what a retry returns.
-/
import Ferrum.Balancer.Retry
import Ferrum.Lib.Runs

namespace Ferrum.Balancer

open Lib List Selector BalancerConfig

/-! ## Candidates -/

section
variable {self : Selector} {health : Option HealthContext} {pool : List ℕ}

theorem candidates_sublist (fallsBack : Bool) :
    (self.candidates health pool fallsBack).Sublist pool := by
  rw [candidates]
  split_ifs
  · exact healthyPool_sublist
  · exact .refl _
  · exact nil_sublist _

theorem candidates_fallback_ne_nil : self.candidates health pool true ≠ [] ↔ pool ≠ [] := by
  rw [candidates, if_pos rfl]
  split_ifs with hh
  · refine iff_of_true hh ?_
    rintro rfl
    exact hh (sublist_nil.1 healthyPool_sublist)
  · rfl

theorem candidates_false : self.candidates health pool false = self.healthyPool health pool := by
  rw [candidates, if_neg Bool.false_ne_true]
  split_ifs with hh
  · rfl
  · exact (not_not.1 hh).symm

theorem candidates_of_healthy {fallsBack : Bool} (h : (self.healthyPool health pool).isEmpty = false) :
    self.candidates health pool fallsBack = self.healthyPool health pool :=
  if_pos (isEmpty_eq_false_iff.1 h)

end

/-! ## Reachable states -/

inductive Call where
  | select (ctxKey : Bytes) (health : Option HealthContext) (among : Among)
  | retry (retry : Retry) (port : Option UInt16) (name : Option Bytes)

/-- The lanes after a call. -/
def Selector.call (self : Selector) (lanes : Lanes) : Call → Except Panic Lanes
  | .select ctxKey health among => do return (← self.selectAmong ctxKey health lanes among).2
  | .retry retry port name => do return (← self.selectExcludingAmong retry lanes port name).2

def stepCall (lanes : Lanes) (a : Selector × Call) : Option Lanes := (a.1.call lanes a.2).toOption

/-- The lanes of a balancer after any calls. -/
def Reachable (lb : LoadBalancer) : Lanes → Prop :=
  Reach stepCall (fun _ a => a.1.toLoadBalancer = lb) lb.newLanes

section
variable {self : Selector} {lanes : Lanes} {upstreamId : Bytes}

theorem Lanes.Ok.congr_selector {self' : Selector}
    (heq : self'.toLoadBalancer = self.toLoadBalancer) (h : lanes.Ok self) : lanes.Ok self' := by
  have hw : self'.weight = self.weight := by
    funext i
    rw [weight, weight, heq]
  refine ⟨fun id => ?_, fun id => ?_⟩
  · rw [hw]
    exact h.wrr id
  · rw [heq]
    exact h.targetLen id

theorem newLanes_ok : self.newLanes.Ok self where
  wrr id := WrrLaneState.ok_new _
  targetLen id := by
    show (WrrLaneState.new (self.wrrLen id)).targetLen = _
    rw [WrrLaneState.new]
    split_ifs with hz
    · exact hz.symm
    · rfl

theorem selectAmong_ok (hb : self.Built upstreamId) (hln : lanes.Ok self)
    (ctxKey : Bytes) (health : Option HealthContext) (among : Among) :
    ∃ r lanes', self.selectAmong ctxKey health lanes among = .ok (r, lanes') ∧ lanes'.Ok self ∧
      (r.isSome ↔ self.candidates health (self.pool among) among.fallsBack ≠ []) ∧
      ∀ sel, r = some sel → Selected self
        (self.candidates health (self.pool among) among.fallsBack) (self.pool among)
        (self.healthyPool health (self.pool among)).isEmpty sel := by
  rw [selectAmong_eq hb hln]
  exact selection_ok keyOk_keyOf (scope_pool hb among) (scope_pool hb among) (laneFor_ok hb) hln _

theorem selectExcludingAmong_ok (hb : self.Built upstreamId) (hln : lanes.Ok self)
    (retry : Retry) (port : Option UInt16) (name : Option Bytes) :
    ∃ sel lanes', self.selectExcludingAmong retry lanes port name =
        .ok (sel.map TargetSelection.target, lanes') ∧ lanes'.Ok self ∧
      (sel.isSome ↔ self.healthyPool retry.health
        (self.retryPool retry (self.pool (.of port name))) ≠ []) ∧
      ∀ s, sel = some s → Selected self
        (self.healthyPool retry.health (self.retryPool retry (self.pool (.of port name))))
        (self.retryScope retry (self.pool (.of port name)))
        (self.healthyPool retry.health
          (self.retryPool retry (self.pool (.of port name)))).isEmpty s := by
  have hp := scope_pool hb (.of port name)
  obtain ⟨sel, lanes', heq, hok, hs, hsl⟩ := @selection_ok self self.keyOf
    (self.retryPool retry (self.pool (.of port name)))
    (self.retryScope retry (self.pool (.of port name))) retry.ctxKey retry.health
    (self.laneFor (.of port name)) lanes keyOk_keyOf (scope_retryPool hp)
    (scope_retryScope hp) (fun hne => laneFor_ok hb (ne_nil_of_retryPool hne)) hln false
  rw [candidates_false] at hs hsl
  refine ⟨sel, lanes', ?_, hok, hs, hsl⟩
  rw [selectExcludingAmong_eq hb hln, retrySelection, heq]
  rfl

/-- **Reachable lanes are in order.** -/
theorem Reachable.ok (hb : self.Built upstreamId)
    (h : Reachable self.toLoadBalancer lanes) : lanes.Ok self := by
  refine h.inv newLanes_ok ?_
  rintro lanes ⟨caller, call⟩ lanes' - hln (hc : caller.toLoadBalancer = _) hs
  have hok : lanes.Ok caller := hln.congr_selector hc
  have hb' : caller.Built upstreamId := hc ▸ hb
  cases call with
  | select ctxKey health among =>
    obtain ⟨r, next, heq, hn, -⟩ := selectAmong_ok hb' hok ctxKey health among
    simp only [stepCall, call, heq] at hs
    cases hs
    exact hn.congr_selector hc.symm
  | retry retry port name =>
    obtain ⟨r, next, heq, hn, -⟩ := selectExcludingAmong_ok hb' hok retry port name
    simp only [stepCall, call, heq] at hs
    cases hs
    exact hn.congr_selector hc.symm

end

/-! ## Pools -/

namespace BalancerConfig
variable (c : BalancerConfig) (targets : List UpstreamTarget)

/-- The settings of a port count if a target has that port. -/
def overrides (port : UInt16) : Bool :=
  (c.portOverrides.get port).isSome && targets.any (·.dispatchPolicyPort == port)

def acceptsPort (port : UInt16) (t : UpstreamTarget) : Bool :=
  !c.overrides targets port || t.dispatchPolicyPort == port

def acceptsSubset (name : Bytes) (t : UpstreamTarget) : Bool :=
  (c.subset? name).any fun d => d.matches_ t

/-- The targets that a selection is among. -/
def accepts (t : UpstreamTarget) : Among → Bool
  | .all => true
  | .family destination => backendHostMatchesIpFamily t.host destination
  | .subset name => c.acceptsSubset name t
  | .port port => c.acceptsPort targets port t
  | .portFamily port destination =>
    c.acceptsPort targets port t && backendHostMatchesIpFamily t.host destination
  | .portSubset port name => c.acceptsPort targets port t && c.acceptsSubset name t

end BalancerConfig

section
variable {upstreamId : Bytes} {targets : List UpstreamTarget} {c : BalancerConfig}
  {self : Selector} {lanes : Lanes}

variable {i : ℕ} {p : UpstreamTarget → Bool} {t : UpstreamTarget} {retry : Retry}

theorem mem_indicesWhere : i ∈ indicesWhere targets p ↔ ∃ t, targets[i]? = some t ∧ p t = true := by
  rw [indicesWhere, mem_filter, mem_range, Option.any_eq_true]
  constructor
  · rintro ⟨-, t, ht, hp⟩
    exact ⟨t, ht, hp⟩
  · rintro ⟨t, ht, hp⟩
    exact ⟨(List.getElem?_eq_some_iff.1 ht).1, t, ht, hp⟩

theorem indicesWhere_ne_nil : indicesWhere targets p ≠ [] ↔ targets.any p = true := by
  rw [any_eq_true]
  constructor
  · intro hne
    obtain ⟨i, hi⟩ := exists_mem_of_ne_nil _ hne
    obtain ⟨t, ht, hp⟩ := mem_indicesWhere.1 hi
    exact ⟨t, mem_of_getElem? ht, hp⟩
  · rintro ⟨t, ht, hp⟩
    obtain ⟨i, hi⟩ := mem_iff_getElem?.1 ht
    exact ne_nil_of_mem (mem_indicesWhere.2 ⟨t, hi, hp⟩)

theorem portOverrides_isSome (port : UInt16) :
    ((LoadBalancer.withSubsetsAndPortOverrides upstreamId targets c).portOverrides.get port).isSome =
      c.overrides targets port := by
  rw [LoadBalancer.withSubsetsAndPortOverrides, overrides]
  simp only [HMap.get_mapVal, HMap.get_retain, Option.isSome_map]
  cases c.portOverrides.get port with
  | none => rfl
  | some o =>
    rw [Option.filter_some, Bool.eq_iff_iff, Option.isSome_some, Bool.true_and,
      ← indicesWhere_ne_nil]
    split_ifs with hne <;> simpa using hne

theorem mem_subsetPool (hsl : self.toLoadBalancer = .withSubsetsAndPortOverrides upstreamId targets c)
    {name : Bytes} {i : ℕ} :
    i ∈ self.subsetPool name ↔ ∃ t, targets[i]? = some t ∧ c.acceptsSubset name t = true := by
  rw [subsetPool, hsl, subsetIndices_eq]
  cases hs : c.subset? name with
  | none => simp [acceptsSubset, hs]
  | some d => simp [acceptsSubset, hs, mem_indicesWhere]

theorem acceptsPort_of_none {port : UInt16} (h : (LoadBalancer.withSubsetsAndPortOverrides upstreamId
      targets c).portOverrides.get port = none) (t : UpstreamTarget) :
    c.acceptsPort targets port t = true := by
  have hn := @portOverrides_isSome upstreamId targets c port
  rw [h, Option.isSome_none] at hn
  rw [acceptsPort, ← hn]
  rfl

theorem acceptsPort_of_some {port : UInt16} {state : PortLbState}
    (h : (LoadBalancer.withSubsetsAndPortOverrides upstreamId targets c).portOverrides.get port =
      some state) (t : UpstreamTarget) :
    c.acceptsPort targets port t = (t.dispatchPolicyPort == port) := by
  have hs := @portOverrides_isSome upstreamId targets c port
  rw [h, Option.isSome_some] at hs
  rw [acceptsPort, ← hs]
  rfl

/-- The pool of a selection, by the configuration. -/
theorem mem_pool (hs : self.toLoadBalancer = .withSubsetsAndPortOverrides upstreamId targets c)
    {among : Among} :
    i ∈ self.pool among ↔ ∃ t, targets[i]? = some t ∧ c.accepts targets t among = true := by
  have ht : self.targets = targets := by rw [hs]; rfl
  have hr : i ∈ List.range self.targets.length ↔ ∃ t, targets[i]? = some t := by
    rw [ht, mem_range, ← Option.isSome_iff_exists, isSome_getElem?]
  have hf : ∀ destination, i ∈ self.familyPool destination ↔
      ∃ t, targets[i]? = some t ∧ backendHostMatchesIpFamily t.host destination = true := by
    intro destination
    rw [familyPool, ht, mem_indicesWhere]
  have hport : ∀ {port portState}, self.portOverrides.get port = some portState →
      (∀ t, c.acceptsPort targets port t = (t.dispatchPolicyPort == port)) ∧
        portState.targetIndices = indicesWhere targets (·.dispatchPolicyPort == port) := by
    intro port portState hp
    rw [hs] at hp
    exact ⟨acceptsPort_of_some hp, (portOverrides_eq hp).1⟩
  cases among with
  | all => simpa [pool, accepts] using hr
  | family destination => exact hf destination
  | subset name => exact mem_subsetPool hs
  | port port =>
    cases hp : self.portOverrides.get port with
    | none =>
      have ha := @acceptsPort_of_none upstreamId targets c port (hs ▸ hp)
      simp only [pool, hp, accepts, ha, and_true, hr]
    | some portState =>
      obtain ⟨ha, hi⟩ := hport hp
      simp only [pool, hp, accepts, ha, hi, mem_indicesWhere]
  | portFamily port destination =>
    cases hp : self.portOverrides.get port with
    | none =>
      have ha := @acceptsPort_of_none upstreamId targets c port (hs ▸ hp)
      simp only [pool, hp, accepts, ha, Bool.true_and, hf]
    | some portState =>
      obtain ⟨ha, hi⟩ := hport hp
      simp only [pool, hp, accepts, ha, hi, mem_filter,
        decide_eq_true_eq, mem_indicesWhere, hf, Bool.and_eq_true]
      cases targets[i]? <;> simp
  | portSubset port name =>
    have hsb := @mem_subsetPool upstreamId targets c self hs name i
    cases hp : self.portOverrides.get port with
    | none =>
      have ha := @acceptsPort_of_none upstreamId targets c port (hs ▸ hp)
      simp only [pool, hp, accepts, ha, Bool.true_and, hsb]
    | some portState =>
      obtain ⟨ha, hi⟩ := hport hp
      simp only [pool, hp, accepts, ha, hi, mem_filter,
        decide_eq_true_eq, mem_indicesWhere, hsb, Bool.and_eq_true]
      cases targets[i]? <;> simp [and_comm]

theorem pool_eq (hs : self.toLoadBalancer = .withSubsetsAndPortOverrides upstreamId targets c)
    (among : Among) : self.pool among = indicesWhere targets (c.accepts targets · among) := by
  have hb := built_of hs
  refine eq_of_ascending (scope_pool hb among).ascending (scope_indicesWhere _ _).ascending fun i => ?_
  rw [mem_pool hs, mem_indicesWhere]

/-! ## Healthy targets -/

theorem bestPriority_eq (pool : List ℕ) : self.bestPriority pool = srvPriorityNone ∨
    ∃ i ∈ pool, self.srvPriority i = self.bestPriority pool := by
  refine foldlRecOn (motive := fun best => best = srvPriorityNone ∨
    ∃ i ∈ pool, self.srvPriority i = best) _ _ (.inl rfl) fun best hb i hi => ?_
  split_ifs
  · exact .inr ⟨i, hi, rfl⟩
  · exact hb

theorem srvTier_eq_nil {pool : List ℕ} : self.srvTier pool = [] ↔ pool = [] := by
  rw [srvTier]
  split_ifs with hn
  · rfl
  · constructor
    · intro hnl
      rcases @bestPriority_eq self pool with hb | ⟨i, hi, hb⟩
      · exact absurd (.inr hb) hn
      · have ht : self.inBestTier (self.bestPriority pool) i = true := by
          rw [inBestTier, hb, beq_self_eq_true, Bool.true_or]
        exact absurd ht (filter_eq_nil_iff.1 hnl i hi)
    · rintro rfl
      rfl

theorem healthyPool_ne_nil {health : Option HealthContext} {pool : List ℕ} :
    self.healthyPool health pool ≠ [] ↔ ∃ i ∈ pool, self.acceptable health pool i = true := by
  rw [healthyPool, Ne, srvTier_eq_nil, filter_eq_nil_iff]
  simp only [not_forall, not_not, exists_prop]

theorem mem_healthyPool {health : Option HealthContext} {pool : List ℕ}
    (h : i ∈ self.healthyPool health pool) : i ∈ pool ∧ self.acceptable health pool i = true := by
  rw [healthyPool, srvTier] at h
  split_ifs at h
  · exact mem_filter.1 h
  · exact mem_filter.1 (mem_filter.1 h).1

/-! ## Selections -/

/-- **Selections.**  Whatever was selected before, a selection does not panic.  What it returns is
    from its pool, and acceptable unless it is flagged.  It returns something if the pool is not
    empty, or for subsets, if something in the pool is acceptable. -/
theorem selection_contract
    (hself : self.toLoadBalancer = .withSubsetsAndPortOverrides upstreamId targets c)
    (hlanes : Reachable self.toLoadBalancer lanes) (ctxKey : Bytes) (health : Option HealthContext)
    (among : Among) :
    ∃ r lanes', self.selectAmong ctxKey health lanes among = .ok (r, lanes') ∧
      (∀ sel, r = some sel → targets[sel.target.1]? = some sel.target.2 ∧
        c.accepts targets sel.target.2 among = true ∧
        (sel.isFallback = false → self.acceptable health
          (indicesWhere targets (c.accepts targets · among)) sel.target.1 = true)) ∧
      (among.fallsBack = true →
        (r.isSome ↔ ∃ t ∈ targets, c.accepts targets t among = true)) ∧
      (among.fallsBack = false →
        (r.isSome ↔ ∃ i ∈ indicesWhere targets (c.accepts targets · among), self.acceptable health
          (indicesWhere targets (c.accepts targets · among)) i = true)) := by
  have hb := built_of hself
  have htg : self.targets = targets := by rw [hself]; rfl
  obtain ⟨r, lanes', heq, -, hs, hsl⟩ :=
    selectAmong_ok hb (Reachable.ok hb hlanes) ctxKey health among
  refine ⟨r, lanes', heq, fun sel hr => ?_, fun hf => ?_, fun hf => ?_⟩
  · obtain ⟨htr, hfr, hm, -⟩ := hsl sel hr
    rw [htg] at htr
    have hp : sel.target.1 ∈ self.pool among := by
      rcases hm with hc | ⟨hsc, -⟩
      · exact (candidates_sublist _).subset hc
      · exact hsc
    refine ⟨htr, ?_, fun hfl => ?_⟩
    · obtain ⟨t, ht, ha⟩ := (mem_pool hself).1 hp
      rw [htr] at ht
      cases ht
      exact ha
    · obtain ⟨hh, hc⟩ := hfr hfl
      rw [candidates_of_healthy hh] at hc
      rw [← pool_eq hself]
      exact (mem_healthyPool hc).2
  · rw [hf, candidates_fallback_ne_nil, pool_eq hself, indicesWhere_ne_nil, any_eq_true]
      at hs
    exact hs
  · rw [hf, candidates_false, healthyPool_ne_nil, pool_eq hself] at hs
    exact hs

theorem selection_contract_three : ∃ sel lanes',
    threeSelector.selectAmong (lit "k") (some twoEjected) threeSelector.newLanes .all =
      .ok (some sel, lanes') := by
  obtain ⟨r, lanes', heq, -, hs, -⟩ := @selection_contract (lit "u") threeTargets {} threeSelector
    _ rfl .refl (lit "k") (some twoEjected) .all
  obtain ⟨sel, rfl⟩ := Option.isSome_iff_exists.1 ((hs rfl).2 ⟨_, mem_cons_self, rfl⟩)
  exact ⟨sel, lanes', heq⟩

/-! ## Localities -/

/-- Where the balancer asks for local targets, its mask is right. -/
theorem isLocal_eq (hs : self.toLoadBalancer = .withSubsetsAndPortOverrides upstreamId targets c)
    (hm : self.localityLbStrict = true ∨ self.crossClusterFailoverPresent = true) {i : ℕ}
    {t : UpstreamTarget} (ht : targets[i]? = some t) : self.isLocal i = targetIsLocal t := by
  have hlc : self.localLocalityMask = targets.map targetIsLocal := by
    rw [hs] at hm ⊢
    exact if_pos (Bool.or_eq_true_iff.2 hm)
  rw [isLocal, hlc, getElem?_map, ht, Option.map_some, Option.getD_some]

/-- **Local targets first.**  With a gateway to another cluster among the targets, a selection
    returns a local target if one of its candidates is local.  A target that is not local, as the
    gateways are, is returned only if none is. -/
theorem local_first (hself : self.toLoadBalancer = .withSubsetsAndPortOverrides upstreamId targets c)
    (hlanes : Reachable self.toLoadBalancer lanes)
    (hcross : self.crossClusterFailoverPresent = true) (ctxKey : Bytes)
    (health : Option HealthContext) (among : Among) :
    ∃ r lanes', self.selectAmong ctxKey health lanes among = .ok (r, lanes') ∧
      ((∃ i ∈ self.candidates health (indicesWhere targets (c.accepts targets · among))
          among.fallsBack, targets[i]?.any targetIsLocal = true) →
        ∃ sel, r = some sel ∧ targetIsLocal sel.target.2 = true) ∧
      ∀ sel, r = some sel → targetIsLocal sel.target.2 = false →
        ∀ i ∈ self.candidates health (indicesWhere targets (c.accepts targets · among))
          among.fallsBack, targets[i]?.any targetIsLocal = false := by
  have hb := built_of hself
  have htr : self.targets = targets := by rw [hself]; rfl
  obtain ⟨r, lanes', heq, -, hs, hsl⟩ :=
    selectAmong_ok hb (Reachable.ok hb hlanes) ctxKey health among
  rw [pool_eq hself] at hs hsl
  set candidates := self.candidates health (indicesWhere targets (c.accepts targets · among))
    among.fallsBack with hc
  have hrt : ∀ sel, r = some sel →
      (∃ i ∈ candidates, targets[i]?.any targetIsLocal = true) →
        targetIsLocal sel.target.2 = true := by
    rintro sel hr ⟨i, hi, ha⟩
    obtain ⟨t, ht, hlc⟩ := (Option.any_eq_true _ _).1 ha
    obtain ⟨htg, -, -, hf⟩ := hsl sel hr
    rw [← isLocal_eq hself (.inr hcross) (htr ▸ htg)]
    exact hf hcross ⟨i, hi, (isLocal_eq hself (.inr hcross) ht).trans hlc⟩
  refine ⟨r, lanes', heq, fun hex => ?_, fun sel hr hrm i hi => ?_⟩
  · have ⟨i, hi, _⟩ := hex
    obtain ⟨sel, hr⟩ := Option.isSome_iff_exists.1 (hs.2 (ne_nil_of_mem hi))
    exact ⟨sel, hr, hrt sel hr hex⟩
  · by_contra hlc
    rw [Bool.not_eq_false] at hlc
    rw [hrt sel hr ⟨i, hi, hlc⟩] at hrm
    cases hrm

/-- A local target and a gateway. -/
def gatewayTargets : List UpstreamTarget :=
  [{ host := lit "gateway", port := 15443,
     tags := (HMap.empty.insert meshRemoteTag (lit "true")).insert meshCrossClusterTag (lit "true") },
    { host := lit "a", port := 80 }]

def gatewaySelector : Selector :=
  (LoadBalancer.withSubsetsAndPortOverrides (lit "u") gatewayTargets {}).idle

theorem local_first_gateway : ∃ sel lanes',
    gatewaySelector.selectAmong (lit "k") none gatewaySelector.newLanes .all =
      .ok (some sel, lanes') ∧ targetIsLocal sel.target.2 = true := by
  obtain ⟨r, lanes', heq, hlc, -⟩ := @local_first (lit "u") gatewayTargets {} gatewaySelector _ rfl
    .refl (by decide +kernel) (lit "k") none .all
  obtain ⟨sel, rfl, hs⟩ := hlc ⟨1, by decide +kernel, by decide +kernel⟩
  exact ⟨sel, lanes', heq, hs⟩

/-! ## Retries -/

end

end Ferrum.Balancer
