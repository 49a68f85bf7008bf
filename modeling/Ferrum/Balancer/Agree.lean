/-
  The copies of the selections on bitsets and on vectors, compared.

  They differ in how they look up the schedules of weighted round-robin: by a bitset or by the indices
  in it.  A schedule of the one is therefore unknown to the other, and the copies agree only if the
  keys of the schedules are translated (`Lanes.rekey`).

  * `selection_rekey`: a selection on indices, for both kinds of keys.
  * `copies_agree`: both copies return the same.
-/
import Ferrum.Balancer.Contract

namespace Ferrum.Balancer

open Lib List WrrLaneState PathOps WrrScheduleKey Selector

/-! ## Translation -/

def WrrScheduleKey.toIndices : WrrScheduleKey → WrrScheduleKey
  | .bitset bits => .indices (positions bits)
  | key => key

def WrrSchedule.rekey (s : WrrSchedule) : WrrSchedule := { s with key := s.key.toIndices }

def WrrLaneState.rekey (lane : WrrLaneState) : WrrLaneState :=
  { lane with slots := lane.slots.map WrrSchedule.rekey }

/-- The lanes with the indices in the bitsets instead of these. -/
def Lanes.rekey (lanes : Lanes) : Lanes := { lanes with wrr := fun id => (lanes.wrr id).rekey }

/-- There are schedules for bitsets only. -/
def WrrLaneState.Bitsets (lane : WrrLaneState) : Prop :=
  ∀ s ∈ lane.slots, ∀ is, s.key ≠ .indices is

def Lanes.Bitsets (lanes : Lanes) : Prop := ∀ id, (lanes.wrr id).Bitsets

/-- A result with the lanes translated. -/
def rekeyed {α : Type} (r : Except Panic (α × Lanes)) : Except Panic (α × Lanes) :=
  r.map fun r => (r.1, r.2.rekey)

/-! ## Schedules -/

section
variable {weight : ℕ → UInt32} {lane : WrrLaneState} {is : List ℕ} {shard : Fin counterShards}
  {contended : Bool} {s : WrrSchedule} {slot : ℕ}

theorem positions_inj {w : ℕ} {x y : BitVec w} : positions x = positions y ↔ x = y := by
  constructor
  · intro h
    refine BitVec.eq_of_getLsbD_eq fun i _ => ?_
    rw [Bool.eq_iff_iff, ← mem_positions, ← mem_positions, h]
  · rintro rfl
    rfl

/-- The bitset of some indices, in order and below 128. -/
def IsBitset (is : List ℕ) : Prop := is.Pairwise (· < ·) ∧ ∀ i ∈ is, i < maxBitsetTargets

theorem toIndices_ofBitset (his : IsBitset is) : (ofBitset is).toIndices = .indices is :=
  congrArg indices (members_ofBitset his.1 his.2)

theorem toIndices_eq_iff (his : IsBitset is) {key : WrrScheduleKey}
    (hk : ∀ is, key ≠ .indices is) : key.toIndices = .indices is ↔ key = .ofBitset is := by
  rw [← toIndices_ofBitset his]
  cases key with
  | invalid => simp [toIndices, ofBitset]
  | bitset bits => simp [toIndices, ofBitset, positions_inj]
  | indices is => exact absurd rfl (hk is)

theorem toIndices_eq_invalid {key : WrrScheduleKey} : key.toIndices = .invalid ↔ key = .invalid := by
  cases key <;> simp [toIndices]

theorem lookup_rekey (his : IsBitset is) (hk : lane.Bitsets) :
    lane.rekey.lookup (.indices is) = lane.lookup (.ofBitset is) := by
  rw [WrrLaneState.lookup, WrrLaneState.lookup, WrrLaneState.rekey, findIdx?_map]
  rw [WrrLaneState.Bitsets] at hk
  generalize lane.slots = slots at hk ⊢
  induction slots with
  | nil => rfl
  | cons s slots ih =>
    have hh := toIndices_eq_iff his (hk s mem_cons_self)
    have ht := ih fun s hs => hk s (mem_cons_of_mem _ hs)
    simp only [findIdx?_cons, Function.comp_def, WrrSchedule.rekey, hh] at ht ⊢
    rw [ht]

theorem hasFreeSlot_rekey : lane.rekey.hasFreeSlot = lane.hasFreeSlot := by
  simp only [hasFreeSlot, rekey, any_map, Function.comp_def,
    WrrSchedule.rekey, toIndices_eq_invalid]

theorem chooseSlot_rekey : lane.rekey.chooseSlot weight is shard slot =
    ((lane.chooseSlot weight is shard slot).1, (lane.chooseSlot weight is shard slot).2.rekey) := by
  rw [chooseSlot, chooseSlot, rekey, getElem?_map]
  cases lane.slots[slot]? with
  | none => rfl
  | some s => simp [rekey, WrrSchedule.rekey, WrrSchedule.choose, WrrSchedule.tick]

theorem publish_rekey (his : IsBitset is) (seed : UInt64) :
    WrrSchedule.publish weight (.indices is) is seed =
      (WrrSchedule.publish weight (.ofBitset is) is seed).rekey := by
  rw [← toIndices_ofBitset his, WrrSchedule.publish, WrrSchedule.publish]
  split <;> rfl

theorem choosePublished_rekey (his : IsBitset is) :
    lane.rekey.choosePublished weight (.indices is) is shard =
      ((lane.choosePublished weight (.ofBitset is) is shard).1,
        (lane.choosePublished weight (.ofBitset is) is shard).2.rekey) := by
  have hln : lane.rekey.slots.length = lane.slots.length := length_map _
  simp only [choosePublished, publishSchedule, hln]
  split_ifs with hn
  · rfl
  · rw [← chooseSlot_rekey]
    simp only [rekey, map_set, publish_rekey his]

/-- **A selection through schedules**, for both kinds of keys. -/
theorem choose_rekey (his : IsBitset is) (hk : lane.Bitsets) :
    lane.rekey.choose weight (.indices is) is shard contended =
      ((lane.choose weight (.ofBitset is) is shard contended).1,
        (lane.choose weight (.ofBitset is) is shard contended).2.rekey) := by
  rw [WrrLaneState.choose, WrrLaneState.choose, lookup_rekey his hk]
  cases lane.lookup (.ofBitset is) with
  | some slot => exact chooseSlot_rekey
  | none =>
    cases contended with
    | true => rfl
    | false =>
      rw [if_neg Bool.false_ne_true, if_neg Bool.false_ne_true]
      have hmiss : lane.rekey.shouldPublishOnMiss =
          (lane.shouldPublishOnMiss.1, lane.shouldPublishOnMiss.2.rekey) := by
        rw [WrrLaneState.shouldPublishOnMiss, WrrLaneState.shouldPublishOnMiss, hasFreeSlot_rekey]
        split_ifs <;> rfl
      rw [hmiss]
      rcases lane.shouldPublishOnMiss with ⟨_ | _, lane⟩
      · rfl
      · exact choosePublished_rekey his

/-! ### Keys -/

theorem bitsets_set (hk : lane.Bitsets) (hs : ∀ is, s.key ≠ .indices is) :
    { lane with slots := lane.slots.set slot s }.Bitsets := by
  intro s' hs'
  rcases mem_or_eq_of_mem_set hs' with hm | rfl
  · exact hk s' hm
  · exact hs

theorem bitsets_chooseSlot (hk : lane.Bitsets) :
    (lane.chooseSlot weight is shard slot).2.Bitsets := by
  rw [chooseSlot]
  cases hs : lane.slots[slot]? with
  | none => exact hk
  | some s => exact bitsets_set hk (hk s (mem_of_getElem? hs))

theorem bitsets_choose (hk : lane.Bitsets) :
    (lane.choose weight (.ofBitset is) is shard contended).2.Bitsets := by
  have hp : ∀ lane : WrrLaneState, lane.Bitsets →
      (lane.choosePublished weight (.ofBitset is) is shard).2.Bitsets := by
    intro lane hk
    simp only [WrrLaneState.choosePublished, WrrLaneState.publishSchedule]
    split_ifs
    · exact hk
    · refine bitsets_chooseSlot (bitsets_set hk fun is' => ?_)
      rw [publish_key]
      rintro ⟨⟩
  rw [WrrLaneState.choose]
  cases lane.lookup (.ofBitset is) with
  | some slot => exact bitsets_chooseSlot hk
  | none =>
    cases contended with
    | true => exact hk
    | false =>
      rw [if_neg Bool.false_ne_true]
      have hmiss : lane.shouldPublishOnMiss.2.Bitsets := by
        rw [WrrLaneState.shouldPublishOnMiss]
        split_ifs <;> exact hk
      generalize lane.shouldPublishOnMiss = miss at hmiss ⊢
      rcases miss with ⟨_ | _, lane⟩
      · exact hmiss
      · exact hp lane hmiss

end

/-! ## Selections -/

section
variable {self : Selector} {lanes : Lanes} {lane : Lane} {is pool scope : List ℕ} {ctxKey : Bytes}
  {health : Option HealthContext}

theorem setWrr_rekey (id : LaneId) (wrr : WrrLaneState) :
    (lanes.setWrr id wrr).rekey = lanes.rekey.setWrr id wrr.rekey := by
  simp only [Lanes.rekey, Lanes.setWrr, Lanes.mk.injEq, true_and]
  funext id'
  rw [Function.update_apply, Function.update_apply]
  split_ifs <;> rfl

theorem isBitset_of_scope (hn : self.targets.length ≤ maxBitsetTargets)
    (his : self.Scoped is) : IsBitset is :=
  ⟨his.ascending, fun i hi => (his.lt i hi).trans_le hn⟩

theorem dispatch_rekey (his : IsBitset is) (hk : lanes.Bitsets) :
    (self.listPath .indices).dispatch self ctxKey is lane lanes.rekey =
      rekeyed ((self.listPath .ofBitset).dispatch self ctxKey is lane lanes) := by
  rw [dispatch, dispatch]
  cases lane.algorithm with
  | weightedRoundRobin =>
    have hc := @choose_rekey self.weight (lanes.wrr lane.wrrState) is self.shard self.contended
      his (hk _)
    show (self.found ((lanes.wrr lane.wrrState).rekey.choose self.weight (.indices is) is self.shard
      self.contended) >>= fun r => Except.ok (r.1, lanes.rekey.setWrr lane.wrrState r.2)) = _
    rw [hc, rekeyed]
    exact congrArg (fun l => Except.ok (self.handle _, l)) (setWrr_rekey _ _).symm
  | _ => rfl

theorem groupFor_keyOf (k k' : List ℕ → WrrScheduleKey) (pick : ℕ)
    (groups : List LocalityDistributeGroup) (acc : ℕ) (first : Option (List ℕ)) :
    (self.listPath k).groupFor is pick groups acc first =
      (self.listPath k').groupFor is pick groups acc first := by
  induction groups generalizing acc first with
  | nil => rfl
  | cons g groups ih =>
    rw [groupFor, groupFor]
    simp only [ih]
    rfl

theorem distributeGroup_keyOf (k k' : List ℕ → WrrScheduleKey) (algorithm : LoadBalancerAlgorithm)
    (locality : Option LocalityLbState) :
    (self.listPath k).distributeGroup self is ctxKey algorithm locality lanes =
      (self.listPath k').distributeGroup self is ctxKey algorithm locality lanes := by
  cases locality with
  | none => rfl
  | some state =>
    cases hgr : state.distributeGroups with
    | none => simp only [distributeGroup, hgr]
    | some groups =>
      simp only [distributeGroup, hgr, groupFor_keyOf k k']
      rfl

theorem distributeGroup_rekey {k : List ℕ → WrrScheduleKey} (algorithm : LoadBalancerAlgorithm)
    (locality : Option LocalityLbState) :
    (self.listPath k).distributeGroup self is ctxKey algorithm locality lanes.rekey =
      (((self.listPath k).distributeGroup self is ctxKey algorithm locality lanes).1,
        ((self.listPath k).distributeGroup self is ctxKey algorithm locality lanes).2.rekey) := by
  cases locality with
  | none => rfl
  | some state =>
    cases hgr : state.distributeGroups with
    | none => simp only [distributeGroup, hgr]
    | some groups =>
      simp only [distributeGroup, hgr]
      split_ifs
      · rfl
      · simp only [distributePick]
        split_ifs <;> rfl

theorem IsBitset.sublist {part : List ℕ} (his : IsBitset is) (hp : part.Sublist is) :
    IsBitset part :=
  ⟨his.1.sublist hp, fun i hi => his.2 i (hp.subset hi)⟩

theorem selectUsing_rekey (his : IsBitset is) (hk : lanes.Bitsets) :
    (self.listPath .indices).selectUsing self ctxKey is lane lanes.rekey =
      rekeyed ((self.listPath .ofBitset).selectUsing self ctxKey is lane lanes) := by
  rw [selectUsing, selectUsing]
  show (if is.isEmpty = true then _ else _) = rekeyed (if is.isEmpty = true then _ else _)
  split_ifs with he
  · rfl
  · obtain ⟨⟨-, hp⟩, hw⟩ := @distributeGroup_part self .ofBitset is ctxKey lanes
      (mt List.isEmpty_iff.2 he) lane.algorithm lane.localityLb
    simp only [distributeGroup_rekey, distributeGroup_keyOf .indices .ofBitset]
    refine dispatch_rekey (his.sublist hp) fun id => ?_
    rw [hw]
    exact hk id

theorem selectPreferred_rekey (hn : self.targets.length ≤ maxBitsetTargets)
    (his : self.Scoped is) (hs : self.Scoped scope)
    (hk : lanes.Bitsets) (isFallback : Bool) :
    (self.listPath .indices).selectPreferred self ctxKey isFallback is scope lane lanes.rekey =
      rekeyed ((self.listPath .ofBitset).selectPreferred self ctxKey isFallback is scope lane
        lanes) := by
  obtain ⟨⟨part, degraded⟩, hp, ⟨hpr, hd⟩, -⟩ :=
    @preferred_ok self is scope lane.localityLb lane.failoverEnabled
  have hls : ∀ keyOf, (self.listPath keyOf).preferredLocality self is scope lane.localityLb
      lane.failoverEnabled = .ok (part, degraded) := fun _ => hp
  have hs' : self.Scoped part := by
    cases degraded with
    | false => exact his.sublist (hpr rfl).sublist
    | true =>
      have hf : part = scope.filter self.isLocal := (hd rfl).1
      exact hf ▸ hs.filter _
  simp only [selectPreferred, hls, ok_bind, selectUsing_rekey (isBitset_of_scope hn hs') hk]
  cases (self.listPath .ofBitset).selectUsing self ctxKey part lane lanes <;> rfl

/-- **A selection on indices**, for both kinds of keys. -/
theorem selection_rekey (hn : self.targets.length ≤ maxBitsetTargets)
    (hp : self.Scoped pool) (hs : self.Scoped scope)
    (hk : lanes.Bitsets) (fallsBack : Bool) :
    self.selection .indices ctxKey health pool scope fallsBack lane lanes.rekey =
      rekeyed (self.selection .ofBitset ctxKey health pool scope fallsBack lane lanes) := by
  rw [selection, selection]
  split_ifs
  · exact selectPreferred_rekey hn (hp.sublist healthyPool_sublist) hs hk false
  · exact selectPreferred_rekey hn hp hs hk true
  · rfl

theorem selection_keyOf (k k' : List ℕ → WrrScheduleKey) (hln : lane.algorithm ≠ .weightedRoundRobin)
    (fallsBack : Bool) :
    self.selection k ctxKey health pool scope fallsBack lane lanes =
      self.selection k' ctxKey health pool scope fallsBack lane lanes := by
  have hd : ∀ is lanes, (self.listPath k).dispatch self ctxKey is lane lanes =
      (self.listPath k').dispatch self ctxKey is lane lanes := by
    intro is lanes
    rw [dispatch, dispatch]
    cases ha : lane.algorithm with
    | weightedRoundRobin => exact absurd ha hln
    | _ => rfl
  have hu : ∀ is lanes, (self.listPath k).selectUsing self ctxKey is lane lanes =
      (self.listPath k').selectUsing self ctxKey is lane lanes := by
    intro is lanes
    rw [selectUsing, selectUsing]
    simp only [hd, distributeGroup_keyOf k k']
    rfl
  have hp : ∀ isFallback is, (self.listPath k).selectPreferred self ctxKey isFallback is
      scope lane lanes = (self.listPath k').selectPreferred self ctxKey isFallback is scope lane
      lanes := by
    intro isFallback is
    rw [selectPreferred, selectPreferred]
    simp only [hu]
    rfl
  simp only [selection, hp]

theorem members_toIndices (key : WrrScheduleKey) : key.toIndices.members = key.members := by
  cases key <;> rfl

theorem Lanes.Ok.rekey (hok : lanes.Ok self) : lanes.rekey.Ok self where
  targetLen := hok.targetLen
  wrr id := by
    refine ⟨fun ha hn => (hok.wrr id).slots ha (map_eq_nil_iff.1 hn), ?_⟩
    intro s hm
    obtain ⟨s, hs, rfl⟩ := mem_map.1 hm
    obtain ⟨ho, hz⟩ := (hok.wrr id).schedules s hs
    refine ⟨fun i hi => ?_, fun hz' i hi => ?_⟩
    · rw [WrrSchedule.rekey, members_toIndices]
      exact ho i hi
    · rw [WrrSchedule.rekey, members_toIndices] at hi
      exact hz hz' i hi

/-! ## Reachable lanes -/

/-- The lanes that are left have schedules for bitsets only. -/
def LeavesBitsets {α : Type} (r : Except Panic (α × Lanes)) : Prop :=
  ∀ x lanes', r = .ok (x, lanes') → lanes'.Bitsets

theorem leavesBitsets_bind {α β : Type} {r : Except Panic α} {f : α → Except Panic (β × Lanes)}
    (h : ∀ a, r = .ok a → LeavesBitsets (f a)) : LeavesBitsets (r >>= f) := by
  cases r with
  | error e => exact nofun
  | ok a => exact h a rfl

theorem leavesBitsets_ok {α : Type} {a : α} (hk : lanes.Bitsets) :
    LeavesBitsets (.ok (a, lanes)) := by
  rintro _ _ ⟨⟩
  exact hk

theorem dispatch_bitsets (hk : lanes.Bitsets) :
    LeavesBitsets ((self.listPath .ofBitset).dispatch self ctxKey is lane lanes) := by
  rw [dispatch]
  cases lane.algorithm with
  | weightedRoundRobin =>
    refine leavesBitsets_ok fun id => ?_
    simp only [Lanes.setWrr, Function.update_apply]
    split_ifs
    · exact bitsets_choose (hk _)
    · exact hk id
  | _ => exact leavesBitsets_ok hk

theorem selectPreferred_bitsets (hk : lanes.Bitsets) (isFallback : Bool) :
    LeavesBitsets ((self.listPath .ofBitset).selectPreferred self ctxKey isFallback is scope lane
      lanes) := by
  refine leavesBitsets_bind fun ⟨part, degraded⟩ _ => leavesBitsets_bind fun ⟨target, left⟩ h => ?_
  refine leavesBitsets_ok ?_
  rw [selectUsing] at h
  split_ifs at h with he
  · cases h
    exact hk
  · have hne : part ≠ [] := fun hn => he (List.isEmpty_iff.2 hn)
    obtain ⟨-, hw⟩ := @distributeGroup_part self .ofBitset part ctxKey lanes hne lane.algorithm
      lane.localityLb
    have hlf : ((self.listPath .ofBitset).distributeGroup self part ctxKey lane.algorithm
        lane.localityLb lanes).2.Bitsets := by
      intro id
      rw [hw]
      exact hk id
    exact dispatch_bitsets hlf _ _ h

theorem selection_bitsets (hk : lanes.Bitsets) (fallsBack : Bool) :
    LeavesBitsets (self.selection .ofBitset ctxKey health pool scope fallsBack lane lanes) := by
  rw [selection]
  split_ifs
  · exact selectPreferred_bitsets hk false
  · exact selectPreferred_bitsets hk true
  · exact leavesBitsets_ok hk

variable {upstreamId : Bytes}

/-- **With at most 128 targets** there are schedules for bitsets only. -/
theorem Reachable.bitsets (hb : self.Built upstreamId)
    (hn : self.targets.length ≤ maxBitsetTargets) (h : Reachable self.toLoadBalancer lanes) :
    lanes.Bitsets := by
  have hnw : self.newLanes.Bitsets := by
    intro id s hs
    have hs : s ∈ (new (self.wrrLen id)).slots := hs
    rw [new] at hs
    split_ifs at hs
    · cases hs
    · rw [eq_of_mem_replicate hs]
      rintro _ ⟨⟩
  refine h.inv hnw ?_
  rintro lanes ⟨caller, call⟩ lanes' hr hk (hc : caller.toLoadBalancer = _) hst
  have hok : lanes.Ok caller := (Reachable.ok hb hr).congr_selector hc
  have hb' : caller.Built upstreamId := hc ▸ hb
  have hn' : caller.targets.length ≤ maxBitsetTargets := hc ▸ hn
  cases call with
  | select ctxKey health among =>
    obtain ⟨r, next, heq, -⟩ := selectAmong_ok hb' hok ctxKey health among
    simp only [stepCall, call, heq] at hst
    cases hst
    rw [selectAmong_bitset_eq hb' hok hn'] at heq
    exact selection_bitsets hk _ _ _ heq
  | retry retry port name =>
    obtain ⟨r, next, heq, -⟩ := selectExcludingAmong_ok hb' hok retry port name
    simp only [stepCall, call, heq] at hst
    cases hst
    rw [selectExcludingAmong_bitset_eq hb' hok hn'] at heq
    refine leavesBitsets_bind ?_ _ _ heq
    rintro ⟨sel, left⟩ h
    exact leavesBitsets_ok (selection_bitsets hk _ _ _ h)

variable {targets : List UpstreamTarget} {c : BalancerConfig}

/-! ## Agreement -/

/-- **Both copies return the same.**  The one on vectors runs on the lanes with the indices instead of
    the bitsets as the keys of schedules, and leaves the lanes so.  Without weighted round-robin, it
    runs on the same lanes. -/
theorem copies_agree (hself : self.toLoadBalancer = .withSubsetsAndPortOverrides upstreamId targets c)
    (hn : targets.length ≤ maxBitsetTargets) (hok : lanes.Ok self) (hkeys : lanes.Bitsets) :
    (∀ ctxKey health among,
      self.selectAmongVec ctxKey health lanes.rekey among =
          rekeyed (self.selectAmong ctxKey health lanes among) ∧
        ((self.laneFor among).algorithm ≠ .weightedRoundRobin →
          self.selectAmongVec ctxKey health lanes among =
            self.selectAmong ctxKey health lanes among)) ∧
    ∀ retry port name,
      self.selectExcludingAmongVec retry lanes.rekey port name =
          rekeyed (self.selectExcludingAmong retry lanes port name) ∧
        ((self.laneFor (.of port name)).algorithm ≠ .weightedRoundRobin →
          self.selectExcludingAmongVec retry lanes port name =
            self.selectExcludingAmong retry lanes port name) := by
  have hb := built_of hself
  have hn' : self.targets.length ≤ maxBitsetTargets := by
    rw [hself]
    exact hn
  refine ⟨fun ctxKey health among => ?_, fun retry port name => ?_⟩
  · have hs := scope_pool hb among
    rw [selectAmong_bitset_eq hb hok hn', selectAmongVec_eq hb hok, selectAmongVec_eq hb hok.rekey,
      selectionAmong, selection_rekey hn' hs hs hkeys]
    exact ⟨rfl, fun hln => selection_keyOf _ _ hln _⟩
  · have hs := scope_pool hb (.of port name)
    rw [selectExcludingAmong_bitset_eq hb hok hn', selectExcludingAmongVec_eq hb hok,
      selectExcludingAmongVec_eq hb hok.rekey]
    refine ⟨?_, fun hln => congrArg withoutFlag (selection_keyOf _ _ hln _)⟩
    rw [retrySelection, retrySelection, selection_rekey hn'
      (scope_retryPool hs) (scope_retryScope hs) hkeys]
    cases self.selection .ofBitset retry.ctxKey retry.health
      (self.retryPool retry (self.pool (.of port name)))
      (self.retryScope retry (self.pool (.of port name))) false (self.laneFor (.of port name))
      lanes <;> rfl

/-- Two targets of the same weight. -/
def evenTargets : List UpstreamTarget :=
  [{ host := lit "a", port := 80 }, { host := lit "b", port := 80 }]

def evenSelector : Selector :=
  (LoadBalancer.withSubsetsAndPortOverrides (lit "u") evenTargets
    { algorithm := .weightedRoundRobin }).idle

def Selector.lanesAfter (self : Selector) : ℕ → Except Panic Lanes
  | 0 => .ok self.newLanes
  | k + 1 => do return (← self.select (lit "k") none (← self.lanesAfter k)).2

/-- After two selections, the schedule is back at the first target.  The copy on vectors does not
    find it, and starts a schedule at the second one. -/
theorem copies_differ :
    ((evenSelector.lanesAfter 2 >>= fun lanes => evenSelector.select (lit "k") none lanes).map
        fun r => r.1.map fun sel => sel.target.1) = .ok (some 0) ∧
      ((evenSelector.lanesAfter 2 >>= fun lanes =>
        evenSelector.selectVecFallback (lit "k") none lanes).map
          fun r => r.1.map fun sel => sel.target.1) = .ok (some 1) := by
  decide +kernel

theorem copies_agree_even : evenSelector.selectAmongVec (lit "k") none evenSelector.newLanes.rekey .all =
    rekeyed (evenSelector.selectAmong (lit "k") none evenSelector.newLanes .all) := by
  have hb : evenSelector.Built (lit "u") :=
    built (lit "u") evenTargets { algorithm := .weightedRoundRobin }
  have hr : Reachable evenSelector.toLoadBalancer evenSelector.newLanes := .refl
  exact ((@copies_agree evenSelector evenSelector.newLanes (lit "u") evenTargets
    { algorithm := .weightedRoundRobin } rfl (by decide) (hr.ok hb)
    (hr.bitsets hb (by decide +kernel))).1 (lit "k") none .all).1

end

end Ferrum.Balancer
