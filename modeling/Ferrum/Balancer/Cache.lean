/-
  The cache of load balancers and what is published of it.

  A cache has two maps under the runtime keys of the upstreams: the balancers, and an index of the
  upstreams as they are served.  Both are replaced at once, by a full build, by a reload of the
  configuration, or when service discovery reports targets.

  * `buildInner`, `buildDeltaInner`, `buildUpdateTargetsInner`: the writers.
  * `stageIncrementalRequestEpoch`: a reload, which keeps discovered targets of the upstreams that
    it rebuilds.
  * `publications_consistent_iff`: a reload keeps the two maps together iff every upstream that it
    leaves alone is recorded with the targets that the configuration has for it.
-/
import Ferrum.Balancer.Build
import Ferrum.Lib.Runs

namespace Ferrum.Balancer

open Lib List Bool

/-! ## Configurations -/

structure Upstream where
  namespace_ : Bytes
  id : Bytes
  targets : List UpstreamTarget
  balancer : BalancerConfig := {}
  serviceDiscovery : Option Bytes := none
  resolvedSubsetTls : Bytes := []
  dispatchPortOverrideFallback : Bytes := []
  createdAt : ℤ := 0
  updatedAt : ℤ := 0

def namespacedRuntimeKey (namespace_ id : Bytes) : Bytes := namespace_ ++ byte '|' :: id

def Upstream.runtimeKey (u : Upstream) : Bytes := namespacedRuntimeKey u.namespace_ u.id

def Upstream.resourceKey (u : Upstream) : Bytes × Bytes := (u.namespace_, u.id)

/-- The upstreams of a configuration.  A namespace with a separator in it is rejected. -/
structure GatewayConfig where
  upstreams : List Upstream
  names : ∀ u ∈ upstreams, byte '|' ∉ u.namespace_

/-- A map of the last upstream for each resource key. -/
def upstreamMap (upstreams : List Upstream) : HMap (Bytes × Bytes) Upstream :=
  upstreams.foldl (fun m u => m.insert u.resourceKey u) HMap.empty

structure ConfigDelta where
  addedUpstreams : List Upstream
  removedUpstreamIds : List (Bytes × Bytes)
  modifiedUpstreams : List Upstream

open ConfigDelta

def ConfigDelta.compute (old new : GatewayConfig) : ConfigDelta where
  addedUpstreams :=
    new.upstreams.filter fun u => !(old.upstreams.map Upstream.resourceKey).contains u.resourceKey
  removedUpstreamIds :=
    (old.upstreams.filter fun u =>
      !(new.upstreams.map Upstream.resourceKey).contains u.resourceKey).map Upstream.resourceKey
  modifiedUpstreams :=
    new.upstreams.filter fun u =>
      ((upstreamMap old.upstreams).get u.resourceKey).any fun o => u.updatedAt != o.updatedAt

def ConfigDelta.loadBalancersChanged (d : ConfigDelta) : Bool :=
  !d.addedUpstreams.isEmpty || !d.modifiedUpstreams.isEmpty || !d.removedUpstreamIds.isEmpty

/-! ## Writers of the cache -/

structure LoadBalancerCacheInner where
  balancers : HMap Bytes LoadBalancer
  upstreams : HMap Bytes Upstream

def Upstream.loadBalancer (u : Upstream) : LoadBalancer :=
  .withSubsetsAndPortOverrides u.runtimeKey u.targets u.balancer

def buildBalancers (config : GatewayConfig) : HMap Bytes LoadBalancer :=
  config.upstreams.foldl (fun m u => m.insert u.runtimeKey u.loadBalancer) HMap.empty

def buildUpstreamIndex (config : GatewayConfig) : HMap Bytes Upstream :=
  config.upstreams.foldl (fun m u => m.insert u.runtimeKey u) HMap.empty

def buildInner (config : GatewayConfig) : LoadBalancerCacheInner :=
  ⟨buildBalancers config, buildUpstreamIndex config⟩

def buildDeltaInner (current : LoadBalancerCacheInner) (fullNewConfig : GatewayConfig)
    (added : List Upstream) (removedIds : List (Bytes × Bytes)) (modified : List Upstream) :
    LoadBalancerCacheInner :=
  if added = [] ∧ removedIds = [] ∧ modified = [] then current
  else
    let kept := (removedIds.map fun r => namespacedRuntimeKey r.1 r.2).foldl
      (fun m key => m.remove key) current.balancers
    { balancers :=
        (added ++ modified).foldl (fun m u => m.insert u.runtimeKey u.loadBalancer) kept
      upstreams :=
        (added ++ modified).foldl (fun m u => m.insert u.runtimeKey u)
          (buildUpstreamIndex fullNewConfig) }

def buildUpdateTargetsInner (current : LoadBalancerCacheInner) (namespace_ id : Bytes)
    (newTargets : List UpstreamTarget) (algorithm : LoadBalancerAlgorithm) :
    LoadBalancerCacheInner :=
  let key := namespacedRuntimeKey namespace_ id
  match current.upstreams.get key with
  | none => current
  | some existing =>
    { balancers := current.balancers.insert key
        (.withSubsetsAndPortOverrides key newTargets { existing.balancer with algorithm })
      upstreams := current.upstreams.insert key { existing with targets := newTargets } }

/-! ## Reloads -/

/-- How values are serialized to be compared; `none` where that fails. -/
structure Serde (V : Type) where
  upstream : Upstream → Option V
  serviceDiscovery : Option Bytes → Option V
  targets : List UpstreamTarget → Option V

section
variable {V : Type} [DecidableEq V]

/-- Values with the same serialization. -/
def sameValue (a b : Option V) : Bool := a.isSome && a == b

variable (serde : Serde V)

/-- The same content, apart from the times. -/
def contentEq (a b : Upstream) : Bool :=
  let contentValue (u : Upstream) := serde.upstream { u with createdAt := 0, updatedAt := 0 }
  a.resolvedSubsetTls == b.resolvedSubsetTls &&
    a.dispatchPortOverrideFallback == b.dispatchPortOverrideFallback &&
    a.targets.length == b.targets.length &&
    ((a.targets.zip b.targets).all fun (x, y) =>
      x.servicePortPolicyKey == y.servicePortPolicyKey && sameEntries x.tags y.tags) &&
    sameValue (contentValue a) (contentValue b)

def projectedDrDispatchChangedUpstreams (old new : GatewayConfig) : List Upstream :=
  new.upstreams.filter fun u =>
    ((upstreamMap old.upstreams).get u.resourceKey).any fun o => !contentEq serde o u

def discoverySourceEq (a b : Upstream) : Bool :=
  a.serviceDiscovery.isSome && b.serviceDiscovery.isSome &&
    sameValue (serde.serviceDiscovery a.serviceDiscovery) (serde.serviceDiscovery b.serviceDiscovery)

def authoredTargetsEq (a b : Upstream) : Bool :=
  a.targets.length == b.targets.length &&
    ((a.targets.zip b.targets).all fun (x, y) =>
      x.servicePortPolicyKey == y.servicePortPolicyKey) &&
    sameValue (serde.targets a.targets) (serde.targets b.targets)

/-- Rebuilt upstreams keep the targets that are served, unless these are configured anew. -/
def preserveLiveDiscoveryTargets (current : LoadBalancerCacheInner) (oldConfig : GatewayConfig)
    (modified : List Upstream) : List Upstream :=
  modified.map fun replacement =>
    match (upstreamMap oldConfig.upstreams).get replacement.resourceKey with
    | none => replacement
    | some old =>
      if !discoverySourceEq serde old replacement || !authoredTargetsEq serde old replacement then
        replacement
      else
        match current.upstreams.get replacement.runtimeKey with
        | some live => { replacement with targets := live.targets }
        | none => replacement

/-- The upstreams with a key that was not seen before. -/
def unseen : List (Bytes × Bytes) → List Upstream → List Upstream
  | _, [] => []
  | seen, u :: rest =>
    if seen.contains u.resourceKey then unseen seen rest
    else u :: unseen (u.resourceKey :: seen) rest

/-- What requests see of the upstreams. -/
structure RequestEpoch where
  config : GatewayConfig
  loadBalancer : LoadBalancerCacheInner

def stageIncrementalRequestEpoch (current : RequestEpoch) (newConfig : GatewayConfig) :
    RequestEpoch :=
  let delta := compute current.config newConfig
  let projected := projectedDrDispatchChangedUpstreams serde current.config newConfig
  let lbChanged := delta.loadBalancersChanged || !projected.isEmpty
  let seen := (delta.modifiedUpstreams ++ delta.addedUpstreams).map Upstream.resourceKey
  let lbModified := preserveLiveDiscoveryTargets serde current.loadBalancer current.config
    (delta.modifiedUpstreams ++ unseen seen projected)
  { config := newConfig
    loadBalancer :=
      if lbChanged then
        buildDeltaInner current.loadBalancer newConfig delta.addedUpstreams
          delta.removedUpstreamIds lbModified
      else current.loadBalancer }

/-! ## Publications -/

inductive Publication where
  | rebuild (config : GatewayConfig)
  /-- A snapshot or an increment of the configuration.  Something other than the upstreams may have
      changed, or there may be another reason to publish it. -/
  | reload (incremental otherChanges republish : Bool) (config : GatewayConfig)
  /-- Service discovery has new targets. -/
  | discover (namespace_ id : Bytes) (targets : List UpstreamTarget)
      (algorithm : LoadBalancerAlgorithm)

/-- The epoch that is published, if any. -/
def publish (current : RequestEpoch) : Publication → Option RequestEpoch
  | .rebuild config => some ⟨config, buildInner config⟩
  | .reload incremental otherChanges republish config =>
    let projected := projectedDrDispatchChangedUpstreams serde current.config config
    if (compute current.config config).loadBalancersChanged || otherChanges then
      some (stageIncrementalRequestEpoch serde current config)
    else if incremental then
      if republish then some { current with config } else none
    else if !republish && projected.isEmpty then none
    else some
      { config
        loadBalancer :=
          if projected.isEmpty then current.loadBalancer
          else buildDeltaInner current.loadBalancer config [] []
            (preserveLiveDiscoveryTargets serde current.loadBalancer current.config projected) }
  | .discover namespace_ id targets algorithm => some
    { current with
      loadBalancer := buildUpdateTargetsInner current.loadBalancer namespace_ id targets algorithm }

/-- The epoch after a full build. -/
def RequestEpoch.start (config : GatewayConfig) : RequestEpoch := ⟨config, buildInner config⟩

/-- Under every key, the targets that are served are those that are recorded. -/
def LoadBalancerCacheInner.Consistent (inner : LoadBalancerCacheInner) : Prop :=
  ∀ key, (inner.balancers.get key).map LoadBalancer.targets =
    (inner.upstreams.get key).map Upstream.targets

/-- The upstreams that a reload adds or rebuilds. -/
def touched (current : RequestEpoch) (config : GatewayConfig) : List Upstream :=
  let delta := compute current.config config
  delta.addedUpstreams ++ delta.modifiedUpstreams ++
    projectedDrDispatchChangedUpstreams serde current.config config

/-- Whether a reload builds a cache. -/
def buildsCache (current : RequestEpoch) (incremental otherChanges : Bool)
    (config : GatewayConfig) : Bool :=
  (compute current.config config).loadBalancersChanged ||
    (otherChanges || !incremental) &&
      !(projectedDrDispatchChangedUpstreams serde current.config config).isEmpty

/-- Every upstream that a reload leaves alone is recorded with its configured targets. -/
def Recorded (current : RequestEpoch) : Publication → Prop
  | .reload incremental otherChanges _ config =>
    buildsCache serde current incremental otherChanges config = true →
      ∀ u ∈ config.upstreams,
        u.runtimeKey ∉ (touched serde current config).map Upstream.runtimeKey →
          (current.loadBalancer.upstreams.get u.runtimeKey).map Upstream.targets =
            ((buildUpstreamIndex config).get u.runtimeKey).map Upstream.targets
  | _ => True

instance (current : RequestEpoch) : ∀ p, Decidable (Recorded serde current p)
  | .rebuild _ | .discover .. => inferInstanceAs (Decidable True)
  | .reload incremental otherChanges _ config => inferInstanceAs (Decidable
    (buildsCache serde current incremental otherChanges config = true →
      ∀ u ∈ config.upstreams,
        u.runtimeKey ∉ (touched serde current config).map Upstream.runtimeKey →
          (current.loadBalancer.upstreams.get u.runtimeKey).map Upstream.targets =
            ((buildUpstreamIndex config).get u.runtimeKey).map Upstream.targets))

end

/-! ## Keys -/

section
variable {V : Type} [DecidableEq V] {serde : Serde V} {config old new : GatewayConfig}
  {u v : Upstream} {key : Bytes} {e e' : RequestEpoch}

/-- A runtime key tells the namespace and the identifier. -/
theorem resourceKey_eq (hu : u ∈ old.upstreams) (hv : v ∈ new.upstreams)
    (h : u.runtimeKey = v.runtimeKey) : u.resourceKey = v.resourceKey := by
  have hu' := old.names u hu
  have hv' := new.names v hv
  rw [Upstream.resourceKey, Upstream.resourceKey, Prod.mk.injEq]
  -- the first separator ends the namespace
  rcases append_eq_append_iff.1 h with ⟨t, ht, hr⟩ | ⟨t, ht, hr⟩
  · cases t with
    | nil => simpa [ht, eq_comm] using hr
    | cons b t =>
      obtain ⟨rfl, -⟩ := List.cons.inj hr
      simp [ht] at hv'
  · cases t with
    | nil => simpa [ht, eq_comm] using hr
    | cons b t =>
      obtain ⟨rfl, -⟩ := List.cons.inj hr
      simp [ht] at hu'

theorem runtimeKey_eq (h : u.resourceKey = v.resourceKey) : u.runtimeKey = v.runtimeKey := by
  obtain ⟨hns, hid⟩ := Prod.mk.inj h
  rw [Upstream.runtimeKey, Upstream.runtimeKey, hns, hid]

/-- The last upstream with a key. -/
def lastWith (us : List Upstream) (key : Bytes) : Option Upstream :=
  us.reverse.find? fun u => u.runtimeKey = key

variable {us : List Upstream} {algorithm : LoadBalancerAlgorithm} {id namespace_ : Bytes}
  {inner : LoadBalancerCacheInner} {targets : List UpstreamTarget}

theorem lastWith_isSome : (lastWith us key).isSome ↔ key ∈ us.map Upstream.runtimeKey := by
  simp [lastWith, find?_isSome]

theorem lastWith_none : lastWith us key = none ↔ key ∉ us.map Upstream.runtimeKey := by
  rw [← lastWith_isSome, Option.not_isSome_iff_eq_none]

theorem get_buildUpstreamIndex (config : GatewayConfig) (key : Bytes) :
    (buildUpstreamIndex config).get key = lastWith config.upstreams key := by
  refine (HMap.get_foldl_insert Upstream.runtimeKey id config.upstreams).trans ?_
  rw [HMap.get_empty, Option.or_none, Option.map_id_fun]
  rfl

/-! ## What a writer leaves -/

/-- The index has the upstreams of the configuration. -/
def RequestEpoch.Keyed (e : RequestEpoch) : Prop :=
  ∀ key, (e.loadBalancer.upstreams.get key).isSome ↔
    key ∈ e.config.upstreams.map Upstream.runtimeKey

theorem buildInner_consistent (config : GatewayConfig) : (buildInner config).Consistent := by
  intro key
  rw [buildInner, get_buildUpstreamIndex, buildBalancers,
    HMap.get_foldl_insert Upstream.runtimeKey Upstream.loadBalancer, HMap.get_empty,
    Option.or_none, Option.map_map]
  rfl

theorem buildInner_keyed (config : GatewayConfig) : (RequestEpoch.start config).Keyed := by
  intro key
  show ((buildUpstreamIndex config).get key).isSome ↔ _
  rw [get_buildUpstreamIndex, lastWith_isSome]
  rfl

theorem buildUpdateTargetsInner_consistent (h : inner.Consistent) :
    (buildUpdateTargetsInner inner namespace_ id targets algorithm).Consistent := by
  rw [buildUpdateTargetsInner]
  split
  · exact h
  · intro key
    simp only [HMap.get_insert_eq]
    split_ifs
    · rfl
    · exact h key

theorem buildUpdateTargetsInner_keyed (h : e.Keyed) :
    RequestEpoch.Keyed { e with
      loadBalancer := buildUpdateTargetsInner e.loadBalancer namespace_ id targets algorithm } := by
  intro key
  rw [← h key, buildUpdateTargetsInner]
  dsimp only
  split
  · rfl
  · next existing he =>
    simp only [HMap.get_insert_eq]
    split_ifs with hk
    · rw [hk, he]
      simp
    · rfl

/-- The cache after a reload that builds one, by key. -/
theorem get_buildDeltaInner {added modified : List Upstream} {removed : List (Bytes × Bytes)}
    (h : ¬ (added = [] ∧ removed = [] ∧ modified = [])) :
    (buildDeltaInner inner config added removed modified).balancers.get key =
        ((lastWith (added ++ modified) key).map Upstream.loadBalancer).or
          (if key ∈ removed.map fun r => namespacedRuntimeKey r.1 r.2 then none
            else inner.balancers.get key) ∧
      (buildDeltaInner inner config added removed modified).upstreams.get key =
        (lastWith (added ++ modified) key).or (lastWith config.upstreams key) := by
  rw [buildDeltaInner, if_neg h]
  dsimp only
  constructor
  · rw [HMap.get_foldl_insert Upstream.runtimeKey Upstream.loadBalancer, HMap.get_foldl_remove]
    congr 1
    split_ifs <;> rfl
  · refine (HMap.get_foldl_insert Upstream.runtimeKey id _).trans ?_
    rw [get_buildUpstreamIndex, Option.map_id_fun]
    rfl

theorem mem_preserve {modified : List Upstream} :
    (preserveLiveDiscoveryTargets serde inner old modified).map Upstream.runtimeKey =
      modified.map Upstream.runtimeKey := by
  rw [preserveLiveDiscoveryTargets, map_map]
  refine map_congr_left fun u _ => ?_
  simp only [Function.comp_apply]
  split
  · rfl
  · split_ifs
    · rfl
    · split <;> rfl

/-! ## Reloads -/

/-- What a reload that builds a cache takes from the configurations. -/
structure Staged (e : RequestEpoch) (config : GatewayConfig) (touched : List Upstream)
    (added : List Upstream) (removed : List (Bytes × Bytes)) (modified : List Upstream) :
    Prop where
  change : ¬ (added = [] ∧ removed = [] ∧ modified = [])
  keys : ∀ key, key ∈ (added ++ modified).map Upstream.runtimeKey ↔
    key ∈ touched.map Upstream.runtimeKey
  configured : ∀ u ∈ touched, u ∈ config.upstreams
  gone : ∀ r, r ∈ removed ↔ r ∈ e.config.upstreams.map Upstream.resourceKey ∧
    r ∉ config.upstreams.map Upstream.resourceKey

section
variable {touched added modified : List Upstream} {removed : List (Bytes × Bytes)}

section
variable (h : Staged e config touched added removed modified)
include h

/-- A key of the new configuration is not removed. -/
theorem Staged.not_removed (hu : u ∈ config.upstreams) :
    u.runtimeKey ∉ removed.map fun r => namespacedRuntimeKey r.1 r.2 := by
  intro hm
  obtain ⟨r, hr, heq⟩ := mem_map.1 hm
  obtain ⟨hold, hn⟩ := (h.gone r).1 hr
  obtain ⟨v, hv, rfl⟩ := mem_map.1 hold
  exact hn (resourceKey_eq hv hu heq ▸ mem_map_of_mem hu)

/-- A key of the old configuration only is removed. -/
theorem Staged.removed_of_not_mem (hold : key ∈ e.config.upstreams.map Upstream.runtimeKey)
    (hn : key ∉ config.upstreams.map Upstream.runtimeKey) :
    key ∈ removed.map fun r => namespacedRuntimeKey r.1 r.2 := by
  obtain ⟨v, hv, rfl⟩ := mem_map.1 hold
  refine mem_map.2 ⟨v.resourceKey, (h.gone _).2 ⟨mem_map_of_mem hv, fun hm => ?_⟩,
    rfl⟩
  obtain ⟨u, hu, heq⟩ := mem_map.1 hm
  exact hn (runtimeKey_eq heq ▸ mem_map_of_mem hu)

/-- **A reload that builds a cache** keeps the maps together iff the upstreams that it leaves alone
    are recorded with their configured targets. -/
theorem Staged.consistent_iff (hk : e.Keyed) (hc : e.loadBalancer.Consistent) :
    (buildDeltaInner e.loadBalancer config added removed modified).Consistent ↔
      ∀ u ∈ config.upstreams, u.runtimeKey ∉ touched.map Upstream.runtimeKey →
        (e.loadBalancer.upstreams.get u.runtimeKey).map Upstream.targets =
          ((buildUpstreamIndex config).get u.runtimeKey).map Upstream.targets := by
  -- under a key that the reload leaves alone
  have hlf : ∀ key, key ∉ touched.map Upstream.runtimeKey →
      lastWith (added ++ modified) key = none := fun key hke =>
    lastWith_none.2 fun hm => hke ((h.keys key).1 hm)
  constructor
  · intro hn u hu hun
    have hke := hn u.runtimeKey
    obtain ⟨hb, hi⟩ := @get_buildDeltaInner config u.runtimeKey e.loadBalancer _ _ _ h.change
    rw [hb, hi, hlf _ hun, if_neg (h.not_removed hu)] at hke
    rw [← hc, get_buildUpstreamIndex]
    exact hke
  · intro hr key
    obtain ⟨hb, hi⟩ := @get_buildDeltaInner config key e.loadBalancer _ _ _ h.change
    rw [hb, hi]
    by_cases hke : key ∈ touched.map Upstream.runtimeKey
    · obtain ⟨w, hw⟩ := Option.isSome_iff_exists.1 (lastWith_isSome.2 ((h.keys key).2 hke))
      rw [hw]
      rfl
    rw [hlf key hke, Option.map_none, Option.none_or, Option.none_or]
    by_cases hn : key ∈ config.upstreams.map Upstream.runtimeKey
    · obtain ⟨u, hu, rfl⟩ := mem_map.1 hn
      rw [if_neg (h.not_removed hu), hc, hr u hu hke, get_buildUpstreamIndex]
    · rw [lastWith_none.2 hn]
      split_ifs with hgn
      · rfl
      · have hold : key ∉ e.config.upstreams.map Upstream.runtimeKey := fun hold =>
          hgn (h.removed_of_not_mem hold hn)
        rw [← hk key, Option.not_isSome_iff_eq_none] at hold
        rw [hc, hold]

theorem Staged.keyed :
    RequestEpoch.Keyed
      ⟨config, buildDeltaInner e.loadBalancer config added removed modified⟩ := by
  intro key
  rw [(@get_buildDeltaInner config key e.loadBalancer _ _ _ h.change).2, Option.isSome_or,
    or_eq_true, lastWith_isSome, lastWith_isSome, h.keys]
  refine ⟨?_, Or.inr⟩
  rintro (hk | hk)
  · obtain ⟨u, hu, rfl⟩ := mem_map.1 hk
    exact mem_map_of_mem (h.configured u hu)
  · exact hk

end

end

theorem unseen_subset {seen : List (Bytes × Bytes)} : unseen seen us ⊆ us := by
  induction us generalizing seen with
  | nil => exact List.Subset.refl _
  | cons u us ih =>
    rw [unseen]
    split_ifs
    · exact subset_cons_of_subset _ ih
    · exact cons_subset_cons _ ih

theorem mem_unseen (seen : List (Bytes × Bytes)) (h : u ∈ us) :
    u.resourceKey ∈ seen ∨ u.resourceKey ∈ (unseen seen us).map Upstream.resourceKey := by
  induction us generalizing seen with
  | nil => cases h
  | cons v us ih =>
    rw [unseen]
    split_ifs with hs
    · rcases mem_cons.1 h with rfl | h
      · exact .inl (by simpa using hs)
      · exact ih seen h
    · rw [map_cons]
      rcases mem_cons.1 h with rfl | h
      · exact .inr mem_cons_self
      · rcases ih (v.resourceKey :: seen) h with hm | hm
        · rcases mem_cons.1 hm with heq | hm
          · exact .inr (heq ▸ mem_cons_self)
          · exact .inl hm
        · exact .inr (mem_cons_of_mem _ hm)

theorem mem_removed {r : Bytes × Bytes} :
    r ∈ (compute old new).removedUpstreamIds ↔
      r ∈ old.upstreams.map Upstream.resourceKey ∧
        r ∉ new.upstreams.map Upstream.resourceKey := by
  simp only [compute, mem_map, mem_filter, not_eq_true', contains_eq_mem, decide_eq_false_iff_not]
  constructor
  · rintro ⟨u, ⟨hu, hn⟩, rfl⟩
    exact ⟨⟨u, hu, rfl⟩, hn⟩
  · rintro ⟨⟨u, hu, rfl⟩, hn⟩
    exact ⟨u, ⟨hu, hn⟩, rfl⟩

theorem touched_subset : touched serde e config ⊆ config.upstreams := by
  intro u hu
  simp only [touched, compute, projectedDrDispatchChangedUpstreams, mem_append, mem_filter] at hu
  rcases hu with (hu | hu) | hu <;> exact hu.1

/-- With no upstream added or removed, the keys stay. -/
theorem keys_eq (h : (compute old new).loadBalancersChanged = false) :
    key ∈ new.upstreams.map Upstream.runtimeKey ↔ key ∈ old.upstreams.map Upstream.runtimeKey := by
  simp only [loadBalancersChanged, or_eq_false_iff, not_eq_false', List.isEmpty_iff] at h
  obtain ⟨⟨ha, -⟩, hr⟩ := h
  constructor
  · intro hk
    obtain ⟨u, hu, rfl⟩ := mem_map.1 hk
    have hn := filter_eq_nil_iff.1 ha u hu
    simp only [not_eq_true', not_eq_false, contains_eq_mem, decide_eq_true_eq, mem_map] at hn
    obtain ⟨v, hv, heq⟩ := hn
    exact runtimeKey_eq heq ▸ mem_map_of_mem hv
  · intro hk
    obtain ⟨u, hu, rfl⟩ := mem_map.1 hk
    by_contra hnw
    have hm : u.resourceKey ∈ (compute old new).removedUpstreamIds := by
      refine mem_removed.2 ⟨mem_map_of_mem hu, fun hm => hnw ?_⟩
      obtain ⟨v, hv, heq⟩ := mem_map.1 hm
      exact runtimeKey_eq heq ▸ mem_map_of_mem hv
    rw [hr] at hm
    cases hm

theorem RequestEpoch.Keyed.congr (h : e.Keyed)
    (hs : (compute e.config config).loadBalancersChanged = false) :
    RequestEpoch.Keyed { e with config } := fun key => (h key).trans (keys_eq hs).symm

/-- The keys of what is rebuilt, where the projected upstreams come without those seen. -/
theorem mem_touched_keys {added modified projected : List Upstream} :
    key ∈ (added ++ (modified ++ unseen ((modified ++ added).map Upstream.resourceKey)
        projected)).map Upstream.runtimeKey ↔
      key ∈ (added ++ modified ++ projected).map Upstream.runtimeKey := by
  constructor
  · intro h
    obtain ⟨u, hu, rfl⟩ := mem_map.1 h
    refine mem_map_of_mem ?_
    simp only [mem_append] at hu ⊢
    rcases hu with hu | hu | hu
    · exact .inl (.inl hu)
    · exact .inl (.inr hu)
    · exact .inr (unseen_subset hu)
  · intro h
    obtain ⟨u, hu, rfl⟩ := mem_map.1 h
    simp only [mem_append] at hu
    rcases hu with (hu | hu) | hu
    · exact mem_map_of_mem (mem_append_left _ hu)
    · exact mem_map_of_mem (mem_append_right _ (mem_append_left _ hu))
    · rcases mem_unseen ((modified ++ added).map Upstream.resourceKey) hu with hm | hm <;>
        obtain ⟨v, hv, heq⟩ := mem_map.1 hm <;> rw [← runtimeKey_eq heq]
      · refine mem_map_of_mem ?_
        simp only [mem_append] at hv ⊢
        tauto
      · exact mem_map_of_mem (mem_append_right _ (mem_append_right _ hv))

/-- A reload with changes that builds a cache. -/
theorem staged_incremental (h : (compute e.config config).loadBalancersChanged = true ∨
      projectedDrDispatchChangedUpstreams serde e.config config ≠ []) :
    Staged e config (touched serde e config)
      (compute e.config config).addedUpstreams
      (compute e.config config).removedUpstreamIds
      (preserveLiveDiscoveryTargets serde e.loadBalancer e.config
        ((compute e.config config).modifiedUpstreams ++
          unseen (((compute e.config config).modifiedUpstreams ++
            (compute e.config config).addedUpstreams).map Upstream.resourceKey)
            (projectedDrDispatchChangedUpstreams serde e.config config))) where
  change := by
    rintro ⟨ha, hr, hm⟩
    have hk := congrArg (List.map Upstream.runtimeKey) hm
    rw [mem_preserve, map_nil, map_eq_nil_iff, append_eq_nil_iff] at hk
    obtain ⟨hmd, hun⟩ := hk
    rcases h with h | h
    · rw [loadBalancersChanged, ha, hr, hmd] at h
      cases h
    · obtain ⟨u, hu⟩ := exists_mem_of_ne_nil _ h
      rcases mem_unseen (((compute e.config config).modifiedUpstreams ++
        (compute e.config config).addedUpstreams).map Upstream.resourceKey) hu
        with hmm | hmm
      · rw [hmd, ha] at hmm
        cases hmm
      · rw [hun] at hmm
        cases hmm
  keys key := by
    rw [map_append, mem_preserve, ← map_append]
    exact mem_touched_keys
  configured u hu := touched_subset hu
  gone r := mem_removed

/-- A reload without changes, apart from projected ones. -/
theorem staged_projected
    (hs : (compute e.config config).loadBalancersChanged = false)
    (h : projectedDrDispatchChangedUpstreams serde e.config config ≠ []) :
    Staged e config (touched serde e config) [] []
      (preserveLiveDiscoveryTargets serde e.loadBalancer e.config
        (projectedDrDispatchChangedUpstreams serde e.config config)) := by
  have he := hs
  simp only [loadBalancersChanged, or_eq_false_iff, not_eq_false', List.isEmpty_iff] at he
  obtain ⟨⟨ha, hm⟩, hr⟩ := he
  refine ⟨?_, fun key => ?_, fun u hu => touched_subset hu, fun r => ?_⟩
  · rintro ⟨-, -, hn⟩
    have hk := congrArg (List.map Upstream.runtimeKey) hn
    rw [mem_preserve, map_nil, map_eq_nil_iff] at hk
    exact h hk
  · rw [nil_append, mem_preserve, touched, ha, hm]
    rfl
  · rw [← mem_removed, hr]

/-! ## Runs -/

/-- A reload keeps the cache as it is, or builds one. -/
theorem publish_reload_cases {incremental otherChanges republish : Bool}
    (h : publish serde e (.reload incremental otherChanges republish config) = some e') :
    (buildsCache serde e incremental otherChanges config = false ∧
      (compute e.config config).loadBalancersChanged = false ∧
        e' = { e with config }) ∨
      buildsCache serde e incremental otherChanges config = true ∧
        ∃ added removed modified,
          Staged e config (touched serde e config) added removed modified ∧
            e' = ⟨config, buildDeltaInner e.loadBalancer config added removed modified⟩ := by
  simp only [publish] at h
  cases hd : (compute e.config config).loadBalancersChanged with
  | true =>
    rw [hd, Bool.true_or, if_pos rfl] at h
    refine .inr ⟨by rw [buildsCache, hd, Bool.true_or], _, _, _,
      staged_incremental (.inl hd), (Option.some.inj h).symm.trans ?_⟩
    rw [stageIncrementalRequestEpoch, hd, Bool.true_or, if_pos rfl]
  | false =>
    rw [hd, Bool.false_or] at h
    rw [buildsCache, hd, Bool.false_or]
    cases hp : (projectedDrDispatchChangedUpstreams serde e.config config).isEmpty with
    | true =>
      refine .inl ⟨by rw [Bool.not_true, Bool.and_false], rfl, ?_⟩
      rw [stageIncrementalRequestEpoch, hd, hp] at h
      split_ifs at h <;> cases h <;> first | rfl | contradiction
    | false =>
      have hne : projectedDrDispatchChangedUpstreams serde e.config config ≠ [] := fun hn => by
        rw [hn] at hp
        cases hp
      rw [hp, Bool.and_false, if_neg Bool.false_ne_true, if_neg Bool.false_ne_true] at h
      cases otherChanges with
      | true =>
        refine .inr ⟨rfl, _, _, _, staged_incremental (.inr hne),
          (Option.some.inj (h.symm.trans (if_pos rfl))).trans ?_⟩
        rw [stageIncrementalRequestEpoch, hd, hp]
        rfl
      | false =>
        cases incremental with
        | true =>
          rw [if_neg Bool.false_ne_true, if_pos rfl] at h
          refine .inl ⟨rfl, rfl, ?_⟩
          split_ifs at h
          exact (Option.some.inj h).symm
        | false =>
          exact .inr ⟨rfl, _, _, _, staged_projected hd hne, (Option.some.inj h).symm⟩

/-- What holds of every epoch that is published. -/
structure RequestEpoch.Good (e : RequestEpoch) : Prop where
  keyed : e.Keyed
  consistent : e.loadBalancer.Consistent

/-- **One publication** keeps the maps together iff what it leaves alone is recorded as it is
    configured. -/
theorem publish_consistent_iff (he : e.Good) {p : Publication} (h : publish serde e p = some e') :
    e'.Keyed ∧ (e'.loadBalancer.Consistent ↔ Recorded serde e p) := by
  cases p with
  | rebuild config =>
    cases h
    exact ⟨buildInner_keyed config, iff_of_true (buildInner_consistent config) trivial⟩
  | discover namespace_ id targets algorithm =>
    cases h
    exact ⟨buildUpdateTargetsInner_keyed he.keyed,
      iff_of_true (buildUpdateTargetsInner_consistent he.consistent) trivial⟩
  | reload incremental otherChanges republish config =>
    obtain ⟨hk, hd, rfl⟩ | ⟨hb, added, removed, modified, hs, rfl⟩ :=
      publish_reload_cases h
    · refine ⟨he.keyed.congr hd, iff_of_true he.consistent fun hb => ?_⟩
      rw [hk] at hb
      cases hb
    · refine ⟨hs.keyed, (hs.consistent_iff he.keyed he.consistent).trans ?_⟩
      exact ⟨fun hr _ => hr, fun hr => hr hb⟩

/-- A serialization of the targets and of the discovery. -/
def plainSerde : Serde (List UpstreamTarget × Option Bytes) where
  upstream u := some (u.targets, u.serviceDiscovery)
  serviceDiscovery d := some ([], d)
  targets ts := some (ts, none)

/-- An upstream with a time of change, and one that is discovered, with a static target. -/
def oneDiscovered (updatedAt discoveredUpdatedAt : ℤ) : GatewayConfig where
  upstreams :=
    [{ namespace_ := lit "ns", id := lit "a", targets := [{ host := lit "a", port := 80 }],
       updatedAt },
     { namespace_ := lit "ns", id := lit "b", targets := [{ host := lit "static", port := 80 }],
       serviceDiscovery := some (lit "dns"), updatedAt := discoveredUpdatedAt }]
  names := by
    have hns : byte '|' ∉ lit "ns" := by decide +kernel
    intro u hu
    rcases List.mem_cons.1 hu with rfl | hu
    · exact hns
    · rw [List.mem_singleton.1 hu]
      exact hns

def discovered : Publication :=
  .discover (lit "ns") (lit "b") [{ host := lit "live", port := 80 }] .roundRobin

/-- **The maps of the cache** in every run of publications that leave alone only upstreams which
    are recorded as configured; any other publication would separate them. -/
theorem publications_consistent_iff {start : GatewayConfig}
    (h : Reach (publish serde) (Recorded serde) (.start start) e) :
    e.loadBalancer.Consistent ∧ ∀ p e', publish serde e p = some e' →
      (e'.loadBalancer.Consistent ↔ Recorded serde e p) := by
  have hgd : e.Good := by
    refine h.inv ⟨buildInner_keyed start, buildInner_consistent start⟩ ?_
    intro x p y _ hx hr hp
    obtain ⟨hk, hi⟩ := publish_consistent_iff hx hp
    exact ⟨hk, hi.2 hr⟩
  exact ⟨hgd.consistent, fun p e' hp => (publish_consistent_iff hgd hp).2⟩

theorem discovered_reloaded_runs :
    (exec (guarded (Recorded plainSerde) (publish plainSerde)) (.start (oneDiscovered 1 1))
      [discovered, .reload true false false (oneDiscovered 1 2)]).isSome := by
  decide +kernel

/-- Live targets are kept where the discovered upstream is what changed. -/
theorem discovered_reloaded_consistent :
    ∃ e, Reach (publish plainSerde) (Recorded plainSerde) (.start (oneDiscovered 1 1)) e ∧
      (e.loadBalancer.upstreams.get (lit "ns|b")).map (fun u => u.targets.map (·.host)) =
        some [lit "live"] ∧ e.loadBalancer.Consistent := by
  exact ⟨_, reach_guarded discovered_reloaded_runs, by decide +kernel,
    (publications_consistent_iff (reach_guarded discovered_reloaded_runs)).1⟩

theorem other_reloaded_runs :
    (exec (publish plainSerde) (.start (oneDiscovered 1 1))
      [discovered, .reload true false false (oneDiscovered 2 1)]).isSome := by
  decide +kernel

/-- A change of the other upstream takes the record of the discovered one back. -/
theorem other_reloaded_inconsistent :
    ∃ e, Reach (publish plainSerde) anyStep (.start (oneDiscovered 1 1)) e ∧
      (e.loadBalancer.balancers.get (lit "ns|b")).map (fun lb => lb.targets.map (·.host)) =
        some [lit "live"] ∧
      (e.loadBalancer.upstreams.get (lit "ns|b")).map (fun u => u.targets.map (·.host)) =
        some [lit "static"] ∧ ¬ e.loadBalancer.Consistent := by
  refine ⟨_, reach_get other_reloaded_runs, by decide +kernel, by decide +kernel, fun h => ?_⟩
  exact absurd (h (lit "ns|b")) (by decide +kernel)

end

end Ferrum.Balancer
