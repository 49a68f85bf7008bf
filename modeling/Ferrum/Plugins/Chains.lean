/-
  The plugin lists of proxies.

  A proxy runs the global plugins, but for those that its own plugins shadow by name, the plugins that
  are placed on it, and those of the groups that it is in.

  * `chain_configs`: if there are no errors, a proxy runs what is made of the plugin configurations
    that are `resolved` for it.
  * `get_buildCache`: the list that is found for a proxy.
-/
import Ferrum.Plugins.Delta

namespace Ferrum.Plugins

open Lib List

/-! ## Building the lists -/

structure Plugin where
  name : Bytes
  config : PluginConfig

/-- What becomes of a plugin configuration: a plugin of some name, nothing to run, or an error. -/
abbrev Factory := PluginConfig → Except Bytes (Option Bytes)

def transactionLogSchema : Bytes := lit "transaction_log_schema"

/-- The list of a proxy while it is merged: the global plugins that are left, and its own. -/
structure Merged where
  globals : List Plugin
  own : List Plugin

def isSizeLimiting (pluginName : Bytes) : Bool :=
  pluginName == lit "request_size_limiting" || pluginName == lit "response_size_limiting"

/-- Bounds on sizes apply all together. -/
def removeShadowedGlobalPlugin (m : Merged) (pluginName : Bytes) : Merged :=
  if isSizeLimiting pluginName then m
  else { m with globals := m.globals.filter fun plugin => plugin.name != pluginName }

def isIstioRouteTransformConsumer (config : PluginConfig) (proxyId : Bytes) : Bool :=
  if config.scope ≠ .proxy ∨ config.proxyId ≠ some proxyId then false
  else
    let expectedPrefix :=
      if config.pluginName = lit "request_transformer" then some (lit "istio-vs-req-xform-")
      else if config.pluginName = lit "response_transformer" then some (lit "istio-vs-resp-xform-")
      else none
    match expectedPrefix with
    | none => false
    | some front =>
      config.id == front ++ proxyId &&
        (config.config.get (lit "rules")).any Value.isEmptyArray &&
        (config.config.get (lit "apply_route_overrides")).bind Value.asBool == some true

section
variable (create : Factory)

/-- Merge one plugin of a proxy; errors are collected. -/
def mergePlugin (proxyId : Bytes) (shadows : PluginConfig → Bool) (acc : Merged × List Bytes)
    (pc : PluginConfig) : Merged × List Bytes :=
  let shadowing (name : Bytes) :=
    if shadows pc then removeShadowedGlobalPlugin acc.1 name else acc.1
  match create pc with
  | .ok (some name) =>
    ({ shadowing name with own := (shadowing name).own ++ [⟨name, pc⟩] }, acc.2)
  | .ok none => (shadowing pc.pluginName, acc.2)
  | .error e => (acc.1, acc.2 ++ [lit "proxy_id=" ++ proxyId ++ lit ": " ++ e])

variable (config : GatewayConfig)

/-- The plugin configurations of the second pass. -/
def activeConfigs : List PluginConfig :=
  config.pluginConfigs.filter fun pc => pc.enabled && pc.pluginName != transactionLogSchema

def globalConfigs : List PluginConfig := (activeConfigs config).filter fun pc => pc.scope == .global

/-- By namespace and proxy id. -/
def proxyScopedConfigs : HMap ResourceKey (List PluginConfig) :=
  (activeConfigs config).foldl
    (fun m pc => match pc.scope, pc.proxyId with
      | .proxy, some proxyId => m.push (pc.namespace_, proxyId) pc
      | _, _ => m) HMap.empty

def proxyGroupConfigs : HMap ResourceKey PluginConfig :=
  ((activeConfigs config).filter fun pc => pc.scope == .proxyGroup).foldl
    (fun m pc => m.insert pc.key pc) HMap.empty

/-- The global plugins, and the errors on the way; schemas only have to be valid. -/
def buildGlobals : List Plugin × List Bytes :=
  let schemas := config.pluginConfigs.filter fun pc =>
    pc.enabled && pc.scope == .global && pc.pluginName == transactionLogSchema
  let errors := schemas.foldl
    (fun errors pc => match create pc with
      | .ok _ => errors
      | .error e => errors ++ [e]) []
  (globalConfigs config).foldl
    (fun acc pc => match create pc with
      | .ok (some name) => (acc.1 ++ [⟨name, pc⟩], acc.2)
      | .ok none => acc
      | .error e => (acc.1, acc.2 ++ [e])) ([], errors)

/-- As the plugin of a group is a function of its configuration, it is not visible that its members
    share one. -/
def mergeProxy (globals : List Plugin) (proxy : Proxy) : Merged × List Bytes :=
  let scopedConfigs := (((proxyScopedConfigs config).get proxy.key).getD []).filter fun pc =>
    proxy.plugins.contains pc.id
  let acc := scopedConfigs.foldl
    (mergePlugin create proxy.id fun pc => !isIstioRouteTransformConsumer pc proxy.id)
    (⟨globals, []⟩, [])
  proxy.plugins.foldl
    (fun acc id => match (proxyGroupConfigs config).get (proxy.namespace_, id) with
      | some pc => mergePlugin create proxy.id (fun _ => true) acc pc
      | none => acc) acc

/-- The plugins that a proxy runs. -/
def chain (proxy : Proxy) : List Plugin :=
  let merged := (mergeProxy create config (buildGlobals create config).1 proxy).1
  merged.globals ++ merged.own

def Proxy.runtimeKey (p : Proxy) : Bytes := p.namespace_ ++ byte '|' :: p.id

/-- The lists of all proxies, unless there are errors. -/
def buildCache : Except (List Bytes) (HMap Bytes (List Plugin)) :=
  let globals := buildGlobals create config
  let errors := config.proxies.foldl
    (fun errors proxy => errors ++ (mergeProxy create config globals.1 proxy).2) globals.2
  if errors.isEmpty then
    .ok (config.proxies.foldl
      (fun m proxy => m.insert proxy.runtimeKey (chain create config proxy)) HMap.empty)
  else .error errors

end

/-! ## The lists without the loops -/

/-- The plugin of a configuration. -/
def created (create : Factory) (pc : PluginConfig) : Option Plugin :=
  match create pc with
  | .ok (some name) => some ⟨name, pc⟩
  | _ => none

/-- The error of a configuration. -/
def failed (create : Factory) (pc : PluginConfig) : Option Bytes :=
  match create pc with
  | .ok _ => none
  | .error e => some e

/-- Whether a configuration shadows the global plugins of a name. -/
def shadowsName (create : Factory) (pc : PluginConfig) (name : Bytes) : Bool :=
  match create pc with
  | .ok made => made.getD pc.pluginName == name && !isSizeLimiting name
  | .error _ => false

section
variable {create : Factory} {config : GatewayConfig} {proxy : Proxy}

theorem removeShadowed_eq (m : Merged) (name : Bytes) : removeShadowedGlobalPlugin m name =
    { m with globals := m.globals.filter fun g => !(name == g.name && !isSizeLimiting g.name) } := by
  rw [removeShadowedGlobalPlugin]
  split_ifs with hs
  · have ha : m.globals.filter (fun g => !(name == g.name && !isSizeLimiting g.name)) =
        m.globals := by
      refine filter_eq_self.2 fun g _ => ?_
      by_cases hn : name = g.name
      · simp [← hn, hs]
      · simp [hn]
    rw [ha]
  · congr 1
    refine filter_congr fun g _ => ?_
    by_cases hn : name = g.name
    · simp [← hn, hs]
    · rw [beq_eq_false_iff_ne.2 hn, Bool.false_and, Bool.not_false, bne_iff_ne]
      exact Ne.symm hn

/-- The errors of configurations, as they are reported for a proxy. -/
def failures (create : Factory) (proxyId : Bytes) (pcs : List PluginConfig) : List Bytes :=
  (pcs.filterMap (failed create)).map fun e => lit "proxy_id=" ++ proxyId ++ lit ": " ++ e

theorem mergePlugin_eq (proxyId : Bytes) (shadows : PluginConfig → Bool) (acc : Merged × List Bytes)
    (pc : PluginConfig) :
    mergePlugin create proxyId shadows acc pc =
      (⟨acc.1.globals.filter fun g => !(shadows pc && shadowsName create pc g.name),
        acc.1.own ++ (created create pc).toList⟩, acc.2 ++ failures create proxyId [pc]) := by
  rw [mergePlugin, created]
  simp only [shadowsName, removeShadowed_eq, failures, filterMap_cons, failed]
  cases hs : shadows pc <;> rcases create pc with e | _ | name <;> simp

/-- What merging a list of plugins comes to. -/
theorem foldl_mergePlugin (proxyId : Bytes) (shadows : PluginConfig → Bool) (pcs : List PluginConfig)
    (acc : Merged × List Bytes) :
    pcs.foldl (mergePlugin create proxyId shadows) acc =
      (⟨acc.1.globals.filter fun g => pcs.all fun pc => !(shadows pc && shadowsName create pc g.name),
        acc.1.own ++ pcs.filterMap (created create)⟩, acc.2 ++ failures create proxyId pcs) := by
  induction pcs generalizing acc with
  | nil => simp [failures]
  | cons pc pcs ih =>
    have ho : (created create pc).toList ++ pcs.filterMap (created create) =
        (pc :: pcs).filterMap (created create) := by
      rw [filterMap_cons]
      cases created create pc <;> rfl
    have he : failures create proxyId [pc] ++ failures create proxyId pcs =
        failures create proxyId (pc :: pcs) := by
      simp only [failures, ← map_append, ← filterMap_append, singleton_append]
    rw [foldl_cons, ih, mergePlugin_eq, filter_filter, append_assoc, append_assoc, ho, he]
    simp only [all_cons, Bool.and_comm]

/-- The global plugins are those that are made; no error is dropped. -/
theorem buildGlobals_eq (create : Factory) (config : GatewayConfig) :
    (buildGlobals create config).1 = (globalConfigs config).filterMap (created create) ∧
      ∃ errors, (buildGlobals create config).2 =
        errors ++ (globalConfigs config).filterMap (failed create) := by
  have hf : ∀ (pcs : List PluginConfig) (acc : List Plugin × List Bytes),
      pcs.foldl (fun acc pc => match create pc with
        | .ok (some name) => (acc.1 ++ [⟨name, pc⟩], acc.2)
        | .ok none => acc
        | .error e => (acc.1, acc.2 ++ [e])) acc =
      (acc.1 ++ pcs.filterMap (created create), acc.2 ++ pcs.filterMap (failed create)) := by
    intro pcs
    induction pcs with
    | nil => simp
    | cons pc pcs ih =>
      intro acc
      rw [foldl_cons, ih, filterMap_cons, filterMap_cons, created, failed]
      rcases create pc with e | _ | name <;> simp
  exact ⟨congrArg Prod.fst (hf _ _), _, congrArg Prod.snd (hf _ _)⟩

/-- The plugin configurations that are placed on a proxy. -/
def scopedFor (config : GatewayConfig) (proxy : Proxy) : List PluginConfig :=
  (activeConfigs config).filter fun pc => pc.scope == .proxy && pc.proxyId == some proxy.id &&
    pc.namespace_ == proxy.namespace_ && proxy.plugins.contains pc.id

/-- The plugin configurations of the groups of a proxy. -/
def groupsFor (config : GatewayConfig) (proxy : Proxy) : List PluginConfig :=
  proxy.plugins.filterMap fun id => (proxyGroupConfigs config).get (proxy.namespace_, id)

theorem get_proxyScopedConfigs (config : GatewayConfig) (proxy : Proxy) :
    ((proxyScopedConfigs config).get proxy.key).getD [] = (activeConfigs config).filter fun pc =>
      pc.scope == .proxy && pc.proxyId == some proxy.id && pc.namespace_ == proxy.namespace_ := by
  have hf : ∀ (pcs : List PluginConfig) (m : HMap ResourceKey (List PluginConfig)),
      ((pcs.foldl (fun m pc => match pc.scope, pc.proxyId with
        | .proxy, some proxyId => m.push (pc.namespace_, proxyId) pc
        | _, _ => m) m).get proxy.key).getD [] = (m.get proxy.key).getD [] ++ pcs.filter fun pc =>
          pc.scope == .proxy && pc.proxyId == some proxy.id && pc.namespace_ == proxy.namespace_ := by
    intro pcs
    induction pcs with
    | nil => simp
    | cons pc pcs ih =>
      intro m
      rw [foldl_cons, ih, filter_cons]
      split
      · next proxyId hs hp =>
        rw [HMap.get_push, hs, hp, append_assoc]
        congr 1
        by_cases hk : (pc.namespace_, proxyId) = proxy.key
        · obtain ⟨hns, hid⟩ := Prod.mk.inj hk
          rw [if_pos hk, if_pos (by simp [hns, hid])]
          rfl
        · have hne : ¬(proxyId = proxy.id ∧ pc.namespace_ = proxy.namespace_) := fun h =>
            hk (Prod.ext h.2 h.1)
          simp only [if_neg hk, nil_append]
          rw [if_neg]
          simpa using hne
      · next hn =>
        rw [if_neg]
        intro h
        simp only [Bool.and_eq_true, beq_iff_eq] at h
        exact hn proxy.id h.1.1 h.1.2
  exact (hf _ _).trans (by simp)

/-- The merged list of a proxy, without the loops. -/
theorem mergeProxy_eq (globals : List Plugin) : mergeProxy create config globals proxy =
    (⟨globals.filter fun g =>
        ((scopedFor config proxy).all fun pc =>
          !(!isIstioRouteTransformConsumer pc proxy.id && shadowsName create pc g.name)) &&
        (groupsFor config proxy).all fun pc => !shadowsName create pc g.name,
      (scopedFor config proxy).filterMap (created create) ++
        (groupsFor config proxy).filterMap (created create)⟩,
      failures create proxy.id (scopedFor config proxy ++ groupsFor config proxy)) := by
  have hs : ((((proxyScopedConfigs config).get proxy.key).getD []).filter fun pc =>
      proxy.plugins.contains pc.id) = scopedFor config proxy := by
    rw [get_proxyScopedConfigs, filter_filter, scopedFor]
    exact filter_congr fun pc _ => Bool.and_comm _ _
  have hgr : ∀ (ids : List Bytes) (acc : Merged × List Bytes),
      ids.foldl (fun acc id => match (proxyGroupConfigs config).get (proxy.namespace_, id) with
        | some pc => mergePlugin create proxy.id (fun _ => true) acc pc
        | none => acc) acc =
      (ids.filterMap fun id => (proxyGroupConfigs config).get (proxy.namespace_, id)).foldl
        (mergePlugin create proxy.id fun _ => true) acc := by
    intro ids
    induction ids with
    | nil => simp
    | cons id ids ih =>
      intro acc
      rw [foldl_cons, ih, filterMap_cons]
      cases (proxyGroupConfigs config).get (proxy.namespace_, id) <;> rfl
  rw [mergeProxy, hs]
  simp only [hgr, foldl_mergePlugin, filter_filter, nil_append, Bool.true_and, failures,
    filterMap_append, map_append]
  refine Prod.ext (congrArg₂ Merged.mk ?_ rfl) rfl
  exact filter_congr fun g _ => Bool.and_comm _ _

/-! ## What is resolved -/

/-- What is made of a plugin configuration, if there is no error, depends on its content only. -/
def Factory.Makes (create : Factory) (make : PluginConfig → Option Bytes) : Prop :=
  ∀ pc made, create pc = .ok made → made = make pc.neutral

/-- The name by which a plugin configuration shadows others or is shadowed. -/
def resolvedName (make : PluginConfig → Option Bytes) (pc : PluginConfig) : Bytes :=
  (make pc.neutral).getD pc.pluginName

/-- Whether one of a proxy's own plugin configurations shadows the global ones of a name. -/
def shadowed (make : PluginConfig → Option Bytes) (proxyId : Bytes)
    (scopedConfigs groups : List PluginConfig) (name : Bytes) : Bool :=
  !isSizeLimiting name &&
    (scopedConfigs.any (fun pc =>
        !isIstioRouteTransformConsumer pc proxyId && resolvedName make pc == name) ||
      groups.any fun pc => resolvedName make pc == name)

/-- The plugin configurations that a proxy resolves to: the global ones that are not shadowed by name,
    those that are placed on it, and those of its groups. -/
def resolved (make : PluginConfig → Option Bytes) (config : GatewayConfig) (proxy : Proxy) :
    List PluginConfig :=
  (globalConfigs config).filter (fun g =>
    !shadowed make proxy.id (scopedFor config proxy) (groupsFor config proxy) (resolvedName make g)) ++
    (scopedFor config proxy ++ groupsFor config proxy)

variable {make : PluginConfig → Option Bytes}

theorem errors_foldl (proxies : List Proxy) (globals : List Plugin) (errors : List Bytes) :
    proxies.foldl (fun errors proxy => errors ++ (mergeProxy create config globals proxy).2) errors =
      errors ++ proxies.flatMap fun proxy => (mergeProxy create config globals proxy).2 := by
  induction proxies generalizing errors with
  | nil => simp
  | cons proxy proxies ih => rw [foldl_cons, ih, flatMap_cons, append_assoc]

/-- If the lists were built, no configuration of a proxy had an error. -/
theorem ok_of_buildCache {m : HMap Bytes (List Plugin)} (h : buildCache create config = .ok m)
    (hp : proxy ∈ config.proxies) {pc : PluginConfig}
    (hpc : pc ∈ globalConfigs config ++ (scopedFor config proxy ++ groupsFor config proxy)) :
    failed create pc = none := by
  rw [buildCache, errors_foldl] at h
  split_ifs at h with he
  rw [List.isEmpty_iff, append_eq_nil_iff, flatMap_eq_nil_iff] at he
  obtain ⟨hgl, hpr⟩ := he
  rcases mem_append.1 hpc with hpc | hpc
  · obtain ⟨errors, her⟩ := (buildGlobals_eq create config).2
    rw [her, append_eq_nil_iff, filterMap_eq_nil_iff] at hgl
    exact hgl.2 pc hpc
  · have ho := hpr proxy hp
    rw [mergeProxy_eq, failures, map_eq_nil_iff, filterMap_eq_nil_iff] at ho
    exact ho pc hpc

theorem create_of_ok (hmk : create.Makes make) {pc : PluginConfig} (h : failed create pc = none) :
    create pc = .ok (make pc.neutral) := by
  rw [failed] at h
  split at h
  · next made hm => rw [hm, hmk pc made hm]
  · cases h

theorem shadowed_eq (hm : create.Makes make) {scopedConfigs groups : List PluginConfig}
    (h : ∀ pc ∈ scopedConfigs ++ groups, failed create pc = none) (name : Bytes) :
    ((scopedConfigs.all fun pc =>
        !(!isIstioRouteTransformConsumer pc proxy.id && shadowsName create pc name)) &&
      groups.all fun pc => !shadowsName create pc name) =
      !shadowed make proxy.id scopedConfigs groups name := by
  have hn : ∀ pc ∈ scopedConfigs ++ groups, shadowsName create pc name =
      (resolvedName make pc == name && !isSizeLimiting name) := by
    intro pc hpc
    rw [shadowsName, create_of_ok hm (h pc hpc), resolvedName]
  have hs : scopedConfigs.all (fun pc =>
      !(!isIstioRouteTransformConsumer pc proxy.id && shadowsName create pc name)) =
      scopedConfigs.all fun pc => !(!isIstioRouteTransformConsumer pc proxy.id &&
        (resolvedName make pc == name && !isSizeLimiting name)) := by
    rw [Bool.eq_iff_iff, all_eq_true, all_eq_true]
    exact forall₂_congr fun pc hpc => by rw [hn pc (mem_append_left _ hpc)]
  have hgr : groups.all (fun pc => !shadowsName create pc name) =
      groups.all fun pc => !(resolvedName make pc == name && !isSizeLimiting name) := by
    rw [Bool.eq_iff_iff, all_eq_true, all_eq_true]
    exact forall₂_congr fun pc hpc => by rw [hn pc (mem_append_right _ hpc)]
  rw [hs, hgr, shadowed]
  cases isSizeLimiting name
  · simp [not_any_eq_all_not]
  · simp

/-- The plugin that is made of a configuration without an error. -/
def pluginOf (make : PluginConfig → Option Bytes) (pc : PluginConfig) : Option Plugin :=
  (make pc.neutral).map fun name => ⟨name, pc⟩

variable {m : HMap Bytes (List Plugin)}

/-- **The list of a proxy has what is made of the configurations that it resolves to.** -/
theorem chain_configs (hm : create.Makes make) (h : buildCache create config = .ok m)
    (hp : proxy ∈ config.proxies) :
    chain create config proxy = (resolved make config proxy).filterMap (pluginOf make) := by
  have hok := fun pc hpc => @ok_of_buildCache create config proxy m h hp pc hpc
  have hc : ∀ pc ∈ globalConfigs config ++ (scopedFor config proxy ++ groupsFor config proxy),
      created create pc = pluginOf make pc := by
    intro pc hpc
    rw [created, create_of_ok hm (hok pc hpc), pluginOf]
    cases make pc.neutral <;> rfl
  have hf : ∀ l ⊆ globalConfigs config ++ (scopedFor config proxy ++ groupsFor config proxy),
      l.filterMap (created create) = l.filterMap (pluginOf make) := fun l hl =>
    filterMap_congr fun pc hpc => hc pc (hl hpc)
  rw [chain, mergeProxy_eq, (buildGlobals_eq create config).1, ← filterMap_append,
    hf _ (subset_append_left _ _), hf _ (subset_append_right _ _)]
  dsimp only
  rw [filter_filterMap, resolved, filterMap_append (l := List.filter _ _), filterMap_filter]
  congr 1
  refine filterMap_congr fun pc _ => ?_
  simp only [shadowed_eq hm fun pc hpc => hok pc (mem_append_right _ hpc)]
  rw [pluginOf, resolvedName]
  cases make pc.neutral with
  | none => simp
  | some name => simp [Option.filter]

/-! ## Looking up -/

/-- The namespaces of proxies have no separator in them. -/
def GatewayConfig.Named (config : GatewayConfig) : Prop :=
  ∀ p ∈ config.proxies, byte '|' ∉ p.namespace_

theorem runtimeKey_inj (hn : config.Named) {p p' : Proxy} (hp : p ∈ config.proxies)
    (hp' : p' ∈ config.proxies) (h : p.runtimeKey = p'.runtimeKey) : p.key = p'.key := by
  have ht : ∀ q ∈ config.proxies, q.runtimeKey.takeWhile (· ≠ byte '|') = q.namespace_ := by
    intro q hq
    have ha : ∀ b ∈ q.namespace_, decide (b ≠ byte '|') = true := fun b hb =>
      decide_eq_true fun h => hn q hq (h ▸ hb)
    rw [Proxy.runtimeKey, takeWhile_append_of_pos ha]
    simp
  have hns : p.namespace_ = p'.namespace_ := by rw [← ht p hp, h, ht p' hp']
  rw [Proxy.runtimeKey, Proxy.runtimeKey, hns, append_cancel_left_eq, List.cons.injEq] at h
  exact Prod.ext hns h.2

theorem get_buildCache (hn : config.Named) (hk : (config.proxies.map Proxy.key).Nodup)
    (h : buildCache create config = .ok m) (hp : proxy ∈ config.proxies) :
    m.get proxy.runtimeKey = some (chain create config proxy) := by
  have hnd : (config.proxies.map Proxy.runtimeKey).Nodup := by
    rw [nodup_map_iff_inj_on (hk.of_map _)]
    exact fun p hp p' hp' heq => inj_on_of_nodup_map hk hp hp' (runtimeKey_inj hn hp hp' heq)
  rw [buildCache] at h
  split_ifs at h
  cases h
  exact (HMap.get_foldl_insert_iff Proxy.runtimeKey (chain create config) hnd).2
    ⟨proxy, hp, rfl, rfl⟩

end

end Ferrum.Plugins
