/-
  Plugin lists that a reload keeps are up to date.

  A reload builds the lists of `proxyIdsNeedingPluginRebuild` again and keeps the others.

  * `neutral_eq_of_key`: a plugin configuration outside `changedPcKeys` has the content it had.
  * `Kept.unchanged_of_mem`, `Kept.unchanged_of_global`: what a kept proxy resolves to lies outside
    `changedPcKeys`, before and after.
  * `kept_chains_current`: a kept proxy resolves to the plugin configurations it resolved to.
  * `unchanged_rebuilds_none`: without changes all lists are kept.
-/
import Ferrum.Plugins.Chains

namespace Ferrum.Plugins

open Lib List PluginConfig ConfigDelta

/-! ## Unchanged plugin configurations -/

/-- Each kind of resources has one of a key. -/
structure GatewayConfig.Ok (config : GatewayConfig) : Prop where
  proxies : (config.proxies.map Proxy.key).Nodup
  pluginConfigs : (config.pluginConfigs.map key).Nodup

/-- Plugin configurations that are serialized alike have the same content. -/
def Serde.Faithful {V : Type} (serde : Serde V) (old new : GatewayConfig) : Prop :=
  ∀ a ∈ old.pluginConfigs, ∀ b ∈ new.pluginConfigs, ∀ v, serde.pluginConfig a.neutral = some v →
    serde.pluginConfig b.neutral = some v → a.neutral = b.neutral

section
variable {V : Type} [DecidableEq V] {serde : Serde V} {old new : GatewayConfig}

variable {k : ResourceKey} {b a pc : PluginConfig} {id : Bytes}

theorem mem_changedPcKeys :
    k ∈ (compute serde old new).changedPcKeys ↔
      (∃ b ∈ diffAdded (pluginConfigResource serde) old.pluginConfigs new.pluginConfigs, b.key = k) ∨
      k ∈ diffRemovedIds (pluginConfigResource serde) old.pluginConfigs new.pluginConfigs ∨
      ∃ b ∈ diffModified (pluginConfigResource serde) old.pluginConfigs new.pluginConfigs,
        b.key = k := by
  simp only [changedPcKeys, compute, mem_append, mem_map, or_assoc]

theorem mem_diffAdded :
    b ∈ diffAdded (pluginConfigResource serde) old.pluginConfigs new.pluginConfigs ↔
      b ∈ new.pluginConfigs ∧ b.key ∉ old.pluginConfigs.map key := by
  rw [diffAdded, mem_filter, Bool.not_eq_true', contains_eq_mem, decide_eq_false_iff_not]
  rfl

theorem mem_diffRemovedIds :
    k ∈ diffRemovedIds (pluginConfigResource serde) old.pluginConfigs new.pluginConfigs ↔
      k ∈ old.pluginConfigs.map key ∧ k ∉ new.pluginConfigs.map key := by
  simp only [diffRemovedIds, mem_map, mem_filter, Bool.not_eq_true', contains_eq_mem,
    decide_eq_false_iff_not]
  constructor
  · rintro ⟨a, ⟨ha, hgn⟩, rfl⟩
    exact ⟨⟨a, ha, rfl⟩, hgn⟩
  · rintro ⟨⟨a, ha, rfl⟩, hgn⟩
    exact ⟨a, ⟨ha, hgn⟩, rfl⟩

section
variable (hserde : serde.Faithful old new) (hold : old.Ok)
include hserde hold

/-- What is in both configurations under a key that did not change has the same content. -/
theorem neutral_eq_of_key (ha : a ∈ old.pluginConfigs) (hb : b ∈ new.pluginConfigs)
    (hk : a.key = b.key) (hu : b.key ∉ (compute serde old new).changedPcKeys) :
    a.neutral = b.neutral := by
  have hn : b ∉ diffModified (pluginConfigResource serde) old.pluginConfigs new.pluginConfigs :=
    fun hm => hu (mem_changedPcKeys.2 (.inr (.inr ⟨b, hm, rfl⟩)))
  have hget : (byKey (resourceKey (pluginConfigResource serde)) old.pluginConfigs).get
      (resourceKey (pluginConfigResource serde) b) = some a :=
    (get_byKey hold.pluginConfigs).2 ⟨ha, hk⟩
  have hs := mt (fun h => mem_filter.2 ⟨hb, h⟩) hn
  rw [hget] at hs
  simp only [Bool.or_eq_true, not_or, Bool.not_eq_true, pluginConfigResource,
    timestampNeutralContentChanged] at hs
  obtain ⟨-, hc⟩ := hs
  split at hc
  · next va vb hva hvb =>
    rw [bne_eq_false_iff_eq] at hc
    exact hserde a ha b hb va hva (hc ▸ hvb)
  · cases hc

/-- A plugin configuration that did not change is still there. -/
theorem exists_new_of_unchanged (ha : a ∈ old.pluginConfigs)
    (hu : a.key ∉ (compute serde old new).changedPcKeys) :
    ∃ b ∈ new.pluginConfigs, a.neutral = b.neutral := by
  have hs : a.key ∈ new.pluginConfigs.map key := by
    by_contra hgn
    exact hu (mem_changedPcKeys.2 (.inr (.inl
      (mem_diffRemovedIds.2 ⟨mem_map_of_mem ha, hgn⟩))))
  obtain ⟨b, hb, hk⟩ := mem_map.1 hs
  exact ⟨b, hb, neutral_eq_of_key hserde hold ha hb hk.symm (hk ▸ hu)⟩

/-- A plugin configuration that did not change was there before. -/
theorem exists_old_of_unchanged (hb : b ∈ new.pluginConfigs)
    (hu : b.key ∉ (compute serde old new).changedPcKeys) :
    ∃ a ∈ old.pluginConfigs, a.neutral = b.neutral := by
  have hs : b.key ∈ old.pluginConfigs.map key := by
    by_contra hgn
    exact hu (mem_changedPcKeys.2 (.inl ⟨b, mem_diffAdded.2 ⟨hb, hgn⟩, rfl⟩))
  obtain ⟨a, ha, hk⟩ := mem_map.1 hs
  exact ⟨a, ha, neutral_eq_of_key hserde hold ha hb hk hu⟩

/-- The plugin configurations that satisfy `q` are the same before and after, if none of them
    changed. -/
theorem filter_neutral_perm (hnew : new.Ok) {q : PluginConfig → Bool}
    (hq : ∀ pc, q pc.neutral = q pc)
    (hu : ∀ pc ∈ old.pluginConfigs ++ new.pluginConfigs, q pc = true →
      pc.key ∉ (compute serde old new).changedPcKeys) :
    ((old.pluginConfigs.filter q).map neutral).Perm
      ((new.pluginConfigs.filter q).map neutral) := by
  have hn : ∀ {l : List PluginConfig}, (l.map key).Nodup →
      ((l.filter q).map neutral).Nodup := by
    intro l hl
    have hk := hl.sublist ((filter_sublist (p := q)).map key)
    refine List.Nodup.of_map key ?_
    rwa [map_map]
  rw [perm_ext_iff_of_nodup (hn hold.pluginConfigs) (hn hnew.pluginConfigs)]
  intro x
  simp only [mem_map, mem_filter]
  constructor
  · rintro ⟨a, ⟨ha, hqa⟩, rfl⟩
    obtain ⟨b, hb, heq⟩ := exists_new_of_unchanged hserde hold ha
      (hu a (mem_append_left _ ha) hqa)
    exact ⟨b, ⟨hb, by rw [← hq b, ← heq, hq a, hqa]⟩, heq.symm⟩
  · rintro ⟨b, ⟨hb, hqb⟩, rfl⟩
    obtain ⟨a, ha, heq⟩ := exists_old_of_unchanged hserde hold hb
      (hu b (mem_append_right _ hb) hqb)
    exact ⟨a, ⟨ha, by rw [← hq a, heq, hq b, hqb]⟩, heq⟩

end

/-! ## Kept proxies -/

theorem perm_of_samePluginAssociations {p p' : Proxy} (h : samePluginAssociations p p' = true) :
    p.plugins.Perm p'.plugins := by
  rw [samePluginAssociations, Bool.and_eq_true, beq_iff_eq, beq_iff_eq] at h
  have hs : ∀ ids : List Bytes, (sortIds ids).Perm ids := fun ids => sortByKey_perm _ ids
  exact (hs _).symm.trans (h.2 ▸ hs _)

/-- A proxy of both configurations whose list is not built again. -/
structure Kept (serde : Serde V) (old new : GatewayConfig) (p p' : Proxy) : Prop where
  mem_old : p ∈ old.proxies
  mem_new : p' ∈ new.proxies
  key : p.key = p'.key
  notMem : p'.key ∉ (compute serde old new).proxyIdsNeedingPluginRebuild old new

variable {p p' : Proxy}

section
variable (h : Kept serde old new p p')
include h

theorem Kept.get_old (hold : old.Ok) :
    (byKey Proxy.key old.proxies).get p'.key = some p := (get_byKey hold.proxies).2 ⟨h.mem_old, h.key⟩

theorem Kept.namespace_eq : p.namespace_ = p'.namespace_ :=
  congrArg Prod.fst h.key

theorem Kept.id_eq : p.id = p'.id := congrArg Prod.snd h.key

theorem Kept.plugins_perm (hold : old.Ok) : p.plugins.Perm p'.plugins := by
  have hk := h.notMem
  simp only [proxyIdsNeedingPluginRebuild, mem_append, not_or] at hk
  have ha : p'.key ∉ diffPluginAssociationChanges old.proxies new.proxies := hk.1.2
  by_contra hp
  refine ha (mem_map.2 ⟨p', mem_filter.2 ⟨h.mem_new, ?_⟩, rfl⟩)
  rw [h.get_old hold, Option.any_some, Bool.not_eq_true']
  exact Bool.eq_false_iff.2 (mt perm_of_samePluginAssociations hp)

/-- If plugin configurations changed, none of them was removed or global, and it is not associated
    with any. -/
theorem Kept.touched (hc : (compute serde old new).pluginConfigsChanged = true) :
    (compute serde old new).globalPluginConfigsChanged = false ∧
      (compute serde old new).removedPluginConfigIds = [] ∧
      (compute serde old new).referencesChanged p' = false := by
  have hk := h.notMem
  simp only [proxyIdsNeedingPluginRebuild, hc, if_true, mem_append, not_or] at hk
  obtain ⟨-, ht, ha⟩ := hk
  refine ⟨?_, ?_, ?_⟩
  · by_contra hgl
    rw [Bool.not_eq_false] at hgl
    rw [hgl, Bool.true_or, if_pos rfl] at ha
    exact ha (mem_map_of_mem h.mem_new)
  · by_contra hr
    rw [isEmpty_eq_false_iff.2 hr, Bool.not_false, Bool.or_true, if_pos rfl] at ha
    exact ha (mem_map_of_mem h.mem_new)
  · by_contra hrf
    rw [Bool.not_eq_false] at hrf
    refine ht (mem_map.2 ⟨p', mem_filter.2 ⟨h.mem_new, ?_⟩, rfl⟩)
    rw [hrf, Bool.true_or, Bool.true_or, Bool.true_or]

end

theorem pluginConfigsChanged_of_mem (h : k ∈ (compute serde old new).changedPcKeys) :
    (compute serde old new).pluginConfigsChanged = true := by
  simp only [changedPcKeys, mem_append] at h
  rw [pluginConfigsChanged, Bool.or_eq_true, Bool.or_eq_true, Bool.not_eq_true',
    Bool.not_eq_true', Bool.not_eq_true']
  simp only [isEmpty_eq_false_iff]
  rcases h with (h | h) | h
  · exact .inl (.inl fun hn => by simp [hn] at h)
  · exact .inl (.inr (ne_nil_of_mem h))
  · exact .inr fun hn => by simp [hn] at h

theorem Kept.unchanged_of_mem (h : Kept serde old new p p') (hid : id ∈ p'.plugins) :
    (p'.namespace_, id) ∉ (compute serde old new).changedPcKeys := by
  intro hm
  have hr := (h.touched (pluginConfigsChanged_of_mem hm)).2.2
  rw [referencesChanged, any_eq_false] at hr
  exact hr id hid (contains_iff_mem.2 hm)

/-- No global plugin configuration changed. -/
theorem Kept.unchanged_of_global (h : Kept serde old new p p') (hnew : new.Ok)
    (hpc : pc ∈ old.pluginConfigs ++ new.pluginConfigs) (hs : pc.scope = .global) :
    pc.key ∉ (compute serde old new).changedPcKeys := by
  intro hmm
  obtain ⟨hgl, hr, -⟩ := h.touched (pluginConfigsChanged_of_mem hmm)
  simp only [compute, Bool.or_eq_false_iff, any_eq_false] at hgl
  obtain ⟨⟨ha, hm⟩, -⟩ := hgl
  -- the one of that key in the new configuration, if `pc` is there too
  have hsl : ∀ b ∈ new.pluginConfigs, b.key = pc.key → pc ∈ new.pluginConfigs →
      (b.scope == .global) = true := by
    intro b hb hk hin
    rw [inj_on_of_nodup_map hnew.pluginConfigs hb hin hk, hs]
    rfl
  rcases mem_changedPcKeys.1 hmm with ⟨b, hb, hk⟩ | hgn | ⟨b, hb, hk⟩
  · obtain ⟨hbn, hbl⟩ := mem_diffAdded.1 hb
    rcases mem_append.1 hpc with hin | hin
    · exact hbl (hk ▸ mem_map_of_mem hin)
    · exact ha b hb (hsl b hbn hk hin)
  · have hn : diffRemovedIds (pluginConfigResource serde) old.pluginConfigs new.pluginConfigs = [] :=
      hr
    rw [hn] at hgn
    cases hgn
  · refine hm b hb ?_
    rw [Bool.or_eq_true]
    rcases mem_append.1 hpc with hin | hin
    · refine .inr (contains_iff_mem.2 (mem_map.2 ⟨pc, mem_filter.2 ⟨hin, ?_⟩, hk.symm⟩))
      rw [hs]
      rfl
    · exact .inl (hsl b (mem_of_mem_filter hb) hk hin)

/-! ## What kept proxies resolve to -/

variable (h : Kept serde old new p p') (hserde : serde.Faithful old new) (hold : old.Ok)
  (hnew : new.Ok)

include h hserde hold hnew

theorem Kept.globals_perm : ((globalConfigs old).map neutral).Perm
    ((globalConfigs new).map neutral) := by
  simp only [globalConfigs, activeConfigs, filter_filter]
  refine filter_neutral_perm hserde hold hnew (fun _ => rfl) fun pc hpc hq => ?_
  rw [Bool.and_eq_true, beq_iff_eq] at hq
  exact h.unchanged_of_global hnew hpc hq.1

theorem Kept.scopedFor_perm : ((scopedFor old p).map PluginConfig.neutral).Perm
    ((scopedFor new p').map PluginConfig.neutral) := by
  have hp : ∀ id, p.plugins.contains id = p'.plugins.contains id := fun id =>
    Bool.eq_iff_iff.2 (by
      rw [contains_iff_mem, contains_iff_mem]
      exact (h.plugins_perm hold).mem_iff)
  simp only [scopedFor, activeConfigs, filter_filter, hp, h.namespace_eq, h.id_eq]
  refine filter_neutral_perm hserde hold hnew (fun _ => rfl) fun pc _ hq => ?_
  simp only [Bool.and_eq_true, beq_iff_eq, contains_iff_mem] at hq
  obtain ⟨⟨⟨-, hns⟩, hid⟩, -⟩ := hq
  rw [PluginConfig.key, hns]
  exact h.unchanged_of_mem hid

/-- Whether a plugin configuration is the group of a key. -/
def isGroup (k : ResourceKey) (pc : PluginConfig) : Bool :=
  pc.enabled && pc.pluginName != transactionLogSchema && pc.scope == .proxyGroup && pc.key == k

omit h hserde hold hnew in
theorem get_proxyGroupConfigs {config : GatewayConfig} (hc : config.Ok) :
    (proxyGroupConfigs config).get k = some pc ↔
      pc ∈ config.pluginConfigs ∧ isGroup k pc = true := by
  have hk : (((activeConfigs config).filter fun pc => pc.scope == .proxyGroup).map
      key).Nodup :=
    hc.pluginConfigs.sublist ((filter_sublist.trans filter_sublist).map _)
  refine (get_byKey hk).trans ?_
  simp only [activeConfigs, isGroup, mem_filter, Bool.and_eq_true, beq_iff_eq, and_assoc]

omit h hserde hold hnew in
theorem isGroup_congr (h : a.neutral = b.neutral) : isGroup k a = isGroup k b :=
  (congrArg (isGroup k) h : isGroup k a.neutral = isGroup k b.neutral)

/-- The group of an id has the content it had. -/
theorem Kept.group_eq (hid : id ∈ p'.plugins) :
    ((proxyGroupConfigs old).get (p'.namespace_, id)).map neutral =
      ((proxyGroupConfigs new).get (p'.namespace_, id)).map neutral := by
  have hu := h.unchanged_of_mem hid
  generalize (p'.namespace_, id) = k at hu
  have hk : ∀ {pc : PluginConfig}, isGroup k pc = true → pc.key = k := fun hq =>
    beq_iff_eq.1 (Bool.and_eq_true_iff.1 hq).2
  ext x
  simp only [Option.map_eq_some_iff, get_proxyGroupConfigs hold, get_proxyGroupConfigs hnew]
  constructor
  · rintro ⟨a, ⟨ha, hqa⟩, rfl⟩
    obtain ⟨b, hb, heq⟩ := exists_new_of_unchanged hserde hold ha (hk hqa ▸ hu)
    exact ⟨b, ⟨hb, (isGroup_congr heq).symm.trans hqa⟩, heq.symm⟩
  · rintro ⟨b, ⟨hb, hqb⟩, rfl⟩
    obtain ⟨a, ha, heq⟩ := exists_old_of_unchanged hserde hold hb (hk hqb ▸ hu)
    exact ⟨a, ⟨ha, (isGroup_congr heq).trans hqb⟩, heq⟩

theorem Kept.groupsFor_perm : ((groupsFor old p).map neutral).Perm
    ((groupsFor new p').map neutral) := by
  rw [groupsFor, groupsFor, map_filterMap, map_filterMap, h.namespace_eq]
  refine ((h.plugins_perm hold).filterMap _).trans (List.Perm.of_eq ?_)
  exact filterMap_congr fun id hid => h.group_eq hserde hold hnew hid

end

/-! ## Kept lists -/

section
variable {V : Type} [DecidableEq V] {serde : Serde V} {old new : GatewayConfig} {p p' : Proxy}
  {make : PluginConfig → Option Bytes}

/-- Only the contents of configurations shadow. -/
theorem shadowed_congr {proxyId name : Bytes} {s s' g g' : List PluginConfig}
    (hs : (s.map neutral).Perm (s'.map neutral))
    (hg : (g.map neutral).Perm (g'.map neutral)) :
    shadowed make proxyId s g name = shadowed make proxyId s' g' name := by
  have hn : ∀ s g : List PluginConfig, shadowed make proxyId s g name =
      shadowed make proxyId (s.map neutral) (g.map neutral) name := by
    intro s g
    simp only [shadowed, any_map]
    rfl
  rw [hn s, hn s', shadowed, shadowed, hs.any_eq, hg.any_eq]

theorem Kept.resolved_perm (h : Kept serde old new p p') (hserde : serde.Faithful old new)
    (hold : old.Ok) (hnew : new.Ok) : ((resolved make old p).map neutral).Perm
      ((resolved make new p').map neutral) := by
  have hs := h.scopedFor_perm hserde hold hnew
  have hgr := h.groupsFor_perm hserde hold hnew
  have hf : ∀ q : Bytes → Bool,
      (((globalConfigs old).filter fun g => q (resolvedName make g)).map neutral).Perm
        (((globalConfigs new).filter fun g => q (resolvedName make g)).map neutral) := by
    intro q
    have hp := (h.globals_perm hserde hold hnew).filter fun g => q (resolvedName make g)
    rwa [filter_map, filter_map] at hp
  simp only [resolved, map_append, shadowed_congr hs hgr, h.id_eq]
  exact (hf fun name => !shadowed make _ _ _ name).append (hs.append hgr)

/-- What a plugin is, up to times. -/
def Plugin.content (plugin : Plugin) : Bytes × PluginConfig := (plugin.name, plugin.config.neutral)

theorem map_content_filterMap (pcs : List PluginConfig) :
    (pcs.filterMap (pluginOf make)).map Plugin.content =
      (pcs.map neutral).filterMap fun pc => (make pc).map fun name => (name, pc) := by
  rw [map_filterMap, filterMap_map]
  refine filterMap_congr fun pc _ => ?_
  rw [pluginOf, Option.map_map]
  rfl

/-- **Kept lists are up to date.** A proxy whose list is kept over a reload resolves to the same plugin
    configurations as before. The list that is kept has the plugins that a new list would have. -/
theorem kept_chains_current (hold : old.Ok) (hnew : new.Ok) (hserde : serde.Faithful old new)
    (hp : p ∈ old.proxies) (hp' : p' ∈ new.proxies) (hkey : p.key = p'.key)
    (hkept : p'.key ∉ (ConfigDelta.compute serde old new).proxyIdsNeedingPluginRebuild old new) :
    ((resolved make old p).map neutral).Perm
        ((resolved make new p').map neutral) ∧
      ∀ create create' m m', Factory.Makes create make → Factory.Makes create' make →
        buildCache create old = .ok m → buildCache create' new = .ok m' →
        chain create old p = (resolved make old p).filterMap (pluginOf make) ∧
        chain create' new p' = (resolved make new p').filterMap (pluginOf make) ∧
        ((chain create old p).map Plugin.content).Perm ((chain create' new p').map Plugin.content) ∧
        (old.Named → m.get p'.runtimeKey = some (chain create old p)) ∧
        (new.Named → m'.get p'.runtimeKey = some (chain create' new p')) := by
  have hpr := @Kept.resolved_perm V _ serde old new p p' make ⟨hp, hp', hkey, hkept⟩ hserde hold hnew
  refine ⟨hpr, fun create create' m m' hmk hmk' hm hm' => ?_⟩
  have hc := chain_configs hmk hm hp
  have hc' := chain_configs hmk' hm' hp'
  refine ⟨hc, hc', ?_, fun hn => ?_, fun hn => ?_⟩
  · rw [hc, hc', map_content_filterMap, map_content_filterMap]
    exact hpr.filterMap _
  · have hr : p'.runtimeKey = p.runtimeKey := by
      obtain ⟨hns, hid⟩ := Prod.mk.inj hkey
      rw [Proxy.runtimeKey, Proxy.runtimeKey, hns, hid]
    rw [hr]
    exact get_buildCache hn hold.proxies hm hp
  · exact get_buildCache hn hnew.proxies hm' hp'

/-! ## Reloads without changes -/

theorem diffAdded_eq_nil {T : Type} {r : Resource T} {l l' : List T} (h : l' ⊆ l) :
    diffAdded r l l' = [] :=
  filter_eq_nil_iff.2 fun t ht => by simpa using ⟨t, h ht, rfl⟩

theorem diffModified_eq_nil {T : Type} {r : Resource T} {l l' : List T} (h : l' ⊆ l)
    (hl : (l.map (resourceKey r)).Nodup) (hc : ∀ t ∈ l', r.persistedContentChanged t t = false) :
    diffModified r l l' = [] := by
  refine filter_eq_nil_iff.2 fun t ht => ?_
  rw [(get_byKey hl).2 ⟨h ht, rfl⟩]
  simp [hc t ht]

/-- **A reload without changes rebuilds nothing.**  Proxies may be gone or in another order.  What
    cannot be serialized counts as changed. -/
theorem unchanged_rebuilds_none (hold : old.Ok) (hp : new.proxies ⊆ old.proxies)
    (hc : new.pluginConfigs ⊆ old.pluginConfigs) (hc' : old.pluginConfigs ⊆ new.pluginConfigs)
    (hsp : ∀ p ∈ new.proxies, (proxyResource serde).persistedContentChanged p p = false)
    (hsc : ∀ pc ∈ new.pluginConfigs,
      (pluginConfigResource serde).persistedContentChanged pc pc = false) :
    (ConfigDelta.compute serde old new).proxyIdsNeedingPluginRebuild old new = [] := by
  have hr : diffRemovedIds (pluginConfigResource serde) old.pluginConfigs new.pluginConfigs = [] :=
    congrArg (map _) (diffAdded_eq_nil hc')
  have ha : diffPluginAssociationChanges old.proxies new.proxies = [] := by
    refine congrArg (map _) (filter_eq_nil_iff.2 fun p hm => ?_)
    rw [(get_byKey hold.proxies).2 ⟨hp hm, rfl⟩]
    simp [samePluginAssociations]
  have hmp := @diffModified_eq_nil _ (proxyResource serde) _ _ hp hold.proxies hsp
  have hmc := @diffModified_eq_nil _ (pluginConfigResource serde) _ _ hc hold.pluginConfigs hsc
  simp [proxyIdsNeedingPluginRebuild, pluginConfigsChanged,
    compute, diffAdded_eq_nil hp, diffAdded_eq_nil hc, hr, ha, hmp, hmc]

end

/-! ## A reload -/

namespace Reload

def make : PluginConfig → Option Bytes
  | pc => if pc.enabled then some pc.pluginName else none

def create : Factory := fun pc => .ok (make pc)

def serde : Serde Bytes where
  proxy p := some p.id
  pluginConfig pc := some (pc.id ++ pc.pluginName)

def limit : PluginConfig :=
  { id := [1], pluginName := lit "rate", namespace_ := [9], scope := .global, updatedAt := 3 }

def ownLimit : PluginConfig :=
  { id := [2], pluginName := lit "rate", namespace_ := [9], scope := .proxy, proxyId := some [5] }

def cors : PluginConfig :=
  { id := [3], pluginName := lit "cors", namespace_ := [9], scope := .proxyGroup }

/-- The proxy that is kept, and one that gets another group. -/
def kept : Proxy :=
  { id := [5], namespace_ := [9], dispatchKind := .httpPool, plugins := [[2], [3]] }

def rebuilt (plugins : List Bytes) : Proxy :=
  { id := [6], namespace_ := [9], dispatchKind := .httpPool, plugins }

def old : GatewayConfig := ⟨[kept, rebuilt []], [limit, ownLimit, cors]⟩

def new : GatewayConfig :=
  ⟨[rebuilt [[4]], { kept with plugins := [[3], [2]] }],
    [{ cors with id := [4] }, cors, ownLimit, limit]⟩

theorem faithful : serde.Faithful old new := by
  intro a ha b hb v hva hvb
  simp only [old, new, mem_cons, not_mem_nil, or_false] at ha hb
  have heq : a.id ++ a.pluginName = b.id ++ b.pluginName := Option.some.inj (hva.trans hvb.symm)
  rcases ha with rfl | rfl | rfl <;> rcases hb with rfl | rfl | rfl | rfl <;>
    first
    | rfl
    | exact absurd heq (by decide +kernel)

theorem makes : create.Makes make := fun _ _ h => (Except.ok.inj h).symm

theorem built {config : GatewayConfig} (h : (buildCache create config).toBool = true) :
    ∃ m, buildCache create config = .ok m := by
  cases hm : buildCache create config with
  | ok m => exact ⟨m, rfl⟩
  | error e => rw [hm] at h; cases h

end Reload

open Reload in
theorem kept_chains_current_reload :
    (rebuilt [[4]]).key ∈ (ConfigDelta.compute serde old new).proxyIdsNeedingPluginRebuild old new ∧
      (chain create old kept).map Plugin.name = [lit "rate", lit "cors"] ∧
      ∃ m, buildCache create old = .ok m ∧ m.get kept.runtimeKey = some (chain create old kept) ∧
        ((chain create old kept).map Plugin.content).Perm
          ((chain create new { kept with plugins := [[3], [2]] }).map Plugin.content) := by
  have hmn := @kept_chains_current Bytes _ serde old new kept { kept with plugins := [[3], [2]] } make
    ⟨by decide +kernel, by decide +kernel⟩ ⟨by decide +kernel, by decide +kernel⟩ faithful
    (.head _) (.tail _ (.head _)) rfl (by decide +kernel)
  obtain ⟨m, hm⟩ := @built old (by decide +kernel)
  obtain ⟨m', hm'⟩ := @built new (by decide +kernel)
  obtain ⟨-, -, hpr, hget, -⟩ := hmn.2 create create m m' makes makes hm hm'
  refine ⟨by decide +kernel, by decide +kernel, m, hm, hget ?_, hpr⟩
  intro p hp
  simp only [old, mem_cons, not_mem_nil, or_false] at hp
  rcases hp with rfl | rfl <;> decide +kernel

open Reload in
theorem unchanged_rebuilds_none_reordered : let new := ⟨[kept], [cors, limit, ownLimit]⟩
    (ConfigDelta.compute serde old new).proxyIdsNeedingPluginRebuild old new = [] :=
  unchanged_rebuilds_none ⟨by decide +kernel, by decide +kernel⟩ (by simp [old]) (by simp [old])
    (by simp [old]) (by decide +kernel) (by decide +kernel)

end Ferrum.Plugins
