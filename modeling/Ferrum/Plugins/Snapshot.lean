/-
  A configuration snapshot and the increments that are applied to it.

  An increment removes resources, then takes what it removed out of the proxies' associations, and
  last replaces or appends the resources it brings.  All resources have a namespace and an id; ids
  are unique in a namespace only.

  * `upsert_spec`: how an update changes a list of resources with distinct keys.
  * `snapshot_applied`: what a snapshot is after an increment.
-/
import Ferrum.Plugins.Delta

namespace Ferrum.Plugins

open Lib List

structure Consumer where
  id : Bytes
  namespace_ : Bytes
  /-- The other fields that are stored with it. -/
  row : Bytes := []

structure Upstream where
  id : Bytes
  namespace_ : Bytes
  row : Bytes := []

def Consumer.key (c : Consumer) : ResourceKey := (c.namespace_, c.id)

def Upstream.key (u : Upstream) : ResourceKey := (u.namespace_, u.id)

structure ConfigSnapshot extends GatewayConfig where
  consumers : List Consumer
  upstreams : List Upstream
  loadedAt : ℤ

structure IncrementalResult where
  addedOrModifiedProxies : List Proxy := []
  removedProxyIds : List ResourceKey := []
  addedOrModifiedConsumers : List Consumer := []
  removedConsumerIds : List ResourceKey := []
  addedOrModifiedPluginConfigs : List PluginConfig := []
  removedPluginConfigIds : List ResourceKey := []
  addedOrModifiedUpstreams : List Upstream := []
  removedUpstreamIds : List ResourceKey := []
  pollTimestamp : ℤ

section
variable {T : Type} (key : T → ResourceKey)

/-- The positions of the keys. -/
def positions (existing : List T) : HMap ResourceKey ℕ :=
  existing.zipIdx.foldl (fun index e => index.insert (key e.1) e.2) HMap.empty

def upsertItem (s : List T × HMap ResourceKey ℕ) (item : T) : List T × HMap ResourceKey ℕ :=
  match s.2.get (key item) with
  | some pos => (s.1.set pos item, s.2)
  | none => (s.1 ++ [item], s.2.insert (key item) s.1.length)

def upsertByNamespaceAndId (existing updates : List T) : List T :=
  (updates.foldl (upsertItem key) (existing, positions key existing)).1

def retainKept (removed : List ResourceKey) (l : List T) : List T :=
  l.filter fun t => !removed.contains (key t)

end

/-- Plugin associations are scoped by the namespace of the proxy. -/
def Proxy.retainAssociations (removed : List ResourceKey) (p : Proxy) : Proxy :=
  { p with plugins := p.plugins.filter fun id => !removed.contains (p.namespace_, id) }

def applyIncrementalResources (config : ConfigSnapshot) (result : IncrementalResult) :
    ConfigSnapshot :=
  let proxies := retainKept Proxy.key result.removedProxyIds config.proxies
  let consumers := retainKept Consumer.key result.removedConsumerIds config.consumers
  let pluginConfigs := retainKept PluginConfig.key result.removedPluginConfigIds config.pluginConfigs
  let upstreams := retainKept Upstream.key result.removedUpstreamIds config.upstreams
  let proxies := proxies.map (Proxy.retainAssociations result.removedPluginConfigIds)
  { config with
    proxies := upsertByNamespaceAndId Proxy.key proxies result.addedOrModifiedProxies
    consumers := upsertByNamespaceAndId Consumer.key consumers result.addedOrModifiedConsumers
    pluginConfigs :=
      upsertByNamespaceAndId PluginConfig.key pluginConfigs result.addedOrModifiedPluginConfigs
    upstreams := upsertByNamespaceAndId Upstream.key upstreams result.addedOrModifiedUpstreams }

def applyIncrementalToConfigSnapshot (config : ConfigSnapshot) (result : IncrementalResult) :
    ConfigSnapshot :=
  { applyIncrementalResources config result with loadedAt := result.pollTimestamp }

/-! ## One update -/

section
variable {T : Type} {key : T → ResourceKey}

/-- The keys differ and the index has their positions. -/
structure Indexed (key : T → ResourceKey) (s : List T × HMap ResourceKey ℕ) : Prop where
  unique : (s.1.map key).Nodup
  get : ∀ k pos, s.2.get k = some pos ↔ (s.1.map key)[pos]? = some k

theorem indexed_positions {l : List T} (h : (l.map key).Nodup) : Indexed key (l, positions key l) := by
  refine ⟨h, fun k pos => ?_⟩
  have hks : l.zipIdx.map (fun e => key e.1) = l.map key := by
    rw [show (fun e : T × ℕ => key e.1) = key ∘ Prod.fst from rfl, ← map_map,
      zipIdx_map_fst]
  rw [positions, HMap.get_foldl_insert_iff _ _ (hks.symm ▸ h), getElem?_map]
  constructor
  · rintro ⟨⟨t, i⟩, hm, rfl, rfl⟩
    rw [mem_zipIdx_iff_getElem?.1 hm]
    rfl
  · intro hk
    obtain ⟨t, ht, rfl⟩ := Option.map_eq_some_iff.1 hk
    exact ⟨(t, pos), mem_zipIdx_iff_getElem?.2 ht, rfl, rfl⟩

/-- An item is put into a list, in the place of all that have its key. -/
def Put (key : T → ResourceKey) (item : T) (l l' : List T) : Prop :=
  ∃ before same after, l = before ++ same ++ after ∧ l' = before ++ item :: after ∧
    (∀ t ∈ same, key t = key item) ∧ ∀ t ∈ before ++ after, key t ≠ key item

theorem put_upsertItem {s : List T × HMap ResourceKey ℕ} (h : Indexed key s) (item : T) :
    Indexed key (upsertItem key s item) ∧ Put key item s.1 (upsertItem key s item).1 := by
  obtain ⟨l, index⟩ := s
  cases hget : index.get (key item) with
  | some pos =>
    have hpos := (h.get _ _).1 hget
    rw [getElem?_map, Option.map_eq_some_iff] at hpos
    obtain ⟨old, hold, hke⟩ := hpos
    obtain ⟨hlt, rfl⟩ := List.getElem?_eq_some_iff.1 hold
    have hl : l = l.take pos ++ [l[pos]] ++ l.drop (pos + 1) := by
      rw [append_assoc, singleton_append, getElem_cons_drop, take_append_drop]
    have hs : l.set pos item = l.take pos ++ item :: l.drop (pos + 1) := by
      rw [set_eq_take_append_cons_drop, if_pos hlt]
    have hks : (l.set pos item).map key = l.map key := by
      rw [hs]
      conv_rhs => rw [hl]
      simp only [map_append, map_cons, hke, append_assoc, singleton_append]
    have hu := h.unique
    simp only [upsertItem, hget]
    refine ⟨⟨hks ▸ h.unique, fun k p => by rw [hks]; exact h.get k p⟩,
      _, [l[pos]], _, hl, hs, by simpa using hke, fun t ht heq => ?_⟩
    simp only at hu
    rw [hl, append_assoc, map_append, map_append, map_singleton,
      singleton_append, nodup_middle, nodup_cons, ← map_append] at hu
    exact hu.1 (mem_map.2 ⟨t, ht, heq.trans hke.symm⟩)
  | none =>
    have hn : key item ∉ l.map key := by
      intro hm
      obtain ⟨pos, hpos⟩ := mem_iff_getElem?.1 hm
      rw [(h.get _ _).2 hpos] at hget
      cases hget
    simp only [upsertItem, hget]
    refine ⟨⟨?_, fun k pos => ?_⟩, l, [], [], by simp, rfl, by simp, fun t ht heq => ?_⟩
    · rw [map_append, map_singleton]
      exact nodup_middle.2 (by simpa using ⟨by simpa using hn, h.unique⟩)
    · rw [HMap.get_insert_eq, map_append, map_singleton, getElem?_append, length_map]
      have hk := h.get k pos
      simp only at hk
      grind
    · rw [append_nil] at ht
      exact hn (mem_map.2 ⟨t, ht, heq⟩)

section
variable {item : T} {l l' : List T} (hput : Put key item l l')
include hput

theorem Put.get (h : (l.map key).Nodup) (h' : (l'.map key).Nodup) (k : ResourceKey) :
    (byKey key l').get k = if k = key item then some item else (byKey key l).get k := by
  obtain ⟨before, same, after, rfl, rfl, hs, hr⟩ := hput
  refine Option.ext fun t => ?_
  rw [get_byKey h']
  split_ifs with hk
  · subst hk
    constructor
    · rintro ⟨ht, hke⟩
      rcases mem_append.1 ht with ht | ht
      · exact absurd hke (hr t (mem_append_left _ ht))
      · rcases mem_cons.1 ht with rfl | ht
        · rfl
        · exact absurd hke (hr t (mem_append_right _ ht))
    · rintro ⟨⟩
      exact ⟨by simp, rfl⟩
  · rw [get_byKey h]
    refine and_congr_left fun hke => ?_
    subst hke
    have hi : t ≠ item := fun heq => hk (heq ▸ rfl)
    have hn : t ∉ same := fun ht => hk (hs t ht)
    simp [hi, hn]

/-- Nothing happens to what another key has. -/
theorem Put.filter {p : ResourceKey → Bool} (hp : p (key item) = false) :
    l'.filter (fun t => p (key t)) = l.filter fun t => p (key t) := by
  obtain ⟨before, same, after, rfl, rfl, hs, hr⟩ := hput
  have hn : same.filter (fun t => p (key t)) = [] := by
    rw [filter_eq_nil_iff]
    intro t ht
    rw [hs t ht, hp]
    exact Bool.false_ne_true
  rw [filter_append, filter_append, filter_append, hn, append_nil, filter_cons, hp]
  rfl

end

/-! ## All updates -/

/-- What an upsert makes of a list with distinct keys: they stay distinct, the last update of a key
    wins, and what no update is about stays as it is. -/
theorem upsert_spec {l : List T} (h : (l.map key).Nodup) (updates : List T) :
    ((upsertByNamespaceAndId key l updates).map key).Nodup ∧
      (∀ k, (byKey key (upsertByNamespaceAndId key l updates)).get k =
        ((byKey key updates).get k).or ((byKey key l).get k)) ∧
      ∀ p : ResourceKey → Bool, (∀ t ∈ updates, p (key t) = false) →
        (upsertByNamespaceAndId key l updates).filter (fun t => p (key t)) =
          l.filter fun t => p (key t) := by
  have hr : Indexed key (updates.foldl (upsertItem key) (l, positions key l)) ∧
      (∀ k, (byKey key (updates.foldl (upsertItem key) (l, positions key l)).1).get k =
        ((byKey key updates).get k).or ((byKey key l).get k)) ∧
      ∀ p : ResourceKey → Bool, (∀ t ∈ updates, p (key t) = false) →
        (updates.foldl (upsertItem key) (l, positions key l)).1.filter (fun t => p (key t)) =
          l.filter fun t => p (key t) := by
    induction updates using reverseRecOn with
    | nil => exact ⟨indexed_positions h, fun k => by simp [byKey], fun p _ => rfl⟩
    | append_singleton updates item ih =>
      obtain ⟨hi, hget, hf⟩ := ih
      obtain ⟨hi', hput⟩ := put_upsertItem hi item
      rw [foldl_append, foldl_cons, foldl_nil]
      refine ⟨hi', fun k => ?_, fun p hp => ?_⟩
      · have hls : byKey key (updates ++ [item]) = (byKey key updates).insert (key item) item :=
          foldl_concat ..
        rw [hput.get hi.unique hi'.unique, hget, hls, HMap.get_insert_eq]
        split_ifs <;> rfl
      · rw [hput.filter (hp item (by simp)), hf p fun t ht => hp t (by simp [ht])]
  exact ⟨hr.1.unique, hr.2⟩

/-- The map that the increment makes of a kind of resources: the old ones without the removed ones,
    `clean`ed, and the last updates. -/
def overridden (key : T → ResourceKey) (clean : T → T) (removed : List ResourceKey)
    (updates old : List T) (k : ResourceKey) : Option T :=
  ((byKey key updates).get k).or
    (if k ∈ removed then none else ((byKey key old).get k).map clean)

/-- What an increment makes of a kind of resources, of which it mentions the keys `mentioned`: `new`
    after it was applied, `again` after it was applied once more.  `Left` says what is left of a
    resource that is neither updated nor removed. -/
structure Applied (key : T → ResourceKey) (Left : T → T → Prop) (removed : List ResourceKey)
    (updates : List T) (mentioned : List ResourceKey) (old new again : List T) : Prop where
  unique : (new.map key).Nodup
  updated : ∀ k t, (byKey key updates).get k = some t → (byKey key new).get k = some t
  gone : ∀ k ∈ removed, (byKey key updates).get k = none → (byKey key new).get k = none
  left : ∀ k ∉ removed, (byKey key updates).get k = none →
    Option.Rel Left ((byKey key old).get k) ((byKey key new).get k)
  /-- What the other namespaces have stays, in its order. -/
  elsewhere : ∀ ns, (∀ k ∈ mentioned, k.1 ≠ ns) →
    new.filter (fun t => (key t).1 = ns) = old.filter fun t => (key t).1 = ns
  replay : ∀ k, (byKey key again).get k = (byKey key new).get k

section
variable {clean : T → T} (hclean : ∀ t, key (clean t) = key t) (removed : List ResourceKey)
  (updates : List T)

/-- One kind of resources after an increment. -/
def increment (key : T → ResourceKey) (clean : T → T) (removed : List ResourceKey)
    (updates old : List T) : List T :=
  upsertByNamespaceAndId key ((retainKept key removed old).map clean) updates

include hclean

theorem nodup_cleaned {old : List T} (h : (old.map key).Nodup) :
    (((retainKept key removed old).map clean).map key).Nodup := by
  rw [map_map, show key ∘ clean = key from funext hclean]
  exact h.sublist (filter_sublist.map key)

theorem get_increment {old : List T} (h : (old.map key).Nodup) (k : ResourceKey) :
    (byKey key (increment key clean removed updates old)).get k =
      overridden key clean removed updates old k := by
  have hn := nodup_cleaned hclean removed h
  rw [increment, (upsert_spec hn updates).2.1, overridden]
  congr 1
  refine Option.ext fun t => ?_
  rw [get_byKey hn, mem_map]
  constructor
  · rintro ⟨⟨t', ht', rfl⟩, hk⟩
    obtain ⟨hm, hkp⟩ := mem_filter.1 ht'
    rw [hclean] at hk
    subst hk
    have hkp : key t' ∉ removed := by simpa using hkp
    rw [if_neg hkp, (get_byKey h).2 ⟨hm, rfl⟩]
    rfl
  · intro ht
    split_ifs at ht with hk
    obtain ⟨t', hget', rfl⟩ := Option.map_eq_some_iff.1 ht
    obtain ⟨hm, rfl⟩ := (get_byKey h).1 hget'
    exact ⟨⟨t', mem_filter.2 ⟨hm, by simpa using hk⟩, rfl⟩, hclean t'⟩

theorem increment_elsewhere {old : List T} (h : (old.map key).Nodup) {ns : Bytes}
    (hr : ∀ k ∈ removed, k.1 ≠ ns) (hu : ∀ t ∈ updates, (key t).1 ≠ ns)
    (hs : ∀ t, (key t).1 = ns → clean t = t) :
    (increment key clean removed updates old).filter (fun t => (key t).1 = ns) =
      old.filter fun t => (key t).1 = ns := by
  rw [increment, (upsert_spec (nodup_cleaned hclean removed h) updates).2.2 (fun k => k.1 = ns)
    fun t ht => decide_eq_false (hu t ht)]
  have hk : (retainKept key removed old).filter (fun t => (key t).1 = ns) =
      old.filter fun t => (key t).1 = ns := by
    rw [retainKept, filter_filter]
    refine filter_congr fun t _ => ?_
    by_cases ht : (key t).1 = ns
    · simpa [ht] using fun hm => hr _ hm ht
    · simp [ht]
  have hks : (fun t => decide ((key t).1 = ns)) ∘ clean = fun t => decide ((key t).1 = ns) :=
    funext fun t => by rw [Function.comp_apply, hclean]
  rw [filter_map, hks, hk]
  refine (map_congr_left fun t ht => ?_).trans (map_id _)
  exact hs t (of_decide_eq_true (mem_filter.1 ht).2)

theorem applied_increment {Left : T → T → Prop} (hl : ∀ t, Left t (clean t))
    (ha : ∀ t, clean (clean t) = clean t) {mentioned : List ResourceKey}
    (hr : removed ⊆ mentioned) (hup : updates.map key ⊆ mentioned)
    (hs : ∀ ns, (∀ k ∈ mentioned, k.1 ≠ ns) → ∀ t, (key t).1 = ns → clean t = t)
    {old : List T} (h : (old.map key).Nodup) :
    Applied key Left removed updates mentioned old (increment key clean removed updates old)
      (increment key clean removed updates (increment key clean removed updates old)) := by
  have hu : ((increment key clean removed updates old).map key).Nodup :=
    (upsert_spec (nodup_cleaned hclean removed h) updates).1
  have hget := get_increment hclean removed updates h
  refine ⟨hu, fun k t ht => ?_, fun k hk hn => ?_, fun k hk hn => ?_, fun ns hns => ?_, fun k => ?_⟩
  · rw [hget, overridden, ht, Option.some_or]
  · rw [hget, overridden, hn, Option.none_or, if_pos hk]
  · rw [hget, overridden, hn, Option.none_or, if_neg hk]
    cases (byKey key old).get k with
    | none => exact .none
    | some t => exact .some (hl t)
  · exact increment_elsewhere hclean removed updates h (fun k hk => hns k (hr hk))
      (fun t ht => hns _ (hup (mem_map_of_mem ht))) (hs ns hns)
  · rw [get_increment hclean removed updates hu, overridden, hget, overridden]
    -- Without an update, what is left was cleaned once and is cleaned again.
    cases (byKey key updates).get k with
    | some t => rfl
    | none =>
      simp only [Option.none_or]
      split_ifs
      · rfl
      · rw [Option.map_map, show clean ∘ clean = clean from funext ha]

end

end

/-! ## The snapshot -/

/-- Ids are unique in a namespace, for every kind of resources. -/
structure ConfigSnapshot.Unique (config : ConfigSnapshot) : Prop where
  proxies : (config.proxies.map Proxy.key).Nodup
  consumers : (config.consumers.map Consumer.key).Nodup
  pluginConfigs : (config.pluginConfigs.map PluginConfig.key).Nodup
  upstreams : (config.upstreams.map Upstream.key).Nodup

/-- All keys that an increment mentions. -/
def IncrementalResult.keys (result : IncrementalResult) : List ResourceKey :=
  result.removedProxyIds ++ result.addedOrModifiedProxies.map Proxy.key ++
    (result.removedConsumerIds ++ result.addedOrModifiedConsumers.map Consumer.key) ++
    (result.removedPluginConfigIds ++ result.addedOrModifiedPluginConfigs.map PluginConfig.key) ++
    (result.removedUpstreamIds ++ result.addedOrModifiedUpstreams.map Upstream.key)

/-- What is left of a proxy: its fields, and its associations in their order but those with a plugin
    configuration that is removed in its own namespace. -/
structure Proxy.Left (removed : List ResourceKey) (old new : Proxy) : Prop where
  fields : { new with plugins := old.plugins } = old
  order : new.plugins.Sublist old.plugins
  associations : ∀ id, new.plugins.count id =
    if (old.namespace_, id) ∈ removed then 0 else old.plugins.count id

theorem left_retainAssociations (removed : List ResourceKey) (p : Proxy) :
    p.Left removed (p.retainAssociations removed) := by
  refine ⟨rfl, filter_sublist, fun id => ?_⟩
  rw [Proxy.retainAssociations]
  split_ifs with hr
  · exact count_eq_zero.2 fun hm => by simpa [hr] using (mem_filter.1 hm).2
  · exact count_filter (by simpa using hr)

theorem retainAssociations_again (removed : List ResourceKey) (p : Proxy) :
    (p.retainAssociations removed).retainAssociations removed = p.retainAssociations removed := by
  simp [Proxy.retainAssociations, filter_filter]

/-- The associations of a namespace without removals stay. -/
theorem retainAssociations_elsewhere {removed : List ResourceKey} {ns : Bytes}
    (h : ∀ k ∈ removed, k.1 ≠ ns) {p : Proxy} (hp : p.key.1 = ns) :
    p.retainAssociations removed = p := by
  have ha : (p.plugins.filter fun id => !removed.contains (p.namespace_, id)) = p.plugins := by
    refine filter_eq_self.2 fun id _ => ?_
    simpa using fun hm => h (p.namespace_, id) hm hp
  rw [Proxy.retainAssociations, ha]

/-- Only proxies have something to be cleaned. -/
theorem applied_upsert {T : Type} {key : T → ResourceKey} (removed : List ResourceKey)
    (updates : List T) {mentioned : List ResourceKey} (hr : removed ⊆ mentioned)
    (hu : updates.map key ⊆ mentioned) {old : List T} (h : (old.map key).Nodup) :
    Applied key Eq removed updates mentioned old
      (upsertByNamespaceAndId key (retainKept key removed old) updates)
      (upsertByNamespaceAndId key
        (retainKept key removed (upsertByNamespaceAndId key (retainKept key removed old) updates))
        updates) := by
  have := @applied_increment T key id (fun _ => rfl) removed updates Eq (fun _ => rfl) (fun _ => rfl)
    mentioned hr hu (fun _ _ _ _ => rfl) old h
  simpa only [increment, map_id] using this

/-- **A snapshot after an increment**: each kind is the old map without the removed keys, overridden
    by the last updates; proxies lose the associations with removed plugins; what is not mentioned
    stays in its place, and a replay changes nothing. -/
theorem snapshot_applied (config : ConfigSnapshot) (result : IncrementalResult)
    (h : config.Unique) :
    let next := applyIncrementalToConfigSnapshot config result
    let again := applyIncrementalToConfigSnapshot next result
    Applied Proxy.key (Proxy.Left result.removedPluginConfigIds)
        result.removedProxyIds result.addedOrModifiedProxies result.keys
        config.proxies next.proxies again.proxies ∧
      Applied Consumer.key Eq result.removedConsumerIds result.addedOrModifiedConsumers result.keys
        config.consumers next.consumers again.consumers ∧
      Applied PluginConfig.key Eq result.removedPluginConfigIds result.addedOrModifiedPluginConfigs
        result.keys config.pluginConfigs next.pluginConfigs again.pluginConfigs ∧
      Applied Upstream.key Eq result.removedUpstreamIds result.addedOrModifiedUpstreams result.keys
        config.upstreams next.upstreams again.upstreams := by
  have hclean (p : Proxy) : (p.retainAssociations result.removedPluginConfigIds).key = p.key := rfl
  simp only [IncrementalResult.keys]
  refine ⟨?_, ?_, ?_, ?_⟩
  · refine applied_increment hclean _ _ (left_retainAssociations _) (retainAssociations_again _)
      ?_ ?_ ?_ h.proxies
    · intro k hk; simp [hk]
    · intro k hk; simp [hk]
    · intro ns hns t ht
      exact retainAssociations_elsewhere (fun k hk => hns k (by simp [hk])) ht
  · exact applied_upsert _ _ (fun k hk => by simp [hk]) (fun k hk => by simp [hk]) h.consumers
  · exact applied_upsert _ _ (fun k hk => by simp [hk]) (fun k hk => by simp [hk]) h.pluginConfigs
  · exact applied_upsert _ _ (fun k hk => by simp [hk]) (fun k hk => by simp [hk]) h.upstreams

/-- A tenant's proxy with two plugins. -/
def tenantProxy (tenant : Bytes) : Proxy where
  id := [5]
  namespace_ := tenant
  dispatchKind := .httpPool
  plugins := [[7], [8]]

def tenantPlugin (tenant id : Bytes) : PluginConfig where
  id := id
  pluginName := [3]
  namespace_ := tenant
  scope := .proxy

/-- Two tenants with the same ids. -/
def twoTenants : ConfigSnapshot where
  proxies := [tenantProxy [1], tenantProxy [2]]
  pluginConfigs := [tenantPlugin [1] [7], tenantPlugin [1] [8], tenantPlugin [2] [7]]
  consumers := [⟨[7], [1], []⟩, ⟨[7], [2], []⟩]
  upstreams := []
  loadedAt := 0

/-- The first tenant loses a plugin, and a consumer of it is removed and added again. -/
def tenantIncrement : IncrementalResult where
  removedPluginConfigIds := [([1], [7])]
  removedConsumerIds := [([1], [7])]
  addedOrModifiedConsumers := [⟨[7], [1], [9]⟩]
  pollTimestamp := 5

theorem snapshot_applied_tenants :
    let next := applyIncrementalToConfigSnapshot twoTenants tenantIncrement
    Option.Rel (Proxy.Left [([1], [7])]) (some (tenantProxy [1]))
        ((byKey Proxy.key next.proxies).get ([1], [5])) ∧
      next.proxies.filter (fun p => p.key.1 = [2]) = [tenantProxy [2]] ∧
      (byKey PluginConfig.key next.pluginConfigs).get ([1], [7]) = none ∧
      (byKey Consumer.key next.consumers).get ([1], [7]) = some ⟨[7], [1], [9]⟩ := by
  intro next
  have hu : twoTenants.Unique := ⟨by decide, by decide, by decide, nodup_nil⟩
  obtain ⟨hp, hc, hpl, -⟩ := snapshot_applied twoTenants tenantIncrement hu
  exact ⟨hp.left ([1], [5]) (by decide) rfl, hp.elsewhere [2] (by decide), hpl.gone _ (by decide) rfl,
    hc.updated _ _ rfl⟩

end Ferrum.Plugins
