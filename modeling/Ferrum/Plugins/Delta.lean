/-
  What changed between two configurations, and whose plugin lists have to be built again.

  Resources are compared by namespace and id, by the time of their last change, and some of them by
  their content, which is serialized for that.

  * `ConfigDelta.compute`: the proxies and plugin configurations that were added, removed, modified.
  * `proxyIdsNeedingPluginRebuild`: the proxies whose plugin lists are built again.
-/
import Ferrum.Router.Config
import Mathlib.Data.List.Lex

namespace Ferrum.Plugins

open Lib
open Router (DispatchKind)

/-! ## Resources -/

inductive PluginScope where
  | global | proxy | proxyGroup
  deriving DecidableEq, Repr

/-- A JSON value. -/
inductive Value where
  | null
  | bool (b : Bool)
  | number (text : Bytes)
  | string (text : Bytes)
  | array (items : List Value)
  | object (members : List (Bytes × Value))

namespace Value

/-- The member of an object. -/
def get (v : Value) (key : Bytes) : Option Value :=
  match v with
  | object members => (members.find? fun m => m.1 = key).map Prod.snd
  | _ => none

def isEmptyArray : Value → Bool
  | array items => items.isEmpty
  | _ => false

def asBool : Value → Option Bool
  | bool b => some b
  | _ => none

end Value

structure PluginConfig where
  id : Bytes
  pluginName : Bytes
  namespace_ : Bytes
  config : Value := .null
  scope : PluginScope
  proxyId : Option Bytes := none
  enabled : Bool := true
  priorityOverride : Option UInt16 := none
  trigger : Option Bytes := none
  apiSpecId : Option Bytes := none
  createdAt : ℤ := 0
  updatedAt : ℤ := 0

structure Proxy where
  id : Bytes
  namespace_ : Bytes
  dispatchKind : DispatchKind
  /-- The other fields that are stored with it. -/
  row : Bytes := []
  /-- The ids of the plugin configurations it is associated with. -/
  plugins : List Bytes := []
  createdAt : ℤ := 0
  updatedAt : ℤ := 0

structure GatewayConfig where
  proxies : List Proxy
  pluginConfigs : List PluginConfig

/-- How values are serialized to be compared; `none` where that fails. -/
structure Serde (V : Type) where
  proxy : Proxy → Option V
  pluginConfig : PluginConfig → Option V

/-- The content without the times. -/
def PluginConfig.neutral (pc : PluginConfig) : PluginConfig := { pc with createdAt := 0, updatedAt := 0 }

/-- What stays of a proxy if it is compared by its content. -/
def Proxy.neutral (p : Proxy) : Proxy := { p with createdAt := 0, updatedAt := 0, plugins := [] }

abbrev ResourceKey := Bytes × Bytes

/-- What a kind of resources is compared by. -/
structure Resource (T : Type) where
  namespace_ : T → Bytes
  id : T → Bytes
  updatedAt : T → ℤ
  /-- Whether the new one has another content than the old one. -/
  persistedContentChanged : T → T → Bool

section
variable {V : Type} [DecidableEq V]

/-- A value that cannot be serialized counts as changed. -/
def timestampNeutralContentChanged {T : Type} (toValue : T → Option V) (neutralizeTimestamps : T → T)
    (old new : T) : Bool :=
  match toValue (neutralizeTimestamps old), toValue (neutralizeTimestamps new) with
  | some oldValue, some newValue => oldValue != newValue
  | _, _ => true

/-- Routed proxies are not compared by content. -/
def proxyResource (serde : Serde V) : Resource Proxy where
  namespace_ := Proxy.namespace_
  id := Proxy.id
  updatedAt := Proxy.updatedAt
  persistedContentChanged new old :=
    if !new.dispatchKind.isStream && !old.dispatchKind.isStream then false
    else timestampNeutralContentChanged serde.proxy Proxy.neutral old new

def pluginConfigResource (serde : Serde V) : Resource PluginConfig where
  namespace_ := PluginConfig.namespace_
  id := PluginConfig.id
  updatedAt := PluginConfig.updatedAt
  persistedContentChanged new old :=
    timestampNeutralContentChanged serde.pluginConfig PluginConfig.neutral old new

end

/-! ## Differences -/

section
variable {T : Type} (r : Resource T)

/-- The resources by their keys; the last of several wins. -/
def byKey (key : T → ResourceKey) (l : List T) : HMap ResourceKey T :=
  l.foldl (fun m t => m.insert (key t) t) HMap.empty

theorem get_byKey {key : T → ResourceKey} {l : List T} (h : (l.map key).Nodup) {k : ResourceKey}
    {t : T} : (byKey key l).get k = some t ↔ t ∈ l ∧ key t = k := by
  rw [byKey, HMap.get_foldl_insert_iff key (fun t => t) h]
  constructor
  · rintro ⟨a, ha, hk, rfl⟩
    exact ⟨ha, hk⟩
  · rintro ⟨ha, hk⟩
    exact ⟨t, ha, hk, rfl⟩

def resourceKey (t : T) : ResourceKey := (r.namespace_ t, r.id t)

def diffAdded (old new : List T) : List T :=
  new.filter fun t => !(old.map (resourceKey r)).contains (resourceKey r t)

def diffRemovedIds (old new : List T) : List ResourceKey :=
  (old.filter fun t => !(new.map (resourceKey r)).contains (resourceKey r t)).map (resourceKey r)

def diffModified (old new : List T) : List T :=
  new.filter fun newResource =>
    match (byKey (resourceKey r) old).get (resourceKey r newResource) with
    | none => false
    | some oldResource =>
      r.updatedAt newResource != r.updatedAt oldResource ||
        r.persistedContentChanged newResource oldResource

end

def Proxy.key (p : Proxy) : ResourceKey := (p.namespace_, p.id)

def PluginConfig.key (pc : PluginConfig) : ResourceKey := (pc.namespace_, pc.id)

/-- The texts in their order, byte by byte. -/
def sortIds (ids : List Bytes) : List Bytes := sortByKey (fun id => id.map UInt8.toNat) ids

def samePluginAssociations (left right : Proxy) : Bool :=
  left.plugins.length == right.plugins.length && sortIds left.plugins == sortIds right.plugins

def diffPluginAssociationChanges (old new : List Proxy) : List ResourceKey :=
  (new.filter fun proxy =>
    ((byKey Proxy.key old).get proxy.key).any fun oldProxy =>
      !samePluginAssociations oldProxy proxy).map Proxy.key

structure ConfigDelta where
  addedProxies : List Proxy
  removedProxyIds : List ResourceKey
  modifiedProxies : List Proxy
  addedPluginConfigs : List PluginConfig
  removedPluginConfigIds : List ResourceKey
  modifiedPluginConfigs : List PluginConfig
  pluginAssociationChangedProxyIds : List ResourceKey
  globalPluginConfigsChanged : Bool

namespace ConfigDelta

def compute {V : Type} [DecidableEq V] (serde : Serde V) (old new : GatewayConfig) : ConfigDelta :=
  let configs := pluginConfigResource serde
  let addedPluginConfigs := diffAdded configs old.pluginConfigs new.pluginConfigs
  let removedPluginConfigIds := diffRemovedIds configs old.pluginConfigs new.pluginConfigs
  let modifiedPluginConfigs := diffModified configs old.pluginConfigs new.pluginConfigs
  let oldGlobalPluginKeys :=
    (old.pluginConfigs.filter fun pc => pc.scope == .global).map PluginConfig.key
  { addedProxies := diffAdded (proxyResource serde) old.proxies new.proxies
    removedProxyIds := diffRemovedIds (proxyResource serde) old.proxies new.proxies
    modifiedProxies := diffModified (proxyResource serde) old.proxies new.proxies
    addedPluginConfigs, removedPluginConfigIds, modifiedPluginConfigs
    pluginAssociationChangedProxyIds := diffPluginAssociationChanges old.proxies new.proxies
    globalPluginConfigsChanged :=
      addedPluginConfigs.any (fun pc => pc.scope == .global) ||
      modifiedPluginConfigs.any
        (fun pc => pc.scope == .global || oldGlobalPluginKeys.contains pc.key) ||
      removedPluginConfigIds.any oldGlobalPluginKeys.contains }

variable (delta : ConfigDelta)

def pluginConfigsChanged : Bool :=
  !delta.addedPluginConfigs.isEmpty || !delta.removedPluginConfigIds.isEmpty ||
    !delta.modifiedPluginConfigs.isEmpty

def changedPcKeys : List ResourceKey :=
  delta.addedPluginConfigs.map PluginConfig.key ++ delta.removedPluginConfigIds ++
    delta.modifiedPluginConfigs.map PluginConfig.key

/-- Where a plugin configuration is placed directly. -/
def placement (pc : PluginConfig) : Option ResourceKey :=
  pc.proxyId.map fun proxyId => (pc.namespace_, proxyId)

/-- Whether a proxy is associated with a changed plugin configuration. -/
def referencesChanged (proxy : Proxy) : Bool :=
  proxy.plugins.any fun pluginConfigId =>
    delta.changedPcKeys.contains (proxy.namespace_, pluginConfigId)

/-- The proxies to which changed plugin configurations belong or belonged. -/
def touchedProxyIds (old new : GatewayConfig) : List ResourceKey :=
  let oldChangedProxyScoped :=
    (old.pluginConfigs.filter fun pc => delta.changedPcKeys.contains pc.key).filterMap placement
  let newChangedProxyScoped :=
    (delta.addedPluginConfigs ++ delta.modifiedPluginConfigs).filterMap placement
  (new.proxies.filter fun proxy =>
    delta.referencesChanged proxy ||
      ((byKey Proxy.key old.proxies).get proxy.key).any delta.referencesChanged ||
      oldChangedProxyScoped.contains proxy.key || newChangedProxyScoped.contains proxy.key).map
    Proxy.key

def proxyIdsNeedingPluginRebuild (old new : GatewayConfig) : List ResourceKey :=
  delta.addedProxies.map Proxy.key ++ delta.modifiedProxies.map Proxy.key ++
    delta.pluginAssociationChangedProxyIds ++
    (if delta.pluginConfigsChanged then
      delta.touchedProxyIds old new ++
        -- deletions can have removed associations too
        (if delta.globalPluginConfigsChanged || !delta.removedPluginConfigIds.isEmpty then
          new.proxies.map Proxy.key
        else [])
    else [])

end ConfigDelta

end Ferrum.Plugins
