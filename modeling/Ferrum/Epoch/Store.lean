/-
  Request epochs: the store that publishes them, and the lookups made under them.

  An epoch is what one request sees of the gateway.  A request keeps the epoch it has loaded, so
  lookups go on under epochs that are no longer current, all through one cache.

  * `updateConfigWithTrust`, `publishGatewayListenerAdmission`, `updateLoadBalancer`,
    `updateGatewayTrust`: what a writer publishes, from the current epoch.
  * `Gateway.step`: the store and the cache.
-/
import Ferrum.Router.Cache

namespace Ferrum.Epoch

open Lib Router

variable {Lb Trust : Type}

/-! ## Epochs -/

/-- What one request sees, as far as routing and the generations go.  The configuration is known by
    its address. -/
structure RequestEpoch (Lb Trust : Type) where
  config : ℕ
  routeTable : HostRouteTable
  loadBalancer : Lb
  gatewayListenerAdmission : GatewayListenerAdmission
  gatewayTrust : Trust
  configGeneration : UInt64
  routeGeneration : UInt64
  lbGeneration : UInt64

structure StagedRequestEpoch (Lb : Type) where
  config : ℕ
  routeTable : HostRouteTable
  loadBalancer : Lb
  routeChanged : Bool
  lbChanged : Bool

inductive GatewayTrustStaging where
  | carry | fence
  deriving DecidableEq, Repr

/-- The table and admission that the lookups of an epoch use. -/
def RequestEpoch.snapshot (e : RequestEpoch Lb Trust) : RouteSnapshot :=
  ⟨e.routeTable, e.gatewayListenerAdmission⟩

def fromRuntimeParts (config : ℕ) (routeTable : HostRouteTable) (loadBalancer : Lb)
    (gatewayTrust : Trust) : RequestEpoch Lb Trust :=
  ⟨config, routeTable, loadBalancer, .pending, gatewayTrust, 1, 1, 1⟩

/-- `saturating_add(1)`. -/
def saturatingSucc (n : UInt64) : UInt64 := if n.toNat + 1 < 2 ^ 64 then n + 1 else n

def nextLbGeneration (current : UInt64) : Except String UInt64 :=
  if current.toNat + 1 < 2 ^ 64 then .ok (current + 1)
  else .error "request epoch: load-balancer reload generation counter exhausted"

/-! ## Writers

The epoch that a writer stores as the current one, if any; writers hold a lock. -/

/-- Every new configuration starts with no listener admitted. -/
def updateConfigWithTrust (fenced : Trust → Trust) (trust : GatewayTrustStaging)
    (build : RequestEpoch Lb Trust → Except String (Option (StagedRequestEpoch Lb)))
    (current : RequestEpoch Lb Trust) : Except String (Option (RequestEpoch Lb Trust)) := do
  match ← build current with
  | none => return none
  | some staged =>
    let lbGeneration ← (if staged.lbChanged then nextLbGeneration current.lbGeneration
      else .ok current.lbGeneration : Except String UInt64)
    return some
      { config := staged.config
        routeTable := staged.routeTable
        loadBalancer := staged.loadBalancer
        gatewayListenerAdmission := .pending
        gatewayTrust := match trust with
          | .carry => current.gatewayTrust
          | .fence => fenced current.gatewayTrust
        configGeneration := saturatingSucc current.configGeneration
        routeGeneration :=
          if staged.routeChanged then saturatingSucc current.routeGeneration
          else current.routeGeneration
        lbGeneration }

/-- Only for the configuration that `expected` has. -/
def publishGatewayListenerAdmission (expected : RequestEpoch Lb Trust)
    (listenerAdmission : GatewayListenerAdmission) (current : RequestEpoch Lb Trust) :
    Option (RequestEpoch Lb Trust) :=
  if current.configGeneration ≠ expected.configGeneration ∨ current.config ≠ expected.config then
    none
  else if current.gatewayListenerAdmission = listenerAdmission then some current
  else some { current with
    gatewayListenerAdmission := listenerAdmission
    routeGeneration := saturatingSucc current.routeGeneration }

def updateGatewayTrust (build : RequestEpoch Lb Trust → Option Trust)
    (current : RequestEpoch Lb Trust) : Option (RequestEpoch Lb Trust) :=
  (build current).map fun gatewayTrust => { current with gatewayTrust }

def updateLoadBalancer (build : RequestEpoch Lb Trust → Option Lb)
    (current : RequestEpoch Lb Trust) : Except String (Option (RequestEpoch Lb Trust)) := do
  match build current with
  | none => return none
  | some loadBalancer =>
    let lbGeneration ← nextLbGeneration current.lbGeneration
    return some { current with loadBalancer, lbGeneration }

def findProxyInEpoch (rx : RegexCrate) (s : Sweep) (cache : RouterCache)
    (epoch : RequestEpoch Lb Trust) (r : LookupRequest) : Option RouteMatch × RouterCache :=
  cache.findProxyWithAdmission rx s epoch.snapshot epoch.routeGeneration r

/-! ## The gateway -/

/-- The current epoch, all epochs in the order of their publication, and the shared cache. -/
structure Gateway (Lb Trust : Type) where
  current : RequestEpoch Lb Trust
  published : List (RequestEpoch Lb Trust)
  cache : RouterCache

/-- A published epoch is named by its place. -/
inductive GatewayAct (Lb Trust : Type) where
  | updateConfig (trust : GatewayTrustStaging)
      (build : RequestEpoch Lb Trust → Except String (Option (StagedRequestEpoch Lb)))
  | publishAdmission (expected : ℕ) (listenerAdmission : GatewayListenerAdmission)
  | updateLoadBalancer (build : RequestEpoch Lb Trust → Option Lb)
  | updateGatewayTrust (build : RequestEpoch Lb Trust → Option Trust)
  | lookup (epoch : ℕ) (r : LookupRequest) (s : Sweep)
  | evictPrefixSample (s : Sweep)
  | evictRegexSample (s : Sweep)
  | clearLookupCaches

namespace Gateway

def start (initial : RequestEpoch Lb Trust) (maxCacheEntries : ℕ) : Gateway Lb Trust :=
  ⟨initial, [initial], .new maxCacheEntries⟩

def publish (g : Gateway Lb Trust) : Option (RequestEpoch Lb Trust) → Gateway Lb Trust
  | none => g
  | some next => { g with current := next, published := g.published ++ [next] }

/-- A writer that fails publishes nothing. -/
def toPublish {ε α : Type} : Except ε (Option α) → Option α
  | .ok next => next
  | .error _ => none

def step (rx : RegexCrate) (fenced : Trust → Trust) (g : Gateway Lb Trust) :
    GatewayAct Lb Trust → Option (Gateway Lb Trust)
  | .updateConfig trust build =>
    some (g.publish (toPublish (updateConfigWithTrust fenced trust build g.current)))
  | .publishAdmission i listenerAdmission =>
    g.published[i]?.map fun expected =>
      g.publish (publishGatewayListenerAdmission expected listenerAdmission g.current)
  | .updateLoadBalancer build =>
    some (g.publish (toPublish (Epoch.updateLoadBalancer build g.current)))
  | .updateGatewayTrust build => some (g.publish (Epoch.updateGatewayTrust build g.current))
  | .lookup i r s =>
    g.published[i]?.map fun epoch => { g with cache := (findProxyInEpoch rx s g.cache epoch r).2 }
  | .evictPrefixSample s => some { g with cache := { g.cache with
      prefixCache := g.cache.prefixCache.evictSample s g.cache.maxCacheEntries } }
  | .evictRegexSample s => some { g with cache := { g.cache with
      regexCache := g.cache.regexCache.evictSample s g.cache.maxCacheEntries } }
  | .clearLookupCaches => some { g with cache := g.cache.clearLookupCaches }

end Gateway

end Ferrum.Epoch
