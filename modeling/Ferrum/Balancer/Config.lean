/-
  What a load balancer is configured with: targets, subsets, port overrides and localities.

  Texts are UTF-8 byte strings.  Of policies that a balancer only asks for, it is recorded whether
  there is one.
-/
import Ferrum.Mesh.Text

namespace Ferrum.Balancer

open Lib Mesh Datagram

/-- `saturating_add` on `u64`. -/
def satAdd (a b : ℕ) : ℕ := min (a + b) (2 ^ 64 - 1)

theorem satAdd_pos {a b : ℕ} (h : 0 < b) : 0 < satAdd a b := by
  rw [satAdd]
  omega

/-- Maps with the same entries, as `==` compares them. -/
def sameEntries (a b : HMap Bytes Bytes) : Bool :=
  a.len == b.len && a.toList.all fun e => b.get e.1 == some e.2

/-! ## Targets -/

structure UpstreamTarget where
  host : Bytes
  port : UInt16
  servicePortPolicyKey : Option UInt16 := none
  weight : UInt32 := 1
  tags : HMap Bytes Bytes := HMap.empty
  locality : Option Bytes := none
  path : Option Bytes := none
  deriving DecidableEq

/-- The key of the port-level settings that govern the target. -/
def UpstreamTarget.dispatchPolicyPort (t : UpstreamTarget) : UInt16 :=
  t.servicePortPolicyKey.getD t.port

/-- `host:port`. -/
def targetHostPortKey (t : UpstreamTarget) : Bytes :=
  t.host ++ lit ":" ++ lit (toString t.port.toNat)

/-- `upstream_id::host:port`. -/
def targetKey (upstreamId : Bytes) (t : UpstreamTarget) : Bytes :=
  upstreamId ++ lit "::" ++ targetHostPortKey t

/-- A literal address has the family of the destination; a name has every family. -/
def backendHostMatchesIpFamily (host : Bytes) (destination : IpAddr) : Bool :=
  let isIpv4 : IpAddr → Bool
    | .v4 _ => true
    | .v6 _ => false
  match parseIpAddr host with
  | some ip => isIpv4 (canonicalIp ip) == isIpv4 (canonicalIp destination)
  | none => true

def meshRemoteTag : Bytes := lit "mesh.remote"
def meshCrossClusterTag : Bytes := lit "mesh.cross_cluster"
def srvPriorityTag : Bytes := lit "ferrum.srv.priority"

def targetIsLocal (t : UpstreamTarget) : Bool := t.tags.get meshRemoteTag != some (lit "true")

def targetIsCrossCluster (t : UpstreamTarget) : Bool :=
  t.tags.get meshCrossClusterTag == some (lit "true")

def sameStickyIdentityExceptHost (a b : UpstreamTarget) : Bool :=
  a.port == b.port && a.servicePortPolicyKey == b.servicePortPolicyKey && a.locality == b.locality
    && a.path == b.path && sameEntries a.tags b.tags

/-- The same target up to its weight. -/
def sameStickyIdentity (a b : UpstreamTarget) : Bool :=
  a.host == b.host && sameStickyIdentityExceptHost a b

/-! ## Localities -/

/-- `splitn`: at most `n` texts, the last one with the remaining separators. -/
def splitn (sep : UInt8) : ℕ → Bytes → List Bytes
  | 0, _ => []
  | 1, s => [s]
  | n + 2, s =>
    match splitOnce s sep with
    | some (part, rest) => part :: splitn sep (n + 1) rest
    | none => [s]

structure LocalityPreference where
  region : Bytes
  zone : Option Bytes
  subZone : Option Bytes
  deriving DecidableEq

namespace LocalityPreference

def parse (raw : Bytes) : Option LocalityPreference :=
  let trimmed := trim raw
  if trimmed = [] then none
  else
    let parts := (splitn (byte '/') 3 trimmed).map trim
    match parts[0]? with
    | none => none
    | some region =>
      if region = [] then none
      else some
        { region
          zone := parts[1]?.filter (· ≠ [])
          subZone := parts[2]?.filter (· ≠ []) }

def exactMatches (self target : LocalityPreference) : Bool :=
  self.region == target.region && self.zone == target.zone && self.subZone == target.subZone

def sameZone (self target : LocalityPreference) : Bool :=
  self.region == target.region && self.zone.isSome && self.zone == target.zone

def sameRegion (self target : LocalityPreference) : Bool := self.region == target.region

end LocalityPreference

example : LocalityPreference.parse (lit " us-west / us-west-1/a/b ") =
    some ⟨lit "us-west", some (lit "us-west-1"), some (lit "a/b")⟩ := by decide +kernel

/-- Only the components that are declared have to align. -/
def localityMatchForDistribute (to_ target : LocalityPreference) : Bool :=
  if to_.region ≠ lit "*" ∧ to_.region ≠ target.region then false
  else
    match to_.zone with
    | none => true
    | some toZone =>
      if toZone = lit "*" then true
      else if target.zone ≠ some toZone then false
      else
        match to_.subZone with
        | none => true
        | some toSub => toSub = lit "*" ∨ target.subZone = some toSub

def localityDistributeSpecificity (to_ : LocalityPreference) : ℕ :=
  if to_.region = lit "*" then 0
  else
    match to_.zone with
    | none => 1
    | some zone =>
      if zone = lit "*" then 1
      else
        match to_.subZone with
        | none => 2
        | some subZone => if subZone = lit "*" then 2 else 3

def localityFromMatchesSource (from_ source : LocalityPreference) : Bool :=
  if from_.region = lit "*" ∧ from_.zone = none ∧ from_.subZone = none then true
  else if from_.region ≠ lit "*" ∧ from_.region ≠ source.region then false
  else
    match from_.zone with
    | none => from_.subZone = none
    | some fromZone =>
      if fromZone = lit "*" then true
      else if source.zone ≠ some fromZone then false
      else
        match from_.subZone with
        | none => true
        | some fromSubZone => fromSubZone = lit "*" ∨ source.subZone = some fromSubZone

structure LocalityDistribute where
  from_ : Bytes
  /-- In the order of the keys. -/
  to_ : List (Bytes × UInt32)

structure LocalityFailover where
  from_ : Bytes
  to_ : Bytes

structure UpstreamLocalityLbSetting where
  enabled : Bool := true
  distribute : List LocalityDistribute := []
  failover : List LocalityFailover := []
  failoverPriority : List Bytes := []

/-! ## Upstreams -/

inductive LoadBalancerAlgorithm where
  | roundRobin | weightedRoundRobin | leastConnections | leastLatency | consistentHashing
  | random | passthrough
  deriving DecidableEq, Repr

structure SubsetTrafficPolicy where
  loadBalancerAlgorithm : Option LoadBalancerAlgorithm := none
  passiveHealthCheck : Bool := false

structure SubsetDefinition where
  name : Bytes
  labels : HMap Bytes Bytes
  trafficPolicy : Option SubsetTrafficPolicy := none

structure UpstreamPortOverride where
  algorithm : Option LoadBalancerAlgorithm := none
  passiveHealthCheck : Bool := false
  localityLbSetting : Option UpstreamLocalityLbSetting := none

structure HealthCheckConfig where
  active : Bool := false
  passive : Bool := false

/-- The arguments of a balancer, as an upstream has them. -/
structure BalancerConfig where
  algorithm : LoadBalancerAlgorithm := .roundRobin
  subsets : Option (List SubsetDefinition) := none
  portOverrides : HMap UInt16 UpstreamPortOverride := HMap.empty
  healthChecks : Option HealthCheckConfig := none
  sourceLocality : Option Bytes := none
  sourceLabels : HMap Bytes Bytes := HMap.empty
  localityLbSetting : Option UpstreamLocalityLbSetting := none
  localityLbStrict : Bool := false

end Ferrum.Balancer
