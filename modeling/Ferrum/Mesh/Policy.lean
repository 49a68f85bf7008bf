/-
  Mesh authorization policies: rules, how they match a request, and the evaluator.

  * `ruleMatches`: source, operation and conditions of a rule.
  * `evaluateMeshAuthorizationFull`: one pass over all rules, with its guard.
-/
import Ferrum.Mesh.Text

namespace Ferrum.Mesh

open Lib Datagram

/-! ## Policies -/

inductive PolicyAction where
  | allow | deny | audit
  | custom (provider : Bytes)
  deriving DecidableEq

structure PrincipalMatch where
  spiffeIdPattern : Option Bytes
  namespacePattern : Option Bytes
  trustDomain : Option Bytes
  trustDomainPattern : Option Bytes
  deriving DecidableEq

structure SourceNegationMatch where
  notSpiffeIdPatterns : List Bytes := []
  notNamespacePatterns : List Bytes := []
  notTrustDomainPatterns : List Bytes := []
  ipBlocks : List ParsedCidr := []
  notIpBlocks : List ParsedCidr := []
  remoteIpBlocks : List ParsedCidr := []
  notRemoteIpBlocks : List ParsedCidr := []
  deriving DecidableEq

structure RequestMatch where
  methods : List Bytes := []
  paths : List Bytes := []
  hosts : List Bytes := []
  headers : HMap Bytes Bytes := .empty
  ports : List UInt16 := []
  portPatterns : List Bytes := []
  notMethods : List Bytes := []
  notPaths : List Bytes := []
  notHosts : List Bytes := []
  notPorts : List UInt16 := []
  notPortPatterns : List Bytes := []

structure ConditionMatch where
  key : Bytes
  values : List Bytes
  notValues : List Bytes
  deriving DecidableEq

structure MeshRule where
  from_ : List PrincipalMatch := []
  to_ : List RequestMatch := []
  when_ : List ConditionMatch := []
  requestPrincipals : List Bytes := []
  notRequestPrincipals : List Bytes := []
  sourceNegation : SourceNegationMatch := {}
  neverMatches : Bool := false
  action : PolicyAction

structure MeshPolicy where
  name : Bytes
  namespace_ : Bytes
  rules : List MeshRule

/-! ## Requests -/

inductive MeshAuthzProtocol where
  | http | l4
  deriving DecidableEq

inductive MeshAuthzAttribute where
  | scalar (value : Bytes)
  | stringList (values : List Bytes)
  deriving DecidableEq

structure MeshAuthzRequest where
  sourcePrincipal : Option SpiffeId := none
  requestPrincipal : Option Bytes := none
  method : Option Bytes := none
  path : Option Bytes := none
  host : Option Bytes := none
  port : Option UInt16 := none
  headers : HMap Bytes Bytes := .empty
  attributes : HMap Bytes MeshAuthzAttribute := .empty
  sourceIp : Option IpAddr := none
  remoteIp : Option IpAddr := none
  destinationIp : Option IpAddr := none
  protocol : MeshAuthzProtocol := .l4

/-! ## Sources -/

def principalMatch (m : PrincipalMatch) : Option SpiffeId → Bool
  | none => false
  | some source =>
    m.trustDomain.all (source.trustDomain == ·) &&
      m.trustDomainPattern.all (wildcardMatch · source.trustDomain) &&
      m.spiffeIdPattern.all (sourcePrincipalPatternMatches · source) &&
      m.namespacePattern.all fun pattern =>
        (extractNamespace source.uri).any (wildcardMatch pattern)

def matchesPrincipals (ms : List PrincipalMatch) (request : MeshAuthzRequest) : Bool :=
  ms.isEmpty || ms.any (principalMatch · request.sourcePrincipal)

/-- What a field that cannot be observed means for an action: it is ignored, or never matches. -/
def denyMissingHttpAttributeMatches : PolicyAction → Bool
  | .deny | .custom _ => true
  | .allow | .audit => false

def matchesRequestPrincipals (patterns : List Bytes) (request : MeshAuthzRequest)
    (action : PolicyAction) : Bool :=
  if patterns.isEmpty then true
  else if request.protocol ≠ .http then denyMissingHttpAttributeMatches action
  else request.requestPrincipal.any fun principal => patterns.any (wildcardMatch · principal)

def matchesNotRequestPrincipals (patterns : List Bytes) (request : MeshAuthzRequest)
    (action : PolicyAction) : Bool :=
  if patterns.isEmpty then true
  else if request.protocol ≠ .http then denyMissingHttpAttributeMatches action
  else request.requestPrincipal.all fun principal => !patterns.any (wildcardMatch · principal)

/-- A list of blocks and a list of excluded blocks, for one address.  Without the address a
    non-empty list does not match. -/
def matchesIpBlocks (blocks notBlocks : List ParsedCidr) (ip : Option IpAddr) : Bool :=
  (blocks.isEmpty || ip.any fun ip => blocks.any (·.contains ip)) &&
    (notBlocks.isEmpty || ip.any fun ip => !notBlocks.any (·.contains ip))

def matchesSourceNegation (neg : SourceNegationMatch) (request : MeshAuthzRequest) : Bool :=
  request.sourcePrincipal.all (fun source =>
      !neg.notSpiffeIdPatterns.any (sourcePrincipalPatternMatches · source) &&
        !(extractNamespace source.uri).any (fun ns =>
          neg.notNamespacePatterns.any (wildcardMatch · ns)) &&
        !neg.notTrustDomainPatterns.any (wildcardMatch · source.trustDomain)) &&
    matchesIpBlocks neg.ipBlocks neg.notIpBlocks request.sourceIp &&
    matchesIpBlocks neg.remoteIpBlocks neg.notRemoteIpBlocks request.remoteIp

/-! ## Operations -/

/-- A positive HTTP field: one of `list` holds of the attribute, if `list` is not empty. -/
def fieldMatches {α β : Type} (list : List α) (holds : α → β → Bool) (action : PolicyAction) :
    Option β → Bool
  | some value => list.isEmpty || list.any (holds · value)
  | none => list.isEmpty || denyMissingHttpAttributeMatches action

/-- A negative HTTP field: none of `list` holds of the attribute. -/
def fieldExcludes {α β : Type} (list : List α) (holds : α → β → Bool) (action : PolicyAction) :
    Option β → Bool
  | some value => list.isEmpty || !list.any (holds · value)
  | none => list.isEmpty || denyMissingHttpAttributeMatches action

def requestHeaderValue (headers : HMap Bytes Bytes) (name : Bytes) : Option Bytes :=
  (headers.get name).or
    (if name.any (fun b => 0x41 ≤ b && b ≤ 0x5a) then headers.get (toAsciiLowercase name) else none)

def RequestMatch.portMatches (m : RequestMatch) (port : UInt16) : Bool :=
  m.ports.contains port || m.portPatterns.any (portPatternMatches · port)

def RequestMatch.portExcluded (m : RequestMatch) (port : UInt16) : Bool :=
  m.notPorts.contains port || m.notPortPatterns.any (portPatternMatches · port)

def requestMatch (m : RequestMatch) (request : MeshAuthzRequest) (action : PolicyAction)
    (normalizedHost : Option NormalizedHost) : Bool :=
  fieldMatches m.methods eqIgnoreAsciiCase action request.method &&
    fieldExcludes m.notMethods eqIgnoreAsciiCase action request.method &&
    fieldMatches m.paths wildcardMatch action request.path &&
    fieldExcludes m.notPaths wildcardMatch action request.path &&
    fieldMatches m.hosts normalizedHostMatches action normalizedHost &&
    fieldExcludes m.notHosts normalizedHostMatches action normalizedHost &&
    ((m.ports.isEmpty && m.portPatterns.isEmpty) || request.port.any m.portMatches) &&
    ((m.notPorts.isEmpty && m.notPortPatterns.isEmpty) ||
      request.port.any fun port => !m.portExcluded port) &&
    m.headers.toList.all fun (name, pattern) =>
      match requestHeaderValue request.headers name with
      | some value => wildcardMatch pattern value
      | none => denyMissingHttpAttributeMatches action

def matchesRequests (ms : List RequestMatch) (request : MeshAuthzRequest) (action : PolicyAction)
    (normalizedHost : Option NormalizedHost) : Bool :=
  ms.isEmpty || ms.any (requestMatch · request action normalizedHost)

/-! ## Conditions -/

inductive MeshConditionKeyKind where
  | sourcePrincipal | sourceNamespace | sourceServiceAccount | sourceTrustDomain | sourceIp
  | remoteIp | destinationIp | destinationPort | connectionSni | requestAuthPrincipal
  | requestAuthPresenter | requestAuthAudiences | requestAuthClaim | requestHeader
  | experimentalEnvoyFilter
  deriving DecidableEq

def MeshConditionKeyKind.isIpValued : MeshConditionKeyKind → Bool
  | .sourceIp | .remoteIp | .destinationIp => true
  | _ => false

/-- `start<name>]` with a name. -/
def bracketed (start key : Bytes) : Bool :=
  ((stripStart key start).bind (stripEnd · [0x5d])).any (· ≠ [])

/-- `experimental.envoy.filters.<filter>[<key>]` with a filter and a key. -/
def isExperimentalEnvoyFilter (key : Bytes) : Bool :=
  ((stripStart key (lit "experimental.envoy.filters.")).bind (splitOnce · 0x5b)).any
    fun (filter, metadata) => filter ≠ [] && (stripEnd metadata [0x5d]).any (· ≠ [])

def classifyMeshConditionKey (key : Bytes) : Option MeshConditionKeyKind :=
  if key = lit "source.principal" then some .sourcePrincipal
  else if key = lit "source.namespace" then some .sourceNamespace
  else if key = lit "source.serviceAccount" then some .sourceServiceAccount
  else if key = lit "source.trustDomain" then some .sourceTrustDomain
  else if key = lit "source.ip" then some .sourceIp
  else if key = lit "remote.ip" then some .remoteIp
  else if key = lit "destination.ip" then some .destinationIp
  else if key = lit "destination.port" then some .destinationPort
  else if key = lit "connection.sni" then some .connectionSni
  else if key = lit "request.auth.principal" then some .requestAuthPrincipal
  else if key = lit "request.auth.presenter" then some .requestAuthPresenter
  else if key = lit "request.auth.audiences" then some .requestAuthAudiences
  else if bracketed (lit "request.headers[") key then some .requestHeader
  else if bracketed (lit "request.auth.claims[") key then some .requestAuthClaim
  else if isExperimentalEnvoyFilter key then some .experimentalEnvoyFilter
  else none

/-- Can the request tell the attribute at all? -/
def conditionKindIsSourceable (kind : MeshConditionKeyKind) (request : MeshAuthzRequest) : Bool :=
  match kind with
  | .experimentalEnvoyFilter => false
  | .requestHeader | .requestAuthPrincipal | .requestAuthPresenter | .requestAuthAudiences
  | .requestAuthClaim => request.protocol == .http
  | .sourceIp => request.sourceIp.isSome
  | .remoteIp => request.remoteIp.isSome
  | .destinationIp => request.destinationIp.isSome
  | .destinationPort => request.port.isSome
  | .sourcePrincipal | .sourceNamespace | .sourceServiceAccount | .sourceTrustDomain
  | .connectionSni => true

def conditionScalarValueMatches (kind : MeshConditionKeyKind) (policyNamespace candidate : Bytes)
    (value : Bytes) : Bool :=
  if kind.isIpValued then (parseIpAddr value).any (cidrContains candidate)
  else match kind with
    | .sourceServiceAccount => istioServiceAccountMatch candidate value policyNamespace
    | .sourceNamespace => wildcardMatch candidate value
    | _ => istioConditionStringMatch candidate value

def conditionValueMatches (kind : MeshConditionKeyKind) (policyNamespace candidate : Bytes) :
    MeshAuthzAttribute → Bool
  | .scalar value => conditionScalarValueMatches kind policyNamespace candidate value
  | .stringList values => values.any (conditionScalarValueMatches kind policyNamespace candidate)

def conditionMatches (m : ConditionMatch) (request : MeshAuthzRequest) (action : PolicyAction)
    (policyNamespace : Bytes) : Bool :=
  if m.values.isEmpty && m.notValues.isEmpty then false
  else match classifyMeshConditionKey m.key with
    | none => denyMissingHttpAttributeMatches action
    | some kind =>
      if !conditionKindIsSourceable kind request then denyMissingHttpAttributeMatches action
      else
        let value := request.attributes.get m.key
        (m.values.isEmpty || value.any fun value =>
          m.values.any (conditionValueMatches kind policyNamespace · value)) &&
        (m.notValues.isEmpty || !value.any fun value =>
          m.notValues.any (conditionValueMatches kind policyNamespace · value))

def matchesConditions (ms : List ConditionMatch) (request : MeshAuthzRequest)
    (action : PolicyAction) (policyNamespace : Bytes) : Bool :=
  ms.all (conditionMatches · request action policyNamespace)

def ruleMatches (rule : MeshRule) (request : MeshAuthzRequest)
    (normalizedHost : Option NormalizedHost) (policyNamespace : Bytes) : Bool :=
  !rule.neverMatches &&
    matchesPrincipals rule.from_ request &&
    matchesRequestPrincipals rule.requestPrincipals request rule.action &&
    matchesNotRequestPrincipals rule.notRequestPrincipals request rule.action &&
    matchesSourceNegation rule.sourceNegation request &&
    matchesRequests rule.to_ request rule.action normalizedHost &&
    matchesConditions rule.when_ request rule.action policyNamespace

/-! ## Evaluation -/

inductive MeshAuthzDecision where
  | allow
  | deny (policy : Bytes)
  | audit (policy : Bytes)
  deriving DecidableEq

structure MeshAuthzCustomDelegation where
  policy : Bytes
  provider : Bytes
  deriving DecidableEq

structure MeshAuthzEvaluation where
  custom : Option MeshAuthzCustomDelegation
  customProviderConflict : Bool
  decision : MeshAuthzDecision
  deriving DecidableEq

/-- The local variables of the pass. -/
structure Pass where
  sawAllow : Bool := false
  matchedAllow : Bool := false
  matchedAudit : Option Bytes := none
  matchedDeny : Option Bytes := none
  custom : Option MeshAuthzCustomDelegation := none
  customProviderConflict : Bool := false

def PolicyAction.isCustom : PolicyAction → Bool
  | .custom _ => true
  | _ => false

/-- A matching rule of the policy with this name. -/
def Pass.matched (s : Pass) (policy : Bytes) : PolicyAction → Pass
  | .deny => { s with matchedDeny := s.matchedDeny.or (some policy) }
  | .allow => { s with sawAllow := true, matchedAllow := true }
  | .audit => { s with matchedAudit := s.matchedAudit.or (some policy) }
  | .custom provider =>
    match s.custom with
    | some existing =>
      if existing.provider = provider then s
      else { s with custom := none, customProviderConflict := true }
    | none => if s.customProviderConflict then s else { s with custom := some ⟨policy, provider⟩ }

/-- One rule.  After a denial only rules that can still change the delegation are looked at. -/
def Pass.rule (request : MeshAuthzRequest) (normalizedHost : Option NormalizedHost)
    (policy : MeshPolicy) (s : Pass) (rule : MeshRule) : Pass :=
  if s.matchedDeny.isSome && (s.customProviderConflict || !rule.action.isCustom) then s
  else if !ruleMatches rule request normalizedHost policy.namespace_ then s
  else s.matched policy.name rule.action

def Pass.policy (request : MeshAuthzRequest) (normalizedHost : Option NormalizedHost) (s : Pass)
    (policy : MeshPolicy) : Pass :=
  let s := policy.rules.foldl (Pass.rule request normalizedHost policy) s
  if policy.rules.any (·.action == .allow) then { s with sawAllow := true } else s

def Pass.decision (s : Pass) : MeshAuthzDecision :=
  match s.matchedDeny with
  | some policy => .deny policy
  | none =>
    if s.sawAllow && !s.matchedAllow then .deny (lit "implicit-deny")
    else match s.matchedAudit with
      | some policy => .audit policy
      | none => .allow

def evaluateMeshAuthorizationFull (policies : List MeshPolicy) (request : MeshAuthzRequest) :
    MeshAuthzEvaluation :=
  let normalizedHost := request.host.bind normalizeMatchHost
  let s := policies.foldl (Pass.policy request normalizedHost) {}
  ⟨s.custom, s.customProviderConflict, s.decision⟩

/-- For callers without external authorization: a delegation is a denial. -/
def evaluateMeshAuthorizationPolicies (policies : List MeshPolicy) (request : MeshAuthzRequest) :
    MeshAuthzDecision :=
  let evaluation := evaluateMeshAuthorizationFull policies request
  if evaluation.customProviderConflict then .deny (lit "custom:provider-conflict")
  else match evaluation.custom with
    | some delegation => .deny (lit "custom:" ++ delegation.policy)
    | none => evaluation.decision

end Ferrum.Mesh
