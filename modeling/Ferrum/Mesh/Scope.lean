/-
  Rules and requests of which not everything can be seen.

  Before a request is authorized, only its method, path and perhaps its host are known; the scope of a
  rule then says whether the rule could match.  On a raw connection there is nothing of HTTP to see at
  all, and what a rule asks of it counts by the action of the rule.

  * `scope_may_apply_of_matches`: a rule that will match is in scope, also while the host is unknown.
  * `l4_matches_without_http`: a rule that refuses ignores what it asks of HTTP on a raw connection, and
    one that allows does not match.
-/
import Ferrum.Mesh.Semantics

namespace Ferrum.Mesh

open Lib List

/-! ## Scope -/

/-- The method, the path and the host could satisfy the operation.  A host that is not known may still
    be observed. -/
def requestScopeMethodPathHostMayApply (m : RequestMatch) (method path : Bytes)
    (normalizedHost : Option NormalizedHost) : Bool :=
  (m.methods.isEmpty || m.methods.any (eqIgnoreAsciiCase · method)) &&
    (m.notMethods.isEmpty || !m.notMethods.any (eqIgnoreAsciiCase · method)) &&
    (m.paths.isEmpty || m.paths.any (wildcardMatch · path)) &&
    (m.notPaths.isEmpty || !m.notPaths.any (wildcardMatch · path)) &&
    (m.hosts.isEmpty || normalizedHost.all fun host =>
      m.hosts.any (normalizedHostMatches · host)) &&
    (m.notHosts.isEmpty || normalizedHost.all fun host =>
      !m.notHosts.any (normalizedHostMatches · host))

def meshRuleRequestScopeMayApply (rule : MeshRule) (method path : Bytes) (host : Option Bytes) : Bool :=
  if rule.to_.isEmpty then true
  else
    let needsHost := rule.to_.any fun m => !m.hosts.isEmpty || !m.notHosts.isEmpty
    let normalizedHost := if needsHost then host.bind normalizeMatchHost else none
    rule.to_.any (requestScopeMethodPathHostMayApply · method path normalizedHost)

section
variable {m : RequestMatch} {r : MeshAuthzRequest} {action : PolicyAction} {method path : Bytes}
  {host host' : Option NormalizedHost}

/-- The scope of an operation asks less than the operation. -/
theorem scope_of_requestMatch (h : requestMatch m r action host = true) (hmt : r.method = some method)
    (hpt : r.path = some path) (hh : host' = host ∨ host' = none) :
    requestScopeMethodPathHostMayApply m method path host' = true := by
  simp only [requestMatch, hmt, hpt, fieldMatches, fieldExcludes, Bool.and_eq_true] at h
  obtain ⟨⟨⟨⟨⟨⟨⟨⟨hm, hn⟩, hp⟩, hnt⟩, hhs⟩, hnh⟩, -⟩, -⟩, -⟩ := h
  simp only [requestScopeMethodPathHostMayApply, Bool.and_eq_true]
  refine ⟨⟨⟨⟨⟨hm, hn⟩, hp⟩, hnt⟩, ?_⟩, ?_⟩
  · rcases hh with rfl | rfl
    · cases host' with
      | none => simp
      | some host => exact hhs
    · simp
  · rcases hh with rfl | rfl
    · cases host' with
      | none => simp
      | some host => exact hnh
    · simp

end

/-- **A rule that will match is in scope**, whether the host is known when the scope is asked for or
    not. -/
theorem scope_may_apply_of_matches (rule : MeshRule) (policyNamespace : Bytes) (r : MeshAuthzRequest)
    (method path : Bytes) (host : Option Bytes) (hmethod : r.method = some method)
    (hpath : r.path = some path) (hhost : host = r.host ∨ host = none)
    (hmatches : ruleMatches rule r (r.host.bind normalizeMatchHost) policyNamespace = true) :
    meshRuleRequestScopeMayApply rule method path host = true := by
  simp only [ruleMatches, Bool.and_eq_true] at hmatches
  obtain ⟨⟨-, hto⟩, -⟩ := hmatches
  rw [meshRuleRequestScopeMayApply]
  split_ifs with he
  · rfl
  · rw [matchesRequests, Bool.or_eq_true] at hto
    obtain ⟨m, hm, hmt⟩ := any_eq_true.1 (hto.resolve_left he)
    refine any_eq_true.2 ⟨m, hm, scope_of_requestMatch hmt hmethod hpath ?_⟩
    split_ifs with hn
    · rcases hhost with rfl | rfl
      · exact .inl rfl
      · exact .inr rfl
    · exact .inr rfl

/-- Posts below a path of one host, to be checked elsewhere. -/
def uploadRule : MeshRule :=
  { action := .custom (lit "scanner")
    to_ := [{ methods := [lit "POST"], paths := [lit "/upload/*"], hosts := [lit "*.example"] }] }

def uploadRequest : MeshAuthzRequest :=
  { method := some (lit "post"), path := some (lit "/upload/a"), host := some (lit "A.example:80"),
    protocol := .http }

theorem upload_in_scope :
    meshRuleRequestScopeMayApply uploadRule (lit "post") (lit "/upload/a") none = true :=
  scope_may_apply_of_matches uploadRule (lit "ns") uploadRequest _ _ none rfl rfl (.inr rfl)
    (by decide +kernel)

/-! ## Raw connections -/

/-- A connection of which nothing of HTTP can be seen. -/
structure MeshAuthzRequest.Raw (r : MeshAuthzRequest) : Prop where
  protocol : r.protocol = .l4
  method : r.method = none
  path : r.path = none
  host : r.host = none
  headers : r.headers = .empty
  requestPrincipal : r.requestPrincipal = none

/-- The operation asks for something of HTTP. -/
def RequestMatch.asksHttp (m : RequestMatch) : Bool :=
  !(m.methods.isEmpty && m.notMethods.isEmpty && m.paths.isEmpty && m.notPaths.isEmpty &&
    m.hosts.isEmpty && m.notHosts.isEmpty && m.headers.isEmpty)

/-- What the operation asks of the port. -/
def RequestMatch.portsMatch (m : RequestMatch) (port : Option UInt16) : Bool :=
  ((m.ports.isEmpty && m.portPatterns.isEmpty) || port.any m.portMatches) &&
    ((m.notPorts.isEmpty && m.notPortPatterns.isEmpty) || port.any fun port => !m.portExcluded port)

/-- The operation without what it asks of HTTP. -/
def RequestMatch.withoutHttp (m : RequestMatch) : RequestMatch :=
  { ports := m.ports, portPatterns := m.portPatterns, notPorts := m.notPorts,
    notPortPatterns := m.notPortPatterns }

/-- The condition has a key `request.*` or `experimental.envoy.filters.*`, or one that is not known. -/
def ConditionMatch.asksHttp (m : ConditionMatch) : Bool :=
  startsWith m.key (lit "request.") || startsWith m.key (lit "experimental.envoy.filters.") ||
    (classifyMeshConditionKey m.key).isNone

/-- The rule without what it asks of HTTP. -/
def MeshRule.withoutHttp (rule : MeshRule) : MeshRule :=
  { rule with
    to_ := rule.to_.map RequestMatch.withoutHttp
    when_ := rule.when_.filter fun c => !c.asksHttp
    requestPrincipals := []
    notRequestPrincipals := [] }

section
variable {r : MeshAuthzRequest} {action : PolicyAction} {ns : Bytes}

theorem fieldMatches_none {α β : Type} {list : List α} {holds : α → β → Bool} :
    fieldMatches list holds action none = (list.isEmpty || denyMissingHttpAttributeMatches action) ∧
      fieldExcludes list holds action none =
        (list.isEmpty || denyMissingHttpAttributeMatches action) :=
  ⟨rfl, rfl⟩

theorem all_const {α : Type} {l : List α} {b : Bool} : (l.all fun _ => b) = (l.isEmpty || b) := by
  cases l with
  | nil => rfl
  | cons a l => cases b <;> simp

/-- What an operation asks of a raw connection: its port, and HTTP by the action. -/
theorem requestMatch_raw (h : r.Raw) (m : RequestMatch) :
    requestMatch m r action none =
      ((!m.asksHttp || denyMissingHttpAttributeMatches action) && m.portsMatch r.port) := by
  have hm : ∀ name, requestHeaderValue r.headers name = none := fun name => by
    simp [requestHeaderValue, h.headers]
  have hi : m.headers.toList.isEmpty = m.headers.isEmpty := by
    simp [HMap.toList, HMap.isEmpty]
  simp only [requestMatch, hm, all_const, hi, h.method, h.path, fieldMatches_none.1,
    fieldMatches_none.2, RequestMatch.asksHttp, RequestMatch.portsMatch, Bool.not_not]
  cases denyMissingHttpAttributeMatches action with
  | true => simp only [Bool.or_true, Bool.true_and, Bool.and_true]
  | false =>
    simp only [Bool.or_false]
    ac_rfl

/-- The keys of what a connection can always be asked for. -/
def connectionKeys : List Bytes :=
  [lit "source.principal", lit "source.namespace", lit "source.serviceAccount",
    lit "source.trustDomain", lit "source.ip", lit "remote.ip", lit "destination.ip",
    lit "destination.port", lit "connection.sni"]

theorem ite_eq_some {α : Type} {p : Prop} [Decidable p] {a b : α} {rest : Option α}
    (h : (if p then some a else rest) = some b) : a = b ∨ rest = some b := by
  split at h
  · exact .inl (Option.some.inj h)
  · exact .inr h

/-- A condition on HTTP cannot be told on a raw connection. -/
theorem sourceable_of_asksHttp (h : r.Raw) {c : ConditionMatch} {kind : MeshConditionKeyKind}
    (hk : classifyMeshConditionKey c.key = some kind) (ha : c.asksHttp = true) :
    conditionKindIsSourceable kind r = false := by
  have hks : ∀ key ∈ connectionKeys, startsWith key (lit "request.") = false ∧
      startsWith key (lit "experimental.envoy.filters.") = false := by
    decide +kernel
  rw [ConditionMatch.asksHttp, hk, Option.isNone_some, Bool.or_false, Bool.or_eq_true] at ha
  have hn : c.key ∉ connectionKeys := fun hm => by
    have := hks c.key hm
    rw [this.1, this.2] at ha
    rcases ha with ha | ha <;> cases ha
  simp only [connectionKeys, mem_cons, not_mem_nil, or_false, not_or] at hn
  obtain ⟨h1, h2, h3, h4, h5, h6, h7, h8, h9⟩ := hn
  rw [classifyMeshConditionKey, if_neg h1, if_neg h2, if_neg h3, if_neg h4, if_neg h5, if_neg h6,
    if_neg h7, if_neg h8, if_neg h9] at hk
  have hh : (r.protocol == .http) = false := by rw [h.protocol]; rfl
  rcases ite_eq_some hk with rfl | hk
  · exact hh
  rcases ite_eq_some hk with rfl | hk
  · exact hh
  rcases ite_eq_some hk with rfl | hk
  · exact hh
  rcases ite_eq_some hk with rfl | hk
  · exact hh
  rcases ite_eq_some hk with rfl | hk
  · exact hh
  rcases ite_eq_some hk with rfl | hk
  · rfl
  · cases hk

theorem conditionMatches_raw (h : r.Raw) {c : ConditionMatch} (ha : c.asksHttp = true)
    (hv : c.values ≠ [] ∨ c.notValues ≠ []) :
    conditionMatches c r action ns = denyMissingHttpAttributeMatches action := by
  have hls : (c.values.isEmpty && c.notValues.isEmpty) = false := by
    rw [Bool.and_eq_false_iff, isEmpty_eq_false_iff, isEmpty_eq_false_iff]
    exact hv
  rw [conditionMatches, hls]
  cases hk : classifyMeshConditionKey c.key with
  | none => rfl
  | some kind => simp [sourceable_of_asksHttp h hk ha]

theorem requestPrincipals_raw (h : r.Raw) (action : PolicyAction) (patterns : List Bytes) :
    matchesRequestPrincipals patterns r action =
        (patterns.isEmpty || denyMissingHttpAttributeMatches action) ∧
      matchesNotRequestPrincipals patterns r action =
        (patterns.isEmpty || denyMissingHttpAttributeMatches action) := by
  have hl4 : r.protocol ≠ .http := by rw [h.protocol]; nofun
  rw [matchesRequestPrincipals, matchesNotRequestPrincipals, if_pos hl4, if_pos hl4]
  cases patterns.isEmpty <;> exact ⟨rfl, rfl⟩

theorem matchesRequests_raw (h : r.Raw) (ms : List RequestMatch) :
    matchesRequests ms r action none = (ms.isEmpty || ms.any fun m =>
      (!m.asksHttp || denyMissingHttpAttributeMatches action) && m.portsMatch r.port) := by
  simp only [matchesRequests, requestMatch_raw h]

/-- Without what they ask of HTTP, operations match as if it did not count. -/
theorem matchesRequests_withoutHttp (h : r.Raw) (ms : List RequestMatch) :
    matchesRequests (ms.map RequestMatch.withoutHttp) r action none =
      (ms.isEmpty || ms.any fun m => m.portsMatch r.port) := by
  rw [matchesRequests_raw h, isEmpty_map, any_map]
  rfl

/-- What a rule asks of the conditions of a raw connection. -/
theorem matchesConditions_raw (h : r.Raw) {cs : List ConditionMatch}
    (hcs : ∀ c ∈ cs, c.values ≠ [] ∨ c.notValues ≠ []) :
    matchesConditions cs r action ns =
      ((denyMissingHttpAttributeMatches action || !cs.any ConditionMatch.asksHttp) &&
        matchesConditions (cs.filter fun c => !c.asksHttp) r action ns) := by
  induction cs with
  | nil => simp [matchesConditions]
  | cons c cs ih =>
    obtain ⟨hc, hcs⟩ := forall_mem_cons.1 hcs
    have hcn : ∀ cs, matchesConditions (c :: cs) r action ns =
        (conditionMatches c r action ns && matchesConditions cs r action ns) := fun _ => rfl
    rw [hcn, ih hcs]
    cases ha : c.asksHttp with
    | false =>
      rw [filter_cons_of_pos (by simp [ha]), hcn, any_cons, ha, Bool.false_or]
      ac_rfl
    | true =>
      rw [conditionMatches_raw h ha hc, filter_cons_of_neg (by simp [ha]), any_cons, ha]
      cases denyMissingHttpAttributeMatches action <;> simp

end

/-- **Raw connections.**  A rule that denies or delegates matches by what else it asks.  A rule that
    allows or audits does not match if it asks for something of HTTP: in all of its operations, of the
    principal of the request, or in a condition. -/
theorem l4_matches_without_http (policy : MeshPolicy) (rule : MeshRule) (r : MeshAuthzRequest)
    (hwhen : ∀ c ∈ rule.when_, c.values ≠ [] ∨ c.notValues ≠ []) (h : r.Raw) :
    (rule.action = .deny ∨ (∃ provider, rule.action = .custom provider) →
        (Matches r policy rule ↔ Matches r policy rule.withoutHttp)) ∧
      (rule.action = .allow ∨ rule.action = .audit →
        (rule.to_ ≠ [] ∧ ∀ m ∈ rule.to_, m.asksHttp = true) ∨ rule.requestPrincipals ≠ [] ∨
          rule.notRequestPrincipals ≠ [] ∨ (∃ c ∈ rule.when_, c.asksHttp = true) →
        ¬ Matches r policy rule) := by
  have hh : r.host.bind normalizeMatchHost = none := by rw [h.host]; rfl
  constructor
  · intro ha
    have hr : denyMissingHttpAttributeMatches rule.action = true := by
      rcases ha with ha | ⟨provider, ha⟩ <;> rw [ha] <;> rfl
    have hp := requestPrincipals_raw h rule.action
    simp only [Matches, ruleMatches, hh, MeshRule.withoutHttp, matchesRequests_withoutHttp h,
      hp, matchesRequests_raw h rule.to_, matchesConditions_raw h hwhen, hr, Bool.or_true,
      Bool.true_or, Bool.true_and, Bool.and_true]
  · intro ha has hmt
    have hal : denyMissingHttpAttributeMatches rule.action = false := by
      rcases ha with ha | ha <;> rw [ha] <;> rfl
    have hp := requestPrincipals_raw h rule.action
    simp only [Matches, ruleMatches, hh, hp, matchesRequests_raw h rule.to_,
      matchesConditions_raw h hwhen, hal, Bool.or_false, Bool.false_or, Bool.and_eq_true,
      Bool.or_eq_true, List.isEmpty_iff, Bool.not_eq_true', any_eq_true] at hmt
    obtain ⟨⟨⟨⟨⟨-, hpr⟩, hn⟩, -⟩, hto⟩, hnn, -⟩ := hmt
    rcases has with ⟨hne, hall⟩ | hne | hne | ⟨c, hc, has⟩
    · obtain ⟨m, hm, hmc, -⟩ := hto.resolve_left hne
      rw [hall m hm] at hmc
      cases hmc
    · exact hne hpr
    · exact hne hn
    · rw [any_eq_true.2 ⟨c, hc, has⟩] at hnn
      cases hnn

/-- A denial of a path on one port. -/
def adminRule : MeshRule :=
  { action := .deny
    to_ := [{ paths := [lit "/admin/*"], ports := [9000] }] }

def adminPolicy : MeshPolicy := { name := lit "deny-admin", namespace_ := lit "ns", rules := [adminRule] }

def rawRequest : MeshAuthzRequest := { port := some 9000 }

/-- On a raw connection the port is refused. -/
theorem admin_refused_raw : rawRequest.Raw ∧ Matches rawRequest adminPolicy adminRule := by
  have hr : rawRequest.Raw := ⟨rfl, rfl, rfl, rfl, rfl, rfl⟩
  refine ⟨hr, ((l4_matches_without_http adminPolicy adminRule rawRequest nofun hr).1 (.inl rfl)).2 ?_⟩
  unfold Matches
  decide +kernel

end Ferrum.Mesh
