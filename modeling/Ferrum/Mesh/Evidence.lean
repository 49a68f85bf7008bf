/-
  Requests whose addresses or port are not known.

  A condition on evidence that is missing counts as met in a rule that refuses, and as not met in a
  rule that allows.  Lists of address blocks and of ports do not look at the action: without the
  evidence they do not match, also in a rule that refuses.

  * `matches_without`: what is left of a rule when evidence is lost.
  * `lost_block_admits`: a denial by a block of addresses is lost with the address.
  * `lost_evidence_refused_iff`: exactly when a refusal stands.
-/
import Ferrum.Mesh.Semantics

namespace Ferrum.Mesh

open Lib

/-- Which evidence is lost. -/
structure Evidence where
  sourceIp : Bool := false
  remoteIp : Bool := false
  destinationIp : Bool := false
  port : Bool := false

/-- The attributes made from the evidence. -/
def Evidence.attribute (e : Evidence) (key : Bytes) : Bool :=
  (e.sourceIp && key == lit "source.ip") || (e.remoteIp && key == lit "remote.ip") ||
    (e.destinationIp && key == lit "destination.ip") || (e.port && key == lit "destination.port")

/-- The request without this evidence. -/
def MeshAuthzRequest.without (r : MeshAuthzRequest) (e : Evidence) : MeshAuthzRequest :=
  { r with
    sourceIp := if e.sourceIp then none else r.sourceIp
    remoteIp := if e.remoteIp then none else r.remoteIp
    destinationIp := if e.destinationIp then none else r.destinationIp
    port := if e.port then none else r.port
    attributes := r.attributes.retain fun key _ => !e.attribute key }

def refused (policies : List MeshPolicy) (r : MeshAuthzRequest) : Bool :=
  (evaluateMeshAuthorizationPolicies policies r).kind = .deny

/-! ## What a rule tests -/

/-- Is there a list of blocks for a lost address? -/
def SourceNegationMatch.tests (neg : SourceNegationMatch) (e : Evidence) : Bool :=
  (e.sourceIp && !(neg.ipBlocks.isEmpty && neg.notIpBlocks.isEmpty)) ||
    (e.remoteIp && !(neg.remoteIpBlocks.isEmpty && neg.notRemoteIpBlocks.isEmpty))

/-- Is there a list of ports, and the port lost? -/
def RequestMatch.tests (m : RequestMatch) (e : Evidence) : Bool :=
  e.port && !(m.ports.isEmpty && m.portPatterns.isEmpty && m.notPorts.isEmpty &&
    m.notPortPatterns.isEmpty)

/-- Is the condition one on lost evidence? -/
def ConditionMatch.tests (m : ConditionMatch) (e : Evidence) : Bool :=
  match classifyMeshConditionKey m.key with
  | some .sourceIp => e.sourceIp
  | some .remoteIp => e.remoteIp
  | some .destinationIp => e.destinationIp
  | some .destinationPort => e.port
  | _ => false

/-- The rule matches by what is not lost: it has no list of blocks for a lost address, an operation
    that matches has no list of ports if the port is lost, and conditions on lost evidence count for
    refusing rules only. -/
def matchesWithout (e : Evidence) (r : MeshAuthzRequest) (policy : MeshPolicy) (rule : MeshRule) :
    Bool :=
  !rule.neverMatches &&
    matchesPrincipals rule.from_ r &&
    matchesRequestPrincipals rule.requestPrincipals r rule.action &&
    matchesNotRequestPrincipals rule.notRequestPrincipals r rule.action &&
    (!rule.sourceNegation.tests e && matchesSourceNegation rule.sourceNegation r) &&
    (rule.to_.isEmpty || rule.to_.any fun m =>
      !m.tests e && requestMatch m r rule.action (r.host.bind normalizeMatchHost)) &&
    rule.when_.all fun m =>
      if m.tests e then
        !(m.values.isEmpty && m.notValues.isEmpty) && denyMissingHttpAttributeMatches rule.action
      else conditionMatches m r rule.action policy.namespace_

section
variable {r : MeshAuthzRequest} {e : Evidence} {action : PolicyAction} {ns : Bytes}

/-! ## Rules without evidence -/

variable {blocks notBlocks : List ParsedCidr} {lost : Bool} {m : ConditionMatch}

theorem matchesIpBlocks_none :
    matchesIpBlocks blocks notBlocks none = (blocks.isEmpty && notBlocks.isEmpty) := by
  simp [matchesIpBlocks]

theorem matchesIpBlocks_without {ip : Option Datagram.IpAddr} :
    matchesIpBlocks blocks notBlocks (if lost then none else ip) =
      (!(lost && !(blocks.isEmpty && notBlocks.isEmpty)) && matchesIpBlocks blocks notBlocks ip) := by
  cases lost with
  | false => simp
  | true =>
    cases he : blocks.isEmpty && notBlocks.isEmpty with
    | false => simp [matchesIpBlocks_none, he]
    | true =>
      simp only [Bool.and_eq_true] at he
      simp [matchesIpBlocks, he.1, he.2]

theorem matchesSourceNegation_without (neg : SourceNegationMatch) :
    matchesSourceNegation neg (r.without e) = (!neg.tests e && matchesSourceNegation neg r) := by
  rw [matchesSourceNegation, matchesSourceNegation, SourceNegationMatch.tests]
  show (_ && matchesIpBlocks _ _ (if e.sourceIp then none else r.sourceIp) &&
    matchesIpBlocks _ _ (if e.remoteIp then none else r.remoteIp)) = _
  rw [matchesIpBlocks_without, matchesIpBlocks_without, Bool.not_or]
  ac_rfl

/-- A list of ports does not match without the port. -/
theorem portField_without {noLists : Bool} {port : Option UInt16} {p : UInt16 → Bool} :
    (noLists || (if lost then none else port).any p) =
      (!(lost && !noLists) && (noLists || port.any p)) := by
  cases lost <;> cases noLists <;> simp

theorem requestMatch_without (m : RequestMatch) (host : Option NormalizedHost) :
    requestMatch m (r.without e) action host = (!m.tests e && requestMatch m r action host) := by
  have ht : (!m.tests e) =
      (!(e.port && !(m.ports.isEmpty && m.portPatterns.isEmpty)) &&
        !(e.port && !(m.notPorts.isEmpty && m.notPortPatterns.isEmpty))) := by
    rw [RequestMatch.tests]
    cases e.port <;> cases m.ports.isEmpty <;> cases m.portPatterns.isEmpty <;>
      cases m.notPorts.isEmpty <;> cases m.notPortPatterns.isEmpty <;> rfl
  rw [requestMatch, requestMatch, ht]
  show (_ && ((_ && _) || (if e.port then none else r.port).any _) &&
    ((_ && _) || (if e.port then none else r.port).any _) && _) = _
  rw [portField_without, portField_without]
  ac_rfl

/-- The keys of the evidence are those of their kinds. -/
theorem attribute_of_tests (h : m.tests e = false) : e.attribute m.key = false := by
  have hk : classifyMeshConditionKey (lit "source.ip") = some .sourceIp ∧
      classifyMeshConditionKey (lit "remote.ip") = some .remoteIp ∧
      classifyMeshConditionKey (lit "destination.ip") = some .destinationIp ∧
      classifyMeshConditionKey (lit "destination.port") = some .destinationPort := by
    decide +kernel
  by_contra ha
  simp only [Evidence.attribute, Bool.not_eq_false, Bool.or_eq_true, Bool.and_eq_true,
    beq_iff_eq] at ha
  rcases ha with ((⟨hls, hke⟩ | ⟨hls, hke⟩) | ⟨hls, hke⟩) | ⟨hls, hke⟩ <;>
    simp only [ConditionMatch.tests, hke, hk, hls, Bool.true_eq_false] at h

/-- A condition on evidence that is not lost can be told as before. -/
theorem sourceable_without {kind : MeshConditionKeyKind}
    (hk : classifyMeshConditionKey m.key = some kind) :
    conditionKindIsSourceable kind (r.without e) =
      (!m.tests e && conditionKindIsSourceable kind r) := by
  have hi {α : Type} {lost : Bool} {x : Option α} :
      (if lost then none else x).isSome = (!lost && x.isSome) := by
    cases lost <;> rfl
  rw [ConditionMatch.tests, hk]
  cases kind <;> first | rfl | exact hi

theorem conditionMatches_without (m : ConditionMatch) :
    conditionMatches m (r.without e) action ns =
      if m.tests e then
        !(m.values.isEmpty && m.notValues.isEmpty) && denyMissingHttpAttributeMatches action
      else conditionMatches m r action ns := by
  rw [conditionMatches, conditionMatches]
  cases he : m.values.isEmpty && m.notValues.isEmpty with
  | true => simp
  | false =>
    simp only [Bool.false_eq_true, if_false, Bool.not_false, Bool.true_and]
    cases hk : classifyMeshConditionKey m.key with
    | none => simp [ConditionMatch.tests, hk]
    | some kind =>
      simp only [sourceable_without hk]
      cases ht : m.tests e with
      | true => simp
      | false =>
        have hget : (r.without e).attributes.get m.key = r.attributes.get m.key := by
          have ha := attribute_of_tests ht
          show (r.attributes.retain _).get m.key = _
          rw [HMap.get_retain]
          cases r.attributes.get m.key <;> simp [Option.filter, ha]
        simp [hget]

/-- **What is left of a rule.** -/
theorem matches_without (policy : MeshPolicy) (rule : MeshRule) :
    Matches (r.without e) policy rule ↔ matchesWithout e r policy rule = true := by
  rw [Matches, ruleMatches, matchesWithout, matchesSourceNegation_without, matchesRequests,
    matchesConditions]
  simp only [requestMatch_without, conditionMatches_without]
  rfl

/-- An allowing rule that matches by what is not lost matches. -/
theorem matches_of_matchesWithout {policy : MeshPolicy} {rule : MeshRule}
    (ha : rule.action = .allow) (h : matchesWithout e r policy rule = true) :
    Matches r policy rule := by
  simp only [matchesWithout, Bool.and_eq_true, Bool.or_eq_true, List.any_eq_true,
    List.all_eq_true] at h
  obtain ⟨⟨⟨hf, _, hn⟩, hto⟩, hw⟩ := h
  simp only [Matches, ruleMatches, matchesRequests, matchesConditions, Bool.and_eq_true,
    Bool.or_eq_true, List.any_eq_true, List.all_eq_true]
  refine ⟨⟨⟨hf, hn⟩, ?_⟩, ?_⟩
  · rcases hto with he | ⟨m, hm, _, hmt⟩
    · exact .inl he
    · exact .inr ⟨m, hm, hmt⟩
  · intro m hm
    have hc := hw m hm
    cases ht : m.tests e with
    | true => simp [ht, ha, denyMissingHttpAttributeMatches] at hc
    | false => simpa [ht] using hc

end

/-! ## Refusals -/

/-- Some rule that refuses, by a denial or a delegation, matches. -/
def SomeRefusal (policies : List MeshPolicy) (p : MeshPolicy → MeshRule → Prop) : Prop :=
  ∃ policy ∈ policies, ∃ rule ∈ policy.rules,
    denyMissingHttpAttributeMatches rule.action = true ∧ p policy rule

/-- Some rule allows, and none of those matches. -/
def NoneAllows (policies : List MeshPolicy) (p : MeshPolicy → MeshRule → Prop) : Prop :=
  SomeRule policies .allow ∧
    ∀ policy ∈ policies, ∀ rule ∈ policy.rules, rule.action = .allow → ¬ p policy rule

section
variable {policies : List MeshPolicy} {r : MeshAuthzRequest} {e : Evidence}

theorem someRefusal_iff : SomeRefusal policies (Matches r) ↔
    SomeMatches policies r .deny ∨ ∃ p, SomeMatches policies r (.custom p) := by
  constructor
  · rintro ⟨policy, hp, rule, hr, ha, hm⟩
    cases hac : rule.action with
    | deny => exact .inl ⟨policy, hp, rule, hr, hac, hm⟩
    | custom p => exact .inr ⟨p, policy, hp, rule, hr, hac, hm⟩
    | allow => simp [hac, denyMissingHttpAttributeMatches] at ha
    | audit => simp [hac, denyMissingHttpAttributeMatches] at ha
  · rintro (⟨policy, hp, rule, hr, hac, hm⟩ |
      ⟨p, policy, hp, rule, hr, hac, hm⟩) <;>
    exact ⟨policy, hp, rule, hr, by rw [hac]; rfl, hm⟩

theorem noneAllows_iff : NoneAllows policies (Matches r) ↔
    SomeRule policies .allow ∧ ¬ SomeMatches policies r .allow := by
  simp [NoneAllows, SomeMatches]

/-- Requests are refused by a rule that refuses, or because no rule allows. -/
theorem refused_iff : refused policies r = true ↔
    SomeRefusal policies (Matches r) ∨ NoneAllows policies (Matches r) := by
  have hok : Declarative policies r _ := evaluation_ok
  rw [someRefusal_iff, noneAllows_iff, refused, evaluateMeshAuthorizationPolicies,
    decide_eq_true_iff]
  generalize evaluateMeshAuthorizationFull policies r = eval at hok ⊢
  split_ifs with hc
  · obtain ⟨p, q, _, hp, _⟩ := hok.conflict.1 hc
    exact iff_of_true rfl (.inl (.inr ⟨p, hp⟩))
  · cases hcs : eval.custom with
    | some delegation =>
      have hp := (hok.custom delegation.provider).1 (by rw [hcs]; rfl)
      exact iff_of_true rfl (.inl (.inr ⟨_, hp.1⟩))
    | none =>
      -- no delegation and no conflict: no provider matches
      have hn : ¬ ∃ p, SomeMatches policies r (.custom p) := by
        rintro ⟨p, hp⟩
        have hs : eval.custom.map MeshAuthzCustomDelegation.provider = some p := by
          refine (hok.custom p).2 ⟨hp, fun q hq => ?_⟩
          by_contra hne
          exact hc (hok.conflict.2 ⟨q, p, hne, hq, hp⟩)
        simp [hcs] at hs
      rw [or_iff_left hn]
      exact hok.deny

theorem matches_without_eq :
    Matches (r.without e) = fun policy rule => matchesWithout e r policy rule = true := by
  ext policy rule
  exact matches_without policy rule

theorem NoneAllows.without (h : NoneAllows policies (Matches r)) :
    NoneAllows policies fun policy rule => matchesWithout e r policy rule = true :=
  ⟨h.1, fun policy hp rule hr ha hm =>
    h.2 policy hp rule hr ha (matches_of_matchesWithout ha hm)⟩

end

/-- **When a refusal stands.**  Without the evidence a request is still refused exactly if no rule
    refuses it, or a rule that refuses matches by what is not lost, or some rule allows but none of
    them by what is not lost. -/
theorem lost_evidence_refused_iff (policies : List MeshPolicy) (r : MeshAuthzRequest)
    (e : Evidence) :
    (refused policies r = true → refused policies (r.without e) = true) ↔
      ¬ SomeRefusal policies (Matches r) ∨
        SomeRefusal policies (fun policy rule => matchesWithout e r policy rule = true) ∨
        NoneAllows policies (fun policy rule => matchesWithout e r policy rule = true) := by
  rw [refused_iff, refused_iff, matches_without_eq]
  constructor
  · intro h
    by_cases hr : SomeRefusal policies (Matches r)
    · exact .inr (h (.inl hr))
    · exact .inl hr
  · rintro (hn | hs) hrf
    · exact .inr (hrf.resolve_left hn).without
    · exact hs

/-- Requests from a block of addresses are denied. -/
def blockPolicy : MeshPolicy :=
  { name := lit "deny-internal"
    namespace_ := lit "ns"
    rules := [{ action := .deny
                sourceNegation := { ipBlocks := (ParsedCidr.parse (lit "10.0.0.0/8")).toList } }] }

def blockRequest : MeshAuthzRequest :=
  { sourceIp := some (.v4 #v[10, 1, 2, 3]) }

/-- The denial of an address is lost with the address. -/
theorem lost_block_admits :
    refused [blockPolicy] blockRequest = true ∧
      refused [blockPolicy] (blockRequest.without { sourceIp := true }) = false := by
  decide +kernel

end Ferrum.Mesh
