/-
  What a list of policies decides.

  The pass keeps, for the rules it has seen, which actions have matched.  After a denial it no
  longer looks at rules that cannot change the outcome, so it knows less, but enough.

  * `Pass.Ok`: what the variables of the pass say about the matched actions, kept by every rule.
  * `evaluation_declarative`: the outcome depends only on which actions match, and on whether there
    is a rule that allows; so it does not depend on the order of policies and rules.
-/
import Ferrum.Mesh.Policy

namespace Ferrum.Mesh

open Lib MeshAuthzCustomDelegation

/-! ## Meaning -/

def Matches (request : MeshAuthzRequest) (policy : MeshPolicy) (rule : MeshRule) : Prop :=
  ruleMatches rule request (request.host.bind normalizeMatchHost) policy.namespace_ = true

/-- Some rule with this action matches. -/
def SomeMatches (policies : List MeshPolicy) (request : MeshAuthzRequest) (action : PolicyAction) :
    Prop :=
  ∃ policy ∈ policies, ∃ rule ∈ policy.rules, rule.action = action ∧ Matches request policy rule

/-- Some rule has this action. -/
def SomeRule (policies : List MeshPolicy) (action : PolicyAction) : Prop :=
  ∃ policy ∈ policies, ∃ rule ∈ policy.rules, rule.action = action

/-- Denied by a rule, or because no rule allows although some could. -/
def Denied (policies : List MeshPolicy) (request : MeshAuthzRequest) : Prop :=
  SomeMatches policies request .deny ∨
    SomeRule policies .allow ∧ ¬ SomeMatches policies request .allow

inductive DecisionKind where
  | allow | deny | audit
  deriving DecidableEq

def MeshAuthzDecision.kind : MeshAuthzDecision → DecisionKind
  | .allow => .allow
  | .deny _ => .deny
  | .audit _ => .audit

/-- The policies in another order, each with its rules in another order. -/
def Reordered (policies policies' : List MeshPolicy) : Prop :=
  ∃ qs, policies.Perm qs ∧
    List.Forall₂ (fun p q => q.name = p.name ∧ q.namespace_ = p.namespace_ ∧ p.rules.Perm q.rules)
      qs policies'

/-! ## The pass -/

/-- The pass has seen rules of which those with the actions in `M` matched. -/
structure Pass.Ok (s : Pass) (M : PolicyAction → Prop) : Prop where
  deny : s.matchedDeny.isSome ↔ M .deny
  allow : s.matchedDeny = none → (s.matchedAllow = true ↔ M .allow)
  audit : s.matchedDeny = none → (s.matchedAudit.isSome ↔ M .audit)
  conflict : s.customProviderConflict = true ↔ ∃ p q, p ≠ q ∧ M (.custom p) ∧ M (.custom q)
  settled : s.customProviderConflict = true → s.custom = none
  custom : s.customProviderConflict = false →
    ∀ p, s.custom.map provider = some p ↔ M (.custom p)

variable {s : Pass} {M : PolicyAction → Prop} {a : PolicyAction} {name : Bytes}

theorem Pass.Ok.congr {M' : PolicyAction → Prop} (h : s.Ok M) (hM : ∀ a, M a ↔ M' a) : s.Ok M' := by
  obtain rfl : M = M' := funext fun a => propext (hM a)
  exact h

theorem Pass.ok_init : Pass.Ok {} fun _ => False :=
  ⟨by simp, by simp, by simp, by simp, by simp, by simp⟩

/-- A rule that does not delegate has matched. -/
theorem Pass.Ok.matched_of_not_custom (h : s.Ok M) (hs : s.matchedDeny = none)
    (ha : a.isCustom = false) : (s.matched name a).Ok fun b => M b ∨ a = b := by
  have hd : ¬ M .deny := fun hm => by
    have := h.deny.2 hm
    rw [hs] at this
    cases this
  cases a with
  | custom p => cases ha
  | allow =>
    refine ⟨?_, ?_, ?_, ?_, h.settled, ?_⟩
    · simpa [matched] using h.deny
    · simp [matched]
    · simpa [matched] using h.audit
    · simpa [matched] using h.conflict
    · simpa [matched] using h.custom
  | deny =>
    refine ⟨?_, ?_, ?_, ?_, h.settled, ?_⟩
    · simp [matched, hs]
    · simp [matched, hs]
    · simp [matched, hs]
    · simpa [matched] using h.conflict
    · simpa [matched] using h.custom
  | audit =>
    refine ⟨?_, ?_, ?_, ?_, h.settled, ?_⟩
    · simpa [matched] using h.deny
    · simpa [matched] using h.allow
    · simp [matched]
    · simpa [matched] using h.conflict
    · simpa [matched] using h.custom

theorem Pass.Ok.matched_custom (h : s.Ok M) (p : Bytes) :
    (s.matched name (.custom p)).Ok fun b => M b ∨ .custom p = b := by
  cases hcn : s.customProviderConflict with
  | true =>
    have hs : s.matched name (.custom p) = s := by
      simp [matched, h.settled hcn, hcn]
    rw [hs]
    refine ⟨by simpa using h.deny, by simpa using h.allow, by simpa using h.audit, ?_, h.settled, ?_⟩
    · obtain ⟨q, q', hne, hq, hq'⟩ := h.conflict.1 hcn
      exact iff_of_true hcn ⟨q, q', hne, .inl hq, .inl hq'⟩
    · intro hno
      rw [hcn] at hno
      cases hno
  | false =>
    have hcs := h.custom hcn
    cases hc : s.custom with
    | none =>
      -- the first delegation
      have hn : ∀ q, ¬ M (.custom q) := fun q hq => by
        have := (hcs q).2 hq
        rw [hc] at this
        cases this
      have hs : s.matched name (.custom p) = { s with custom := some ⟨name, p⟩ } := by
        simp [matched, hc, hcn]
      rw [hs]
      refine ⟨by simpa using h.deny, by simpa using h.allow, by simpa using h.audit, ?_, ?_, ?_⟩
      · simp only [hcn, Bool.false_eq_true, false_iff]
        rintro ⟨q, q', hne, hq | hq, hq' | hq'⟩
        · exact hn q hq
        · exact hn q hq
        · exact hn q' hq'
        · cases hq
          cases hq'
          exact hne rfl
      · intro hy
        rw [show _ = false from hcn] at hy
        cases hy
      · intro _ q
        simp [hn q]
    | some existing =>
      have ho : ∀ q, M (.custom q) ↔ existing.provider = q := fun q => by
        rw [← hcs q, hc]
        simp
      by_cases heq : existing.provider = p
      · have hs : s.matched name (.custom p) = s := by simp [matched, hc, heq]
        rw [hs]
        refine h.congr fun b => ⟨.inl, ?_⟩
        rintro (hb | rfl)
        · exact hb
        · exact (ho p).2 heq
      · -- a second provider
        have hs : s.matched name (.custom p) =
            { s with custom := none, customProviderConflict := true } := by
          simp [matched, hc, heq]
        rw [hs]
        refine ⟨by simpa using h.deny, by simpa using h.allow, by simpa using h.audit, ?_,
          fun _ => rfl, nofun⟩
        exact iff_of_true rfl ⟨existing.provider, p, heq, .inl ((ho _).2 rfl), .inr rfl⟩

/-- A rule that the guard skips changes nothing that the pass still needs. -/
theorem Pass.Ok.skip (h : s.Ok M) (hd : s.matchedDeny.isSome)
    (hgr : s.customProviderConflict = true ∨ a.isCustom = false) {P : Prop} :
    s.Ok fun b => M b ∨ P ∧ a = b := by
  have hne : s.matchedDeny ≠ none := fun hn => by rw [hn] at hd; cases hd
  refine ⟨iff_of_true hd (.inl (h.deny.1 hd)), fun hn => absurd hn hne,
    fun hn => absurd hn hne, ?_, h.settled, ?_⟩
  · rcases hgr with hc | hcs
    · obtain ⟨q, q', hq⟩ := h.conflict.1 hc
      exact iff_of_true hc ⟨q, q', hq.1, .inl hq.2.1, .inl hq.2.2⟩
    · rw [h.conflict]
      have hno : ∀ q, ¬ a = .custom q := by
        rintro q rfl
        cases hcs
      simp [hno]
  · intro hno q
    rcases hgr with hc | hcs
    · rw [hc] at hno
      cases hno
    · rw [h.custom hno q]
      have hne : ¬ a = .custom q := by
        rintro rfl
        cases hcs
      simp [hne]

section
variable {request : MeshAuthzRequest} {policy : MeshPolicy} {rule : MeshRule}
  {rules : List MeshRule} {policies policies' : List MeshPolicy}

/-- **One rule.** -/
theorem Pass.Ok.oneRule (h : s.Ok M) :
    (s.rule request (request.host.bind normalizeMatchHost) policy rule).Ok
      fun b => M b ∨ Matches request policy rule ∧ rule.action = b := by
  rw [Pass.rule]
  split_ifs with hsk hmt
  · simp only [Bool.and_eq_true, Bool.or_eq_true, Bool.not_eq_true'] at hsk
    exact h.skip hsk.1 hsk.2
  · have hno : ¬ Matches request policy rule := fun hm => by
      rw [Matches] at hm
      rw [hm] at hmt
      cases hmt
    exact h.congr fun b => by simp [hno]
  · have hy : Matches request policy rule := by simpa [Matches] using hmt
    have hM : ∀ b, M b ∨ rule.action = b ↔ M b ∨ Matches request policy rule ∧ rule.action = b :=
      fun b => by simp [hy]
    cases hc : rule.action with
    | custom p => exact (h.matched_custom p).congr fun b => hc ▸ hM b
    | allow | deny | audit =>
      have hs : s.matchedDeny = none := by simpa [hc, PolicyAction.isCustom] using hsk
      exact (h.matched_of_not_custom hs rfl).congr fun b => hc ▸ hM b

theorem Pass.Ok.ruleList (h : s.Ok M) :
    (rules.foldl (Pass.rule request (request.host.bind normalizeMatchHost) policy) s).Ok
      fun b => M b ∨ ∃ rule ∈ rules, rule.action = b ∧ Matches request policy rule := by
  induction rules generalizing s M with
  | nil => exact h.congr fun b => by simp
  | cons rule rules ih =>
    rw [List.foldl_cons]
    refine (ih h.oneRule).congr fun b => ?_
    simp only [List.exists_mem_cons_iff, or_assoc, and_comm]

/-- The note that there is a rule that allows does not concern the matched actions. -/
theorem Pass.Ok.onePolicy (h : s.Ok M) :
    (s.policy request (request.host.bind normalizeMatchHost) policy).Ok
      fun b => M b ∨ ∃ rule ∈ policy.rules, rule.action = b ∧ Matches request policy rule := by
  have hr : (policy.rules.foldl
      (Pass.rule request (request.host.bind normalizeMatchHost) policy) s).Ok _ := h.ruleList
  rw [Pass.policy]
  split_ifs
  · exact ⟨hr.deny, hr.allow, hr.audit, hr.conflict, hr.settled, hr.custom⟩
  · exact hr

theorem Pass.Ok.policyList (h : s.Ok M) :
    (policies.foldl (Pass.policy request (request.host.bind normalizeMatchHost)) s).Ok
      fun b => M b ∨ SomeMatches policies request b := by
  induction policies generalizing s M with
  | nil => exact h.congr fun b => by simp [SomeMatches]
  | cons policy policies ih =>
    rw [List.foldl_cons]
    refine (ih h.onePolicy).congr fun b => ?_
    simp only [SomeMatches, List.exists_mem_cons_iff, or_assoc]

variable {host : Option NormalizedHost}

/-- A rule is noted as one that allows only if it is. -/
theorem Pass.sawAllow_rule :
    (s.rule request host policy rule).sawAllow = true ↔
      s.sawAllow = true ∨ (s.rule request host policy rule).sawAllow = true ∧ rule.action = .allow := by
  constructor
  · intro h
    rw [Pass.rule] at h ⊢
    split_ifs at h ⊢
    · exact .inl h
    · exact .inl h
    · cases ha : rule.action with
      | allow =>
        rw [ha] at h
        exact .inr ⟨h, rfl⟩
      | deny | audit =>
        rw [ha] at h
        exact .inl h
      | custom p =>
        rw [ha, Pass.matched] at h
        refine .inl ?_
        split at h
        · split_ifs at h <;> exact h
        · split_ifs at h <;> exact h
  · rintro (h | h)
    · rw [Pass.rule]
      split_ifs
      · exact h
      · exact h
      · rw [Pass.matched.eq_def]
        cases rule.action with
        | allow => rfl
        | deny | audit => exact h
        | custom p =>
          simp only
          split
          · split_ifs <;> exact h
          · split_ifs <;> exact h
    · exact h.1

theorem Pass.sawAllow_rules (h : ¬ ∃ rule ∈ rules, rule.action = .allow) :
    (rules.foldl (Pass.rule request host policy) s).sawAllow = s.sawAllow := by
  induction rules generalizing s with
  | nil => rfl
  | cons rule rules ih =>
    rw [List.exists_mem_cons_iff, not_or] at h
    rw [List.foldl_cons, ih h.2, Bool.eq_iff_iff, sawAllow_rule]
    simp [h.1]

theorem Pass.sawAllow_policies :
    (policies.foldl (Pass.policy request host) s).sawAllow = true ↔
      s.sawAllow = true ∨ SomeRule policies .allow := by
  induction policies generalizing s with
  | nil => simp [SomeRule]
  | cons policy policies ih =>
    rw [List.foldl_cons, ih]
    have ha : policy.rules.any (·.action == .allow) = true ↔
        ∃ rule ∈ policy.rules, rule.action = .allow := by
      simp
    have ho : (s.policy request host policy).sawAllow = true ↔
        s.sawAllow = true ∨ ∃ rule ∈ policy.rules, rule.action = .allow := by
      rw [Pass.policy]
      split_ifs with h
      · simp [ha.1 h]
      · rw [ha] at h
        simp [sawAllow_rules h, h]
    rw [ho]
    simp only [SomeRule, List.exists_mem_cons_iff, or_assoc]

/-! ## Order -/

theorem Reordered.someMatches (h : Reordered policies policies') :
    SomeMatches policies request a ↔ SomeMatches policies' request a := by
  obtain ⟨qs, hp, ha⟩ := h
  have hqs : SomeMatches policies request a ↔ SomeMatches qs request a := by
    simp only [SomeMatches, hp.mem_iff]
  rw [hqs]
  clear hqs hp
  induction ha with
  | nil => rfl
  | @cons p q ps qs hpq _ ih =>
    have ho : (∃ rule ∈ p.rules, rule.action = a ∧ Matches request p rule) ↔
        ∃ rule ∈ q.rules, rule.action = a ∧ Matches request q rule := by
      simp only [Matches, hpq.2.1, hpq.2.2.mem_iff]
    simp only [SomeMatches, List.exists_mem_cons_iff] at ih ⊢
    exact or_congr ho ih

theorem Reordered.someRule (h : Reordered policies policies') :
    SomeRule policies a ↔ SomeRule policies' a := by
  obtain ⟨qs, hp, ha⟩ := h
  have hqs : SomeRule policies a ↔ SomeRule qs a := by
    simp only [SomeRule, hp.mem_iff]
  rw [hqs]
  clear hqs hp
  induction ha with
  | nil => rfl
  | @cons p q ps qs hpq _ ih =>
    have ho : (∃ rule ∈ p.rules, rule.action = a) ↔ ∃ rule ∈ q.rules, rule.action = a := by
      simp only [hpq.2.2.mem_iff]
    simp only [SomeRule, List.exists_mem_cons_iff] at ih ⊢
    exact or_congr ho ih

/-! ## The outcome -/

/-- The outcome of an evaluation, in terms of the actions that match. -/
structure Declarative (policies : List MeshPolicy) (request : MeshAuthzRequest)
    (e : MeshAuthzEvaluation) : Prop where
  deny : e.decision.kind = .deny ↔ Denied policies request
  audit : e.decision.kind = .audit ↔
    ¬ Denied policies request ∧ SomeMatches policies request .audit
  allow : e.decision.kind = .allow ↔
    ¬ Denied policies request ∧ ¬ SomeMatches policies request .audit
  conflict : e.customProviderConflict = true ↔
    ∃ p q, p ≠ q ∧ SomeMatches policies request (.custom p) ∧
      SomeMatches policies request (.custom q)
  custom : ∀ p, e.custom.map provider = some p ↔
    SomeMatches policies request (.custom p) ∧
      ∀ q, SomeMatches policies request (.custom q) → q = p

theorem Pass.Ok.kind (h : s.Ok M) {D : Prop}
    (hD : D ↔ M .deny ∨ s.sawAllow = true ∧ ¬ M .allow) :
    (s.decision.kind = .deny ↔ D) ∧ (s.decision.kind = .audit ↔ ¬ D ∧ M .audit) ∧
      (s.decision.kind = .allow ↔ ¬ D ∧ ¬ M .audit) := by
  rw [Pass.decision]
  cases hdn : s.matchedDeny with
  | some policy =>
    have hM : M .deny := h.deny.1 (by rw [hdn]; rfl)
    have hd : D := hD.2 (.inl hM)
    simp [MeshAuthzDecision.kind, hd]
  | none =>
    have hM : ¬ M .deny := fun hm => by
      have := h.deny.2 hm
      rw [hdn] at this
      cases this
    have hal := h.allow hdn
    have had := h.audit hdn
    simp only
    split_ifs with hi
    · simp only [Bool.and_eq_true, Bool.not_eq_true', ← Bool.not_eq_true, hal] at hi
      have hd : D := hD.2 (.inr hi)
      simp [MeshAuthzDecision.kind, hd]
    · simp only [Bool.and_eq_true, Bool.not_eq_true', ← Bool.not_eq_true, hal] at hi
      have hd : ¬ D := fun hd => (hD.1 hd).elim hM hi
      cases hmt : s.matchedAudit with
      | some policy =>
        have ha : M .audit := had.1 (by rw [hmt]; rfl)
        simp [MeshAuthzDecision.kind, hd, ha]
      | none =>
        have ha : ¬ M .audit := fun hm => by
          have := had.2 hm
          rw [hmt] at this
          cases this
        simp [MeshAuthzDecision.kind, hd, ha]

/-- The delegation is that of the only provider. -/
theorem Pass.Ok.provider (h : s.Ok M) (p : Bytes) :
    s.custom.map provider = some p ↔
      M (.custom p) ∧ ∀ q, M (.custom q) → q = p := by
  cases hc : s.customProviderConflict with
  | true =>
    obtain ⟨q, q', hne, hq, hq'⟩ := h.conflict.1 hc
    rw [h.settled hc]
    refine iff_of_false (by simp) ?_
    rintro ⟨-, ha⟩
    exact hne ((ha q hq).trans (ha q' hq').symm)
  | false =>
    rw [h.custom hc p]
    refine ⟨fun hp => ⟨hp, fun q hq => ?_⟩, And.left⟩
    by_contra hne
    have := h.conflict.2 ⟨q, p, hne, hq, hp⟩
    rw [hc] at this
    cases this

theorem evaluation_ok : Declarative policies request
    (evaluateMeshAuthorizationFull policies request) := by
  have hok : Pass.Ok _ (SomeMatches policies request) :=
    Pass.ok_init.policyList.congr fun b => or_iff_right not_false
  obtain ⟨hd, ha, hal⟩ := hok.kind (D := Denied policies request) (by
    rw [Denied, Pass.sawAllow_policies]
    simp)
  exact ⟨hd, ha, hal, hok.conflict, hok.provider⟩

theorem Reordered.denied (h : Reordered policies policies') :
    Denied policies request ↔ Denied policies' request := by
  rw [Denied, Denied, h.someMatches, h.someMatches, h.someRule]

/-- Reordered policies have the same outcome. -/
theorem Declarative.reordered {e e' : MeshAuthzEvaluation} (h : Declarative policies request e)
    (h' : Declarative policies' request e') (hre : Reordered policies policies') :
    e'.decision.kind = e.decision.kind ∧
      e'.customProviderConflict = e.customProviderConflict ∧
      e'.custom.map provider =
        e.custom.map provider := by
  refine ⟨?_, ?_, ?_⟩
  · cases hk : e.decision.kind with
    | deny => exact h'.deny.2 (hre.denied.1 (h.deny.1 hk))
    | audit =>
      obtain ⟨hd, ha⟩ := h.audit.1 hk
      exact h'.audit.2 ⟨fun hd' => hd (hre.denied.2 hd'), hre.someMatches.1 ha⟩
    | allow =>
      obtain ⟨hd, ha⟩ := h.allow.1 hk
      exact h'.allow.2 ⟨fun hd' => hd (hre.denied.2 hd'), fun ha' => ha (hre.someMatches.2 ha')⟩
  · rw [Bool.eq_iff_iff, h.conflict, h'.conflict]
    simp only [hre.someMatches]
  · ext p
    rw [h.custom, h'.custom]
    simp only [hre.someMatches]

/-- **The declarative semantics.**  The decision, the conflict of providers and the delegated
    provider say which actions match, and do not depend on the order of policies and rules. -/
theorem evaluation_declarative (policies : List MeshPolicy) (request : MeshAuthzRequest) :
    Declarative policies request (evaluateMeshAuthorizationFull policies request) ∧
      ∀ policies', Reordered policies policies' →
        let e := evaluateMeshAuthorizationFull policies request
        let e' := evaluateMeshAuthorizationFull policies' request
        e'.decision.kind = e.decision.kind ∧
          e'.customProviderConflict = e.customProviderConflict ∧
          e'.custom.map provider =
            e.custom.map provider :=
  ⟨evaluation_ok, fun _ hre => evaluation_ok.reordered evaluation_ok hre⟩

end

/-- Two providers for all requests, and between them a denial. -/
def exampleRules : List MeshRule :=
  [{ action := .custom (lit "a") }, { action := .deny }, { action := .custom (lit "b") }]

theorem evaluation_declarative_example :
    let e := evaluateMeshAuthorizationFull [⟨lit "p", lit "ns", exampleRules.reverse⟩] {}
    e.decision.kind = .deny ∧ e.customProviderConflict = true ∧ e.custom = none := by
  have hre : Reordered [⟨lit "p", lit "ns", exampleRules⟩]
      [⟨lit "p", lit "ns", exampleRules.reverse⟩] :=
    ⟨_, .refl _, .cons ⟨rfl, rfl, exampleRules.reverse_perm.symm⟩ .nil⟩
  obtain ⟨hk, hc, hcs⟩ := (evaluation_declarative _ {}).2 _ hre
  refine ⟨hk.trans (by decide +kernel), hc.trans (by decide +kernel), ?_⟩
  exact Option.map_eq_none_iff.1 (hcs.trans (by decide +kernel))

end Ferrum.Mesh
