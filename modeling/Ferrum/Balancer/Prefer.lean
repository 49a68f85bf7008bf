/-
  Which part of a pool is preferred: local targets before gateways to other clusters, and then by
  the locality setting.

  Bitsets and vectors have a copy of this each, which differ in a few operations on pools
  (`PoolOps`).

  * `Selector.preferred`: the part of a pool, given by its indices.
  * `PoolOps.Models.preferredLocality`: both copies find it.
-/
import Ferrum.Balancer.Pool

namespace Ferrum.Balancer

open Lib List LocalityLbState Selector

def usizeMax : ℕ := 2 ^ 64 - 1

/-- The operations on pools `P`, and on the scopes `S` they are taken from. -/
structure PoolOps (P S : Type) where
  isEmpty : P → Bool
  narrow : P → (ℕ → Bool) → P
  members : P → List ℕ
  /-- The members of the best tier of localities, if any is in one. -/
  tier : P → P
  /-- The local targets of a scope. -/
  scopeLocal : S → Except Panic P

namespace Selector
variable (self : Selector)

def localityRank (idx : ℕ) : ℕ := self.targetLocalityRanks[idx]?.getD 3

def isLocal (idx : ℕ) : Bool := self.localLocalityMask[idx]?.getD true

end Selector

/-! ## Preferences -/

def LocalityLbState.hasWeight (weights : List ℕ) (idx : ℕ) : Bool := 0 < weights[idx]?.getD 0

def rankOf (ranks : List ℕ) (idx : ℕ) : ℕ := ranks[idx]?.getD usizeMax

def bestRank (ranks indices : List ℕ) : ℕ :=
  indices.foldl (fun best idx => if rankOf ranks idx < best then rankOf ranks idx else best) usizeMax

namespace PoolOps
variable {P S : Type} (ops : PoolOps P S) (self : Selector)

/-- `a`, unless it is empty. -/
def orElse (a b : P) : P := if ops.isEmpty a then b else a

def preferredFailoverPriority (candidates : P) (ranks : List ℕ) : P :=
  let best := bestRank ranks (ops.members candidates)
  if best = usizeMax then candidates
  else ops.orElse (ops.narrow candidates fun idx => rankOf ranks idx = best) candidates

/-- Local targets, if need be unhealthy ones.  The flag says so. -/
def strictLocal (candidates : P) (scope : S) : Except Panic (P × Bool) :=
  if self.localLocalityMask = [] then .ok (candidates, false)
  else
    let local_ := ops.narrow candidates self.isLocal
    if ops.isEmpty local_ then do
      let scopeLocal ← ops.scopeLocal scope
      return if ops.isEmpty scopeLocal then (candidates, false) else (scopeLocal, true)
    else .ok (local_, false)

/-- The best tier, and else the region to fail over to. -/
def preferredTier (candidates : P) (locality : Option LocalityLbState) : P :=
  ops.orElse (ops.tier candidates) <|
    match locality.bind failoverTargetMatches with
    | some matches_ =>
      ops.orElse (ops.narrow candidates fun idx => matches_[idx]?.getD false) candidates
    | none => candidates

/-- What is preferred where no weights decide. -/
def preferredUnweighted (candidates : P) (scope : S) (locality : Option LocalityLbState)
    (failoverEnabled : Bool) : Except Panic (P × Bool) :=
  match if failoverEnabled then locality.bind failoverPriorityRanks else none with
  | some ranks => .ok (ops.preferredFailoverPriority candidates ranks, false)
  | none =>
    if self.targetLocalityRanks = [] then
      if self.localityLbStrict then ops.strictLocal self candidates scope
      else .ok (candidates, false)
    else .ok (ops.preferredTier candidates locality, false)

/-- Gateways to other clusters do not share traffic with local targets. -/
def withoutGateways (candidates : P) : P :=
  if self.crossClusterFailoverPresent then
    ops.orElse (ops.narrow candidates self.isLocal) candidates
  else candidates

def preferredLocality (candidates : P) (scope : S) (locality : Option LocalityLbState)
    (failoverEnabled : Bool) : Except Panic (P × Bool) :=
  let candidates := ops.withoutGateways self candidates
  if locality.any fun state => !state.enabled then .ok (candidates, false)
  else
    match locality.bind distributeWeights with
    | some weights =>
      let masked := ops.narrow candidates (hasWeight weights)
      if ops.isEmpty masked then
        ops.preferredUnweighted self candidates scope locality failoverEnabled
      else .ok (masked, false)
    | none => ops.preferredUnweighted self candidates scope locality failoverEnabled

end PoolOps

/-! ## The two copies -/

namespace Selector
variable (self : Selector)

/-- `for idx in 0..n`, those that satisfy `p`. -/
def narrowBitset (candidates : HealthBitset) (p : ℕ → Bool) : HealthBitset :=
  .collect self.targets.length fun idx => candidates.contains idx && p idx

def bitsetOps : PoolOps HealthBitset HealthBitset where
  isEmpty := HealthBitset.isEmpty
  narrow := self.narrowBitset
  members candidates := (List.range self.targets.length).filter candidates.contains
  tier candidates :=
    let exact_ := self.narrowBitset candidates fun idx => self.localityRank idx = 0
    let zone := self.narrowBitset candidates fun idx => self.localityRank idx = 1
    let region := self.narrowBitset candidates fun idx => self.localityRank idx = 2
    if exact_.isEmpty then if zone.isEmpty then region else zone else exact_
  scopeLocal scope := .ok (self.narrowBitset scope self.isLocal)

/-- One candidate in the search for the best tier. -/
def tierStep (acc : ℕ × Candidates) (candidate : ℕ × UpstreamTarget) : ℕ × Candidates :=
  let rank := self.localityRank candidate.1
  if 3 ≤ rank then acc
  else
    let (best, preferred) := if rank < acc.1 then (rank, []) else acc
    if rank = best then (best, preferred ++ [candidate]) else (best, preferred)

def vecOps : PoolOps Candidates (List ℕ) where
  isEmpty := List.isEmpty
  narrow candidates p := candidates.filter fun c => p c.1
  members candidates := candidates.map Prod.fst
  tier candidates := (candidates.foldl self.tierStep (3, [])).2
  scopeLocal scopeIndices := (scopeIndices.filter self.isLocal).mapM fun idx => do
    return (idx, ← index self.targets idx)

def preferredLocalityBitset := self.bitsetOps.preferredLocality self

def preferredLocalityCandidates := self.vecOps.preferredLocality self

/-! ## On indices -/

def tierOf (is : List ℕ) : List ℕ :=
  let exact_ := is.filter (self.localityRank · = 0)
  let zone := is.filter (self.localityRank · = 1)
  let region := is.filter (self.localityRank · = 2)
  if exact_.isEmpty then if zone.isEmpty then region else zone else exact_

def listOps : PoolOps (List ℕ) (List ℕ) where
  isEmpty := List.isEmpty
  narrow is p := is.filter p
  members is := is
  tier := self.tierOf
  scopeLocal scope := .ok (scope.filter self.isLocal)

/-- What is preferred in a pool that is taken from a scope.  The flag says that it is unhealthy. -/
def preferred (candidates scope : List ℕ) (locality : Option LocalityLbState)
    (failoverEnabled : Bool) : Except Panic (List ℕ × Bool) :=
  self.listOps.preferredLocality self candidates scope locality failoverEnabled

end Selector

/-! ## What is preferred -/

section
variable {self : Selector} {is scope : List ℕ} {p : ℕ → Bool}

/-- A part of a pool that is empty only if the pool is. -/
structure Part (is part : List ℕ) : Prop where
  sublist : part.Sublist is
  ne_nil : is ≠ [] → part ≠ []

theorem Part.refl (is : List ℕ) : Part is is := ⟨.refl _, id⟩

theorem Part.trans {a b c : List ℕ} (hab : Part a b) (hbc : Part b c) : Part a c :=
  ⟨hbc.sublist.trans hab.sublist, fun hne => hbc.ne_nil (hab.ne_nil hne)⟩

theorem part_orElse {a b : List ℕ} (ha : a.Sublist is) (hb : Part is b) :
    Part is (self.listOps.orElse a b) := by
  show Part is (if a.isEmpty = true then b else a)
  split_ifs with he
  · exact hb
  · exact ⟨ha, fun _ hn => he (List.isEmpty_iff.2 hn)⟩

theorem withoutGateways_part : Part is (self.listOps.withoutGateways self is) := by
  rw [PoolOps.withoutGateways]
  split_ifs
  · exact part_orElse filter_sublist (.refl is)
  · exact .refl is

theorem withoutGateways_local (hc : self.crossClusterFailoverPresent = true)
    (hlc : ∃ i ∈ is, self.isLocal i = true) :
    self.listOps.withoutGateways self is = is.filter self.isLocal := by
  obtain ⟨i, hi, hi'⟩ := hlc
  have hm : i ∈ is.filter self.isLocal := mem_filter.2 ⟨hi, hi'⟩
  have hne : ¬ (is.filter self.isLocal).isEmpty = true := by
    simpa using ne_nil_of_mem hm
  rw [PoolOps.withoutGateways, if_pos hc]
  exact if_neg hne

theorem preferredFailoverPriority_part (ranks : List ℕ) :
    Part is (self.listOps.preferredFailoverPriority is ranks) := by
  dsimp only [PoolOps.preferredFailoverPriority]
  split_ifs
  · exact .refl is
  · exact part_orElse filter_sublist (.refl is)

theorem tierOf_sublist : (self.tierOf is).Sublist is := by
  simp only [tierOf]
  split_ifs <;> exact filter_sublist

theorem preferredTier_part (locality : Option LocalityLbState) :
    Part is (self.listOps.preferredTier is locality) := by
  refine part_orElse tierOf_sublist ?_
  cases locality.bind failoverTargetMatches with
  | none => exact .refl is
  | some matches_ => exact part_orElse filter_sublist (.refl is)

/-- What is preferred in a pool: a part of it, or local targets of its scope that are out of it. -/
structure Preference (s : Selector) (is scope : List ℕ) (r : List ℕ × Bool) : Prop where
  part : r.2 = false → Part is r.1
  degraded : r.2 = true → r.1 = scope.filter s.isLocal ∧ r.1 ≠ [] ∧ s.localityLbStrict = true ∧
    s.targetLocalityRanks = [] ∧ ∀ i ∈ is, s.isLocal i = false

theorem Preference.of_part {part : List ℕ} (h : Part is part) :
    Preference self is scope (part, false) :=
  ⟨fun _ => h, nofun⟩

theorem strictLocal_ok (hs : self.localityLbStrict = true)
    (hr : self.targetLocalityRanks = []) :
    ∃ r, self.listOps.strictLocal self is scope = .ok r ∧ Preference self is scope r := by
  dsimp only [PoolOps.strictLocal]
  split_ifs with hm hlc
  · exact ⟨_, rfl, .of_part (.refl is)⟩
  · refine ⟨_, rfl, ?_⟩
    split_ifs with hsc
    · exact .of_part (.refl is)
    · refine ⟨nofun, fun _ => ⟨rfl, fun hn => hsc (List.isEmpty_iff.2 hn), hs, hr, ?_⟩⟩
      simpa [listOps] using hlc
  · refine ⟨_, rfl, .of_part ⟨filter_sublist, fun _ hn => ?_⟩⟩
    exact hlc (List.isEmpty_iff.2 hn)

theorem preferredUnweighted_ok (locality : Option LocalityLbState) (failoverEnabled : Bool) :
    ∃ r, self.listOps.preferredUnweighted self is scope locality failoverEnabled = .ok r ∧
      Preference self is scope r := by
  rw [PoolOps.preferredUnweighted]
  split
  · exact ⟨_, rfl, .of_part (preferredFailoverPriority_part _)⟩
  · split_ifs with hr hs
    · exact strictLocal_ok hs hr
    · exact ⟨_, rfl, .of_part (.refl is)⟩
    · exact ⟨_, rfl, .of_part (preferredTier_part locality)⟩

/-- The preference among what is left without gateways. -/
theorem preferred_withoutGateways (locality : Option LocalityLbState) (failoverEnabled : Bool) :
    ∃ r, self.preferred is scope locality failoverEnabled = .ok r ∧
      Preference self (self.listOps.withoutGateways self is) scope r := by
  dsimp only [preferred, PoolOps.preferredLocality]
  split_ifs
  · exact ⟨_, rfl, .of_part (.refl _)⟩
  · cases locality.bind distributeWeights with
    | none => exact preferredUnweighted_ok locality failoverEnabled
    | some weights =>
      dsimp only
      split_ifs with hm
      · exact preferredUnweighted_ok locality failoverEnabled
      · refine ⟨_, rfl, .of_part ⟨filter_sublist, fun _ hn => ?_⟩⟩
        exact hm (List.isEmpty_iff.2 hn)

/-- **What is preferred**: a part of the pool, or unhealthy local targets if no target of the pool is
    local.  Gateways are not preferred to local targets. -/
theorem preferred_ok (locality : Option LocalityLbState) (failoverEnabled : Bool) :
    ∃ r, self.preferred is scope locality failoverEnabled = .ok r ∧ Preference self is scope r ∧
      (self.crossClusterFailoverPresent = true → (∃ i ∈ is, self.isLocal i = true) →
        ∀ i ∈ r.1, self.isLocal i = true) := by
  obtain ⟨r, hr, hp, hd⟩ :=
    @preferred_withoutGateways self is scope locality failoverEnabled
  have hw := @withoutGateways_part self is
  refine ⟨r, hr, ⟨fun hf => hw.trans (hp hf), fun hf => ?_⟩,
    fun hc hlc i hi => ?_⟩
  · obtain ⟨heq, hne, hs, hrn, hn⟩ := hd hf
    refine ⟨heq, hne, hs, hrn, fun i hi => ?_⟩
    by_contra hlc
    rw [Bool.not_eq_false] at hlc
    by_cases hc : self.crossClusterFailoverPresent = true
    · rw [withoutGateways_local hc ⟨i, hi, hlc⟩] at hn
      rw [hn i (mem_filter.2 ⟨hi, hlc⟩)] at hlc
      cases hlc
    · rw [PoolOps.withoutGateways, if_neg hc] at hn
      rw [hn i hi] at hlc
      cases hlc
  · cases hf : r.2 with
    | false =>
      have hm := (hp hf).sublist.subset hi
      rw [withoutGateways_local hc hlc] at hm
      exact (mem_filter.1 hm).2
    | true =>
      rw [(hd hf).1] at hi
      exact (mem_filter.1 hi).2

end

/-! ## The copies find what is preferred -/

/-- The operations do on pools what lists of indices do. -/
structure PoolOps.Models {P S : Type} (ops : PoolOps P S) (s : Selector) (rep : P → List ℕ → Prop)
    (scopeRep : S → List ℕ → Prop) : Prop where
  isEmpty : ∀ {c is}, rep c is → ops.isEmpty c = is.isEmpty
  narrow : ∀ {c is}, rep c is → ∀ p, rep (ops.narrow c p) (is.filter p)
  members : ∀ {c is}, rep c is → ops.members c = is
  tier : ∀ {c is}, rep c is → rep (ops.tier c) (s.tierOf is)
  scopeLocal : ∀ {sc is}, scopeRep sc is →
    ∃ c, ops.scopeLocal sc = .ok c ∧ rep c (is.filter s.isLocal)

section
variable {P S : Type} {ops : PoolOps P S} {self : Selector} {rep : P → List ℕ → Prop}
  {scopeRep : S → List ℕ → Prop} {c : P} {is : List ℕ} {sc : S} {scope : List ℕ}

/-- Results on pools and on indices that belong together. -/
def Agree (rep : P → List ℕ → Prop) (r : Except Panic (P × Bool))
    (r' : Except Panic (List ℕ × Bool)) : Prop :=
  ∃ c is flag, r = .ok (c, flag) ∧ r' = .ok (is, flag) ∧ rep c is

theorem agree_ok (flag : Bool) (h : rep c is) : Agree rep (.ok (c, flag)) (.ok (is, flag)) :=
  ⟨c, is, flag, rfl, rfl, h⟩

namespace PoolOps.Models

theorem orElse (h : ops.Models self rep scopeRep) {a b : P} {as bs : List ℕ} (ha : rep a as)
    (hb : rep b bs) : rep (ops.orElse a b) (self.listOps.orElse as bs) := by
  rw [PoolOps.orElse, PoolOps.orElse, h.isEmpty ha]
  show rep _ (if as.isEmpty = true then bs else as)
  split_ifs
  · exact hb
  · exact ha

section
variable (h : ops.Models self rep scopeRep) (hc : rep c is)
include h hc

theorem withoutGateways :
    rep (ops.withoutGateways self c) (self.listOps.withoutGateways self is) := by
  rw [PoolOps.withoutGateways, PoolOps.withoutGateways]
  split_ifs
  · exact h.orElse (h.narrow hc _) hc
  · exact hc

theorem preferredFailoverPriority (ranks : List ℕ) :
    rep (ops.preferredFailoverPriority c ranks)
      (self.listOps.preferredFailoverPriority is ranks) := by
  dsimp only [PoolOps.preferredFailoverPriority]
  rw [h.members hc, show self.listOps.members is = is from rfl]
  split_ifs
  · exact hc
  · exact h.orElse (h.narrow hc _) hc

theorem strictLocal (hs : scopeRep sc scope) :
    Agree rep (ops.strictLocal self c sc) (self.listOps.strictLocal self is scope) := by
  obtain ⟨local_, hlc, hr⟩ := h.scopeLocal hs
  dsimp only [PoolOps.strictLocal]
  rw [h.isEmpty (h.narrow hc _), hlc]
  show Agree rep _ (if _ then _ else if (is.filter self.isLocal).isEmpty = true then
    .ok (if (scope.filter self.isLocal).isEmpty = true then (is, false)
      else (scope.filter self.isLocal, true)) else _)
  split_ifs with hm he hsc
  · exact agree_ok false hc
  · refine ⟨c, is, false, ?_, rfl, hc⟩
    show Except.ok (if ops.isEmpty local_ = true then _ else _) = _
    rw [h.isEmpty hr, if_pos hsc]
  · refine ⟨local_, _, true, ?_, rfl, hr⟩
    show Except.ok (if ops.isEmpty local_ = true then _ else _) = _
    rw [h.isEmpty hr, if_neg hsc]
  · exact agree_ok false (h.narrow hc _)

theorem preferredTier (locality : Option LocalityLbState) :
    rep (ops.preferredTier c locality) (self.listOps.preferredTier is locality) := by
  refine h.orElse (h.tier hc) ?_
  cases locality.bind failoverTargetMatches with
  | none => exact hc
  | some matches_ => exact h.orElse (h.narrow hc _) hc

theorem preferredUnweighted (hs : scopeRep sc scope) (locality : Option LocalityLbState)
    (failoverEnabled : Bool) :
    Agree rep (ops.preferredUnweighted self c sc locality failoverEnabled)
      (self.listOps.preferredUnweighted self is scope locality failoverEnabled) := by
  rw [PoolOps.preferredUnweighted, PoolOps.preferredUnweighted]
  split
  · exact agree_ok false (h.preferredFailoverPriority hc _)
  · split_ifs
    · exact h.strictLocal hc hs
    · exact agree_ok false hc
    · exact agree_ok false (h.preferredTier hc locality)

/-- **The preference on pools** is that on indices. -/
theorem preferredLocality (hs : scopeRep sc scope) (locality : Option LocalityLbState)
    (failoverEnabled : Bool) :
    Agree rep (ops.preferredLocality self c sc locality failoverEnabled)
      (self.preferred is scope locality failoverEnabled) := by
  have hw := h.withoutGateways hc
  dsimp only [preferred, PoolOps.preferredLocality]
  split_ifs
  · exact agree_ok false hw
  · cases locality.bind distributeWeights with
    | none => exact h.preferredUnweighted hw hs locality failoverEnabled
    | some weights =>
      have hm := h.narrow hw (hasWeight weights)
      dsimp only
      rw [h.isEmpty hm]
      show Agree rep _ (if ((self.listOps.withoutGateways self is).filter
        (hasWeight weights)).isEmpty = true then _ else _)
      split_ifs
      · exact h.preferredUnweighted hw hs locality failoverEnabled
      · exact agree_ok false hm

end

end PoolOps.Models

end

section
variable {self : Selector} {is : List ℕ}

/-- A bitset with members of the balancer. -/
def BitsetRep (s : Selector) (b : HealthBitset) (is : List ℕ) : Prop :=
  Holds b is ∧ ∀ i ∈ is, i < s.targets.length

/-- The targets at indices of the balancer. -/
def VecRep (s : Selector) (candidates : Candidates) (is : List ℕ) : Prop :=
  candidates = s.attach is ∧ Scope s.targets.length is

def ScopeRep (s : Selector) (scopeIndices is : List ℕ) : Prop :=
  scopeIndices = is ∧ Scope s.targets.length is

section
variable (hn : self.targets.length ≤ maxBitsetTargets)
include hn

theorem filter_range_contains {b : HealthBitset} (hb : BitsetRep self b is) (p : ℕ → Bool) :
    ((List.range self.targets.length).filter fun idx => b.contains idx && p idx) = is.filter p := by
  refine eq_of_ascending (pairwise_lt_range.filter _) (hb.1.ascending.filter _) fun i => ?_
  simp only [mem_filter, mem_range, Bool.and_eq_true]
  constructor
  · rintro ⟨hi, hc, hp⟩
    rw [hb.1.contains (hi.trans_le hn), decide_eq_true_eq] at hc
    exact ⟨hc, hp⟩
  · rintro ⟨hi, hp⟩
    have hlt := hb.2 i hi
    exact ⟨hlt, by rw [hb.1.contains (hlt.trans_le hn)]; exact decide_eq_true hi, hp⟩

theorem narrowBitset_rep {b : HealthBitset} (hb : BitsetRep self b is) (p : ℕ → Bool) :
    BitsetRep self (self.narrowBitset b p) (is.filter p) := by
  refine ⟨?_, fun i hi => hb.2 i (mem_filter.1 hi).1⟩
  rw [← filter_range_contains hn hb p]
  exact holds_collect hn _

theorem bitsetOps_models :
    self.bitsetOps.Models self (BitsetRep self) (BitsetRep self) where
  isEmpty h := h.1.isEmpty
  narrow h p := narrowBitset_rep hn h p
  members h := by
    have ha := filter_range_contains hn h fun _ => true
    simp only [Bool.and_true, filter_true] at ha
    exact ha
  tier {c is} h := by
    have he := narrowBitset_rep hn h fun idx => self.localityRank idx = 0
    have hz := narrowBitset_rep hn h fun idx => self.localityRank idx = 1
    have hr := narrowBitset_rep hn h fun idx => self.localityRank idx = 2
    dsimp only [bitsetOps, tierOf]
    rw [he.1.isEmpty, hz.1.isEmpty]
    split_ifs
    · exact hr
    · exact hz
    · exact he
  scopeLocal h := ⟨_, rfl, narrowBitset_rep hn h _⟩

end

theorem vecRep_filter {c : Candidates} (h : VecRep self c is) (p : ℕ → Bool) :
    VecRep self (c.filter fun e => p e.1) (is.filter p) := by
  refine ⟨?_, h.2.filter p⟩
  rw [h.1, filter_attach]

/-- Where the search for the best tier is after some candidates. -/
theorem foldl_tierStep (candidates : Candidates) :
    (candidates.foldl self.tierStep (3, []) = (3, []) ∧
      ∀ c ∈ candidates, 3 ≤ self.localityRank c.1) ∨
    ∃ r < 3, candidates.foldl self.tierStep (3, []) =
        (r, candidates.filter fun c => self.localityRank c.1 = r) ∧
      (∃ c ∈ candidates, self.localityRank c.1 = r) ∧
      ∀ c ∈ candidates, r ≤ self.localityRank c.1 := by
  induction candidates using reverseRecOn with
  | nil => exact .inl ⟨rfl, nofun⟩
  | append_singleton candidates c ih =>
    rw [foldl_append, foldl_cons, foldl_nil]
    -- a better tier: what was found before is dropped
    have hn {r : ℕ} (hlt : self.localityRank c.1 < r)
        (hge : ∀ e ∈ candidates, r ≤ self.localityRank e.1) :
        (candidates.filter fun e => self.localityRank e.1 = self.localityRank c.1) = [] :=
      filter_eq_nil_iff.2 fun e he => by simpa using (hlt.trans_le (hge e he)).ne'
    rcases ih with ⟨hf, hge⟩ | ⟨r, hr, hf, ⟨c', hc', hrn'⟩, hge⟩
    · rw [hf]
      rcases Nat.lt_or_ge (self.localityRank c.1) 3 with hlt | hle
      · refine .inr ⟨_, hlt, ?_, ⟨c, by simp, rfl⟩, forall_mem_append.2
          ⟨fun e he => hlt.le.trans (hge e he), forall_mem_singleton.2 le_rfl⟩⟩
        rw [filter_append, hn hlt hge]
        simp [tierStep, hlt, not_le.2 hlt]
      · exact .inl ⟨by simp [tierStep, hle],
          forall_mem_append.2 ⟨hge, forall_mem_singleton.2 hle⟩⟩
    · rw [hf]
      rcases Nat.lt_trichotomy (self.localityRank c.1) r with hlt | heq | hgt
      · refine .inr ⟨_, hlt.trans hr, ?_, ⟨c, by simp, rfl⟩, forall_mem_append.2
          ⟨fun e he => hlt.le.trans (hge e he), forall_mem_singleton.2 le_rfl⟩⟩
        rw [filter_append, hn hlt hge]
        simp [tierStep, hlt, not_le.2 (hlt.trans hr)]
      · refine .inr ⟨r, hr, ?_, ⟨c, by simp, heq⟩,
          forall_mem_append.2 ⟨hge, forall_mem_singleton.2 heq.ge⟩⟩
        simp [tierStep, heq, not_le.2 hr]
      · refine .inr ⟨r, hr, ?_, ⟨c', by simp [hc'], hrn'⟩,
          forall_mem_append.2 ⟨hge, forall_mem_singleton.2 hgt.le⟩⟩
        by_cases hle : 3 ≤ self.localityRank c.1
        · simp [tierStep, hle, hgt.ne']
        · simp [tierStep, hle, hgt.ne', not_lt.2 hgt.le]

theorem tierOf_eq_nil (h : ∀ i ∈ is, 3 ≤ self.localityRank i) : self.tierOf is = [] := by
  have hn : ∀ r < 3, is.filter (self.localityRank · = r) = [] := fun r hr =>
    filter_eq_nil_iff.2 fun i hi => by simpa using (hr.trans_le (h i hi)).ne'
  simp [tierOf, hn]

theorem tierOf_eq {r : ℕ} (hr : r < 3) (hs : ∃ i ∈ is, self.localityRank i = r)
    (hge : ∀ i ∈ is, r ≤ self.localityRank i) :
    self.tierOf is = is.filter (self.localityRank · = r) := by
  have hn : ∀ r' < r, is.filter (self.localityRank · = r') = [] := fun r' hr' =>
    filter_eq_nil_iff.2 fun i hi => by simpa using (hr'.trans_le (hge i hi)).ne'
  obtain ⟨i, hi, hrn⟩ := hs
  have hne : is.filter (self.localityRank · = r) ≠ [] :=
    ne_nil_of_mem (mem_filter.2 ⟨hi, by simpa using hrn⟩)
  have he : ¬ (is.filter (self.localityRank · = r)).isEmpty = true :=
    fun h => hne (List.isEmpty_iff.1 h)
  dsimp only [tierOf]
  have hc : r = 0 ∨ r = 1 ∨ r = 2 := by omega
  rcases hc with rfl | rfl | rfl
  · rw [if_neg he]
  · rw [hn 0 (by decide), if_pos isEmpty_nil, if_neg he]
  · rw [hn 0 (by decide), hn 1 (by decide), if_pos isEmpty_nil, if_pos isEmpty_nil]

theorem vecOps_models : self.vecOps.Models self (VecRep self) (ScopeRep self) where
  isEmpty {c is} h := by
    rw [h.1]
    exact attach_isEmpty h.2.lt
  narrow h p := vecRep_filter h p
  members h := by
    rw [h.1]
    exact attach_fst h.2.lt
  tier {c is} h := by
    have hm : ∀ i ∈ is, ∃ e ∈ c, e.1 = i := by
      intro i hi
      rw [← attach_fst h.2.lt, ← h.1] at hi
      exact mem_map.1 hi
    have hm' : ∀ e ∈ c, e.1 ∈ is := by
      intro e he
      rw [← attach_fst h.2.lt, ← h.1]
      exact mem_map.2 ⟨e, he, rfl⟩
    rcases @foldl_tierStep self c with ⟨hf, hge⟩ | ⟨r, hr, hf, ⟨e, he, hrn⟩, hge⟩
    · have hn := @tierOf_eq_nil self is fun i hi => by
        obtain ⟨e, he, rfl⟩ := hm i hi
        exact hge e he
      show VecRep self (c.foldl self.tierStep (3, [])).2 _
      rw [hf, hn]
      exact ⟨rfl, .nil, nofun⟩
    · have hfl := @tierOf_eq self is r hr ⟨e.1, hm' e he, hrn⟩ fun i hi => by
        obtain ⟨e, he, rfl⟩ := hm i hi
        exact hge e he
      show VecRep self (c.foldl self.tierStep (3, [])).2 _
      rw [hf, hfl]
      exact vecRep_filter h (self.localityRank · = r)
  scopeLocal {sc is} h := by
    have hs := h.2.filter self.isLocal
    refine ⟨self.attach (is.filter self.isLocal), ?_, rfl, hs⟩
    have ha := mapM_attach id hs.lt
    rw [map_id] at ha
    rw [← ha, ← h.1]
    rfl

end

end Ferrum.Balancer
