/-
  Sessions that are bound to a backend by a token.

  A token is the HMAC of an encoding of the upstream and of all fields of a target but its weight.
  A balancer keeps an index from tokens to targets, in which the first of equal targets counts.  A
  token is resolved if its target is in the pool and healthy.

  * `stickyStream_eq_iff`: the encoding is unambiguous.
  * `selectSticky_eq`: what a token is resolved to, by the healthy part of the pool.
  * `sticky_binding`: a token is resolved to a target of the same identity.
-/
import Ferrum.Balancer.Contract

namespace Ferrum.Balancer

open Lib List Selector HMap List

/-! ## Tokens -/

def stickySessionTokenDomain : Bytes := lit "ferrum-sticky-session-v3"

def stickySessionTokenLen : ℕ := 64

def absorbIdentityField (bytes : Bytes) : Bytes := beBytes 8 bytes.length ++ bytes

def absorbOptionalIdentityField : Option Bytes → Bytes
  | some value => 1 :: absorbIdentityField value
  | none => [0]

def absorbPolicyPort : Option UInt16 → Bytes
  | some policyPort => 1 :: beBytes 2 policyPort.toNat
  | none => [0, 0, 0]

/-- The tags in the order of their keys, which are compared byte by byte. -/
def sortedTags (t : UpstreamTarget) : List (Bytes × Bytes) :=
  sortByKey (fun e => e.1.map UInt8.toNat) t.tags.toList

def writeStickyTargetIdentity (upstreamRuntimeKey : Bytes) (target : UpstreamTarget) : Bytes :=
  absorbIdentityField upstreamRuntimeKey ++ absorbIdentityField target.host ++
    beBytes 2 target.port.toNat ++ absorbPolicyPort target.servicePortPolicyKey ++
    absorbOptionalIdentityField target.locality ++ absorbOptionalIdentityField target.path ++
    beBytes 8 target.tags.len ++
    (sortedTags target).flatMap fun e => absorbIdentityField e.1 ++ absorbIdentityField e.2

/-- The bytes of which a token is the tag. -/
def stickyStream (upstreamRuntimeKey : Bytes) (target : UpstreamTarget) : Bytes :=
  stickySessionTokenDomain ++ [0x1f] ++ writeStickyTargetIdentity upstreamRuntimeKey target

/-- A key of HMAC-SHA-256, as what it computes. -/
structure HmacSha256Key where
  tag : Bytes → Bytes
  length_tag : ∀ m, (tag m).length = 32

def hexDigitOf (n : ℕ) : UInt8 := if n < 10 then UInt8.ofNat (48 + n) else UInt8.ofNat (87 + n)

/-- The two digits of a byte, in lower case. -/
def hexByte (b : UInt8) : Bytes := [hexDigitOf (b.toNat / 16), hexDigitOf (b.toNat % 16)]

def hexEncode (bytes : Bytes) : Bytes := bytes.flatMap hexByte

/-- There is no token if the process has no key. -/
def stickySessionToken (key : Option HmacSha256Key) (upstreamRuntimeKey : Bytes)
    (target : UpstreamTarget) : Option Bytes :=
  key.map fun key => hexEncode (key.tag (stickyStream upstreamRuntimeKey target))

def isStickySessionToken (value : Bytes) : Bool :=
  value.length == stickySessionTokenLen &&
    value.all fun b => (byte '0' ≤ b && b ≤ byte '9') || (byte 'a' ≤ b && b ≤ byte 'f')

/-! ## The index -/

inductive HashOnStrategy where
  | ip
  | header (name : Bytes)
  | cookie (name : Bytes)

def strategyMintsStickyTokens : HashOnStrategy → Bool
  | .cookie _ => true
  | _ => false

/-- The index of a balancer, given the strategies of the upstream, its subsets and its ports. -/
def buildStickyTokenIndex (key : Option HmacSha256Key) (upstreamId : Bytes)
    (strategies : List HashOnStrategy) (targets : List UpstreamTarget) : HMap Bytes ℕ :=
  if strategies.any strategyMintsStickyTokens then
    targets.zipIdx.foldl
      (fun index e => match stickySessionToken key upstreamId e.1 with
        | some token => index.orInsert token e.2
        | none => index) empty
  else empty

structure StickySelector extends Selector where
  stickyTokenIndex : HMap Bytes ℕ

/-- The balancer with its index. -/
def Selector.withStickyTokens (self : Selector) (key : Option HmacSha256Key) (upstreamId : Bytes)
    (strategies : List HashOnStrategy) : StickySelector :=
  { self with
    stickyTokenIndex := buildStickyTokenIndex key upstreamId strategies self.targets }

/-! ## Resolution -/

/-- The indices of the subset and of the port, where there are such. -/
def Selector.candidatePoolIndices (self : Selector) (port : Option UInt16)
    (subsetName : Option Bytes) : Option (Option (List ℕ) × Option (List ℕ)) :=
  let portIndices := (port.bind self.portOverrides.get).map PortLbState.targetIndices
  let subsetIndices := subsetName.bind fun name => (self.subsetIndices.get name).filter (· ≠ [])
  if subsetName.isSome ∧ subsetIndices.isNone then none
  else some (subsetIndices, portIndices)

def Selector.indexHealthyInPool (self : Selector) (idx : ℕ)
    (subsetIndices portIndices : Option (List ℕ)) (health : Option HealthContext) :
    Except Panic Bool :=
  if maxBitsetTargets < self.targets.length then
    match subsetIndices, portIndices with
    | some s, some p => do
      let healthy ← self.healthyTargetsVecForIndices health (self.subsetPortIntersectionVec s p)
      return healthy.any fun e => e.1 == idx
    | some indices, none | none, some indices => do
      let healthy ← self.healthyTargetsVecForIndices health indices
      return healthy.any fun e => e.1 == idx
    | none, none => do
      let healthy ← self.healthyTargetsVec health
      return healthy.any fun e => e.1 == idx
  else
    match subsetIndices, portIndices with
    | some s, some p => do
      let healthy ← self.computeHealthBitsetForMask health (subsetPortMask s p)
      return healthy.contains idx
    | some indices, none | none, some indices => do
      let healthy ← self.computeHealthBitsetForIndices health indices
      return healthy.contains idx
    | none, none => do
      let healthy ← self.computeHealthBitset health
      return healthy.contains idx

def StickySelector.selectSticky (self : StickySelector) (token : Bytes) (port : Option UInt16)
    (subsetName : Option Bytes) (health : Option HealthContext) :
    Except Panic (Option UpstreamTarget) :=
  if self.stickyTokenIndex.isEmpty || !isStickySessionToken token then .ok none
  else
    match self.stickyTokenIndex.get token with
    | none => .ok none
    | some idx =>
      match self.candidatePoolIndices port subsetName with
      | none => .ok none
      | some (subsetIndices, portIndices) =>
        if !portIndices.all (·.contains idx) || !subsetIndices.all (·.contains idx) then .ok none
        else do
          if !(← self.indexHealthyInPool idx subsetIndices portIndices health) then return none
          else return some (← index self.targets idx)

/-! ## The encoding -/

theorem sameEntries_iff {a b : HMap Bytes Bytes} :
    sameEntries a b = true ↔ a.toList.Perm b.toList := by
  rw [sameEntries, Bool.and_eq_true, beq_iff_eq, all_eq_true]
  constructor
  · rintro ⟨hln, ha⟩
    have hs : a.toList ⊆ b.toList := fun e he => mem_toList.2 (by simpa using ha e he)
    refine (subperm_of_subset nodup_toList_fst.of_map hs).perm_of_length_le ?_
    rw [length_toList, length_toList, hln]
  · intro hp
    refine ⟨?_, fun e he => ?_⟩
    · rw [← length_toList, ← length_toList, hp.length_eq]
    · rw [beq_iff_eq, ← mem_toList]
      exact hp.subset he

theorem sameStickyIdentity_iff {a b : UpstreamTarget} : sameStickyIdentity a b = true ↔
    a.host = b.host ∧ a.port = b.port ∧ a.servicePortPolicyKey = b.servicePortPolicyKey ∧
      a.locality = b.locality ∧ a.path = b.path ∧ a.tags.toList.Perm b.tags.toList := by
  simp only [sameStickyIdentity, sameStickyIdentityExceptHost, Bool.and_eq_true, beq_iff_eq,
    sameEntries_iff, and_assoc]

/-- The lengths of all texts of a target fit 64 bits, and so does the number of tags. -/
structure UpstreamTarget.Fits (t : UpstreamTarget) : Prop where
  host : t.host.length < 2 ^ 64
  locality : ∀ text, t.locality = some text → text.length < 2 ^ 64
  path : ∀ text, t.path = some text → text.length < 2 ^ 64
  tagsLen : t.tags.len < 2 ^ 64
  tags : ∀ e ∈ t.tags.toList, e.1.length < 2 ^ 64 ∧ e.2.length < 2 ^ 64

theorem absorbIdentityField_prefixCode :
    PrefixCodeOn (fun bytes => bytes.length < 2 ^ 64) absorbIdentityField :=
  prefixCodeOn_length 8

theorem absorbOptionalIdentityField_prefixCode :
    PrefixCodeOn (fun value => ∀ text, value = some text → text.length < 2 ^ 64)
      absorbOptionalIdentityField := by
  have hc := absorbIdentityField_prefixCode.option
  intro a b ha hb s t h
  refine hc a b ha hb s t ?_
  cases a <;> cases b <;> exact h

theorem beBytes_toNat_inj {a b : UInt16} (h : beBytes 2 a.toNat = beBytes 2 b.toNat) : a = b :=
  UInt16.toNat_inj.1 (beBytes_inj h a.toNat_lt b.toNat_lt)

theorem absorbPolicyPort_prefixCode : PrefixCode absorbPolicyPort := by
  refine PrefixCode.of_width (n := 3) (fun a => ?_) fun a b h => ?_
  · cases a <;> simp [absorbPolicyPort]
  · rcases a with _ | a <;> rcases b with _ | b
    · rfl
    · exact absurd (cons.inj h).1 (by decide)
    · exact absurd (cons.inj h).1 (by decide)
    · rw [beBytes_toNat_inj (cons.inj h).2]

theorem sortedTags_perm (t : UpstreamTarget) : (sortedTags t).Perm t.tags.toList :=
  sortByKey_perm _ _

/-- The order of iteration does not matter. -/
theorem sortedTags_eq_iff {a b : UpstreamTarget} :
    sortedTags a = sortedTags b ↔ a.tags.toList.Perm b.tags.toList := by
  constructor
  · intro h
    exact (sortedTags_perm a).symm.trans (h ▸ sortedTags_perm b)
  · intro hp
    refine sortByKey_congr _ _ hp ?_
    have hi : Function.Injective fun key : Bytes => key.map UInt8.toNat :=
      map_injective_iff.2 fun a b => UInt8.toNat_inj.1
    have hn := (@HMap.nodup_toList_fst _ _ a.tags).map hi
    rwa [map_map] at hn

/-- The encoding determines the upstream and the identity of the target. -/
theorem stickyStream_eq_iff {u₁ u₂ : Bytes} {t₁ t₂ : UpstreamTarget} (hu₁ : u₁.length < 2 ^ 64)
    (hu₂ : u₂.length < 2 ^ 64) (h₁ : t₁.Fits) (h₂ : t₂.Fits) :
    stickyStream u₁ t₁ = stickyStream u₂ t₂ ↔ u₁ = u₂ ∧ sameStickyIdentity t₁ t₂ = true := by
  rw [sameStickyIdentity_iff]
  constructor
  · intro h
    replace h := append_cancel_left h
    simp only [writeStickyTargetIdentity, append_assoc] at h
    obtain ⟨hu, h⟩ := absorbIdentityField_prefixCode _ _ hu₁ hu₂ _ _ h
    obtain ⟨hh, h⟩ := absorbIdentityField_prefixCode _ _ h₁.host h₂.host _ _ h
    obtain ⟨hpr, h⟩ := append_inj h (by rw [length_beBytes, length_beBytes])
    obtain ⟨hp, h⟩ := absorbPolicyPort_prefixCode _ _ _ _ h
    obtain ⟨hlc, h⟩ :=
      absorbOptionalIdentityField_prefixCode _ _ h₁.locality h₂.locality _ _ h
    obtain ⟨hpt, h⟩ := absorbOptionalIdentityField_prefixCode _ _ h₁.path h₂.path _ _ h
    obtain ⟨hln, htg⟩ := append_inj h (by rw [length_beBytes, length_beBytes])
    have hln := beBytes_inj hln h₁.tagsLen h₂.tagsLen
    have hc := (absorbIdentityField_prefixCode.append absorbIdentityField_prefixCode).flatMap
      (n := t₁.tags.len)
    have hf : ∀ {t : UpstreamTarget}, t.Fits → t.tags.len = t₁.tags.len →
        (sortedTags t).length = t₁.tags.len ∧
          ∀ e ∈ sortedTags t, e.1.length < 2 ^ 64 ∧ e.2.length < 2 ^ 64 := fun ht heq =>
      ⟨by rw [(sortedTags_perm _).length_eq, length_toList, heq],
        fun e he => ht.tags e ((sortedTags_perm _).subset he)⟩
    have hs := (hc _ _ (hf h₁ rfl) (hf h₂ hln.symm) [] [] (by rw [htg])).1
    exact ⟨hu, hh, beBytes_toNat_inj hpr, hp, hlc, hpt,
      sortedTags_eq_iff.1 hs⟩
  · rintro ⟨rfl, hh, hpr, hp, hlc, hpt, htg⟩
    have hln : t₁.tags.len = t₂.tags.len := by
      rw [← length_toList, ← length_toList, htg.length_eq]
    simp only [stickyStream, writeStickyTargetIdentity, hh, hpr, hp, hlc, hpt, hln,
      sortedTags_eq_iff.2 htg]

/-! ## Tokens of targets -/

theorem hexByte_inj {a b : UInt8} (h : hexByte a = hexByte b) : a = b := by
  have hi : ∀ n < 16, (if (hexDigitOf n).toNat < 58 then (hexDigitOf n).toNat - 48
      else (hexDigitOf n).toNat - 87) = n := by decide +kernel
  have hd : ∀ m n, m < 16 → n < 16 → hexDigitOf m = hexDigitOf n → m = n := by
    intro m n hm hn heq
    rw [← hi m hm, heq, hi n hn]
  have ha := a.toNat_lt
  have hb := b.toNat_lt
  have hh := hd _ _ (by omega) (by omega) (cons.inj h).1
  have hlw := hd _ _ (by omega) (by omega) (cons.inj (cons.inj h).2).1
  exact UInt8.toNat_inj.1 (by omega)

theorem length_hexEncode (bytes : Bytes) : (hexEncode bytes).length = 2 * bytes.length := by
  induction bytes with
  | nil => rfl
  | cons b bytes ih =>
    rw [hexEncode] at ih ⊢
    rw [flatMap_cons, length_append, ih, length_cons, hexByte]
    simp only [length_cons, length_nil]
    omega

theorem hexEncode_inj {a b : Bytes} (h : hexEncode a = hexEncode b) : a = b := by
  have hc : PrefixCodeOn (fun _ => True) hexByte := fun a b _ _ s t h =>
    PrefixCode.of_width (n := 2) (fun _ => rfl) (fun _ _ => hexByte_inj) a b s t h
  have hln : a.length = b.length := by
    have := congrArg length h
    rw [length_hexEncode, length_hexEncode] at this
    omega
  exact (hc.flatMap (n := b.length) a b ⟨hln, fun _ _ => trivial⟩
    ⟨rfl, fun _ _ => trivial⟩ [] [] (by rw [← hexEncode, h, ← hexEncode])).1

theorem isStickySessionToken_hexEncode {tag : Bytes} (h : tag.length = 32) :
    isStickySessionToken (hexEncode tag) = true := by
  have hdg : ∀ n < 16, ((byte '0' ≤ hexDigitOf n && hexDigitOf n ≤ byte '9') ||
      (byte 'a' ≤ hexDigitOf n && hexDigitOf n ≤ byte 'f')) = true := by decide +kernel
  rw [isStickySessionToken, length_hexEncode, h, Bool.and_eq_true, all_eq_true]
  refine ⟨rfl, fun d hd => ?_⟩
  obtain ⟨b, -, hb⟩ := mem_flatMap.1 hd
  have := b.toNat_lt
  simp only [hexByte, mem_cons, not_mem_nil, or_false] at hb
  rcases hb with rfl | rfl
  · exact hdg _ (by omega)
  · exact hdg _ (by omega)

/-- No two targets have one tag for different encodings. -/
def CollisionFree (key : HmacSha256Key) (upstreamId : Bytes) (targets : List UpstreamTarget) :
    Prop :=
  ∀ a ∈ targets, ∀ b ∈ targets,
    key.tag (stickyStream upstreamId a) = key.tag (stickyStream upstreamId b) →
      stickyStream upstreamId a = stickyStream upstreamId b

section
variable {key : HmacSha256Key} {upstreamId : Bytes} {targets : List UpstreamTarget}
  {a b t : UpstreamTarget} {token : Bytes}

section
variable (hk : CollisionFree key upstreamId targets) (hu : upstreamId.length < 2 ^ 64)
  (hf : ∀ t ∈ targets, t.Fits)
include hk hu hf

/-- Targets have one token if they have one identity. -/
theorem stickySessionToken_eq_iff (ha : a ∈ targets) (hb : b ∈ targets) :
    stickySessionToken (some key) upstreamId a = stickySessionToken (some key) upstreamId b ↔
      sameStickyIdentity a b = true := by
  have hs := stickyStream_eq_iff hu hu (hf a ha) (hf b hb)
  simp only [stickySessionToken, Option.map_some, Option.some.injEq]
  constructor
  · intro h
    exact (hs.1 (hk a ha b hb (hexEncode_inj h))).2
  · intro h
    rw [hs.2 ⟨rfl, h⟩]

/-- A token leads to the first target of the identity. -/
theorem get_stickyTokenIndex {strategies : List HashOnStrategy}
    (hm : strategies.any strategyMintsStickyTokens = true) (ht : t ∈ targets)
    (htk : stickySessionToken (some key) upstreamId t = some token) :
    (buildStickyTokenIndex (some key) upstreamId strategies targets).get token =
      targets.findIdx? (sameStickyIdentity · t) := by
  rw [buildStickyTokenIndex, if_pos hm]
  refine (get_foldl_orInsert
    (fun e : UpstreamTarget × ℕ => stickySessionToken (some key) upstreamId e.1) Prod.snd _).trans ?_
  rw [get_empty, Option.none_or, findIdx?_eq_findSome?_zipIdx]
  have hsm : ∀ e ∈ targets.zipIdx,
      decide (stickySessionToken (some key) upstreamId e.1 = some token) =
        sameStickyIdentity e.1 t := by
    rintro ⟨t', i⟩ he
    have ht' : t' ∈ targets := mem_of_getElem? (mem_zipIdx_iff_getElem?.1 he)
    rw [Bool.eq_iff_iff, decide_eq_true_eq, ← htk]
    exact stickySessionToken_eq_iff hk hu hf ht' ht
  generalize targets.zipIdx = l at hsm
  induction l with
  | nil => rfl
  | cons e l ih =>
    rw [find?_cons, hsm e (by simp), findSome?_cons]
    cases hs : sameStickyIdentity e.1 t with
    | true => simp [hs]
    | false =>
      simp only [hs, Bool.false_eq_true, if_false]
      exact ih fun e he => hsm e (by simp [he])

end

end

/-! ## Targets of one identity -/

section
variable {upstreamId : Bytes} {targets : List UpstreamTarget} {c : BalancerConfig}
  {self : Selector} {a b : UpstreamTarget} {i j : ℕ}

theorem tags_get_of_same (hs : sameStickyIdentity a b = true) (k : Bytes) :
    a.tags.get k = b.tags.get k := by
  obtain ⟨-, -, -, -, -, ht⟩ := sameStickyIdentity_iff.1 hs
  ext v
  rw [← mem_toList, ← mem_toList, ht.mem_iff]

theorem targetHostPortKey_of_same (hs : sameStickyIdentity a b = true) :
    targetHostPortKey a = targetHostPortKey b := by
  obtain ⟨hh, hp, -⟩ := sameStickyIdentity_iff.1 hs
  rw [targetHostPortKey, targetHostPortKey, hh, hp]

/-- A pool has all targets of an identity, or none. -/
theorem accepts_of_same (hs : sameStickyIdentity a b = true) (among : Among) :
    c.accepts targets a among = c.accepts targets b among := by
  obtain ⟨hh, hpr, hp, -⟩ := sameStickyIdentity_iff.1 hs
  have hd : a.dispatchPolicyPort = b.dispatchPolicyPort := by
    rw [UpstreamTarget.dispatchPolicyPort, UpstreamTarget.dispatchPolicyPort, hpr, hp]
  have hsb : ∀ name, c.acceptsSubset name a = c.acceptsSubset name b := by
    intro name
    simp only [BalancerConfig.acceptsSubset, SubsetDefinition.matches_, tags_get_of_same hs]
  cases among <;>
    simp only [BalancerConfig.accepts, BalancerConfig.acceptsPort, hh, hd, hsb]

def srvPriorityOf (t : UpstreamTarget) : ℕ :=
  ((t.tags.get srvPriorityTag).bind parseSrvPriorityTag).getD srvPriorityNone

theorem srvPriorities_eq {distinct : List ℕ} {found : List ℕ × List ℕ}
    (h : srvPriorities targets distinct = some found) : found.1 = targets.map srvPriorityOf := by
  induction targets generalizing distinct found with
  | nil =>
    cases h
    rfl
  | cons t rest ih =>
    have hc : ∀ {p distinct}, p = srvPriorityOf t →
        ((srvPriorities rest distinct).map fun r => (p :: r.1, r.2)) = some found →
        found.1 = (t :: rest).map srvPriorityOf := by
      rintro _ distinct rfl hr
      obtain ⟨found', hf', rfl⟩ := Option.map_eq_some_iff.1 hr
      rw [map_cons, ← ih hf']
    rw [srvPriorities] at h
    split at h
    · next ht => exact hc (by rw [srvPriorityOf, ht]; rfl) h
    · next raw ht =>
      split at h
      · cases h
      · next priority hpr =>
        have hp : priority = srvPriorityOf t := by
          rw [srvPriorityOf, ht, Option.bind_some, hpr, Option.getD_some]
        split_ifs at h
        · exact hc hp h
        · exact hc hp h

theorem srvPriority_of_same (hs : self.toLoadBalancer = .withSubsetsAndPortOverrides upstreamId
      targets c) (ha : targets[i]? = some a) (hb : targets[j]? = some b)
    (hsm : sameStickyIdentity a b = true) : self.srvPriority i = self.srvPriority j := by
  have hp : self.srvPriorities = buildSrvPriorities targets := by rw [hs]; rfl
  rw [srvPriority, srvPriority, hp, buildSrvPriorities]
  cases hf : srvPriorities targets [] with
  | none => rfl
  | some found =>
    obtain ⟨priorities, distinct⟩ := found
    have heq : priorities = targets.map srvPriorityOf := srvPriorities_eq hf
    dsimp only
    split_ifs
    · rfl
    · rw [heq, getElem?_map, getElem?_map, ha, hb]
      simp only [Option.map_some, Option.getD_some, srvPriorityOf, tags_get_of_same hsm]

section
variable (hb : self.Built upstreamId) (hi : self.targets[i]? = some a)
  (hj : self.targets[j]? = some b) (hs : sameStickyIdentity a b = true) (h : HealthContext)
include hb hi hj hs h

theorem activelyUnhealthy_of_same : self.activelyUnhealthy h i = self.activelyUnhealthy h j := by
  rw [activelyUnhealthy, activelyUnhealthy, hb.targetKeys, getElem?_map, getElem?_map, hi, hj,
    Option.map_some, Option.map_some, targetKey, targetKey, targetHostPortKey_of_same hs]

/-- Targets of one identity are ejected together. -/
theorem ejectedAt_of_same : self.ejectedAt h i = self.ejectedAt h j := by
  rw [ejectedAt, ejectedAt, activelyUnhealthy_of_same hb hi hj hs, hb.hostPortKeys, getElem?_map,
    getElem?_map, hi, hj, Option.map_some, Option.map_some, targetHostPortKey_of_same hs]

end

/-- The ejections of one time. -/
def atTime (at_ : Option ℕ) (l : List (ℕ × ℕ)) : List (ℕ × ℕ) := l.filter fun e => some e.2 = at_

variable {pool : List ℕ}

/-- A sort that keeps the order of the ejections of one time readmits the first of them first. -/
theorem readmitted_of_le {h : HealthContext}
    (hsr : atTime (self.ejectedAt h j) (self.sort.sort (self.ejections h pool)) =
      atTime (self.ejectedAt h j) (self.ejections h pool)) (hp : pool.Pairwise (· < ·))
    (hi : i ∈ pool) (hij : i ≤ j) (hat : self.ejectedAt h i = self.ejectedAt h j)
    (hj : j ∈ self.readmitted h pool) : i ∈ self.readmitted h pool := by
  obtain ⟨at_, hej⟩ := Option.isSome_iff_exists.1 (mem_of_mem_readmitted hj).2
  rcases @readmitted_cases self h pool with ⟨hn, -⟩ | ⟨maxPct, -, -, heq⟩
  · rw [hn] at hj
    cases hj
  · rw [heq] at hj ⊢
    generalize (self.ejections h pool).length - maxEjected pool.length maxPct = k at hj ⊢
    have hpm := self.sort.perm (self.ejections h pool)
    generalize self.sort.sort (self.ejections h pool) = l at hsr hj hpm ⊢
    obtain ⟨e, he, rfl⟩ := mem_map.1 hj
    have hm := mem_ejections.1 (hpm.subset (take_subset _ _ he))
    -- The ejections of the time have the order of the pool.
    have hs : (atTime (some at_) l).Pairwise fun x y => x.1 < y.1 := by
      rw [← hej, hsr]
      refine List.Pairwise.filter _ (pairwise_map.1 ?_)
      rw [ejections_fst]
      exact hp.filter _
    rw [atTime, ← take_append_drop k l, filter_append, pairwise_append] at hs
    have ha : (i, at_) ∈ l := hpm.symm.subset (mem_ejections.2 ⟨hi, hat.trans hej⟩)
    rw [← take_append_drop k l, mem_append] at ha
    refine mem_map.2 ⟨(i, at_), ha.resolve_right fun hd => ?_, rfl⟩
    have hlt := hs.2.2 e (mem_filter.2 ⟨he, decide_eq_true (hm.2.symm.trans hej)⟩) (i, at_)
      (mem_filter.2 ⟨hd, decide_eq_true rfl⟩)
    exact absurd hij (not_le.2 hlt)

theorem mem_srvTier_of_eq (hi : i ∈ pool) (hj : j ∈ self.srvTier pool)
    (hp : self.srvPriority i = self.srvPriority j) : i ∈ self.srvTier pool := by
  rw [srvTier] at hj ⊢
  split_ifs at hj ⊢
  · exact hi
  · refine mem_filter.2 ⟨hi, ?_⟩
    rw [inBestTier, hp]
    exact (mem_filter.1 hj).2

/-- A member is not back from an ejection only because of the order in which the sort put those of
    its time. -/
def Selector.TieFree (self : Selector) (health : Option HealthContext) (pool : List ℕ) (j : ℕ) :
    Prop :=
  ∀ h, health = some h → j ∉ self.readmitted h pool ∨
    atTime (self.ejectedAt h j) (self.sort.sort (self.ejections h pool)) =
      atTime (self.ejectedAt h j) (self.ejections h pool)

/-- Of targets of one identity, the first is healthy if another is. -/
theorem healthyPool_of_same (hs : self.toLoadBalancer = .withSubsetsAndPortOverrides upstreamId
      targets c) {among : Among} {health : Option HealthContext} (hi : targets[i]? = some a)
    (hj : targets[j]? = some b) (hsm : sameStickyIdentity a b = true)
    (hij : i ≤ j) (hti : self.TieFree health (self.pool among) j)
    (hm : j ∈ self.healthyPool health (self.pool among)) :
    i ∈ self.healthyPool health (self.pool among) := by
  have hb := built_of hs
  have ht : self.targets = targets := by rw [hs]; rfl
  obtain ⟨hjp, hjc⟩ := mem_healthyPool hm
  have hip : i ∈ self.pool among := by
    obtain ⟨b', hb', ha⟩ := (mem_pool hs).1 hjp
    obtain rfl : b = b' := Option.some.inj (hj.symm.trans hb')
    exact (mem_pool hs).2 ⟨a, hi, accepts_of_same hsm among ▸ ha⟩
  refine mem_srvTier_of_eq (mem_filter.2 ⟨hip, ?_⟩) hm
    (srvPriority_of_same hs hi hj hsm)
  rcases health with _ | h
  · rfl
  · rw [← ht] at hi hj
    have hac := activelyUnhealthy_of_same hb hi hj hsm h
    have hat := ejectedAt_of_same hb hi hj hsm h
    rw [acceptable_iff, verdictOf_healthy] at hjc ⊢
    rw [hac, hat]
    refine hjc.imp_right fun hr => ?_
    rcases hti h rfl with hn | hsr
    · exact absurd hr hn
    · exact readmitted_of_le hsr (scope_pool hb among).ascending hip hij hat hr

/-! ## What a token is resolved to -/

theorem any_attach (hp : ∀ i ∈ pool, i < self.targets.length) :
    ((self.attach pool).any fun e => e.1 == i) = decide (i ∈ pool) := by
  rw [Bool.eq_iff_iff, any_eq_true, decide_eq_true_eq]
  conv_rhs => rw [← attach_fst hp, mem_map]
  simp only [beq_iff_eq]

/-- The targets of a subset and of a port. -/
def narrowed (n : ℕ) : Option (List ℕ) → Option (List ℕ) → List ℕ
  | some s, some p => s.filter (· ∈ p)
  | some s, none => s
  | none, some p => p
  | none, none => range n

theorem mem_narrowed {n : ℕ} {s p : Option (List ℕ)} (hi : i < n) :
    i ∈ narrowed n s p ↔ p.all (·.contains i) = true ∧ s.all (·.contains i) = true := by
  cases s <;> cases p <;> simp [narrowed, hi, and_comm]

/-- The lists that a token is checked against are those of the pool. -/
theorem candidatePoolIndices_eq (hb : self.Built upstreamId) (port : Option UInt16)
    (name : Option Bytes) :
    (self.candidatePoolIndices port name = none ∧ self.pool (.of port name) = []) ∨
    ∃ s p, self.candidatePoolIndices port name = some (s, p) ∧
      self.pool (.of port name) = narrowed self.targets.length s p ∧
      (∀ is, s = some is → self.Scoped is) ∧
      ∀ is, p = some is → self.Scoped is := by
  have hp : ∀ is, (port.bind self.portOverrides.get).map PortLbState.targetIndices = some is →
      self.Scoped is := by
    intro is his
    obtain ⟨portState, hst, rfl⟩ := Option.map_eq_some_iff.1 his
    obtain ⟨port', -, hget⟩ := Option.bind_eq_some_iff.1 hst
    exact (hb.portScope _ _ hget).1
  cases name with
  | none =>
    refine .inr ⟨none, _, rfl, ?_, nofun, hp⟩
    cases port with
    | none => rfl
    | some port =>
      rw [Among.of, pool, Option.bind_some]
      cases self.portOverrides.get port <;> rfl
  | some name =>
    have hs : (self.subsetIndices.get name).filter (· ≠ []) =
        if self.subsetPool name = [] then none else some (self.subsetPool name) := by
      rw [subsetPool]
      rcases self.subsetIndices.get name with _ | _ | ⟨i, is⟩ <;> simp
    simp only [candidatePoolIndices, Option.bind_some, hs, Option.isSome_some, true_and]
    split_ifs with he hn hn
    · refine .inl ⟨rfl, ?_⟩
      cases port with
      | none => exact he
      | some port =>
        rw [Among.of, pool, he]
        cases self.portOverrides.get port <;> rfl
    · exact absurd rfl hn
    · cases hn
    · refine .inr ⟨_, _, rfl, ?_, ?_, hp⟩
      · cases port with
        | none => rfl
        | some port =>
          rw [Among.of, pool, Option.bind_some]
          cases self.portOverrides.get port <;> rfl
      · rintro is ⟨rfl⟩
        exact scope_subsetPool hb name

/-- The check of one target is membership in the healthy part of the pool. -/
theorem indexHealthyInPool_eq (hs : self.Sized) {s p : Option (List ℕ)}
    (hsb : ∀ is, s = some is → self.Scoped is)
    (hp : ∀ is, p = some is → self.Scoped is) (hi : i < self.targets.length)
    (health : Option HealthContext) :
    self.indexHealthyInPool i s p health =
      .ok (decide (i ∈ self.healthyPool health (narrowed self.targets.length s p))) := by
  have hv : ∀ {pool : List ℕ}, self.Scoped pool →
      ((self.attach (self.healthyPool health pool)).any fun e => e.1 == i) =
        decide (i ∈ self.healthyPool health pool) := fun hpl =>
    any_attach fun j hj => hpl.lt j (mem_healthyPool hj).1
  rw [indexHealthyInPool.eq_def]
  split_ifs with hn
  · rcases s with _ | s <;> rcases p with _ | p
    · simp only [healthyTargetsVec_ok hs health, ok_bind, hv (.range _)]
      rfl
    · simp only [healthyTargetsVecForIndices_ok hs (hp p rfl) health, ok_bind, hv (hp p rfl)]
      rfl
    · simp only [healthyTargetsVecForIndices_ok hs (hsb s rfl) health, ok_bind, hv (hsb s rfl)]
      rfl
    · have hsc := (hsb s rfl).filter (· ∈ p)
      simp only [subsetPortIntersectionVec_eq (hp p rfl),
        healthyTargetsVecForIndices_ok hs hsc health, ok_bind, hv hsc]
      rfl
  · have hn : self.targets.length ≤ 128 := not_lt.1 hn
    have hbt : ∀ {x : Except Panic HealthBitset} {is : List ℕ},
        (∃ b, x = .ok b ∧ Holds b is) →
          (x >>= fun healthy => pure (healthy.contains i)) = .ok (decide (i ∈ is)) := by
      rintro x is ⟨b, rfl, hb⟩
      rw [ok_bind, hb.contains (hi.trans_le hn)]
      rfl
    have hin : ∀ {is : List ℕ}, self.Scoped is → Holds (bitsetForIndices is) is :=
      fun h => holds_bitsetForIndices h.ascending fun j hj => (h.lt j hj).trans_le hn
    rcases s with _ | s <;> rcases p with _ | p
    · exact hbt (computeHealthBitset_ok hs hn health)
    · exact hbt (computeHealthBitsetForIndices_ok hs hn (hp p rfl) health)
    · exact hbt (computeHealthBitsetForIndices_ok hs hn (hsb s rfl) health)
    · exact hbt (computeHealthBitsetForMask_ok hs hn ((hsb s rfl).filter (· ∈ p))
        ((hin (hsb s rfl)).intersect (hin (hp p rfl))) health)

end

/-- A token is resolved to the target that it leads to, if that is in the healthy part of the
    pool. -/
theorem selectSticky_eq {self : StickySelector} {upstreamId token : Bytes} {idx : ℕ}
    (hb : self.Built upstreamId) (hget : self.stickyTokenIndex.get token = some idx)
    (ht : isStickySessionToken token = true) (hi : idx < self.targets.length)
    (port : Option UInt16) (name : Option Bytes) (health : Option HealthContext) :
    self.selectSticky token port name health =
      .ok (if idx ∈ self.healthyPool health (self.pool (.of port name)) then self.targets[idx]?
        else none) := by
  have hne : self.stickyTokenIndex.isEmpty = false := by
    by_contra he
    rw [get_of_isEmpty (by simpa using he)] at hget
    cases hget
  simp only [StickySelector.selectSticky, hne, ht, hget, Bool.false_or, Bool.not_true,
    Bool.false_eq_true, if_false]
  rcases candidatePoolIndices_eq hb port name with ⟨hn, hpl⟩ | ⟨s, p, hsm, hpl, hs, hp⟩
  · have hnt : idx ∉ self.healthyPool health [] := fun h => not_mem_nil (mem_healthyPool h).1
    simp only [hn, hpl, if_neg hnt]
  · simp only [hsm, hpl, indexHealthyInPool_eq hb.sized hs hp hi, ok_bind]
    have hm := @mem_narrowed idx _ s p hi
    by_cases hh : idx ∈ self.healthyPool health (narrowed self.targets.length s p)
    · obtain ⟨hpr, hsb⟩ := hm.1 (mem_healthyPool hh).1
      simp only [hpr, hsb, hh, decide_true, Bool.not_true, Bool.or_self, Bool.false_eq_true,
        if_false, if_true, index_ok (getElem?_eq_getElem hi), ok_bind, getElem?_eq_getElem hi]
      rfl
    · simp only [hh, decide_false, Bool.not_false, if_false, if_true]
      exact ite_self _

/-- **Sticky sessions.**  Two encodings are equal just if the upstreams and the identities of the
    targets are.  A token is resolved to the first target of its identity, if that one is healthy in
    the pool; and it is, if any target of the identity is that did not win a tie of ejections. -/
theorem sticky_binding :
    (∀ {u₁ u₂ : Bytes} {t₁ t₂ : UpstreamTarget}, u₁.length < 2 ^ 64 → u₂.length < 2 ^ 64 →
      t₁.Fits → t₂.Fits →
      (stickyStream u₁ t₁ = stickyStream u₂ t₂ ↔ u₁ = u₂ ∧ sameStickyIdentity t₁ t₂ = true)) ∧
    ∀ {self : Selector} {upstreamId : Bytes} {targets : List UpstreamTarget} {c : BalancerConfig}
      {key : HmacSha256Key} {strategies : List HashOnStrategy} {t : UpstreamTarget} {token : Bytes},
      self.toLoadBalancer = .withSubsetsAndPortOverrides upstreamId targets c →
      CollisionFree key upstreamId targets → upstreamId.length < 2 ^ 64 → (∀ t ∈ targets, t.Fits) →
      strategies.any strategyMintsStickyTokens = true → t ∈ targets →
      stickySessionToken (some key) upstreamId t = some token →
      ∀ (port : Option UInt16) (name : Option Bytes) (health : Option HealthContext),
      ∃ idx t', targets[idx]? = some t' ∧ sameStickyIdentity t' t = true ∧
        (∀ k < idx, ∀ t'', targets[k]? = some t'' → sameStickyIdentity t'' t = false) ∧
        (self.withStickyTokens (some key) upstreamId strategies).selectSticky token port name health =
          .ok (if idx ∈ self.healthyPool health (self.pool (.of port name)) then some t' else none) ∧
        ((∃ j t'', targets[j]? = some t'' ∧ sameStickyIdentity t'' t = true ∧
          j ∈ self.healthyPool health (self.pool (.of port name)) ∧
          self.TieFree health (self.pool (.of port name)) j) →
        idx ∈ self.healthyPool health (self.pool (.of port name))) := by
  refine ⟨stickyStream_eq_iff, ?_⟩
  intro self upstreamId targets c key strategies t token hs hke hu hf hm ht htk port
    name health
  have hb := built_of hs
  have htr : self.targets = targets := by rw [hs]; rfl
  have hget := get_stickyTokenIndex hke hu hf hm ht htk
  -- The identity is that of `t` itself, so there is a first target of it.
  have hso : (targets.findIdx? (sameStickyIdentity · t)).isSome = true := by
    rw [findIdx?_isSome, any_eq_true]
    exact ⟨t, ht, (stickySessionToken_eq_iff hke hu hf ht ht).1 rfl⟩
  obtain ⟨idx, hi⟩ := Option.isSome_iff_exists.1 hso
  obtain ⟨hlt, hsm, hfr⟩ := findIdx?_eq_some_iff_getElem.1 hi
  have hlt' : idx < self.targets.length := htr.symm ▸ hlt
  have hv : isStickySessionToken token = true := by
    cases htk
    exact isStickySessionToken_hexEncode (key.length_tag _)
  have hn : (self.withStickyTokens (some key) upstreamId strategies).stickyTokenIndex.get token =
      some idx := by
    rw [withStickyTokens, htr, hget, hi]
  refine ⟨idx, targets[idx], getElem?_eq_getElem hlt, hsm, fun k hk t'' ht'' => ?_, ?_, ?_⟩
  · obtain ⟨hk', rfl⟩ := List.getElem?_eq_some_iff.1 ht''
    simpa using hfr k hk
  · refine (selectSticky_eq hb hn hv hlt' port name health).trans ?_
    rw [show (self.withStickyTokens (some key) upstreamId strategies).targets = targets from htr,
      getElem?_eq_getElem hlt]
    rfl
  · rintro ⟨j, t'', ht'', hj, hmm, hti⟩
    have hle : idx ≤ j := by
      by_contra hlt
      obtain ⟨hj', rfl⟩ := List.getElem?_eq_some_iff.1 ht''
      exact hfr j (not_le.1 hlt) hj
    have htn : sameStickyIdentity targets[idx] t'' = true := by
      rw [← stickySessionToken_eq_iff hke hu hf (getElem_mem hlt) (mem_of_getElem? ht''),
        (stickySessionToken_eq_iff hke hu hf (getElem_mem hlt) ht).2 hsm,
        (stickySessionToken_eq_iff hke hu hf (mem_of_getElem? ht'') ht).2 hj]
    exact healthyPool_of_same hs (getElem?_eq_getElem hlt) ht'' htn hle hti hmm

/-- A key for examples: the end of the host and what is before it, backwards. -/
def hostEndKey : HmacSha256Key where
  tag m := (m.reverse.drop 15 ++ replicate 32 0).take 32
  length_tag m := by
    rw [length_take, length_append, length_replicate]
    omega

theorem fits_of_host {host : Bytes} {port : UInt16} (h : host.length < 2 ^ 64) :
    ({ host, port } : UpstreamTarget).Fits :=
  ⟨h, nofun, nofun, Nat.two_pow_pos 64, nofun⟩

/-- The second target, while the first is out. -/
theorem sticky_binding_three :
    (threeSelector.withStickyTokens (some hostEndKey) (lit "u") [.cookie (lit "sid")]).selectSticky
      (hexEncode (hostEndKey.tag (stickyStream (lit "u") { host := lit "b", port := 80 })))
      none none (some twoEjected) = .ok (some { host := lit "b", port := 80 }) := by
  have hf : ∀ t ∈ threeTargets, t.Fits := by
    simp only [threeTargets, mem_cons, not_mem_nil, or_false]
    rintro t (rfl | rfl | rfl) <;> exact fits_of_host (by decide +kernel)
  obtain ⟨idx, t', ht', hs, -, heq, hh⟩ := @sticky_binding.2 threeSelector (lit "u") threeTargets
    {} hostEndKey [.cookie (lit "sid")] { host := lit "b", port := 80 } _ rfl
    (by unfold CollisionFree; decide +kernel) (by decide +kernel) hf rfl (by decide +kernel) rfl
    none none (some twoEjected)
  have hti : threeSelector.TieFree (some twoEjected) (threeSelector.pool (.of none none)) 1 := by
    rintro h ⟨⟩
    exact .inr (by decide +kernel)
  rw [heq, if_pos (hh ⟨1, _, rfl, by decide +kernel, by decide +kernel, hti⟩)]
  have htr : ∀ t ∈ threeTargets, sameStickyIdentity t { host := lit "b", port := 80 } = true →
      t = { host := lit "b", port := 80 } := by decide +kernel
  rw [htr t' (mem_of_getElem? ht') hs]

/-! ## Ties of ejections -/

/-- A sort that puts the second of two equals first if they stand at the front. -/
def swappingSort : UnstableSort where
  sort
    | a :: b :: rest => sortByKey Prod.snd (b :: a :: rest)
    | l => sortByKey Prod.snd l
  perm l := by
    rcases l with _ | ⟨a, _ | ⟨b, rest⟩⟩
    · exact sortByKey_perm _ _
    · exact sortByKey_perm _ _
    · exact (sortByKey_perm _ _).trans (List.Perm.swap a b rest)
  sorted l := by
    rcases l with _ | ⟨a, _ | ⟨b, rest⟩⟩ <;> exact sortByKey_pairwise _ _

/-- A target for every letter. -/
def lettered (i : ℕ) : UpstreamTarget := { host := [UInt8.ofNat (97 + i)], port := 80 }

/-- One target twice, and 31 others. -/
def crowdedTargets : List UpstreamTarget := lettered 0 :: (range 32).map lettered

def crowdedSelector : Selector :=
  { (LoadBalancer.withSubsetsAndPortOverrides (lit "u") crowdedTargets {}).idle with
    sort := swappingSort }

/-- All targets are ejected, the last of them right after the first two.  All but one may be. -/
def allEjected : HealthContext where
  activeUnhealthy := empty
  proxyPassive := some <| (range 32).foldl
    (fun m i => m.insert (targetHostPortKey (lettered i))
      (if i = 31 then 1 else if i = 0 then 0 else i + 1)) empty
  maxEjectionPercent := some 98

theorem collisionFree_lettered {upstreamId : Bytes} {targets : List UpstreamTarget}
    (h : ∀ t ∈ targets, ∃ i, t = lettered i) : CollisionFree hostEndKey upstreamId targets := by
  have ht : ∀ i, (hostEndKey.tag (stickyStream upstreamId (lettered i))).head? =
      some (UInt8.ofNat (97 + i)) := by
    intro i
    simp only [hostEndKey, stickyStream, writeStickyTargetIdentity, absorbIdentityField, lettered,
      reverse_append, append_assoc]
    rfl
  intro a ha b hb heq
  obtain ⟨i, rfl⟩ := h a ha
  obtain ⟨j, rfl⟩ := h b hb
  have hh := congrArg head? heq
  rw [ht, ht, Option.some.injEq] at hh
  rw [lettered, hh, ← lettered]

/-- The later of two equal targets is readmitted, and the token of both leads to the other. -/
theorem crowded_unresolved :
    CollisionFree hostEndKey (lit "u") crowdedTargets ∧
    crowdedTargets[0]? = crowdedTargets[1]? ∧
    crowdedSelector.indexHealthyInPool 1 none none (some allEjected) = .ok true ∧
    (crowdedSelector.withStickyTokens (some hostEndKey) (lit "u")
      [.cookie (lit "sid")]).selectSticky
        (hexEncode (hostEndKey.tag (stickyStream (lit "u") (lettered 0))))
        none none (some allEjected) = .ok none := by
  refine ⟨collisionFree_lettered fun t ht => ?_, rfl, by decide +kernel, by decide +kernel⟩
  rcases mem_cons.1 ht with rfl | ht
  · exact ⟨0, rfl⟩
  · obtain ⟨i, -, rfl⟩ := mem_map.1 ht
    exact ⟨i, rfl⟩

end Ferrum.Balancer
