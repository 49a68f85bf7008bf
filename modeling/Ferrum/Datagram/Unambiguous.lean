/-
  The authenticated message determines the datagram and the listener.

  The tag is cut out of the middle of the message it authenticates, so the message determines
  the datagram only because

  * the listener's domain splits off the front (`writeDomain_prefixCode`), and
  * the TLV walk finds the tag from the bytes before it alone (`walkTlvs_agree`).
-/
import Ferrum.Datagram.Envelope

namespace Ferrum.Datagram

open Lib List

/-! ## The domain -/

namespace DatagramListenerBinding

theorem addrDomain_prefixCode : PrefixCode addrDomain := by
  intro a b s t h
  cases a with
  | v4 o =>
    cases b with
    | v4 o' =>
      simp only [addrDomain, cons_append, cons.injEq, true_and] at h
      obtain ⟨h1, h2⟩ := append_inj h (by simp)
      exact ⟨congrArg IpAddr.v4 (Vector.toList_inj.1 h1), h2⟩
    | v6 o' => simp [addrDomain] at h
  | v6 o =>
    cases b with
    | v4 o' => simp [addrDomain] at h
    | v6 o' =>
      simp only [addrDomain, cons_append, cons.injEq, true_and] at h
      obtain ⟨h1, h2⟩ := append_inj h (by simp)
      exact ⟨congrArg IpAddr.v6 (Vector.toList_inj.1 h1), h2⟩

theorem tag_injective : Function.Injective DatagramListenerProtocol.tag := by
  intro a b h
  cases a <;> cases b <;> first | rfl | exact absurd h (by decide)

theorem port_prefixCode : PrefixCode fun p : UInt16 => beBytes 2 p.toNat := by
  refine .of_width (fun p => length_beBytes 2 p.toNat) fun p q h => ?_
  exact UInt16.toNat_inj.1 (beBytes_inj h p.toNat_lt q.toNat_lt)

/-- The domain of a listener splits off the front of a message in one way only. -/
theorem writeDomain_prefixCode : PrefixCode writeDomain := by
  intro a b s t h
  simp only [writeDomain, append_assoc, cons_append] at h
  have h := append_cancel_left h
  simp only [cons.injEq, true_and] at h
  obtain ⟨hp, h⟩ := h
  obtain ⟨ha, h⟩ := addrDomain_prefixCode _ _ _ _ h
  obtain ⟨hq, h⟩ := port_prefixCode _ _ _ _ h
  exact ⟨DatagramListenerBinding.ext (tag_injective hp) ha hq, h⟩

end DatagramListenerBinding

/-! ## The TLV walk -/

/-- The end of the TLV at `offset`. -/
def tlvEnd (tlvs : Bytes) (offset : ℕ) : ℕ :=
  offset + 3 + beNat [byte tlvs (offset + 1), byte tlvs (offset + 2)]

section
variable {tlvs tlvs' : Bytes} {base offset : ℕ} {auth fresh : Option TlvValueByteRange}
  {res res' : Option TlvValueByteRange × Option TlvValueByteRange} {a : TlvValueByteRange}

/-- One successful step of the walk: an authentication TLV, the first one, or another TLV. -/
theorem walkTlvs_ok_step (h : walkTlvs tlvs base offset auth fresh = .ok res)
    (ho : offset < tlvs.length) :
    offset + 3 ≤ tlvs.length ∧ tlvEnd tlvs offset ≤ tlvs.length ∧
    (byte tlvs offset = authTlvType ∧ auth = none ∧ tlvEnd tlvs offset = offset + 3 + authTagLen ∧
        walkTlvs tlvs base (tlvEnd tlvs offset)
          (some (base + (offset + 3), base + tlvEnd tlvs offset)) fresh = .ok res ∨
      byte tlvs offset ≠ authTlvType ∧
        ∃ fresh', walkTlvs tlvs base (tlvEnd tlvs offset) auth fresh' = .ok res) := by
  rw [walkTlvs, if_pos ho] at h
  by_cases h3 : tlvs.length - offset < 3
  · rw [if_pos h3] at h; cases h
  rw [if_neg h3] at h
  by_cases he : tlvs.length < tlvEnd tlvs offset
  · simp only [tlvEnd] at he; simp only [if_pos he] at h; cases h
  have he' := he
  simp only [tlvEnd] at he'
  simp only [if_neg he'] at h
  refine ⟨by omega, by omega, ?_⟩
  by_cases ha : byte tlvs offset = authTlvType
  · left
    simp only [if_pos ha] at h
    rcases auth with _ | a
    · split_ifs at h with _ h2
      refine ⟨ha, rfl, ?_, h⟩
      rw [tlvEnd, not_not.1 h2]
    · cases h
  · right
    refine ⟨ha, ?_⟩
    simp only [if_neg ha] at h
    split_ifs at h
    · exact ⟨_, h⟩
    · exact ⟨_, h⟩

theorem walkTlvs_induction {P : ℕ → Prop} (tlvs : Bytes) (he : ∀ o, tlvs.length ≤ o → P o)
    (hs : ∀ o, o < tlvs.length → P (tlvEnd tlvs o) → P o) (offset : ℕ) : P offset := by
  induction hn : tlvs.length - offset using Nat.strong_induction_on generalizing offset with
  | _ n ih =>
    rcases Nat.lt_or_ge offset tlvs.length with ho | ho
    · refine hs _ ho (ih _ ?_ _ rfl)
      simp only [tlvEnd]; omega
    · exact he _ ho

/-- An authentication TLV once found is the one returned. -/
theorem walkTlvs_auth_some : ∀ {fresh},
    walkTlvs tlvs base offset (some a) fresh = .ok res → res.1 = some a := by
  refine walkTlvs_induction (P := fun o => ∀ {fresh},
    walkTlvs tlvs base o (some a) fresh = .ok res → res.1 = some a) tlvs ?_ ?_ offset
  · intro o ho fresh h
    rw [walkTlvs, if_neg (by omega)] at h
    cases h; rfl
  · intro o ho ih fresh h
    obtain ⟨-, -, ⟨-, hn, -⟩ | ⟨-, fresh', h'⟩⟩ := walkTlvs_ok_step h ho
    · cases hn
    · exact ih h'

/-- The tag found lies in the block, behind its TLV header. -/
theorem walkTlvs_auth_range : ∀ {fresh},
    walkTlvs tlvs base offset none fresh = .ok res → res.1 = some a →
    base + offset + 3 ≤ a.1 ∧ a.2 = a.1 + authTagLen ∧ a.2 ≤ base + tlvs.length := by
  refine walkTlvs_induction (P := fun o => ∀ {fresh},
    walkTlvs tlvs base o none fresh = .ok res → res.1 = some a →
    base + o + 3 ≤ a.1 ∧ a.2 = a.1 + authTagLen ∧ a.2 ≤ base + tlvs.length) tlvs ?_ ?_ offset
  · intro o ho fresh h ha
    rw [walkTlvs, if_neg (by omega)] at h
    cases h; cases ha
  · intro o ho ih fresh h ha
    obtain ⟨h3, he, ⟨-, -, hln, h'⟩ | ⟨-, fresh', h'⟩⟩ := walkTlvs_ok_step h ho
    · rw [walkTlvs_auth_some h', Option.some.injEq] at ha
      subst ha
      exact ⟨by simp only; omega, by simp only; omega, by simp only; omega⟩
    · obtain ⟨h1, h2⟩ := ih h' ha
      exact ⟨by simp only [tlvEnd] at h1; omega, h2⟩

/-- The walk finds the tag from the bytes before it: a block of the same length that agrees up
    to the tag of the first one has its tag in the same place. -/
theorem walkTlvs_agree (hln : tlvs'.length = tlvs.length) : ∀ {fresh fresh'},
    walkTlvs tlvs base offset none fresh = .ok res → res.1 = some a →
    (∀ i < a.1 - base, byte tlvs' i = byte tlvs i) →
    walkTlvs tlvs' base offset none fresh' = .ok res' → res'.1 = some a := by
  refine walkTlvs_induction (P := fun o => ∀ {fresh fresh'},
    walkTlvs tlvs base o none fresh = .ok res → res.1 = some a →
    (∀ i < a.1 - base, byte tlvs' i = byte tlvs i) →
    walkTlvs tlvs' base o none fresh' = .ok res' → res'.1 = some a) tlvs ?_ ?_ offset
  · intro o ho fresh fresh' h ha
    rw [walkTlvs, if_neg (by omega)] at h
    cases h; cases ha
  · intro o ho ih fresh fresh' h ha hag h'
    have hr := walkTlvs_auth_range h ha
    -- the three header bytes of this TLV are before the tag
    have he : tlvEnd tlvs' o = tlvEnd tlvs o := by
      rw [tlvEnd, tlvEnd, hag _ (by omega), hag _ (by omega)]
    have ht : byte tlvs' o = byte tlvs o := hag _ (by omega)
    obtain ⟨-, -, hs⟩ := walkTlvs_ok_step h ho
    obtain ⟨-, -, hs'⟩ := walkTlvs_ok_step h' (by omega)
    rw [he, ht] at hs'
    rcases hs with ⟨hat, -, -, h⟩ | ⟨hat, _, h⟩
    · rcases hs' with ⟨-, -, -, h'⟩ | ⟨hat', -⟩
      · rw [walkTlvs_auth_some h', ← walkTlvs_auth_some h, ha]
      · exact absurd hat hat'
    · rcases hs' with ⟨hat', -⟩ | ⟨-, _, h'⟩
      · exact absurd hat' hat
      · exact ih h ha hag h'

end

/-! ## The parser -/

/-- The length of the fixed address block of a family. -/
def fixedLen (family : UInt8) : ℕ :=
  if family = 0x01 then inetAddrLen else if family = 0x02 then inet6AddrLen else 0

variable {block : Bytes}

theorem parseAddresses_ok {family : UInt8} {x : Option SocketAddr × ℕ × Option ℕ}
    (h : parseAddresses family block = .ok x) :
    x.2.1 = fixedLen family ∧ fixedLen family ≤ block.length := by
  unfold parseAddresses at h
  split_ifs at h with h0 h1 hl1 h2 hl2
  · cases h; subst h0; exact ⟨rfl, Nat.zero_le _⟩
  · cases h; subst h1; exact ⟨rfl, not_lt.1 hl1⟩
  · cases h; subst h2; exact ⟨rfl, not_lt.1 hl2⟩

/-- What an accepted address block says about its TLVs. -/
theorem parseBlock_ok {verCmd famTransport : UInt8} {headerLen : ℕ} {p : ParsedDatagramHeader}
    (h : parseBlock verCmd famTransport block headerLen = .ok p) :
    fixedLen (famTransport >>> 4) ≤ block.length ∧
      walkEnvelopeTlvs (block.drop (fixedLen (famTransport >>> 4)))
        (fixedHeaderLen + fixedLen (famTransport >>> 4)) = .ok (p.authTag, p.freshness) := by
  simp only [parseBlock] at h
  by_cases hc : verCmd &&& 0x0f ≠ 0x00 ∧ verCmd &&& 0x0f ≠ 0x01
  · rw [if_pos hc] at h; cases h
  rw [if_neg hc] at h
  by_cases ht : decide (verCmd &&& 0x0f = 0x00) = false ∧ famTransport &&& 0x0f ≠ 0x02
  · rw [if_pos ht] at h; cases h
  rw [if_neg ht] at h
  rcases ha : parseAddresses (famTransport >>> 4) block with e | ⟨forwarded, n, port⟩
  · simp only [ha] at h; cases h
  obtain ⟨hn, hle⟩ := parseAddresses_ok ha
  simp only at hn
  subst hn
  simp only [ha] at h
  refine ⟨hle, ?_⟩
  split at h
  · cases h
  · next hw => cases h; exact hw

/-- The declared length of the address block. -/
def addrLen (datagram : Bytes) : ℕ := beNat [byte datagram 14, byte datagram 15]

/-- Where the TLV region starts. -/
def tlvBase (datagram : Bytes) : ℕ := fixedHeaderLen + fixedLen (byte datagram 13 >>> 4)

def tlvRegion (datagram : Bytes) : Bytes :=
  slice datagram (tlvBase datagram) (fixedHeaderLen + addrLen datagram)

/-- What an accepted header says about its TLVs. -/
theorem parse_ok {d : Bytes} {p : ParsedDatagramHeader} (h : parseDatagramHeaderInner d = .ok p) :
    tlvBase d ≤ fixedHeaderLen + addrLen d ∧ fixedHeaderLen + addrLen d ≤ d.length ∧
      walkEnvelopeTlvs (tlvRegion d) (tlvBase d) = .ok (p.authTag, p.freshness) := by
  simp only [parseDatagramHeaderInner] at h
  split_ifs at h with hln hs hv hmax hav
  obtain ⟨hle, hw⟩ := parseBlock_ok h
  have hb : (slice d fixedHeaderLen (fixedHeaderLen + addrLen d)).length = addrLen d := by
    simp only [slice, length_take, length_drop, addrLen]; omega
  have hr : (slice d fixedHeaderLen (fixedHeaderLen + addrLen d)).drop
      (fixedLen (byte d 13 >>> 4)) = tlvRegion d := by
    simp only [slice, tlvRegion, tlvBase, drop_take, drop_drop]
    congr 1; omega
  simp only [addrLen] at hb hr
  rw [hb] at hle
  rw [hr] at hw
  exact ⟨by simp only [tlvBase, addrLen]; omega, by simp only [addrLen]; omega, hw⟩

/-! ## Cutting out the tag -/

section
variable {d d' : Bytes} {p p' : ParsedDatagramHeader} {a a' : TlvValueByteRange}

/-- The datagram without its tag. -/
def elided (d : Bytes) (a : TlvValueByteRange) : Bytes := d.take a.1 ++ d.drop a.2

/-- The tag lies behind the fixed header and inside the datagram. -/
theorem authTag_range (h : parseDatagramHeaderInner d = .ok p) (ha : p.authTag = some a) :
    fixedHeaderLen ≤ tlvBase d ∧ tlvBase d + 3 ≤ a.1 ∧ a.2 = a.1 + authTagLen ∧ a.2 ≤ d.length := by
  obtain ⟨hb, hl, hw⟩ := parse_ok h
  obtain ⟨h1, h2, h3⟩ := walkTlvs_auth_range hw ha
  have hln : (tlvRegion d).length = fixedHeaderLen + addrLen d - tlvBase d := by
    simp only [tlvRegion, slice, length_take, length_drop]; omega
  exact ⟨Nat.le_add_right _ _, by omega, h2, by omega⟩

variable {i : ℕ}

/-- Before the tag the elided datagram is the datagram. -/
theorem byte_elided (hi : i < a.1) (hl : a.1 ≤ d.length) : byte (elided d a) i = byte d i := by
  have hi' : i < (d.take a.1).length := by rw [length_take]; omega
  simp only [byte, elided, getD_eq_getElem?_getD, getElem?_append_left hi', getElem?_take_of_lt hi]

theorem byte_tlvRegion (hi : tlvBase d + i < fixedHeaderLen + addrLen d) :
    byte (tlvRegion d) i = byte d (tlvBase d + i) := by
  simp only [byte, tlvRegion, slice, getD_eq_getElem?_getD]
  rw [getElem?_take_of_lt (by omega), getElem?_drop]

section
variable (h : parseDatagramHeaderInner d = .ok p) (ha : p.authTag = some a)
  (h' : parseDatagramHeaderInner d' = .ok p') (ha' : p'.authTag = some a')
include h ha h' ha'

/-- Datagrams that agree before the tag of the first have their tags in the same place. -/
theorem authTag_eq_of_agree (hag : ∀ i < a.1, byte d' i = byte d i) : a' = a := by
  obtain ⟨h16, h3, h32, hd⟩ := authTag_range h ha
  obtain ⟨hb, hl, hw⟩ := parse_ok h
  obtain ⟨hb', hl', hw'⟩ := parse_ok h'
  have hf : fixedHeaderLen = 16 := rfl
  have had : addrLen d' = addrLen d := by
    rw [addrLen, addrLen, hag 14 (by omega), hag 15 (by omega)]
  have hbs : tlvBase d' = tlvBase d := by rw [tlvBase, tlvBase, hag 13 (by omega)]
  have he : a.2 ≤ fixedHeaderLen + addrLen d := by
    have hr := walkTlvs_auth_range hw ha
    have hln : (tlvRegion d).length = fixedHeaderLen + addrLen d - tlvBase d := by
      simp only [tlvRegion, slice, length_take, length_drop]; omega
    omega
  rw [hbs] at hw'
  have hln : (tlvRegion d').length = (tlvRegion d).length := by
    simp only [tlvRegion, slice, length_take, length_drop, hbs, had]; omega
  have hbt : ∀ i < a.1 - tlvBase d, byte (tlvRegion d') i = byte (tlvRegion d) i := by
    intro i hi
    rw [byte_tlvRegion (by omega), byte_tlvRegion (by omega), hbs]
    exact hag _ (by omega)
  exact Option.some.inj (ha'.symm.trans (walkTlvs_agree hln hw ha hbt hw'))

theorem authTag_eq_of_elided (he : elided d a = elided d' a') : a = a' := by
  obtain ⟨-, -, h32, hd⟩ := authTag_range h ha
  obtain ⟨-, -, h32', hd'⟩ := authTag_range h' ha'
  have agree : ∀ i, i < a.1 → i < a'.1 → byte d' i = byte d i := by
    intro i hi hi'
    have h1 := byte_elided (d := d) hi (by omega)
    have h2 := byte_elided (d := d') hi' (by omega)
    rw [← h1, ← h2, he]
  -- the datagrams agree before the first of the two tags
  rcases Nat.le_total a.1 a'.1 with hle | hle
  · exact (authTag_eq_of_agree h ha h' ha' fun i hi => agree i hi (by omega)).symm
  · exact authTag_eq_of_agree h' ha' h ha fun i hi => (agree i (by omega) hi).symm

end

/-- The datagram, put together from its three parts. -/
theorem eq_take_slice_drop (hle : a.1 ≤ a.2) : d = d.take a.1 ++ (slice d a.1 a.2 ++ d.drop a.2) := by
  have h : slice d a.1 a.2 ++ d.drop a.2 = d.drop a.1 := by
    have := take_append_drop (a.2 - a.1) (d.drop a.1)
    rwa [drop_drop, Nat.add_sub_cancel' hle] at this
  rw [h, take_append_drop]

/-- Equal elided datagrams with equal tags are equal. -/
theorem eq_of_elided (h : parseDatagramHeaderInner d = .ok p) (ha : p.authTag = some a)
    (h' : parseDatagramHeaderInner d' = .ok p') (ha' : p'.authTag = some a')
    (he : elided d a = elided d' a') (htg : slice d a.1 a.2 = slice d' a'.1 a'.2) : d = d' := by
  obtain rfl := authTag_eq_of_elided h ha h' ha' he
  obtain ⟨-, -, h32, hd⟩ := authTag_range h ha
  obtain ⟨-, -, -, hd'⟩ := authTag_range h' ha'
  obtain ⟨ht, hdr⟩ := append_inj he (by simp only [length_take]; omega)
  rw [eq_take_slice_drop (d := d) (a := a) (by omega), ht, htg, hdr,
    ← eq_take_slice_drop (by omega)]

end

/-! ## Accepted datagrams -/

namespace DatagramClientAddressGate
variable {Key : Type} {H : HmacSha256 Key} {g g₁ g₂ : DatagramClientAddressGate Key}

/-- The message that the tag of a datagram has to authenticate on a listener. -/
def macInputOf (binding : DatagramListenerBinding) (datagram : Bytes) : Option Bytes :=
  match parseDatagramHeaderInner datagram with
  | .error _ => none
  | .ok parsed => parsed.authTag.map (macInput binding datagram)

/-- The tag a datagram carries. -/
def carriedTag (datagram : Bytes) : Option Bytes :=
  match parseDatagramHeaderInner datagram with
  | .error _ => none
  | .ok parsed => parsed.authTag.map fun tag => slice datagram tag.1 tag.2

/-- The datagram carries the tag of a secret holder for the listener. -/
def MintedFor (H : HmacSha256 Key) (key : Key) (binding : DatagramListenerBinding)
    (datagram : Bytes) : Prop :=
  ∃ m, macInputOf binding datagram = some m ∧ carriedTag datagram = some (H.mac key m)

variable {key : Key} {b b' : DatagramListenerBinding}

/-- An authenticated gate accepts only what was minted for its listener. -/
theorem decodeAt_ok {d : Bytes} {peer : SocketAddr} {now : ℕ} {r : DecodedDatagram}
    (hr : g.authenticationRequired = true) (hk : g.authKey = some key)
    (h : (g.decodeAt H d peer now).2 = .ok r) : MintedFor H key g.binding d := by
  unfold decodeAt at h
  split_ifs at h with ht
  split at h
  · cases h
  · next p hp =>
    split_ifs at h with hpr
    simp only [authenticate, hk] at h
    rcases hv : g.verifyAuthenticationTag H key d p with e | u
    · simp only [hv] at h; cases h
    · unfold verifyAuthenticationTag at hv
      split at hv
      · cases hv
      · next a ha =>
        split_ifs at hv with hm
        refine ⟨macInput g.binding d a, by simp only [macInputOf, hp, ha, Option.map_some], ?_⟩
        simp only [carriedTag, hp, ha, Option.map_some, hm]

/-- The authenticated message determines the listener and the datagram. -/
theorem MintedFor.unambiguous {d d' : Bytes} (h : MintedFor H key b d) (h' : MintedFor H key b' d')
    (he : macInputOf b d = macInputOf b' d') : b = b' ∧ d = d' := by
  obtain ⟨m, hm, ht⟩ := h
  obtain ⟨m', hm', ht'⟩ := h'
  obtain rfl : m = m' := by rw [hm, hm'] at he; exact Option.some.inj he
  rw [← ht'] at ht
  unfold macInputOf at hm hm'
  unfold carriedTag at ht
  rcases hp : parseDatagramHeaderInner d with e | p
  · simp only [hp] at hm; cases hm
  rcases hp' : parseDatagramHeaderInner d' with e | p'
  · simp only [hp'] at hm'; cases hm'
  simp only [hp, hp', Option.map_eq_some_iff] at hm hm' ht
  obtain ⟨a, ha, hm⟩ := hm
  obtain ⟨a', ha', hm'⟩ := hm'
  simp only [ha, ha', Option.map_some, Option.some.injEq] at ht
  obtain ⟨hb, hd⟩ := DatagramListenerBinding.writeDomain_prefixCode _ _ _ _ (hm.trans hm'.symm)
  exact ⟨hb, eq_of_elided hp ha hp' ha' hd ht⟩

/-- Under a code that is injective on the messages in question, so does the tag. -/
theorem MintedFor.unambiguous_of_tag {d d' : Bytes} (h : MintedFor H key b d)
    (h' : MintedFor H key b' d') {S : Set Bytes} (hS : Set.InjOn (H.mac key) S)
    (hm : ∀ m ∈ macInputOf b d, m ∈ S) (hm' : ∀ m ∈ macInputOf b' d', m ∈ S)
    (ht : carriedTag d = carriedTag d') : b = b' ∧ d = d' := by
  refine h.unambiguous h' ?_
  obtain ⟨m, hi, htg⟩ := h
  obtain ⟨m', hi', htg'⟩ := h'
  rw [htg, htg', Option.some.injEq] at ht
  rw [hi, hi', hS (hm m hi) (hm' m' hi') ht]

/-- **No second reading.**  Two datagrams accepted under one key are the same datagram on the
    same listener as soon as their authenticated messages agree; under a code injective on
    these messages, as soon as their tags agree; and no accepted datagram was minted for
    another listener. -/
theorem accepted_datagram_unambiguous (H : HmacSha256 Key) (key : Key)
    (g₁ g₂ : DatagramClientAddressGate Key) (d₁ d₂ : Bytes) (peer₁ peer₂ : SocketAddr)
    (now₁ now₂ : ℕ) (r₁ r₂ : DecodedDatagram)
    (hreq₁ : g₁.authenticationRequired = true) (hreq₂ : g₂.authenticationRequired = true)
    (hkey₁ : g₁.authKey = some key) (hkey₂ : g₂.authKey = some key)
    (h₁ : (g₁.decodeAt H d₁ peer₁ now₁).2 = .ok r₁)
    (h₂ : (g₂.decodeAt H d₂ peer₂ now₂).2 = .ok r₂) :
    (macInputOf g₁.binding d₁ = macInputOf g₂.binding d₂ →
      g₁.binding = g₂.binding ∧ d₁ = d₂) ∧
    (∀ S, Set.InjOn (H.mac key) S → (∀ m ∈ macInputOf g₁.binding d₁, m ∈ S) →
      (∀ m ∈ macInputOf g₂.binding d₂, m ∈ S) → carriedTag d₁ = carriedTag d₂ →
      g₁.binding = g₂.binding ∧ d₁ = d₂) ∧
    (∀ S b, Set.InjOn (H.mac key) S → (∀ m ∈ macInputOf b d₂, m ∈ S) →
      (∀ m ∈ macInputOf g₂.binding d₂, m ∈ S) → MintedFor H key b d₂ → b = g₂.binding) := by
  have m₁ := decodeAt_ok hreq₁ hkey₁ h₁
  have m₂ := decodeAt_ok hreq₂ hkey₂ h₂
  refine ⟨m₁.unambiguous m₂, fun S hS => m₁.unambiguous_of_tag m₂ hS, ?_⟩
  intro S b hS hm hm' hb
  exact (hb.unambiguous_of_tag m₂ hS hm hm' rfl).1

/-- A toy code: the last 32 bytes of the message. -/
def lastBytes : HmacSha256 Unit where
  newFromSlice _ := some ()
  mac _ m := beBytes authTagLen (beNat m)
  length_mac _ _ := length_beBytes _ _

/-- A gate on port 53 that trusts every peer. -/
def toyGate (protocol : DatagramListenerProtocol) : DatagramClientAddressGate Unit :=
  .new lastBytes (fun _ => true) (some [1]) (.new protocol (.v4 (Vector.replicate 4 0)) 53)

/-- A `LOCAL` envelope with a freshness record, the given tag and two bytes of payload. -/
def toyEnvelope (tag : Bytes) : Bytes :=
  v2Sig ++ [0x20, 0x00, 0x00, 0x43] ++ (DatagramFreshness.encodeTlv ⟨1, 1, 5, 1000⟩ ++
    ([authTlvType, 0x00, 0x20] ++ (tag ++ [7, 8])))

def toyDatagram : Bytes := toyEnvelope (beBytes authTagLen (beNat (toyEnvelope [])))

/-- The toy code lets one datagram pass on two listeners; its messages there differ. -/
theorem accepted_datagram_unambiguous_toy :
    ((toyGate .udp).decodeAt lastBytes toyDatagram ⟨.v4 (Vector.replicate 4 0), 1⟩ 1000).2
        = .ok ⟨[7, 8], none⟩ ∧
      macInputOf (toyGate .udp).binding toyDatagram ≠
        macInputOf (toyGate .dtls).binding toyDatagram := by
  have h₁ : ((toyGate .udp).decodeAt lastBytes toyDatagram ⟨.v4 (Vector.replicate 4 0), 1⟩ 1000).2
      = .ok ⟨[7, 8], none⟩ := by decide +kernel
  have h₂ : ((toyGate .dtls).decodeAt lastBytes toyDatagram ⟨.v4 (Vector.replicate 4 0), 1⟩ 1000).2
      = .ok ⟨[7, 8], none⟩ := by decide +kernel
  refine ⟨h₁, fun he => ?_⟩
  have hb := ((accepted_datagram_unambiguous lastBytes () (toyGate .udp) (toyGate .dtls)
    toyDatagram toyDatagram _ _ 1000 1000 _ _ rfl rfl rfl rfl h₁ h₂).1 he).1
  exact absurd (congrArg DatagramListenerBinding.protocol hb) (by decide)

end DatagramClientAddressGate

end Ferrum.Datagram
