/-
  Sets of address blocks.

  A list of blocks and addresses is parsed once; an IPv4-mapped network becomes an IPv4 network.  A
  query that is IPv4-mapped is compared with IPv4 networks as the address in it, and with IPv6 networks
  as it is.

  * `CidrEntry.matchesIp_iff`: an entry matches the addresses that agree with it in their leading bits.
  * `rangesCoverFull_iff`: sorting and merging ranges tells whether they cover everything.
  * `cidr_set_covers`: what a list contains, and when it contains a whole family.
-/
import Ferrum.Lib.Blocks
import Ferrum.Mesh.Text
import Mathlib.Data.List.Sort

namespace Ferrum.ClientIp

open Lib Datagram Mesh Nat

/-! ## Addresses as numbers -/

/-- `u32::from` and `u128::from`. -/
def number {w : ℕ} (octets : Vector UInt8 w) : ℕ := beNat octets.toList

/-- The address with this number. -/
def octetsOf (w n : ℕ) : Vector UInt8 w := ⟨(beBytes w n).toArray, by simp⟩

/-- `Ipv6Addr::to_ipv4_mapped`. -/
def toIpv4Mapped (octets : Vector UInt8 16) : Option (Vector UInt8 4) :=
  match canonicalIp (.v6 octets) with
  | .v4 v4 => some v4
  | .v6 _ => none

variable {w n len len' max x a : ℕ} {network ip : IpAddr} {ranges : List (ℕ × ℕ)}
  {net : Vector UInt8 16} {b : UInt8} {s raw : Bytes}

theorem number_lt (octets : Vector UInt8 w) : number octets < 2 ^ (8 * w) := by
  have := beNat_lt octets.toList
  rwa [Vector.length_toList, show (256 : ℕ) = 2 ^ 8 from rfl, ← pow_mul] at this

theorem number_octetsOf (h : n < 2 ^ (8 * w)) : number (octetsOf w n) = n := by
  have hls : (octetsOf w n).toList = beBytes w n := by simp [octetsOf]
  rw [number, hls, beNat_beBytes, show (256 : ℕ) = 2 ^ 8 from rfl, ← pow_mul, mod_eq_of_lt h]

theorem number_inj {a b : Vector UInt8 w} (h : number a = number b) : a = b :=
  Vector.toList_inj.1 (beNat_inj h (by simp))

/-- The mapped addresses are those of one block, with the IPv4 address in their last bits. -/
theorem toIpv4Mapped_cases (octets : Vector UInt8 16) :
    (∃ v4, toIpv4Mapped octets = some v4 ∧ number octets = 0xffff * 2 ^ 32 + number v4) ∨
      toIpv4Mapped octets = none ∧ number octets / 2 ^ 32 ≠ 0xffff := by
  have hln : octets.toList.length = 16 := Vector.length_toList
  have hs : number octets =
      beNat (octets.toList.take 12) * 2 ^ 32 + beNat (octets.toList.drop 12) := by
    rw [number, ← List.take_append_drop 12 octets.toList, beNat_append, List.take_append_drop,
      List.length_drop, hln]
    norm_num
  have hlw : beNat (octets.toList.drop 12) < 2 ^ 32 := by
    have := beNat_lt (octets.toList.drop 12)
    rwa [List.length_drop, hln] at this
  have hf : beNat (List.replicate 10 0 ++ [0xff, 0xff]) = 0xffff := rfl
  rw [toIpv4Mapped, canonicalIp]
  split_ifs with hm
  · refine .inl ⟨_, rfl, ?_⟩
    have hd : (Vector.ofFn fun i : Fin 4 => octets.toList.getD (12 + i) 0).toList =
        octets.toList.drop 12 := by
      refine List.ext_getElem (by simp) fun i hi _ => ?_
      have hi : i < 4 := by simpa using hi
      have hget : 12 + i < octets.toList.length := by omega
      rw [List.getElem_drop, Vector.getElem_toList, Vector.getElem_ofFn, List.getD_eq_getElem _ _ hget]
    rw [hs, hm, hf, number, hd]
  · refine .inr ⟨rfl, fun hdv => hm ?_⟩
    rw [hs, mul_comm, mul_add_div (by decide), div_eq_of_lt hlw, add_zero] at hdv
    exact beNat_inj (hdv.trans hf.symm) (by rw [List.length_take, hln]; rfl)

/-! ## Entries -/

/-- The mask of the `len` leading bits. -/
def leadingMask (width len : ℕ) : ℕ :=
  if len = 0 then 0 else (2 ^ width - 1) <<< (width - len) % 2 ^ width

def maskNetwork (network : IpAddr) (prefixLen : ℕ) : IpAddr :=
  match network with
  | .v4 net => .v4 (octetsOf 4 (number net &&& leadingMask 32 prefixLen))
  | .v6 net => .v6 (octetsOf 16 (number net &&& leadingMask 128 prefixLen))

/-- A network and its length; an IPv4-mapped network is never kept as an IPv6 network. -/
structure CidrEntry where
  network : IpAddr
  prefixLen : ℕ
  len_le : prefixLen ≤ IpAddr.bits network
  folded : ∀ net, network = .v6 net → number net / 2 ^ 32 ≠ 0xffff

def canonicalizeCidrNetwork (ip : IpAddr) (prefixLen : ℕ) : Option (IpAddr × ℕ) :=
  match ip with
  | .v6 v6 =>
    match toIpv4Mapped v6 with
    | some v4 => if prefixLen < 96 then none else some (.v4 v4, prefixLen - 96)
    | none => some (.v6 v6, prefixLen)
  | other => some (other, prefixLen)

theorem leadingMask_and (hn : n < 2 ^ w) :
    n &&& leadingMask w len = n / 2 ^ (w - len) * 2 ^ (w - len) := by
  rw [leadingMask]
  split_ifs with h0
  · rw [h0, Nat.and_zero, Nat.sub_zero, Nat.div_eq_of_lt hn, Nat.zero_mul]
  · exact and_highMask hn

theorem number_masked (hn : n < 2 ^ (8 * w)) :
    number (octetsOf w (n &&& leadingMask (8 * w) len)) =
      n / 2 ^ (8 * w - len) * 2 ^ (8 * w - len) := by
  rw [number_octetsOf, leadingMask_and hn]
  exact lt_of_le_of_lt and_le_left hn

theorem bits_maskNetwork (network : IpAddr) (len : ℕ) :
    IpAddr.bits (maskNetwork network len) = IpAddr.bits network := by
  cases network <;> rfl

/-- Without its host bits, a network that is not mapped is not mapped. -/
theorem maskNetwork_folded (len : ℕ) (h : ∀ net, network = .v6 net → number net / 2 ^ 32 ≠ 0xffff)
    (net : Vector UInt8 16) (hn : maskNetwork network len = .v6 net) :
    number net / 2 ^ 32 ≠ 0xffff := by
  cases network with
  | v4 o => cases hn
  | v6 o =>
    cases hn
    have hnm : number (octetsOf 16 (number o &&& leadingMask 128 len)) =
        number o / 2 ^ (128 - len) * 2 ^ (128 - len) := number_masked (number_lt o)
    rw [hnm]
    by_cases hln : 128 - len ≤ 32
    · -- the mask keeps the first 96 bits
      have hk : number o / 2 ^ (128 - len) * 2 ^ (128 - len) / 2 ^ (128 - len) =
          number o / 2 ^ (128 - len) := Nat.mul_div_cancel _ (Nat.two_pow_pos _)
      rw [div_eq_of_le hk hln]
      exact h o rfl
    · -- the mask clears the last of the first 96 bits
      obtain ⟨j, hj⟩ : ∃ j, 128 - len = j + 1 + 32 := ⟨128 - len - 33, by omega⟩
      rw [hj, Nat.pow_add, ← Nat.mul_assoc, Nat.mul_div_cancel _ (by decide), Nat.pow_succ,
        ← Nat.mul_assoc]
      omega

/-- The entry of a network that is not mapped, without its host bits. -/
def CidrEntry.masked (network : IpAddr) (prefixLen : ℕ) (hlen : prefixLen ≤ IpAddr.bits network)
    (h : ∀ net, network = .v6 net → number net / 2 ^ 32 ≠ 0xffff) : CidrEntry where
  network := maskNetwork network prefixLen
  prefixLen := prefixLen
  len_le := by rwa [bits_maskNetwork]
  folded := maskNetwork_folded prefixLen h

theorem canonicalizeCidrNetwork_folded (h : canonicalizeCidrNetwork ip len = some (network, len'))
    (net : Vector UInt8 16) (hnt : network = .v6 net) : number net / 2 ^ 32 ≠ 0xffff := by
  subst hnt
  cases ip with
  | v4 o => cases h
  | v6 o =>
    rw [canonicalizeCidrNetwork] at h
    rcases toIpv4Mapped_cases o with ⟨v4, hv4, -⟩ | ⟨hn, hne⟩
    · simp only [hv4] at h
      split_ifs at h
      cases h
    · simp only [hn] at h
      cases h
      exact hne

theorem canonicalIp_folded (net : Vector UInt8 16) (hnt : canonicalIp ip = .v6 net) :
    number net / 2 ^ 32 ≠ 0xffff := by
  have hi : canonicalIp (.v6 net) = .v6 net := by rw [← hnt, canonicalIp_idem]
  have hn : toIpv4Mapped net = none := by rw [toIpv4Mapped, hi]
  rcases toIpv4Mapped_cases net with ⟨v4, hv4, -⟩ | ⟨-, hne⟩
  · rw [hn] at hv4
    cases hv4
  · exact hne

def parseEntry (entry : Bytes) : Option CidrEntry :=
  match splitOnce entry 0x2f with
  | some (networkStr, prefixStr) =>
    (parseIpAddr (trim networkStr)).bind fun ip =>
      (parseUnsigned 255 (trim prefixStr)).bind fun len =>
        match h : canonicalizeCidrNetwork ip len with
        | some (network, prefixLen) =>
          if hlen : prefixLen ≤ IpAddr.bits network then
            some (.masked network prefixLen hlen (canonicalizeCidrNetwork_folded h))
          else none
        | none => none
  | none =>
    -- a bare address
    (parseIpAddr (trim entry)).map fun ip =>
      ⟨canonicalIp ip, IpAddr.bits (canonicalIp ip), le_rfl, canonicalIp_folded⟩

def matchesIpv4 (network addr : Vector UInt8 4) (prefixLen : ℕ) : Bool :=
  matchesLeading 32 (number network) (number addr) prefixLen

def matchesIpv6 (network addr : Vector UInt8 16) (prefixLen : ℕ) : Bool :=
  matchesLeading 128 (number network) (number addr) prefixLen

/-- `CidrEntry::matches`. -/
def CidrEntry.matchesIp (entry : CidrEntry) (ip : IpAddr) : Bool :=
  match entry.network, ip with
  | .v4 net, .v4 addr => matchesIpv4 net addr entry.prefixLen
  | .v4 net, .v6 addr =>
    match toIpv4Mapped addr with
    | some v4 => matchesIpv4 net v4 entry.prefixLen
    | none => false
  | .v6 net, .v6 addr => matchesIpv6 net addr entry.prefixLen
  | .v6 _, .v4 _ => false

/-! ## Sets -/

structure CidrSet where
  entries : List CidrEntry := []

open CidrSet

/-- One text of a list: an entry, or one of the invalid texts. -/
def pushEntry (rejectEmpty : Bool) (acc : List CidrEntry × List Bytes) (entry : Bytes) :
    List CidrEntry × List Bytes :=
  let entry := trim entry
  if entry = [] then (acc.1, if rejectEmpty then acc.2 ++ [lit "<empty>"] else acc.2)
  else match parseEntry entry with
    | some cidr => (acc.1 ++ [cidr], acc.2)
    | none => (acc.1, acc.2 ++ [entry])

def parseEntries (raw : Bytes) (rejectEmpty : Bool) : List CidrEntry × List Bytes :=
  (raw.splitOn 0x2c).foldl (pushEntry rejectEmpty) ([], [])

def CidrSet.parseStrict (raw : Bytes) : Except Bytes CidrSet :=
  if trim raw = [] then .ok {}
  else
    let (entries, invalid) := parseEntries raw true
    if invalid ≠ [] then
      .error (lit "Invalid CIDR/IP entries: " ++ (lit ", ").intercalate invalid ++
        lit ". Expected formats: 10.0.0.0/8, 192.168.1.1, ::1, fc00::/7")
    else .ok ⟨entries⟩

def CidrSet.isEmpty (set : CidrSet) : Bool := set.entries.isEmpty

def CidrSet.contains (set : CidrSet) (ip : IpAddr) : Bool := set.entries.any (·.matchesIp ip)

def u128Max : ℕ := 2 ^ 128 - 1

/-- The loop of `ranges_cover_full` over the sorted ranges; the sum saturates. -/
def coverLoop (max : ℕ) : ℕ → List (ℕ × ℕ) → Bool
  | covered, [] => max ≤ covered
  | covered, (start, stop) :: ranges =>
    if max ≤ covered then true
    else if min (covered + 1) u128Max < start then false
    else coverLoop max (if covered < stop then stop else covered) ranges

def RangeLe (a b : ℕ × ℕ) : Prop := a.1 < b.1 ∨ a.1 = b.1 ∧ a.2 ≤ b.2

instance : DecidableRel RangeLe := fun a b =>
  inferInstanceAs (Decidable (a.1 < b.1 ∨ a.1 = b.1 ∧ a.2 ≤ b.2))

/-- Do the ranges, both ends included, cover all numbers up to `max`? -/
def rangesCoverFull (ranges : List (ℕ × ℕ)) (max : ℕ) : Bool :=
  match ranges.insertionSort RangeLe with
  | [] => false
  | (start, stop) :: ranges => if start ≠ 0 then false else coverLoop max stop ranges

def rangeV4 (net : Vector UInt8 4) (prefixLen : ℕ) : ℕ × ℕ :=
  let host := 1 <<< (32 - min prefixLen 32) - 1
  let start := number net &&& (u128Max - host)
  (start, start ||| host)

def rangeV6 (net : Vector UInt8 16) (prefixLen : ℕ) : ℕ × ℕ :=
  if min prefixLen 128 = 0 then (0, u128Max)
  else
    let host := 1 <<< (128 - min prefixLen 128) - 1
    let start := number net &&& (u128Max - host)
    (start, start ||| host)

def CidrSet.permitsAllFamily (set : CidrSet) : Bool :=
  let v4 := set.entries.filterMap fun entry =>
    match entry.network with
    | .v4 net => some (rangeV4 net entry.prefixLen)
    | .v6 _ => none
  let v6 := set.entries.filterMap fun entry =>
    match entry.network with
    | .v4 _ => none
    | .v6 net => some (rangeV6 net entry.prefixLen)
  rangesCoverFull v4 (2 ^ 32 - 1) || rangesCoverFull v6 u128Max

/-! ## Ranges -/

/-- The ranges cover all numbers up to `max`. -/
def Cover (max : ℕ) (ranges : List (ℕ × ℕ)) : Prop :=
  ∀ x ≤ max, ∃ r ∈ ranges, r.1 ≤ x ∧ x ≤ r.2

theorem RangeLe.fst_le {a b : ℕ × ℕ} (h : RangeLe a b) : a.1 ≤ b.1 :=
  h.elim le_of_lt fun h => h.1.le

instance : Std.Total RangeLe := ⟨fun a b => by
  simp only [RangeLe]
  omega⟩

instance : IsTrans (ℕ × ℕ) RangeLe := ⟨fun a b c hab hbc => by
  simp only [RangeLe] at *
  omega⟩

/-- The loop, when everything up to `covered` is. -/
theorem coverLoop_iff {covered : ℕ} (hmax : max ≤ u128Max)
    (hs : ranges.Pairwise fun a b => a.1 ≤ b.1) :
    coverLoop max covered ranges = true ↔
      ∀ x ≤ max, x ≤ covered ∨ ∃ r ∈ ranges, r.1 ≤ x ∧ x ≤ r.2 := by
  induction ranges generalizing covered with
  | nil =>
    rw [coverLoop, decide_eq_true_eq]
    constructor
    · intro h x hx
      exact .inl (hx.trans h)
    · intro h
      simpa using h max le_rfl
  | cons r ranges ih =>
    obtain ⟨start, stop⟩ := r
    obtain ⟨hf, hrs⟩ := List.pairwise_cons.1 hs
    rw [coverLoop]
    by_cases hd : max ≤ covered
    · rw [if_pos hd]
      exact iff_of_true rfl fun x hx => .inl (hx.trans hd)
    rw [if_neg hd]
    by_cases hgp : min (covered + 1) u128Max < start
    · -- the number after the covered ones is not covered
      rw [if_pos hgp]
      refine iff_of_false Bool.false_ne_true fun h => ?_
      have hn : covered + 1 ≤ max := by omega
      have hlt : covered + 1 < start := by omega
      rcases h (covered + 1) hn with h | ⟨r, hr, hst, -⟩
      · omega
      · rcases List.mem_cons.1 hr with rfl | hr
        · exact absurd hst (not_le.2 hlt)
        · have := hf r hr
          simp only at this
          omega
    · rw [if_neg hgp, ih hrs]
      refine forall₂_congr fun x _ => ?_
      have ho : x ≤ (if covered < stop then stop else covered) ↔
          x ≤ covered ∨ start ≤ x ∧ x ≤ stop := by
        split_ifs <;> omega
      rw [ho, List.exists_mem_cons_iff, or_assoc]

/-- **Sorting and merging** tells whether the ranges cover everything. -/
theorem rangesCoverFull_iff (hmax : max ≤ u128Max) :
    rangesCoverFull ranges max = true ↔ Cover max ranges := by
  have hp := List.perm_insertionSort RangeLe ranges
  have hsr := (List.pairwise_insertionSort RangeLe ranges).imp fun {a b} h => RangeLe.fst_le h
  have hc : Cover max ranges ↔ Cover max (ranges.insertionSort RangeLe) := by
    simp only [Cover, hp.mem_iff]
  rw [hc, rangesCoverFull]
  cases hst : ranges.insertionSort RangeLe with
  | nil =>
    refine iff_of_false Bool.false_ne_true fun h => ?_
    obtain ⟨r, hr, -⟩ := h 0 (zero_le _)
    cases hr
  | cons r rest =>
    obtain ⟨start, stop⟩ := r
    rw [hst] at hsr
    obtain ⟨hf, hrs⟩ := List.pairwise_cons.1 hsr
    by_cases hs : start = 0
    · simp only [hs, ne_eq, not_true_eq_false, if_false]
      rw [coverLoop_iff hmax hrs]
      simp only [Cover, List.exists_mem_cons_iff, zero_le, true_and]
    · simp only [hs, ne_eq, not_false_eq_true, if_true]
      refine iff_of_false Bool.false_ne_true fun h => ?_
      obtain ⟨r, hr, hle, -⟩ := h 0 (zero_le _)
      rcases List.mem_cons.1 hr with rfl | hr
      · exact hs (le_zero.1 hle)
      · exact hs (le_zero.1 ((hf r hr).trans hle))

theorem range_iff {k : ℕ} (hn : n < 2 ^ 128) (hk : k ≤ 128) :
    (n &&& (u128Max - (1 <<< k - 1)) ≤ x ∧
        x ≤ (n &&& (u128Max - (1 <<< k - 1))) ||| (1 <<< k - 1)) ↔ x / 2 ^ k = n / 2 ^ k := by
  rw [one_shiftLeft, u128Max, and_not_low hk hn, or_low, between_iff_div]

theorem rangeV4_iff {net : Vector UInt8 4} (hln : len ≤ 32) :
    ((rangeV4 net len).1 ≤ x ∧ x ≤ (rangeV4 net len).2) ↔
      x / 2 ^ (32 - len) = number net / 2 ^ (32 - len) := by
  rw [rangeV4, min_eq_left hln]
  exact range_iff (lt_trans (number_lt net) (by decide)) (by omega)

theorem rangeV6_iff (hln : len ≤ 128) (hx : x < 2 ^ 128) :
    ((rangeV6 net len).1 ≤ x ∧ x ≤ (rangeV6 net len).2) ↔
      x / 2 ^ (128 - len) = number net / 2 ^ (128 - len) := by
  rw [rangeV6, Nat.min_eq_left hln]
  split_ifs with h0
  · rw [h0, Nat.sub_zero, Nat.div_eq_of_lt hx, Nat.div_eq_of_lt (number_lt net)]
    exact iff_of_true ⟨Nat.zero_le _, Nat.le_sub_one_of_lt hx⟩ rfl
  · exact range_iff (number_lt net) (by omega)

theorem matchesLeading_iff (hn : n < 2 ^ w) (ha : a < 2 ^ w) :
    matchesLeading w n a len = true ↔ a / 2 ^ (w - len) = n / 2 ^ (w - len) := by
  rw [matchesLeading]
  by_cases h0 : len = 0
  · rw [h0, Nat.sub_zero, Nat.div_eq_of_lt hn, Nat.div_eq_of_lt ha]
    simp
  · have hm := and_highMask_eq_iff (k := w - len) hn ha
    simp only [h0, beq_iff_eq, Bool.or_eq_true, false_or]
    exact hm.trans eq_comm

/-! ## What a list covers -/

/-- The number of an address among the IPv6 addresses. -/
def bits128 : IpAddr → ℕ
  | .v4 octets => 0xffff * 2 ^ 32 + number octets
  | .v6 octets => number octets

/-- How many of the 128 bits a network fixes. -/
def fixedBits : IpAddr → ℕ → ℕ
  | .v4 _, len => 96 + len
  | .v6 _, len => len

/-- The network covers the address: the bits that it fixes agree.  An IPv6 network does not cover
    IPv4 addresses. -/
def Covers (network : IpAddr) (len : ℕ) (ip : IpAddr) : Prop :=
  bits128 ip / 2 ^ (128 - fixedBits network len) =
      bits128 network / 2 ^ (128 - fixedBits network len) ∧
    ((∃ v4, canonicalIp network = .v4 v4) ∨ ∃ v6, ip = .v6 v6)

/-- What a text of a list writes: a block, or an address alone. -/
def readNetwork (text : Bytes) : Option (IpAddr × ℕ) :=
  match splitOnce text 0x2f with
  | some (net, len) =>
    (parseIpAddr (trim net)).bind fun ip =>
      (parseUnsigned 255 (trim len)).map fun n => (ip, n)
  | none => (parseIpAddr (trim text)).map fun ip => (ip, IpAddr.bits ip)

/-- The list has this network between its commas. -/
def Listed (raw : Bytes) (network : IpAddr) (len : ℕ) : Prop :=
  ∃ text ∈ raw.splitOn 0x2c, readNetwork (trim text) = some (network, len)

theorem mapped_div_eq_iff {c j : ℕ} (hj : j ≤ 32) :
    (c * 2 ^ 32 + a) / 2 ^ j = (c * 2 ^ 32 + n) / 2 ^ j ↔ a / 2 ^ j = n / 2 ^ j := by
  have hs : ∀ m, (c * 2 ^ 32 + m) / 2 ^ j = c * 2 ^ (32 - j) + m / 2 ^ j := fun m => by
    have hp : c * 2 ^ 32 = 2 ^ j * (c * 2 ^ (32 - j)) := by
      rw [← Nat.mul_assoc, Nat.mul_comm _ c, Nat.mul_assoc, ← Nat.pow_add, Nat.add_sub_of_le hj]
    rw [hp, Nat.mul_add_div (Nat.two_pow_pos j)]
  rw [hs, hs, Nat.add_left_cancel_iff]

theorem mapped_div (n : Vector UInt8 4) : (0xffff * 2 ^ 32 + number n) / 2 ^ 32 = 0xffff := by
  rw [mul_comm, mul_add_div (by decide), div_eq_of_lt (number_lt n)]

theorem matchesIpv4_iff {net addr : Vector UInt8 4} (hln : len ≤ 32) :
    matchesIpv4 net addr len = true ↔
      (0xffff * 2 ^ 32 + number addr) / 2 ^ (128 - (96 + len)) =
        (0xffff * 2 ^ 32 + number net) / 2 ^ (128 - (96 + len)) := by
  have hb : 128 - (96 + len) = 32 - len := by omega
  rw [hb, mapped_div_eq_iff (by omega)]
  exact matchesLeading_iff (number_lt net) (number_lt addr)

theorem not_canonical_v4 (h : number net / 2 ^ 32 ≠ 0xffff) :
    ¬ ∃ v4, canonicalIp (.v6 net) = .v4 v4 := by
  rintro ⟨v4, hv4⟩
  rcases toIpv4Mapped_cases net with ⟨v4', -, hnm⟩ | ⟨hn, -⟩
  · exact h (by rw [hnm, mapped_div])
  · rw [toIpv4Mapped, hv4] at hn
    cases hn

/-- **An entry** matches what it covers. -/
theorem CidrEntry.matchesIp_iff (entry : CidrEntry) (ip : IpAddr) :
    entry.matchesIp ip = true ↔ Covers entry.network entry.prefixLen ip := by
  obtain ⟨network, len, hln, hfl⟩ := entry
  cases network with
  | v4 net =>
    have hf : (∃ v4, canonicalIp (.v4 net) = .v4 v4) ∨ ∃ v6, ip = .v6 v6 := .inl ⟨net, rfl⟩
    cases ip with
    | v4 addr => exact (matchesIpv4_iff hln).trans (and_iff_left hf).symm
    | v6 addr =>
      rcases toIpv4Mapped_cases addr with ⟨v4, hv4, hnm⟩ | ⟨hn, hne⟩
      · simp only [matchesIp, hv4, Covers, bits128, fixedBits, hnm]
        exact (matchesIpv4_iff hln).trans (and_iff_left hf).symm
      · simp only [matchesIp, hn, Covers, bits128, fixedBits]
        refine iff_of_false Bool.false_ne_true fun h => hne ?_
        have h32 : 128 - (96 + len) ≤ 32 := by omega
        rw [div_eq_of_le h.1 h32, mapped_div]
  | v6 net =>
    cases ip with
    | v4 addr =>
      refine iff_of_false Bool.false_ne_true fun h => ?_
      rcases h.2 with h | ⟨v6, h⟩
      · exact not_canonical_v4 (hfl net rfl) h
      · cases h
    | v6 addr =>
      refine (matchesLeading_iff (number_lt net) (number_lt addr)).trans ?_
      exact (and_iff_left (.inr ⟨addr, rfl⟩)).symm

/-! ## Parsing -/

/-- A mask does not change what a network covers. -/
theorem covers_maskNetwork (hln : len ≤ IpAddr.bits network)
    (h : ∀ net, network = .v6 net → number net / 2 ^ 32 ≠ 0xffff) (ip : IpAddr) :
    Covers (maskNetwork network len) len ip ↔ Covers network len ip := by
  have hk : ∀ n j : ℕ, n / 2 ^ j * 2 ^ j / 2 ^ j = n / 2 ^ j := fun n j =>
    Nat.mul_div_cancel _ (Nat.two_pow_pos j)
  cases network with
  | v4 net =>
    have hn : number (octetsOf 4 (number net &&& leadingMask 32 len)) =
        number net / 2 ^ (32 - len) * 2 ^ (32 - len) := number_masked (number_lt net)
    have hb : 128 - (96 + len) = 32 - len := by omega
    have hq := mapped_div_eq_iff (c := 0xffff) (j := 32 - len) (by omega) |>.2 (hk (number net) (32 - len))
    simp only [Covers, maskNetwork, bits128, fixedBits, hn, hb, hq]
    exact and_congr_right fun _ => iff_of_true (.inl ⟨_, rfl⟩) (.inl ⟨_, rfl⟩)
  | v6 net =>
    have hn : number (octetsOf 16 (number net &&& leadingMask 128 len)) =
        number net / 2 ^ (128 - len) * 2 ^ (128 - len) := number_masked (number_lt net)
    have hm := maskNetwork_folded len h _ rfl
    simp only [Covers, maskNetwork, bits128, fixedBits, hn, hk, not_canonical_v4 hm,
      not_canonical_v4 (h net rfl)]

/-- Folding a mapped network does not change what it covers. -/
theorem covers_canonicalize (h : canonicalizeCidrNetwork ip len = some (network, len'))
    (addr : IpAddr) : Covers network len' addr ↔ Covers ip len addr := by
  cases ip with
  | v4 o =>
    cases h
    rfl
  | v6 o =>
    rw [canonicalizeCidrNetwork] at h
    rcases toIpv4Mapped_cases o with ⟨v4, hv4, hnm⟩ | ⟨hn, -⟩
    · simp only [hv4] at h
      split_ifs at h with hln
      cases h
      have hf : 96 + (len - 96) = len := by omega
      have hc : ∃ v4, canonicalIp (.v6 o) = .v4 v4 := by
        rw [toIpv4Mapped] at hv4
        split at hv4
        · exact ⟨_, ‹_›⟩
        · cases hv4
      simp only [Covers, bits128, fixedBits, hf, hnm]
      exact and_congr_right fun _ => iff_of_true (.inl ⟨v4, rfl⟩) (.inl hc)
    · simp only [hn] at h
      cases h
      rfl

/-- An address alone is a block of its own. -/
theorem canonicalize_bits (ip : IpAddr) :
    canonicalizeCidrNetwork ip (IpAddr.bits ip) =
      some (canonicalIp ip, IpAddr.bits (canonicalIp ip)) := by
  cases ip with
  | v4 o => rfl
  | v6 o =>
    simp only [canonicalizeCidrNetwork, toIpv4Mapped, IpAddr.bits]
    rw [canonicalIp]
    split_ifs <;> rfl

/-- An accepted text covers what it writes. -/
theorem parseEntry_covers {text : Bytes} {entry : CidrEntry} (h : parseEntry text = some entry) :
    ∃ network len, readNetwork text = some (network, len) ∧
      ∀ ip, Covers entry.network entry.prefixLen ip ↔ Covers network len ip := by
  rw [parseEntry] at h
  rw [readNetwork]
  split at h
  next net len hs =>
    obtain ⟨ip, hip, h⟩ := Option.bind_eq_some_iff.1 h
    obtain ⟨n, hn, h⟩ := Option.bind_eq_some_iff.1 h
    refine ⟨ip, n, by rw [hip]; simp [hn], fun addr => ?_⟩
    split at h
    next network prefixLen hf =>
      split_ifs at h with hln
      cases h
      exact (covers_maskNetwork hln (canonicalizeCidrNetwork_folded hf) addr).trans
        (covers_canonicalize hf addr)
    next => cases h
  next hs =>
    obtain ⟨ip, hip, rfl⟩ := Option.map_eq_some_iff.1 h
    refine ⟨ip, IpAddr.bits ip, by rw [hip]; rfl, fun addr => ?_⟩
    exact covers_canonicalize (canonicalize_bits ip) addr

/-- A text that is not invalid has an entry. -/
theorem pushEntry_cases (acc : List CidrEntry × List Bytes) (text : Bytes) :
    (∃ entry, parseEntry (trim text) = some entry ∧
        pushEntry true acc text = (acc.1 ++ [entry], acc.2)) ∨
      ∃ t, pushEntry true acc text = (acc.1, acc.2 ++ [t]) := by
  by_cases he : trim text = []
  · exact .inr ⟨lit "<empty>", by simp [pushEntry, he]⟩
  · cases hp : parseEntry (trim text) with
    | some entry => exact .inl ⟨entry, rfl, by simp [pushEntry, he, hp]⟩
    | none => exact .inr ⟨trim text, by simp [pushEntry, he, hp]⟩

theorem foldl_pushEntry {texts : List Bytes} {acc : List CidrEntry × List Bytes}
    (h : (texts.foldl (pushEntry true) acc).2 = []) :
    acc.2 = [] ∧ ∃ entries, (texts.foldl (pushEntry true) acc).1 = acc.1 ++ entries ∧
      texts.map (fun text => parseEntry (trim text)) = entries.map some := by
  induction texts generalizing acc with
  | nil => exact ⟨h, [], (List.append_nil _).symm, rfl⟩
  | cons text texts ih =>
    rw [List.foldl_cons] at h ⊢
    obtain ⟨hi, entries, he, ha⟩ := ih h
    rcases pushEntry_cases acc text with ⟨entry, hpr, hp⟩ | ⟨t, hp⟩
    · rw [hp] at hi he ⊢
      refine ⟨hi, entry :: entries, by rw [he, List.append_assoc]; rfl, ?_⟩
      rw [List.map_cons, List.map_cons, hpr, ha]
    · rw [hp] at hi
      exact absurd hi (by simp)

theorem mem_dropWords {words : List Bytes} {fuel : ℕ} (hb : b ∈ s) (hwr : ∀ w ∈ words, b ∉ w) :
    b ∈ dropWords words fuel s := by
  induction fuel generalizing s with
  | zero => exact hb
  | succ fuel ih =>
    rw [dropWords]
    split
    next rest hr =>
      obtain ⟨w, hw, hs⟩ := List.exists_of_findSome?_eq_some hr
      rw [stripStart] at hs
      split_ifs at hs with hst
      cases hs
      refine ih ?_
      obtain ⟨t, rfl⟩ := List.isPrefixOf_iff_prefix.1 hst
      rw [List.drop_left' rfl]
      exact (List.mem_append.1 hb).resolve_left (hwr w hw)
    next => exact hb

theorem mem_trim (hb : b ∈ s) (hs : ∀ w ∈ whitespace, b ∉ w) : b ∈ trim s := by
  rw [trim, List.mem_reverse]
  refine mem_dropWords (List.mem_reverse.2 (mem_dropWords hb hs)) fun w hw => ?_
  obtain ⟨w', hw', rfl⟩ := List.mem_map.1 hw
  rw [List.mem_reverse]
  exact hs w' hw'

/-- The entries of an accepted list are those of its texts. -/
theorem parseStrict_ok {set : CidrSet} (h : parseStrict raw = .ok set) :
    (trim raw = [] ∧ set.entries = []) ∨
      (raw.splitOn 0x2c).map (fun text => parseEntry (trim text)) = set.entries.map some := by
  rw [parseStrict] at h
  by_cases hb : trim raw = []
  · rw [if_pos hb] at h
    cases h
    exact .inl ⟨hb, rfl⟩
  · rw [if_neg hb] at h
    rcases hp : parseEntries raw true with ⟨entries, invalid⟩
    rw [hp] at h
    dsimp only at h
    split_ifs at h with hi
    cases h
    rw [parseEntries] at hp
    obtain ⟨-, new, hn, ha⟩ := foldl_pushEntry (by rw [hp]; exact not_not.1 hi)
    rw [hp, List.nil_append] at hn
    exact .inr (ha.trans (congrArg (List.map some) hn.symm))

/-- A blank list has no comma, and its only text writes nothing. -/
theorem not_listed_of_blank (h : trim raw = []) : ¬ Listed raw network len := by
  have hc : (0x2c : UInt8) ∉ raw := fun hm => by
    have hin := mem_trim hm (by decide)
    rw [h] at hin
    cases hin
  rintro ⟨text, ht, hr⟩
  rw [List.splitOn_eq_singleton hc, List.mem_singleton] at ht
  rw [ht, h] at hr
  cases hr

/-- **What an accepted list contains.** -/
theorem contains_iff_listed {set : CidrSet} (h : CidrSet.parseStrict raw = .ok set) (ip : IpAddr) :
    set.contains ip = true ↔ ∃ network len, Listed raw network len ∧ Covers network len ip := by
  have hcn : set.contains ip = true ↔
      ∃ entry ∈ set.entries, Covers entry.network entry.prefixLen ip := by
    simp only [CidrSet.contains, List.any_eq_true, CidrEntry.matchesIp_iff]
  rw [hcn]
  rcases parseStrict_ok h with ⟨hb, hn⟩ | ha
  · rw [hn]
    refine iff_of_false (by simp) ?_
    rintro ⟨network, len, hls, -⟩
    exact not_listed_of_blank hb hls
  · constructor
    · rintro ⟨entry, he, hc⟩
      obtain ⟨text, ht, hp⟩ := List.mem_map.1 (ha ▸ List.mem_map_of_mem he)
      obtain ⟨network, len, hr, hi⟩ := parseEntry_covers hp
      exact ⟨network, len, ⟨text, ht, hr⟩, (hi ip).1 hc⟩
    · rintro ⟨network, len, ⟨text, ht, hr⟩, hc⟩
      obtain ⟨entry, he, hp⟩ := List.mem_map.1
        (ha ▸ List.mem_map_of_mem (f := fun text => parseEntry (trim text)) ht)
      obtain ⟨network', len', hr', hi⟩ := parseEntry_covers hp.symm
      rw [hr] at hr'
      cases hr'
      exact ⟨entry, he, (hi ip).2 hc⟩

/-! ## Whole families -/

section
variable {set : CidrSet}

/-- Some IPv4 network of the set has this number. -/
def CidrSet.CoversV4 (set : CidrSet) (x : ℕ) : Prop :=
  ∃ entry ∈ set.entries, ∃ net, entry.network = .v4 net ∧
    x / 2 ^ (32 - entry.prefixLen) = number net / 2 ^ (32 - entry.prefixLen)

/-- Some IPv6 network of the set has this number. -/
def CidrSet.CoversV6 (set : CidrSet) (x : ℕ) : Prop :=
  ∃ entry ∈ set.entries, ∃ net, entry.network = .v6 net ∧
    x / 2 ^ (128 - entry.prefixLen) = number net / 2 ^ (128 - entry.prefixLen)

theorem contains_v4_iff {addr : Vector UInt8 4} :
    set.contains (.v4 addr) = true ↔ set.CoversV4 (number addr) := by
  rw [CidrSet.contains, List.any_eq_true]
  refine exists_congr fun entry => and_congr_right fun _ => ?_
  obtain ⟨network, len, -, -⟩ := entry
  cases network with
  | v4 net =>
    simp only [IpAddr.v4.injEq, exists_eq_left']
    exact matchesLeading_iff (number_lt net) (number_lt addr)
  | v6 net => simp [CidrEntry.matchesIp]

/-- An IPv6 address is covered as it is, or as the IPv4 address in it. -/
theorem contains_v6_iff {addr : Vector UInt8 16} :
    set.contains (.v6 addr) = true ↔ set.CoversV6 (number addr) ∨
      ∃ v4, toIpv4Mapped addr = some v4 ∧ set.contains (.v4 v4) = true := by
  have he : ∀ entry : CidrEntry, entry.matchesIp (.v6 addr) = true ↔
      (∃ net, entry.network = .v6 net ∧
        number addr / 2 ^ (128 - entry.prefixLen) = number net / 2 ^ (128 - entry.prefixLen)) ∨
      ∃ v4, toIpv4Mapped addr = some v4 ∧ entry.matchesIp (.v4 v4) = true := by
    rintro ⟨network, len, -, -⟩
    cases network with
    | v4 net => cases hm : toIpv4Mapped addr <;> simp [CidrEntry.matchesIp, hm]
    | v6 net =>
      simp only [IpAddr.v6.injEq, exists_eq_left', CidrEntry.matchesIp, Bool.false_eq_true, and_false,
        exists_const, or_false]
      exact matchesLeading_iff (number_lt net) (number_lt addr)
  simp only [CidrSet.contains, CidrSet.CoversV6, List.any_eq_true, he]
  constructor
  · rintro ⟨entry, hmm, hc | ⟨v4, hm, hmt⟩⟩
    · exact .inl ⟨entry, hmm, hc⟩
    · exact .inr ⟨v4, hm, entry, hmm, hmt⟩
  · rintro (⟨entry, hmm, hc⟩ | ⟨v4, hm, entry, hmm, hmt⟩)
    · exact ⟨entry, hmm, .inl hc⟩
    · exact ⟨entry, hmm, .inr ⟨v4, hm, hmt⟩⟩

theorem rangesCoverFull_v4 : rangesCoverFull (set.entries.filterMap fun entry =>
    match entry.network with
    | .v4 net => some (rangeV4 net entry.prefixLen)
    | .v6 _ => none) (2 ^ 32 - 1) = true ↔ ∀ x < 2 ^ 32, set.CoversV4 x := by
  rw [rangesCoverFull_iff (by decide)]
  refine forall_congr' fun x => imp_congr (Nat.le_sub_one_iff_lt (by decide)) ?_
  simp only [List.mem_filterMap]
  constructor
  · rintro ⟨r, ⟨⟨network, len, hln, hf⟩, hm, hr⟩, hb⟩
    cases network with
    | v4 net =>
      cases hr
      exact ⟨_, hm, net, rfl, (rangeV4_iff hln).1 hb⟩
    | v6 net => cases hr
  · rintro ⟨⟨network, len, hln, hf⟩, hm, net, hn, hc⟩
    cases hn
    exact ⟨_, ⟨_, hm, rfl⟩, (rangeV4_iff hln).2 hc⟩

theorem rangesCoverFull_v6 : rangesCoverFull (set.entries.filterMap fun entry =>
    match entry.network with
    | .v4 _ => none
    | .v6 net => some (rangeV6 net entry.prefixLen)) u128Max = true ↔
      ∀ x < 2 ^ 128, set.CoversV6 x := by
  rw [rangesCoverFull_iff le_rfl]
  refine forall_congr' fun x => ?_
  have hlt : x ≤ u128Max ↔ x < 2 ^ 128 := Nat.le_sub_one_iff_lt (by decide)
  rw [hlt]
  refine imp_congr_right fun hx => ?_
  simp only [List.mem_filterMap]
  constructor
  · rintro ⟨r, ⟨⟨network, len, hln, hf⟩, hm, hr⟩, hb⟩
    cases network with
    | v4 net => cases hr
    | v6 net =>
      cases hr
      exact ⟨_, hm, net, rfl, (rangeV6_iff hln hx).1 hb⟩
  · rintro ⟨⟨network, len, hln, hf⟩, hm, net, hn, hc⟩
    cases hn
    exact ⟨_, ⟨_, hm, rfl⟩, (rangeV6_iff hln hx).2 hc⟩

/-- An IPv6 network covers all mapped addresses or none. -/
theorem CidrSet.CoversV6.mapped {x y : ℕ} (h : set.CoversV6 x) (hx : x / 2 ^ 32 = 0xffff)
    (hy : y / 2 ^ 32 = 0xffff) : set.CoversV6 y := by
  obtain ⟨entry, he, net, hn, hc⟩ := h
  refine ⟨entry, he, net, hn, ?_⟩
  by_cases hln : 128 - entry.prefixLen ≤ 32
  · -- then the network itself would be mapped
    exact absurd ((div_eq_of_le hc hln).symm.trans hx) (entry.folded net hn)
  · rw [← hc]
    exact div_eq_of_le (hy.trans hx.symm) (by omega)

/-- If all IPv6 addresses are contained, then by the IPv6 networks alone, or all IPv4 addresses are. -/
theorem coversV6_or_contains_v4 (h : ∀ addr, set.contains (.v6 addr) = true) :
    (∀ x < 2 ^ 128, set.CoversV6 x) ∨ ∀ addr, set.contains (.v4 addr) = true := by
  by_cases hm : ∃ x, x / 2 ^ 32 = 0xffff ∧ set.CoversV6 x
  · obtain ⟨x, hx, hc⟩ := hm
    refine .inl fun y hy => ?_
    have hy' : number (octetsOf 16 y) = y := number_octetsOf hy
    rcases contains_v6_iff.1 (h (octetsOf 16 y)) with hin | ⟨v4, hv4, -⟩
    · rwa [hy'] at hin
    · -- a mapped address
      refine hc.mapped hx ?_
      rcases toIpv4Mapped_cases (octetsOf 16 y) with ⟨v4', -, hnm⟩ | ⟨hn, -⟩
      · rw [hy'.symm.trans hnm, mapped_div]
      · rw [hn] at hv4
        cases hv4
  · refine .inr fun addr => ?_
    have hlt : 0xffff * 2 ^ 32 + number addr < 2 ^ (8 * 16) := by
      have := number_lt addr
      omega
    rcases contains_v6_iff.1 (h (octetsOf 16 (0xffff * 2 ^ 32 + number addr))) with hc | ⟨v4, hv4, hin⟩
    · rw [number_octetsOf hlt] at hc
      exact absurd ⟨_, mapped_div addr, hc⟩ hm
    · rcases toIpv4Mapped_cases (octetsOf 16 (0xffff * 2 ^ 32 + number addr)) with
        ⟨v4', hv4', hnm⟩ | ⟨hn, -⟩
      · rw [hv4] at hv4'
        cases hv4'
        rw [number_octetsOf hlt, add_left_cancel_iff] at hnm
        rwa [number_inj hnm]
      · rw [hn] at hv4
        cases hv4

/-- **Whole families.** -/
theorem permitsAllFamily_iff : set.permitsAllFamily = true ↔
    (∀ addr, set.contains (.v4 addr) = true) ∨ ∀ addr, set.contains (.v6 addr) = true := by
  have hv4 : (∀ addr, set.contains (.v4 addr) = true) ↔ ∀ x < 2 ^ 32, set.CoversV4 x := by
    simp only [contains_v4_iff]
    constructor
    · intro h x hx
      have := h (octetsOf 4 x)
      rwa [number_octetsOf hx] at this
    · exact fun h addr => h _ (number_lt addr)
  rw [permitsAllFamily, Bool.or_eq_true, rangesCoverFull_v4, rangesCoverFull_v6, ← hv4]
  constructor
  · rintro (h | h)
    · exact .inl h
    · exact .inr fun addr => contains_v6_iff.2 (.inl (h _ (number_lt addr)))
  · rintro (h | h)
    · exact .inl h
    · exact (coversV6_or_contains_v4 h).symm

end

/-- **Sets of address blocks.**  An accepted list contains an address iff one of the networks listed in
    it covers the address, and permits a whole family iff it contains every IPv4 address or every IPv6
    address. -/
theorem cidr_set_covers (raw : Bytes) (set : CidrSet) (h : CidrSet.parseStrict raw = .ok set) :
    (∀ ip, set.contains ip = true ↔ ∃ network len, Listed raw network len ∧ Covers network len ip) ∧
      (set.permitsAllFamily = true ↔
        (∀ addr, set.contains (.v4 addr) = true) ∨ ∀ addr, set.contains (.v6 addr) = true) :=
  ⟨contains_iff_listed h, permitsAllFamily_iff⟩

/-- Two halves are everything. -/
theorem two_halves_permit_all :
    ∃ set, CidrSet.parseStrict (lit "0.0.0.0/1, ::ffff:128.0.0.0/97") = .ok set ∧
      ((∀ addr, set.contains (.v4 addr) = true) ∨ ∀ addr, set.contains (.v6 addr) = true) := by
  have hs : (parseStrict (lit "0.0.0.0/1, ::ffff:128.0.0.0/97")).toOption.any
      permitsAllFamily = true := by
    decide +kernel
  cases hp : parseStrict (lit "0.0.0.0/1, ::ffff:128.0.0.0/97") with
  | error e =>
    rw [hp] at hs
    cases hs
  | ok set =>
    rw [hp] at hs
    exact ⟨set, rfl, (cidr_set_covers _ set hp).2.1 hs⟩

end Ferrum.ClientIp
