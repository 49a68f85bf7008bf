/-
  Client addresses and schemes that proxies forward.

  A list `X-Forwarded-For` is trusted from its right end: what trusted proxies have appended.  One
  function walks it from the right for the address of the client, another reads it from the left for
  the place of that address, which the scheme is then taken from.

  * `selectEntry_append`: whatever stands to the left of the first address that is not trusted does not
    matter.
  * `boundary_spec`: what the reading from the left has found when it is done.
  * `forwarded_headers_sound`: forwarded headers of peers that are not trusted are ignored; those of
    trusted peers count up to the client; and both functions find the same entry.
-/
import Mathlib.Data.List.DropRight
import Ferrum.ClientIp.Cidr

namespace Ferrum.ClientIp

open Lib Datagram Mesh

/-! ## Addresses as texts -/

/-- The longest run of zero segments, the first of them: its start and its length. -/
def longestZeros : List ℕ → ℕ → ℕ × ℕ → ℕ × ℕ → ℕ × ℕ
  | [], _, _, longest => longest
  | segment :: segments, i, current, longest =>
    if segment = 0 then
      let current := (if current.2 = 0 then i else current.1, current.2 + 1)
      longestZeros segments (i + 1) current (if longest.2 < current.2 then current else longest)
    else longestZeros segments (i + 1) (0, 0) longest

/-- A number in hexadecimal. -/
def hexOf (n : ℕ) : Bytes :=
  if n = 0 then [0x30]
  else (Nat.digits 16 n).reverse.map fun d => UInt8.ofNat (if d < 10 then 0x30 + d else 0x57 + d)

def ipv4String (octets : Vector UInt8 4) : Bytes :=
  [0x2e].intercalate (octets.toList.map fun o => Router.decimal o.toNat)

/-- `Ipv6Addr::fmt`. -/
def ipv6String (octets : Vector UInt8 16) : Bytes :=
  match toIpv4Mapped octets with
  | some v4 => lit "::ffff:" ++ ipv4String v4
  | none =>
    let segments := (List.range 8).map fun i =>
      (octets.toList.getD (2 * i) 0).toNat * 256 + (octets.toList.getD (2 * i + 1) 0).toNat
    let part (segments : List ℕ) : Bytes := [0x3a].intercalate (segments.map hexOf)
    let (start, len) := longestZeros segments 0 (0, 0) (0, 0)
    if 1 < len then part (segments.take start) ++ lit "::" ++ part (segments.drop (start + len))
    else part segments

open List Option

def ipString : IpAddr → Bytes
  | .v4 octets => ipv4String octets
  | .v6 octets => ipv6String octets

def canonicalIpString (ip : IpAddr) : Bytes := ipString (canonicalIp ip)

/-- `read_port`: a colon and a number. -/
def readPort (s : Bytes) : Option (ℕ × Bytes) :=
  (stripStart s [0x3a]).bind fun s => readNumber 10 s.length 65535 true s

/-- `SocketAddr::from_str`, of which only the address is used. -/
def parseSocketAddrIp (s : Bytes) : Option IpAddr :=
  let v4 := (readIpv4Addr s).bind fun (o, s) => (readPort s).map fun (_, s) => (IpAddr.v4 o, s)
  let v6 := (stripStart s [0x5b]).bind fun s =>
    (readIpv6Addr s).bind fun (o, s) =>
      let scope := (stripStart s [0x25]).bind fun s => readNumber 10 s.length (2 ^ 32 - 1) true s
      let s := (scope.map Prod.snd).getD s
      (stripStart s [0x5d]).bind fun s => (readPort s).map fun (_, s) => (IpAddr.v6 o, s)
  (v4.or v6).bind fun (ip, s) => if s = [] then some ip else none

/-! ## The scheme -/

abbrev TrustedProxies := CidrSet

def isOws (b : UInt8) : Bool := b == 0x20 || b == 0x09

def trimHeaderOws (value : Bytes) : Bytes := (value.dropWhile isOws).rdropWhile isOws

def recognizedForwardedProto (value : Bytes) : Option Bytes :=
  if eqIgnoreAsciiCase value (lit "http") then some (lit "http")
  else if eqIgnoreAsciiCase value (lit "https") then some (lit "https")
  else none

/-- One entry of `X-Forwarded-For`, from the left: the number of entries so far, and where the last
    one that is not trusted is.  An entry that is no address clears it. -/
def forwardedForEntry (trusted : TrustedProxies) (acc : ℕ × Option ℕ) (entry : Bytes) :
    ℕ × Option ℕ :=
  (acc.1 + 1,
    match (Str.fromUtf8 (trimHeaderOws entry)).bind fun entry => parseIpAddr entry.bytes with
    | some ip => if trusted.contains ip then acc.2 else some acc.1
    | none => none)

/-- The local variables of the loop over `X-Forwarded-Proto`. -/
structure ProtoScan where
  count : ℕ := 0
  singletonProto : Option Bytes := none
  boundaryProto : Option Bytes := none
  suffixValid : Bool := true

def ProtoScan.entry (clientBoundary : Option ℕ) (s : ProtoScan) (proto : Bytes) : ProtoScan :=
  let index := s.count
  let proto := recognizedForwardedProto (trimHeaderOws proto)
  { count := index + 1
    singletonProto := if index = 0 then proto else s.singletonProto
    boundaryProto := if clientBoundary = some index then proto else s.boundaryProto
    suffixValid := if clientBoundary.any (· ≤ index) && proto.isNone then false else s.suffixValid }

/-- The entries of field lines. -/
def fieldEntries (values : List Bytes) : List Bytes := values.flatMap (splitOn 0x2c)

def trustedForwardedRequestScheme (socketAddr : IpAddr) (forwardedFor forwardedProto : List Bytes)
    (trusted : TrustedProxies) : Option Bytes :=
  if !trusted.contains socketAddr then none
  else
    let (count, clientBoundary) :=
      (fieldEntries forwardedFor).foldl (forwardedForEntry trusted) (0, none)
    let s := (fieldEntries forwardedProto).foldl (ProtoScan.entry clientBoundary) {}
    if s.count = 1 then s.singletonProto
    else if s.count = count && s.suffixValid then s.boundaryProto
    else none

/-! ## The client -/

/-- The walk over `X-Forwarded-For` from the right, with the places of its entries: the first entry
    that is not trusted, unless one that is no address comes before it. -/
def selectEntry (trusted : TrustedProxies) : List (Bytes × ℕ) → Option (IpAddr × ℕ)
  | [] => none
  | (entry, i) :: entries =>
    let entry := trim entry
    if entry = [] then selectEntry trusted entries
    else match parseIpAddr entry with
      | some ip => if trusted.contains ip then selectEntry trusted entries else some (ip, i)
      | none => none

/-- The entries of a header from the right. -/
def entriesFromRight (xff : Bytes) : List (Bytes × ℕ) := (xff.splitOn 0x2c).zipIdx.reverse

def resolveClientIpParsed (socketAddr : IpAddr) (xffHeader : Option Bytes) (trusted : TrustedProxies) :
    Bytes :=
  match xffHeader.filter fun h => trim h ≠ [] with
  | none => canonicalIpString socketAddr
  | some xff =>
    if !trusted.contains socketAddr then canonicalIpString socketAddr
    else match selectEntry trusted (entriesFromRight xff) with
      | some (ip, _) => canonicalIpString ip
      | none => canonicalIpString socketAddr

inductive RealIpHeaderOutcome where
  | absent
  | accepted (ip : Bytes)
  | rejected
  deriving DecidableEq

def parseSingleRealIpValue (value : Bytes) : Option IpAddr :=
  (parseIpAddr value).or (parseSocketAddrIp value)

def parseSingleRealIpFieldLine (fieldLine : Bytes) : Option IpAddr :=
  (Str.fromUtf8 fieldLine).bind fun value =>
    let value := trim value.bytes
    if value = [] ∨ value.contains 0x2c then none else parseSingleRealIpValue value

def resolveRealIpHeaderFieldLines (socketAddr : IpAddr) (fieldLines : List Bytes)
    (trusted : TrustedProxies) : RealIpHeaderOutcome :=
  match fieldLines with
  | [] => .absent
  | first :: others =>
    if !trusted.contains socketAddr then .rejected
    else if others ≠ [] then .rejected
    else match parseSingleRealIpFieldLine first with
      | some ip => .accepted (canonicalIpString ip)
      | none => .rejected

def resolveForwardedClientIp (socketIp : Bytes) (socketAddr : IpAddr) (realIpFieldLines : List Bytes)
    (xffHeader : Option Bytes) (trusted : TrustedProxies) : Option Bytes :=
  if trusted.isEmpty then none
  else match resolveRealIpHeaderFieldLines socketAddr realIpFieldLines trusted with
    | .accepted ip => some ip
    | .rejected => none
    | .absent =>
      let resolved := resolveClientIpParsed socketAddr xffHeader trusted
      if resolved = socketIp then none else some resolved

example : ipv6String (octetsOf 16 (0x20010db8 * 2 ^ 96 + 1)) = lit "2001:db8::1" ∧
    ipv4String #v[10, 0, 0, 255] = lit "10.0.0.255" ∧
    parseSocketAddrIp (lit "[::1]:80") = parseIpAddr (lit "::1") := by
  decide +kernel

/-! ## The bytes of an address -/

/-- The bytes that texts of addresses have. -/
def isIpByte (b : UInt8) : Bool :=
  isAsciiDigit b || (0x61 ≤ b && b ≤ 0x66) || (0x41 ≤ b && b ≤ 0x46) || b == 0x2e || b == 0x3a

/-- What was read off the front has only bytes of addresses. -/
def Consumed (s rest : Bytes) : Prop := ∃ c, s = c ++ rest ∧ ∀ b ∈ c, isIpByte b = true

theorem Consumed.refl (s : Bytes) : Consumed s s :=
  ⟨[], rfl, fun _ h => absurd h not_mem_nil⟩

variable {s t u rest start : Bytes}

theorem Consumed.trans (h : Consumed s t) (h' : Consumed t u) : Consumed s u := by
  obtain ⟨c, rfl, hc⟩ := h
  obtain ⟨d, rfl, hd⟩ := h'
  refine ⟨c ++ d, by rw [append_assoc], fun b hb => ?_⟩
  exact (mem_append.1 hb).elim (hc b) (hd b)

theorem consumed_stripStart (h : stripStart s start = some rest)
    (hst : ∀ b ∈ start, isIpByte b = true) : Consumed s rest := by
  rw [stripStart] at h
  split_ifs at h with hs
  cases h
  obtain ⟨t, rfl⟩ := isPrefixOf_iff_prefix.1 hs
  exact ⟨start, by rw [drop_left' rfl], hst⟩

theorem consumed_takeWhile {p : UInt8 → Bool} (hp : ∀ b, p b = true → isIpByte b = true) :
    Consumed s (s.drop (s.takeWhile p).length) := by
  have hs : s.takeWhile p ++ s.dropWhile p = s := takeWhile_append_dropWhile
  have hd : s.drop (s.takeWhile p).length = s.dropWhile p := by
    conv_lhs => rw [← hs]
    exact drop_left' (by rw [hs])
  rw [hd]
  exact ⟨_, hs.symm, fun b hb => hp b (all_eq_true.1 all_takeWhile b hb)⟩

theorem consumed_readNumber {radix maxDigits max : ℕ} {allow : Bool} {n : ℕ}
    (h : readNumber radix maxDigits max allow s = some (n, rest)) : Consumed s rest := by
  simp only [readNumber] at h
  split_ifs at h
  simp only [some.injEq, Prod.mk.injEq] at h
  obtain ⟨-, rfl⟩ := h
  refine consumed_takeWhile fun b hb => ?_
  split_ifs at hb with hd hlw hu
  · simp [isIpByte, hd]
  · simp [isIpByte, hlw.2]
  · simp [isIpByte, hu.2]
  · cases hb

theorem consumed_readSeparator {α : Type} {sep : UInt8} {index : ℕ}
    {read : Bytes → Option (α × Bytes)} {a : α} (hs : isIpByte sep = true)
    (hr : ∀ {s a rest}, read s = some (a, rest) → Consumed s rest)
    (h : readSeparator sep index read s = some (a, rest)) : Consumed s rest := by
  rw [readSeparator] at h
  split_ifs at h
  · exact hr h
  · obtain ⟨t, ht, h⟩ := bind_eq_some_iff.1 h
    exact (consumed_stripStart ht (by simpa using hs)).trans (hr h)

theorem consumed_readIpv4Addr {o} (h : readIpv4Addr s = some (o, rest)) :
    Consumed s rest := by
  simp only [readIpv4Addr, Option.bind_eq_bind, Option.pure_def] at h
  obtain ⟨⟨a, s₁⟩, ha, h⟩ := Option.bind_eq_some_iff.1 h
  obtain ⟨⟨b, s₂⟩, hb, h⟩ := Option.bind_eq_some_iff.1 h
  obtain ⟨⟨c, s₃⟩, hc, h⟩ := Option.bind_eq_some_iff.1 h
  obtain ⟨⟨d, s₄⟩, hd, h⟩ := Option.bind_eq_some_iff.1 h
  cases h
  exact (((consumed_readNumber ha).trans (consumed_readSeparator rfl consumed_readNumber hb)).trans
    (consumed_readSeparator rfl consumed_readNumber hc)).trans
    (consumed_readSeparator rfl consumed_readNumber hd)

theorem consumed_readGroups {left i : ℕ} : Consumed s (readGroups left i s).2.2 := by
  induction left generalizing i s with
  | zero => exact .refl s
  | succ left ih =>
    rw [readGroups]
    split
    next v4 t h =>
      split_ifs at h
      exact consumed_readSeparator rfl consumed_readIpv4Addr h
    next =>
      split
      next group t h => exact (consumed_readSeparator rfl consumed_readNumber h).trans ih
      next => exact .refl s

theorem consumed_readIpv6Addr {o} (h : readIpv6Addr s = some (o, rest)) :
    Consumed s rest := by
  have hh : Consumed s (readGroups 8 0 s).2.2 := consumed_readGroups
  rw [readIpv6Addr] at h
  rcases readGroups 8 0 s with ⟨head, headIpv4, t⟩
  dsimp only at h hh
  split_ifs at h
  · cases h
    exact hh
  · obtain ⟨u, hu, h⟩ := map_eq_some_iff.1 h
    cases h
    exact (hh.trans (consumed_stripStart hu (by decide +kernel))).trans consumed_readGroups

/-- An address is written with bytes of addresses. -/
theorem isIpByte_of_parseIpAddr {ip : IpAddr} (h : parseIpAddr s = some ip) :
    ∀ b ∈ s, isIpByte b = true := by
  obtain ⟨⟨ip', rest⟩, hr, h⟩ := bind_eq_some_iff.1 h
  dsimp only at h
  split_ifs at h with hrs
  subst hrs
  have hcn : Consumed s [] := by
    rcases or_eq_some_iff.1 hr with hr | ⟨-, hr⟩
    · obtain ⟨⟨o, t⟩, ho, heq⟩ := map_eq_some_iff.1 hr
      cases heq
      exact consumed_readIpv4Addr ho
    · obtain ⟨⟨o, t⟩, ho, heq⟩ := map_eq_some_iff.1 hr
      cases heq
      exact consumed_readIpv6Addr ho
  obtain ⟨c, rfl, hc⟩ := hcn
  rwa [append_nil]

/-! ## Two ways of trimming -/

/-- White space, from either side: no word starts like an address, and the two kinds of optional white
    space are words of their own. -/
structure Spaces (words : List Bytes) : Prop where
  noIp : ∀ w ∈ words, ∃ b w', w = b :: w' ∧ isIpByte b = false
  ows : ∀ b, isOws b = true → [b] ∈ words
  alone : ∀ b, isOws b = true → ∀ w ∈ words, w.head? = some b → w = [b]

theorem spaces_whitespace : Spaces whitespace ∧ Spaces (whitespace.map reverse) := by
  have ho : ∀ b, isOws b = true → b = 0x20 ∨ b = 0x09 := fun b hb => by
    simpa [isOws] using hb
  have hn : ∀ words : List Bytes, (∀ w ∈ words, (w.head?.any fun b => !isIpByte b) = true) →
      ∀ w ∈ words, ∃ b w', w = b :: w' ∧ isIpByte b = false := fun words h w hw => by
    cases w with
    | nil => exact absurd (h _ hw) (by simp)
    | cons b w => exact ⟨b, w, rfl, by simpa using h _ hw⟩
  refine ⟨⟨hn _ (by decide), ?_, ?_⟩, ⟨hn _ (by decide), ?_, ?_⟩⟩
  all_goals
    intro b hb
    rcases ho b hb with rfl | rfl
    all_goals decide

theorem stripStart_eq_some : stripStart s start = some rest ↔ s = start ++ rest := by
  rw [stripStart]
  constructor
  · intro h
    split_ifs at h with hs
    cases h
    obtain ⟨t, rfl⟩ := isPrefixOf_iff_prefix.1 hs
    rw [drop_left' rfl]
  · rintro rfl
    have hs : startsWith (start ++ rest) start = true :=
      isPrefixOf_iff_prefix.2 (prefix_append _ _)
    rw [if_pos hs, drop_left' rfl]

/-- Before an address, only its white space is dropped. -/
theorem dropWords_ows {words : List Bytes} (h : Spaces words) {r : Bytes} {b : UInt8}
    (hu : ∀ x ∈ u, isOws x = true) (hb : isIpByte b = true) {fuel : ℕ} (hf : u.length ≤ fuel) :
    dropWords words fuel (u ++ b :: r) = b :: r := by
  induction u generalizing fuel with
  | nil =>
    cases fuel with
    | zero => rfl
    | succ fuel =>
      have hn : words.findSome? (stripStart (b :: r)) = none := by
        refine findSome?_eq_none_iff.2 fun w hw => ?_
        obtain ⟨c, w', rfl, hc⟩ := h.noIp w hw
        by_contra hsm
        obtain ⟨rest, hr⟩ := ne_none_iff_exists'.1 hsm
        rw [stripStart_eq_some, cons_append, cons.injEq] at hr
        rw [hr.1, hc] at hb
        cases hb
      rw [nil_append, dropWords, hn]
  | cons x u ih =>
    obtain ⟨hx, hu⟩ := forall_mem_cons.1 hu
    cases fuel with
    | zero => cases hf
    | succ fuel =>
      have hsm : words.findSome? (stripStart (x :: (u ++ b :: r))) = some (u ++ b :: r) := by
        cases hfn : words.findSome? (stripStart (x :: (u ++ b :: r))) with
        | none =>
          have := findSome?_eq_none_iff.1 hfn [x] (h.ows x hx)
          rw [stripStart_eq_some.2 (singleton_append).symm] at this
          cases this
        | some rest =>
          obtain ⟨w, hw, hs⟩ := exists_of_findSome?_eq_some hfn
          rw [stripStart_eq_some] at hs
          obtain ⟨c, w', rfl, -⟩ := h.noIp w hw
          rw [cons_append, cons.injEq] at hs
          obtain ⟨rfl, hr⟩ := hs
          obtain ⟨-, rfl⟩ := cons.inj (h.alone x hx _ hw rfl)
          rw [hr]
          rfl
      rw [cons_append, dropWords, hsm]
      exact ih hu (Nat.le_of_succ_le_succ hf)

/-- Around an address, trimming white space and optional white space are the same. -/
theorem trim_of_trimHeaderOws {e : Bytes} {ip : IpAddr} (h : trimHeaderOws e = t)
    (hp : parseIpAddr t = some ip) : trim e = t ∧ t ≠ [] := by
  have hne : t ≠ [] := by
    rintro rfl
    cases hp
  have hb := isIpByte_of_parseIpAddr hp
  have ho : ∀ l : Bytes, ∀ x ∈ l.takeWhile isOws, isOws x = true := fun l =>
    all_eq_true.1 all_takeWhile
  -- the text is white space, the address, and white space
  obtain ⟨u, v, hu, hv, rfl⟩ : ∃ u v, (∀ x ∈ u, isOws x = true) ∧ (∀ x ∈ v, isOws x = true) ∧
      e = u ++ (t ++ v) := by
    refine ⟨e.takeWhile isOws, ((e.dropWhile isOws).reverse.takeWhile isOws).reverse, ho e, ?_, ?_⟩
    · intro x hx
      exact ho _ x (mem_reverse.1 hx)
    · have hd : t ++ ((e.dropWhile isOws).reverse.takeWhile isOws).reverse = e.dropWhile isOws := by
        rw [← h, trimHeaderOws, rdropWhile, ← reverse_append,
          takeWhile_append_dropWhile, reverse_reverse]
      rw [hd, takeWhile_append_dropWhile]
  clear h
  obtain ⟨b, t', rfl⟩ := exists_cons_of_ne_nil hne
  have hs : dropWords whitespace (u ++ (b :: t' ++ v)).length (u ++ (b :: t' ++ v)) = b :: t' ++ v :=
    dropWords_ows spaces_whitespace.1 hu (hb b mem_cons_self)
      (by rw [length_append]; exact Nat.le_add_right _ _)
  obtain ⟨c, r, hr⟩ := exists_cons_of_ne_nil (reverse_ne_nil_iff.2 hne)
  have hc : isIpByte c = true :=
    hb c (mem_reverse.1 (by rw [hr]; exact mem_cons_self))
  have hrv : (b :: t' ++ v).reverse = v.reverse ++ c :: r := by
    rw [reverse_append, hr]
  have he : dropWords (whitespace.map reverse) (b :: t' ++ v).length (b :: t' ++ v).reverse =
      c :: r := by
    rw [hrv]
    refine dropWords_ows spaces_whitespace.2 (fun x hx => hv x (mem_reverse.1 hx)) hc ?_
    rw [length_reverse, length_append]
    exact Nat.le_add_left _ _
  rw [trim, hs, he, ← hr, reverse_reverse]
  exact ⟨rfl, hne⟩

/-! ## The walk from the right -/

section
variable {trusted : TrustedProxies} {e : Bytes} {ip : IpAddr}

/-- An entry that the walk passes: a blank one, or the address of a trusted proxy. -/
def Passed (trusted : TrustedProxies) (entry : Bytes) : Prop :=
  trim entry = [] ∨ ∃ ip, parseIpAddr (trim entry) = some ip ∧ trusted.contains ip = true

theorem selectEntry_passed {l l' : List (Bytes × ℕ)} (h : ∀ x ∈ l, Passed trusted x.1) :
    selectEntry trusted (l ++ l') = selectEntry trusted l' := by
  induction l with
  | nil => rfl
  | cons x l ih =>
    obtain ⟨hx, hl⟩ := forall_mem_cons.1 h
    obtain ⟨entry, i⟩ := x
    rw [cons_append, selectEntry, ih hl]
    rcases hx with hb | ⟨ip, hip, ht⟩
    · exact if_pos hb
    · dsimp only at hip
      simp [hip, ht]

/-- **The walk stops at the first address that is not trusted**, whatever is to the left of it. -/
theorem selectEntry_append {before after : List Bytes} (hp : parseIpAddr (trim e) = some ip)
    (hu : trusted.contains ip = false) (ha : ∀ x ∈ after, Passed trusted x) :
    selectEntry trusted (before ++ e :: after).zipIdx.reverse = some (ip, before.length) := by
  have hne : trim e ≠ [] := fun hn => by
    rw [hn] at hp
    cases hp
  rw [zipIdx_append, zipIdx_cons, reverse_append, reverse_cons, append_assoc, selectEntry_passed]
  · simp [selectEntry, hne, hp, hu]
  · intro x hx
    rw [mem_reverse] at hx
    exact ha x.1 (fst_mem_of_mem_zipIdx hx)

/-! ## The reading from the left -/

/-- An address as the reading from the left sees it, and as the walk does. -/
theorem trim_of_fromUtf8
    (h : ((Str.fromUtf8 (trimHeaderOws e)).bind fun entry => parseIpAddr entry.bytes) = some ip) :
    parseIpAddr (trim e) = some ip := by
  obtain ⟨entry, he, hp⟩ := bind_eq_some_iff.1 h
  rw [Str.fromUtf8] at he
  split_ifs at he
  cases he
  rw [(trim_of_trimHeaderOws rfl hp).1]
  exact hp

/-- **The reading from the left** remembers the last address that is not trusted, if only trusted
    addresses follow it. -/
theorem boundary_spec (trusted : TrustedProxies) (entries : List Bytes) :
    (entries.foldl (forwardedForEntry trusted) (0, none)).1 = entries.length ∧
      ∀ i, (entries.foldl (forwardedForEntry trusted) (0, none)).2 = some i →
        ∃ before e after ip, entries = before ++ e :: after ∧ before.length = i ∧
          parseIpAddr (trim e) = some ip ∧ trusted.contains ip = false ∧
          ∀ x ∈ after, Passed trusted x := by
  induction entries using reverseRecOn with
  | nil => exact ⟨rfl, fun _ h => by cases h⟩
  | append_singleton entries e ih =>
    obtain ⟨hc, ih⟩ := ih
    rw [foldl_append, foldl_cons, foldl_nil]
    refine ⟨by rw [forwardedForEntry, hc, length_append]; rfl, fun i hi => ?_⟩
    rw [forwardedForEntry] at hi
    dsimp only at hi
    split at hi
    next ip hip =>
      have hp := trim_of_fromUtf8 hip
      split_ifs at hi with ht
      · obtain ⟨before, e', after, ip', rfl, hln, hip', hu, ha⟩ := ih i hi
        exact ⟨before, e', after ++ [e], ip', by simp, hln, hip', hu,
          forall_mem_append.2 ⟨ha, forall_mem_singleton.2 (.inr ⟨ip, hp, ht⟩)⟩⟩
      · cases hi
        exact ⟨entries, e, [], ip, rfl, hc.symm, hp, by simpa using ht,
          fun _ h => absurd h not_mem_nil⟩
    next => cases hi

/-- The loop over `X-Forwarded-Proto` keeps the scheme at the boundary. -/
theorem protoScan_spec (boundary : Option ℕ) (protos : List Bytes) :
    (protos.foldl (ProtoScan.entry boundary) {}).count = protos.length ∧
      (protos.foldl (ProtoScan.entry boundary) {}).boundaryProto =
        boundary.bind fun i => protos[i]?.bind fun p => recognizedForwardedProto (trimHeaderOws p) := by
  induction protos using reverseRecOn with
  | nil => exact ⟨rfl, by cases boundary <;> simp⟩
  | append_singleton protos p ih =>
    obtain ⟨hc, ih⟩ := ih
    rw [foldl_append, foldl_cons, foldl_nil]
    refine ⟨by rw [ProtoScan.entry, hc, length_append]; rfl, ?_⟩
    rw [ProtoScan.entry, hc, ih]
    cases boundary with
    | none => simp
    | some i =>
      dsimp only [bind_some]
      rcases lt_trichotomy i protos.length with hlt | rfl | hgt
      · rw [if_neg (by simp [hlt.ne]), getElem?_append_left hlt]
      · simp
      · rw [if_neg (by simp [hgt.ne']), getElem?_eq_none hgt.le, getElem?_eq_none]
        rw [length_append]
        exact hgt

end

/-! ## Results -/

section
variable {trusted : TrustedProxies} {socketAddr : IpAddr}

/-- From a peer that is not trusted, the address of the client is that of the peer. -/
theorem resolveForwardedClientIp_untrusted (h : trusted.contains socketAddr = false) (lines : List Bytes)
    (xff : Option Bytes) :
    resolveForwardedClientIp (canonicalIpString socketAddr) socketAddr lines xff trusted = none := by
  have hr : resolveClientIpParsed socketAddr xff trusted = canonicalIpString socketAddr := by
    rw [resolveClientIpParsed]
    split
    · rfl
    · simp [h]
  rw [resolveForwardedClientIp]
  split_ifs
  · rfl
  · cases lines with
    | nil => simp [resolveRealIpHeaderFieldLines, hr]
    | cons line lines => simp [resolveRealIpHeaderFieldLines, h]

theorem comma_not_space : ∀ w ∈ whitespace, (0x2c : UInt8) ∉ w := by decide

variable {xff : Bytes}

theorem selectEntry_blank (h : trim xff = []) :
    selectEntry trusted (entriesFromRight xff) = none := by
  have hc : (0x2c : UInt8) ∉ xff := fun hm => by
    have := mem_trim hm comma_not_space
    rw [h] at this
    cases this
  rw [entriesFromRight, splitOn_eq_singleton hc]
  simp [selectEntry, h]

theorem resolveClientIpParsed_of_select (h : trusted.contains socketAddr = true) {ip : IpAddr}
    {i : ℕ} (hs : selectEntry trusted (entriesFromRight xff) = some (ip, i)) :
    resolveClientIpParsed socketAddr (some xff) trusted = canonicalIpString ip := by
  have hb : trim xff ≠ [] := fun hb => by
    rw [selectEntry_blank hb] at hs
    cases hs
  simp [resolveClientIpParsed, Option.filter, hb, h, hs]

/-- What is to the left of the client's entry does not matter. -/
theorem resolveClientIpParsed_append (h : trusted.contains socketAddr = true) {c s : Bytes} {ip : IpAddr}
    (hp : parseIpAddr (trim c) = some ip) (hu : trusted.contains ip = false)
    (hs : ∀ x ∈ s.splitOn 0x2c, Passed trusted x) (before : Bytes) :
    resolveClientIpParsed socketAddr (some (before ++ 0x2c :: (c ++ 0x2c :: s))) trusted =
      canonicalIpString ip := by
  have hc : (0x2c : UInt8) ∉ c := fun hm => by
    have := isIpByte_of_parseIpAddr hp _ (mem_trim hm comma_not_space)
    cases this
  refine resolveClientIpParsed_of_select (i := (before.splitOn 0x2c).length) h ?_
  rw [entriesFromRight, splitOn_append_cons_self, splitOn_append_cons_self,
    splitOn_eq_singleton hc, singleton_append]
  exact selectEntry_append hp hu hs

end

/-- **Forwarded headers.**  From a peer that is not trusted, no header changes the client's address or
    the scheme.  From a trusted peer, what is to the left of the client's entry does not change the
    client's address.  A scheme that is taken from a list is that of the client's entry. -/
theorem forwarded_headers_sound (trusted : TrustedProxies) (socketAddr : IpAddr) :
    (trusted.contains socketAddr = false →
      ∀ (lines lines' : List Bytes) (xff xff' : Option Bytes) (fors fors' protos protos' : List Bytes),
        resolveForwardedClientIp (canonicalIpString socketAddr) socketAddr lines xff trusted =
            resolveForwardedClientIp (canonicalIpString socketAddr) socketAddr lines' xff' trusted ∧
          trustedForwardedRequestScheme socketAddr fors protos trusted =
            trustedForwardedRequestScheme socketAddr fors' protos' trusted) ∧
    (trusted.contains socketAddr = true →
      ∀ (c s : Bytes) (ip : IpAddr), parseIpAddr (trim c) = some ip → trusted.contains ip = false →
        (∀ x ∈ s.splitOn 0x2c, Passed trusted x) → ∀ before before' : Bytes,
          resolveClientIpParsed socketAddr (some (before ++ 0x2c :: (c ++ 0x2c :: s))) trusted =
              canonicalIpString ip ∧
            resolveClientIpParsed socketAddr (some (before' ++ 0x2c :: (c ++ 0x2c :: s))) trusted =
              canonicalIpString ip) ∧
    ∀ (line : Bytes) (protos : List Bytes) (scheme : Bytes), (fieldEntries protos).length ≠ 1 →
      trustedForwardedRequestScheme socketAddr [line] protos trusted = some scheme →
      ∃ ip i proto, selectEntry trusted (entriesFromRight line) = some (ip, i) ∧
        resolveClientIpParsed socketAddr (some line) trusted = canonicalIpString ip ∧
        (fieldEntries protos)[i]? = some proto ∧
        recognizedForwardedProto (trimHeaderOws proto) = some scheme := by
  refine ⟨?_, ?_, ?_⟩
  · intro h lines lines' xff xff' fors fors' protos protos'
    rw [resolveForwardedClientIp_untrusted h, resolveForwardedClientIp_untrusted h]
    simp [trustedForwardedRequestScheme, h]
  · intro h c s ip hp hu hs before before'
    exact ⟨resolveClientIpParsed_append h hp hu hs before,
      resolveClientIpParsed_append h hp hu hs before'⟩
  · intro line protos scheme hm hsc
    rw [trustedForwardedRequestScheme] at hsc
    split_ifs at hsc with hpe
    have ht : trusted.contains socketAddr = true := by simpa using hpe
    have hln : fieldEntries [line] = line.splitOn 0x2c := by simp [fieldEntries]
    rw [hln] at hsc
    obtain ⟨hc, hb⟩ := boundary_spec trusted (line.splitOn 0x2c)
    rcases hf : (line.splitOn 0x2c).foldl (forwardedForEntry trusted) (0, none) with ⟨count, boundary⟩
    rw [hf] at hsc hc hb
    obtain ⟨hpr, hpt⟩ := protoScan_spec boundary (fieldEntries protos)
    dsimp only at hsc
    rw [hpr, if_neg hm] at hsc
    split_ifs at hsc
    rw [hpt] at hsc
    obtain ⟨i, hi, hsc⟩ := bind_eq_some_iff.1 hsc
    obtain ⟨proto, hget, hr⟩ := bind_eq_some_iff.1 hsc
    obtain ⟨before, e, after, ip, he, rfl, hp, hu, ha⟩ := hb i hi
    have hsl : selectEntry trusted (entriesFromRight line) = some (ip, before.length) := by
      rw [entriesFromRight, he]
      exact selectEntry_append hp hu ha
    exact ⟨ip, before.length, proto, hsl, resolveClientIpParsed_of_select ht hsl, hget,
      hr⟩

/-- A chain of two proxies of which the nearer is trusted. -/
def oneProxy : TrustedProxies := ⟨(parseEntry (lit "10.0.0.0/8")).toList⟩

/-- The client of the chain, with and without an address that it has put before its own, and the
    scheme of the hop that it is at. -/
theorem chain_client : let peer := .v4 #v[10, 0, 0, 1]
    let client := canonicalIpString (.v4 #v[192, 0, 2, 7])
    let line := lit "203.0.113.9, 192.0.2.7, 10.0.0.2"
    (resolveClientIpParsed peer
        (some (lit "203.0.113.9" ++ 0x2c :: (lit " 192.0.2.7" ++ 0x2c :: lit " 10.0.0.2, "))) oneProxy =
        client ∧
      resolveClientIpParsed peer
        (some ([] ++ 0x2c :: (lit " 192.0.2.7" ++ 0x2c :: lit " 10.0.0.2, "))) oneProxy = client) ∧
    ∃ ip i proto, selectEntry oneProxy (entriesFromRight line) = some (ip, i) ∧
      resolveClientIpParsed peer (some line) oneProxy = canonicalIpString ip ∧
      (fieldEntries [lit "http, https, http"])[i]? = some proto ∧
      recognizedForwardedProto (trimHeaderOws proto) = some (lit "https") := by
  have hs : (lit " 10.0.0.2, ").splitOn 0x2c = [lit " 10.0.0.2", lit " "] := by decide +kernel
  have hp : ∀ x ∈ (lit " 10.0.0.2, ").splitOn 0x2c, Passed oneProxy x := by
    rw [hs]
    intro x hx
    rcases mem_cons.1 hx with rfl | hx
    · exact .inr ⟨.v4 #v[10, 0, 0, 2], by decide +kernel, by decide +kernel⟩
    · rw [mem_singleton.1 hx]
      exact .inl (by decide +kernel)
  obtain ⟨-, hchain, hscheme⟩ := forwarded_headers_sound oneProxy (.v4 #v[10, 0, 0, 1])
  exact ⟨hchain (by decide +kernel) _ _ _ (by decide +kernel) (by decide +kernel) hp _ _,
    hscheme _ _ _ (by decide +kernel) (by decide +kernel)⟩

end Ferrum.ClientIp
