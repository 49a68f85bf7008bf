/-
  The texts that mesh policies compare: glob patterns, hosts and addresses.

  Texts are UTF-8 byte strings.  Every separator is an ASCII byte, so cutting at one never cuts a
  character.
-/
import Ferrum.Datagram.Envelope
import Ferrum.Router.Keys

namespace Ferrum.Mesh

open Lib Datagram

/-! ## The standard library's string functions -/

def startsWith (s start : Bytes) : Bool := start.isPrefixOf s

def endsWith (s ending : Bytes) : Bool := ending.isSuffixOf s

/-- `strip_prefix`. -/
def stripStart (s start : Bytes) : Option Bytes :=
  if startsWith s start then some (s.drop start.length) else none

/-- `strip_suffix`. -/
def stripEnd (s ending : Bytes) : Option Bytes :=
  if endsWith s ending then some (s.take (s.length - ending.length)) else none

/-- The texts around the first `sep`. -/
def splitOnce (s : Bytes) (sep : UInt8) : Option (Bytes × Bytes) :=
  if s.contains sep then some (s.takeWhile (· != sep), (s.dropWhile (· != sep)).tail) else none

/-- The texts around the last `sep`. -/
def rsplitOnce (s : Bytes) (sep : UInt8) : Option (Bytes × Bytes) :=
  (splitOnce s.reverse sep).map fun (after, before) => (before.reverse, after.reverse)

/-- Where `part` first occurs. -/
def find (part : Bytes) : Bytes → Option ℕ
  | [] => if part = [] then some 0 else none
  | b :: s => if startsWith (b :: s) part then some 0 else (find part s).map (· + 1)

/-- The encodings of the characters with the property White_Space. -/
def whitespace : List Bytes :=
  [[0x09], [0x0a], [0x0b], [0x0c], [0x0d], [0x20], [0xc2, 0x85], [0xc2, 0xa0], [0xe1, 0x9a, 0x80],
    [0xe2, 0x80, 0x80], [0xe2, 0x80, 0x81], [0xe2, 0x80, 0x82], [0xe2, 0x80, 0x83],
    [0xe2, 0x80, 0x84], [0xe2, 0x80, 0x85], [0xe2, 0x80, 0x86], [0xe2, 0x80, 0x87],
    [0xe2, 0x80, 0x88], [0xe2, 0x80, 0x89], [0xe2, 0x80, 0x8a], [0xe2, 0x80, 0xa8],
    [0xe2, 0x80, 0xa9], [0xe2, 0x80, 0xaf], [0xe2, 0x81, 0x9f], [0xe3, 0x80, 0x80]]

/-- Drop words of `words` from the start, at most `fuel` of them. -/
def dropWords (words : List Bytes) : ℕ → Bytes → Bytes
  | 0, s => s
  | fuel + 1, s =>
    match words.findSome? (stripStart s) with
    | some rest => dropWords words fuel rest
    | none => s

/-- `trim`: a text has no more white space characters than bytes. -/
def trim (s : Bytes) : Bytes :=
  let start := dropWords whitespace s.length s
  (dropWords (whitespace.map List.reverse) start.length start.reverse).reverse

def isAsciiDigit (b : UInt8) : Bool := 0x30 ≤ b && b ≤ 0x39

/-- The number with these decimal digits, if there are any. -/
def parseDigits (s : Bytes) : Option ℕ :=
  if s ≠ [] ∧ s.all isAsciiDigit then
    some (s.foldl (fun n b => n * 10 + (b.toNat - 0x30)) 0)
  else none

/-- `parse` for an unsigned type with the greatest value `max`: a sign `+` is accepted. -/
def parseUnsigned (max : ℕ) (s : Bytes) : Option ℕ :=
  (parseDigits ((stripStart s [0x2b]).getD s)).filter (· ≤ max)

/-! ## Addresses -/

/-- Digits of the radix, at most `maxDigits`, and the rest. -/
def readNumber (radix maxDigits max : ℕ) (allowZeroStart : Bool) (s : Bytes) : Option (ℕ × Bytes) :=
  let value (b : UInt8) : Option ℕ :=
    if isAsciiDigit b then some (b.toNat - 0x30)
    else if radix = 16 ∧ 0x61 ≤ b ∧ b ≤ 0x66 then some (b.toNat - 0x61 + 10)
    else if radix = 16 ∧ 0x41 ≤ b ∧ b ≤ 0x46 then some (b.toNat - 0x41 + 10)
    else none
  let digits := s.takeWhile fun b => (value b).isSome
  let number := digits.foldl (fun n b => n * radix + (value b).getD 0) 0
  if digits.length = 0 ∨ maxDigits < digits.length then none
  else if !allowZeroStart && s.head? == some 0x30 && 1 < digits.length then none
  else if number ≤ max then some (number, s.drop digits.length)
  else none

/-- `read_separator`: before all but the first one stands `sep`. -/
def readSeparator {α : Type} (sep : UInt8) (index : ℕ) (read : Bytes → Option (α × Bytes))
    (s : Bytes) : Option (α × Bytes) :=
  if index = 0 then read s else (stripStart s [sep]).bind read

def readIpv4Addr (s : Bytes) : Option (Vector UInt8 4 × Bytes) := do
  let octet := readNumber 10 3 255 false
  let (a, s) ← octet s
  let (b, s) ← readSeparator 0x2e 1 octet s
  let (c, s) ← readSeparator 0x2e 2 octet s
  let (d, s) ← readSeparator 0x2e 3 octet s
  return (#v[UInt8.ofNat a, UInt8.ofNat b, UInt8.ofNat c, UInt8.ofNat d], s)

/-- `read_groups`: up to `left` groups from the `i`-th, and whether the last two were an IPv4
    address. -/
def readGroups : ℕ → ℕ → Bytes → List ℕ × Bool × Bytes
  | 0, _, s => ([], false, s)
  | left + 1, i, s =>
    match if 0 < left then readSeparator 0x3a i readIpv4Addr s else none with
    | some (v4, s) =>
      let o := v4.toList.map UInt8.toNat
      ([o.getD 0 0 * 256 + o.getD 1 0, o.getD 2 0 * 256 + o.getD 3 0], true, s)
    | none =>
      match readSeparator 0x3a i (readNumber 16 4 65535 true) s with
      | some (group, s) =>
        let (groups, ipv4, s) := readGroups left (i + 1) s
        (group :: groups, ipv4, s)
      | none => ([], false, s)

def readIpv6Addr (s : Bytes) : Option (Vector UInt8 16 × Bytes) :=
  let octets (groups : List ℕ) : Vector UInt8 16 :=
    Vector.ofFn fun i => UInt8.ofNat (groups.getD (i / 2) 0 / 256 ^ (1 - i.val % 2))
  let (head, headIpv4, s) := readGroups 8 0 s
  if head.length = 8 then some (octets head, s)
  else if headIpv4 then none
  else (stripStart s [0x3a, 0x3a]).map fun s =>
    let (tail, _, s) := readGroups (8 - (head.length + 1)) 0 s
    (octets (head ++ List.replicate (8 - head.length - tail.length) 0 ++ tail), s)

/-- `IpAddr::from_str`. -/
def parseIpAddr (s : Bytes) : Option IpAddr :=
  let parsed := ((readIpv4Addr s).map fun (o, s) => (IpAddr.v4 o, s)).or
    ((readIpv6Addr s).map fun (o, s) => (IpAddr.v6 o, s))
  parsed.bind fun (ip, s) => if s = [] then some ip else none

example : parseIpAddr (lit "10.0.0.255") = some (.v4 #v[10, 0, 0, 255]) ∧
    parseIpAddr (lit "10.0.0.01") = none ∧
    parseIpAddr (lit "1::10.2.3.4") =
      some (.v6 #v[0, 1, 0, 0, 0, 0, 0, 0, 0, 0, 0, 0, 10, 2, 3, 4]) := by
  decide +kernel

/-! ## Address blocks -/

/-- Do the first `len` of `width` bits agree? -/
def matchesLeading (width network addr len : ℕ) : Bool :=
  len == 0 ||
    let mask := (2 ^ width - 1) <<< (width - len) % 2 ^ width
    network &&& mask == addr &&& mask

/-- A network and a length of its leading part, after `canonicalize`. -/
def inBlock : IpAddr → ℕ → IpAddr → Bool
  | .v4 net, len, .v4 addr => matchesLeading 32 (beNat net.toList) (beNat addr.toList) len
  | .v6 net, len, .v6 addr => matchesLeading 128 (beNat net.toList) (beNat addr.toList) len
  | _, _, _ => false

def IpAddr.bits : IpAddr → ℕ
  | .v4 _ => 32
  | .v6 _ => 128

/-- `canonicalize`: an IPv4-mapped network is an IPv4 network. -/
def canonicalizeNetwork (network : IpAddr) (len : Option ℕ) : Option (IpAddr × ℕ) :=
  match network, canonicalIp network with
  | .v6 _, .v4 v4 =>
    match len with
    | some len => if 96 ≤ len then some (.v4 v4, len - 96) else none
    | none => some (.v4 v4, 32)
  | network, _ => some (network, len.getD (IpAddr.bits network))

/-- A parsed block; the fields are private in the source. -/
structure ParsedCidr where
  network : IpAddr
  len : ℕ
  len_le : len ≤ IpAddr.bits network
  deriving DecidableEq

/-- `ParsedCidr::parse`, up to the texts of its errors. -/
def ParsedCidr.parse (s : Bytes) : Option ParsedCidr := do
  let trimmed := trim s
  guard (trimmed ≠ [])
  let (networkStr, len) ← match splitOnce trimmed 0x2f with
    | some (net, plen) => (parseUnsigned 255 plen).map fun len => (net, some len)
    | none => some (trimmed, none)
  let ip ← parseIpAddr networkStr
  let (network, len) ← canonicalizeNetwork ip len
  if h : len ≤ IpAddr.bits network then return ⟨network, len, h⟩ else none

def ParsedCidr.contains (cidr : ParsedCidr) (ip : IpAddr) : Bool :=
  inBlock cidr.network cidr.len (canonicalIp ip)

def cidrContains (cidr : Bytes) (ip : IpAddr) : Bool :=
  let cidr := trim cidr
  cidr != [] && ((match splitOnce cidr 0x2f with
    | some (net, plen) => (parseUnsigned 255 plen).map fun len => (net, some len)
    | none => some (cidr, none)).bind fun (networkStr, len) =>
      (parseIpAddr networkStr).bind fun network => canonicalizeNetwork network len).any
    fun (network, len) => len ≤ IpAddr.bits network && inBlock network len (canonicalIp ip)

example : cidrContains (lit " ::ffff:10.0.0.0/104 ") (.v4 #v[10, 1, 2, 3]) = true ∧
    cidrContains (lit "10.0.0.0/8") (.v4 #v[11, 1, 2, 3]) = false := by
  decide +kernel

/-! ## Patterns -/

/-- The search for the parts of a pattern between its anchored ends. -/
def matchParts (anchoredEnd : Bool) (value : Bytes) (limit : ℕ) : List Bytes → ℕ → Bool
  | [], _ => true
  | part :: parts, pos =>
    if anchoredEnd && parts.isEmpty then true
    else match find part (slice value pos limit) with
      | none => false
      | some index => matchParts anchoredEnd value limit parts (pos + index + part.length)

/-- `*` stands for any text. -/
def wildcardMatch (pattern value : Bytes) : Bool :=
  if pattern = [0x2a] then true
  else if !pattern.contains 0x2a then pattern == value
  else
    let anchoredStart := pattern.head? != some 0x2a
    let anchoredEnd := pattern.getLast? != some 0x2a
    let parts := (pattern.splitOn 0x2a).filter (· ≠ [])
    match parts with
    | [] => true
    | first :: rest =>
      if anchoredStart && !startsWith value first then false
      else
        let pos := if anchoredStart then first.length else 0
        let parts := if anchoredStart then rest else first :: rest
        let last := rest.getLastD first
        if anchoredEnd && !endsWith value last then false
        else if anchoredEnd && value.length - last.length < pos then false
        else
          let limit := if anchoredEnd then value.length - last.length else value.length
          matchParts anchoredEnd value limit parts pos

example : wildcardMatch (lit "a*b*c") (lit "axxbyc") = true ∧
    wildcardMatch (lit "ab*ba") (lit "aba") = false ∧ wildcardMatch (lit "*.x") (lit "a.x") = true := by
  decide +kernel

def portPatternMatches (pattern : Bytes) (port : UInt16) : Bool :=
  let portStr := Router.decimal port.toNat
  if pattern = [0x2a] then true
  else match stripEnd pattern [0x2a] with
    | some start => startsWith portStr start
    | none =>
      match stripStart pattern [0x2a] with
      | some ending => endsWith portStr ending
      | none => pattern == portStr

/-- A condition's value: present, with an ending, with a start, or this text. -/
def istioConditionStringMatch (pattern value : Bytes) : Bool :=
  if pattern = [0x2a] then value != []
  else match stripStart pattern [0x2a] with
    | some ending => endsWith value ending
    | none =>
      match stripEnd pattern [0x2a] with
      | some start => startsWith value start
      | none => pattern == value

/-- A service account, without a namespace in that of the policy. -/
def istioServiceAccountMatch (candidate value policyNamespace : Bytes) : Bool :=
  if candidate.contains 0x2f then candidate == value
  else (splitOnce value 0x2f).any fun (namespace_, serviceAccount) =>
    namespace_ == policyNamespace && serviceAccount == candidate

/-! ## Hosts and identities -/

structure NormalizedHost where
  name : Bytes
  authority : Bytes
  deriving DecidableEq

def parseAuthorityPort (port : Bytes) : Option UInt16 :=
  ((parseDigits port).filter (· ≤ 65535)).map UInt16.ofNat

def normalizeHostname (host : Bytes) : Option Bytes :=
  let host := (stripEnd host [0x2e]).getD host
  if host ≠ [] then some (toAsciiLowercase host) else none

def normalizeMatchHost (host : Bytes) : Option NormalizedHost :=
  let host := trim host
  let withPort (name : Bytes) (port : UInt16) : NormalizedHost :=
    ⟨name, name ++ 0x3a :: Router.decimal port.toNat⟩
  if host = [] ∨ host.contains 0x40 then none
  else if startsWith host [0x5b] then
    (splitOnce host 0x5d).bind fun (inner, suffix) =>
      let name := toAsciiLowercase (inner ++ [0x5d])
      if suffix = [] then some ⟨name, name⟩
      else ((stripStart suffix [0x3a]).bind parseAuthorityPort).map (withPort name)
  else match rsplitOnce host 0x3a with
    | some (name, port) =>
      if name.contains 0x3a then none
      else (parseAuthorityPort port).bind fun port =>
        (normalizeHostname name).map fun name => withPort name port
    | none => (normalizeHostname host).map fun name => ⟨name, name⟩

def normalizedHostMatches (pattern : Bytes) (host : NormalizedHost) : Bool :=
  wildcardMatch pattern host.name || wildcardMatch pattern host.authority

/-- A SPIFFE ID with the trust domain in it. -/
structure SpiffeId where
  uri : Bytes
  trustDomain : Bytes
  deriving DecidableEq

def istioSourcePrincipal (source : SpiffeId) : Bytes :=
  (stripStart source.uri (lit "spiffe://")).getD source.uri

def sourcePrincipalPatternMatches (pattern : Bytes) (source : SpiffeId) : Bool :=
  wildcardMatch pattern source.uri || wildcardMatch pattern (istioSourcePrincipal source)

/-- The segment after the first segment `ns`. -/
def extractNamespace (spiffeId : Bytes) : Option Bytes :=
  ((spiffeId.splitOn 0x2f).dropWhile (· ≠ lit "ns")).tail.head?

end Ferrum.Mesh
