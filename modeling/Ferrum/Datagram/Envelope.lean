/-
  The PROXY v2 envelope of a datagram: listener bindings, the header parser with its TLV walk,
  and the per-listener gate.

  The message authentication code is a parameter (`HmacSha256`): the key derivation may refuse
  its material, and a tag has 32 bytes.
-/
import Ferrum.Datagram.Replay

namespace Ferrum.Datagram

open Lib

/-! ## Addresses and bindings -/

inductive IpAddr where
  | v4 (octets : Vector UInt8 4)
  | v6 (octets : Vector UInt8 16)
  deriving DecidableEq, Repr

/-- `IpAddr::to_canonical`: an IPv4-mapped address is the IPv4 address. -/
def canonicalIp : IpAddr → IpAddr
  | .v4 o => .v4 o
  | .v6 o =>
    if o.toList.take 12 = List.replicate 10 0 ++ [0xff, 0xff] then
      .v4 (Vector.ofFn fun i => o.toList.getD (12 + i) 0)
    else .v6 o

structure SocketAddr where
  ip : IpAddr
  port : ℕ
  deriving DecidableEq, Repr

def canonicalSocketAddr (addr : SocketAddr) : SocketAddr := ⟨canonicalIp addr.ip, addr.port⟩

/-- The receive boundary of a listener. -/
inductive DatagramListenerProtocol where
  | udp
  | dtls
  deriving DecidableEq, Repr

def DatagramListenerProtocol.tag : DatagramListenerProtocol → UInt8
  | .udp => 0x01
  | .dtls => 0x02

/-- The receiving listener an authenticated envelope is bound to. -/
@[ext] structure DatagramListenerBinding where
  protocol : DatagramListenerProtocol
  bindAddr : IpAddr
  port : UInt16
  canonical : canonicalIp bindAddr = bindAddr

theorem canonicalIp_idem (ip : IpAddr) : canonicalIp (canonicalIp ip) = canonicalIp ip := by
  cases ip with
  | v4 o => rfl
  | v6 o =>
    by_cases h : o.toList.take 12 = List.replicate 10 0 ++ [0xff, 0xff]
    · simp only [canonicalIp, if_pos h]
    · simp only [canonicalIp, if_neg h]

namespace DatagramListenerBinding

def new (protocol : DatagramListenerProtocol) (bindAddr : IpAddr) (port : UInt16) :
    DatagramListenerBinding :=
  ⟨protocol, canonicalIp bindAddr, port, canonicalIp_idem bindAddr⟩

/-- `ferrum-datagram-proxy-v1`. -/
def domainLabel : Bytes :=
  [0x66, 0x65, 0x72, 0x72, 0x75, 0x6d, 0x2d, 0x64, 0x61, 0x74, 0x61, 0x67, 0x72, 0x61, 0x6d,
   0x2d, 0x70, 0x72, 0x6f, 0x78, 0x79, 0x2d, 0x76, 0x31]

def domainBindingVersion : UInt8 := 0x01

/-- The address with its family tag, which fixes its width. -/
def addrDomain : IpAddr → Bytes
  | .v4 o => 0x04 :: o.toList
  | .v6 o => 0x06 :: o.toList

/-- The bytes a binding contributes to every MAC input. -/
def writeDomain (b : DatagramListenerBinding) : Bytes :=
  domainLabel ++ domainBindingVersion :: b.protocol.tag ::
    (addrDomain b.bindAddr ++ beBytes 2 b.port.toNat)

end DatagramListenerBinding

/-! ## The parser -/

def v2Sig : Bytes := [0x0d, 0x0a, 0x0d, 0x0a, 0x00, 0x0d, 0x0a, 0x51, 0x55, 0x49, 0x54, 0x0a]

def fixedHeaderLen : ℕ := 16
def maxAddrBlockLen : ℕ := 512
def inetAddrLen : ℕ := 12
def inet6AddrLen : ℕ := 36
def authTlvType : UInt8 := 0xE0
def authTagLen : ℕ := 32

/-- `bs[i]`, for an index the code has checked. -/
def byte (bs : Bytes) (i : ℕ) : UInt8 := bs.getD i 0

/-- `[start, end)` of a TLV value within the datagram. -/
abbrev TlvValueByteRange := ℕ × ℕ

/-- The loop of `walk_envelope_tlvs`, from `offset` on. -/
def walkTlvs (tlvs : Bytes) (tlvBase offset : ℕ) (auth freshness : Option TlvValueByteRange) :
    Except DatagramMetadataError (Option TlvValueByteRange × Option TlvValueByteRange) :=
  if offset < tlvs.length then
    if tlvs.length - offset < 3 then .error .malformedTlv
    else
      let tlvType := byte tlvs offset
      let valueLen := beNat [byte tlvs (offset + 1), byte tlvs (offset + 2)]
      let valueStart := offset + 3
      let valueEnd := valueStart + valueLen
      if tlvs.length < valueEnd then .error .malformedTlv
      else if tlvType = authTlvType then
        if auth.isSome then .error .duplicateAuthenticationTag
        else if valueLen ≠ authTagLen then .error (.invalidAuthenticationTagLength valueLen)
        else walkTlvs tlvs tlvBase valueEnd
          (some (tlvBase + valueStart, tlvBase + valueEnd)) freshness
      else if tlvType = freshnessTlvType then
        if freshness.isSome then .error .duplicateFreshness
        else if valueLen ≠ freshnessValueLen then .error .malformedFreshness
        else walkTlvs tlvs tlvBase valueEnd auth
          (some (tlvBase + valueStart, tlvBase + valueEnd))
      else walkTlvs tlvs tlvBase valueEnd auth freshness
  else .ok (auth, freshness)
termination_by tlvs.length - offset

def walkEnvelopeTlvs (tlvs : Bytes) (tlvBase : ℕ) :
    Except DatagramMetadataError (Option TlvValueByteRange × Option TlvValueByteRange) :=
  walkTlvs tlvs tlvBase 0 none none

structure ParsedDatagramHeader where
  headerLen : ℕ
  forwarded : Option SocketAddr
  destinationPort : Option ℕ
  authTag : Option TlvValueByteRange
  freshness : Option TlvValueByteRange
  deriving DecidableEq, Repr

/-- The fixed address block: client, its length and the destination port. -/
def parseAddresses (family : UInt8) (block : Bytes) :
    Except DatagramMetadataError (Option SocketAddr × ℕ × Option ℕ) :=
  if family = 0x00 then .ok (none, 0, none)
  else if family = 0x01 then
    if block.length < inetAddrLen then
      .error (.addressBlockTooShortForFamily family block.length)
    else .ok
      (some ⟨.v4 (Vector.ofFn fun i => byte block i), beNat [byte block 8, byte block 9]⟩,
        inetAddrLen, some (beNat [byte block 10, byte block 11]))
  else if family = 0x02 then
    if block.length < inet6AddrLen then
      .error (.addressBlockTooShortForFamily family block.length)
    else .ok
      (some ⟨.v6 (Vector.ofFn fun i => byte block i), beNat [byte block 32, byte block 33]⟩,
        inet6AddrLen, some (beNat [byte block 34, byte block 35]))
  else .error (.unsupportedAddressFamily family)

/-- The part of the parser after the lengths are checked. -/
def parseBlock (verCmd famTransport : UInt8) (block : Bytes) (headerLen : ℕ) :
    Except DatagramMetadataError ParsedDatagramHeader :=
  let command := verCmd &&& 0x0f
  let family := famTransport >>> 4
  let transport := famTransport &&& 0x0f
  if command ≠ 0x00 ∧ command ≠ 0x01 then .error (.unsupportedCommand command)
  else
    let isLocal := decide (command = 0x00)
    if isLocal = false ∧ transport ≠ 0x02 then .error (.nonDatagramTransport transport)
    else match parseAddresses family block with
      | .error e => .error e
      | .ok (forwarded, fixedLen, destinationPort) =>
        match walkEnvelopeTlvs (block.drop fixedLen) (fixedHeaderLen + fixedLen) with
        | .error e => .error e
        | .ok (authTag, freshness) => .ok
          { headerLen
            forwarded := if isLocal then none else forwarded.map canonicalSocketAddr
            destinationPort, authTag, freshness }

def parseDatagramHeaderInner (datagram : Bytes) :
    Except DatagramMetadataError ParsedDatagramHeader :=
  if datagram.length < fixedHeaderLen then .error (.truncatedHeader datagram.length)
  else if datagram.take v2Sig.length ≠ v2Sig then .error .invalidSignature
  else
    let verCmd := byte datagram 12
    let famTransport := byte datagram 13
    let addrLen := beNat [byte datagram 14, byte datagram 15]
    let version := verCmd >>> 4
    if version ≠ 2 then .error (.unsupportedVersion version)
    else if maxAddrBlockLen < addrLen then .error (.addressBlockTooLong addrLen)
    else
      let available := datagram.length - fixedHeaderLen
      if available < addrLen then .error (.truncatedAddressBlock addrLen available)
      else
        let headerLen := fixedHeaderLen + addrLen
        parseBlock verCmd famTransport (slice datagram fixedHeaderLen headerLen) headerLen

/-! ## The gate -/

/-- A keyed message authentication code with 32-byte tags. -/
structure HmacSha256 (Key : Type) where
  newFromSlice : Bytes → Option Key
  mac : Key → Bytes → Bytes
  length_mac : ∀ k m, (mac k m).length = authTagLen

structure DecodedDatagram where
  payload : Bytes
  forwarded : Option SocketAddr
  deriving DecidableEq, Repr

/-- Per-listener trust gate.  `trustedProxies` is membership in the configured CIDR set. -/
structure DatagramClientAddressGate (Key : Type) where
  trustedProxies : IpAddr → Bool
  authenticationRequired : Bool
  authKey : Option Key
  binding : DatagramListenerBinding
  replay : DatagramReplayGuard

namespace DatagramClientAddressGate
variable {Key : Type} (H : HmacSha256 Key)

/-- A gate for the raw secret: only an absent or empty one leaves it unauthenticated. -/
def new (trustedProxies : IpAddr → Bool) (secret : Option Bytes)
    (binding : DatagramListenerBinding) : DatagramClientAddressGate Key :=
  let secret := secret.filter fun value => !value.isEmpty
  { trustedProxies
    authenticationRequired := secret.isSome
    authKey := secret.bind H.newFromSlice
    binding
    replay := .new }

/-- The bytes the tag at `[tagStart, tagEnd)` authenticates on a listener. -/
def macInput (binding : DatagramListenerBinding) (datagram : Bytes)
    (tag : TlvValueByteRange) : Bytes :=
  binding.writeDomain ++ (datagram.take tag.1 ++ datagram.drop tag.2)

def verifyAuthenticationTag (g : DatagramClientAddressGate Key) (key : Key) (datagram : Bytes)
    (parsed : ParsedDatagramHeader) : Except DatagramMetadataError Unit :=
  match parsed.authTag with
  | none => .error .missingAuthenticationTag
  | some tag =>
    if H.mac key (macInput g.binding datagram tag) = slice datagram tag.1 tag.2 then .ok ()
    else .error .authenticationTagMismatch

/-- The authenticated part of `decode_at`: tag, then freshness, then replay. -/
def authenticate (g : DatagramClientAddressGate Key) (datagram : Bytes)
    (parsed : ParsedDatagramHeader) (nowUnixMs : ℕ) :
    DatagramClientAddressGate Key × Except DatagramMetadataError Unit :=
  match g.authKey with
  | none => (g, .error .authenticationKeyUnavailable)
  | some key =>
    match g.verifyAuthenticationTag H key datagram parsed with
    | .error e => (g, .error e)
    | .ok () =>
      match parsed.freshness with
      | none => (g, .error .missingFreshness)
      | some (start, stop) =>
        match DatagramFreshness.decodeValue (slice datagram start stop) with
        | .error e => (g, .error e)
        | .ok freshness =>
          let (replay, res) := g.replay.admitFreshness freshness nowUnixMs
          ({ g with replay }, res)

/-- Decode one datagram against the receiver's clock. -/
def decodeAt (g : DatagramClientAddressGate Key) (datagram : Bytes) (socketPeer : SocketAddr)
    (nowUnixMs : ℕ) :
    DatagramClientAddressGate Key × Except DatagramMetadataError DecodedDatagram :=
  if g.trustedProxies socketPeer.ip = false then (g, .error .untrustedPeer)
  else match parseDatagramHeaderInner datagram with
    | .error e => (g, .error e)
    | .ok parsed =>
      if parsed.forwarded.isSome ∧ parsed.destinationPort ≠ some g.binding.port.toNat then
        (g, .error .listenerBindingMismatch)
      else
        let decoded : DecodedDatagram := ⟨datagram.drop parsed.headerLen, parsed.forwarded⟩
        if g.authenticationRequired then
          let (g', res) := g.authenticate H datagram parsed nowUnixMs
          (g', res.map fun _ => decoded)
        else (g, .ok decoded)

end DatagramClientAddressGate

end Ferrum.Datagram
