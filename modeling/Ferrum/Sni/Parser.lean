/-
  The host name that a TLS client asks for, read off the bytes that have arrived.

  A ClientHello is one handshake message. It may be cut into several records. Before a host name is
  used to choose a route, the whole message has to be there and to be well formed:

  * `tlsClienthelloWireSpan`: how many bytes the records of the message take.
  * `clientHelloKtlsFacts`: the strict parser of the whole message.
  * `extractSniFromClientHello`: the lenient parser, which finds the host name.
  * `classifyClientHello`: all three, in this order.
-/
import Ferrum.Lib.Bytes

namespace Ferrum.Sni

open Lib

/-! ## Answers -/

inductive SniPeekFailure where
  | timeout | oversized | eof | truncated | malformed | unrepresentableName | io
  deriving DecidableEq, Repr

inductive ClientHelloSni where
  | sni (hostname : Bytes)
  | noSni
  | notTls
  | indeterminate (failure : SniPeekFailure)
  deriving DecidableEq, Repr

/-- The most bytes that are looked at. -/
def maxClientHelloLen : ℕ := 16 * 1024

/-! ## Reading numbers -/

/-- The byte at an index that was checked before. -/
def byteAt (bs : Bytes) (i : ℕ) : UInt8 := bs.getD i 0

/-- The two bytes at `i` as a number. -/
def u16At (bs : Bytes) (i : ℕ) : ℕ := beNat (slice bs i (i + 2))

def u24ToUsize (data : Bytes) : ℕ := beNat (data.take 3)

/-! ## Host names -/

def isAsciiAlphanumeric (b : UInt8) : Bool :=
  (byte '0' ≤ b && b ≤ byte '9') || (byte 'A' ≤ b && b ≤ byte 'Z') || (byte 'a' ≤ b && b ≤ byte 'z')

def toAsciiLowercase (b : UInt8) : UInt8 := if byte 'A' ≤ b ∧ b ≤ byte 'Z' then b + 32 else b

def maxDnsHostnameLen : ℕ := 253

def maxDnsLabelLen : ℕ := 63

/-- The bytes from here on, after `labelLen` bytes of a label of which `previous` is the last. -/
def hostnameLoop : Bytes → ℕ → UInt8 → Bool
  | [], labelLen, previous => labelLen > 0 && previous != byte '-'
  | b :: rest, labelLen, previous =>
    if b = byte '.' then
      if labelLen = 0 ∨ labelLen > maxDnsLabelLen ∨ previous = byte '-' then false
      else hostnameLoop rest 0 b
    else if ¬isAsciiAlphanumeric b ∧ b ≠ byte '-' then false
    else if labelLen = 0 ∧ b = byte '-' then false
    else if labelLen + 1 > maxDnsLabelLen then false
    else hostnameLoop rest (labelLen + 1) b

def isValidSniDnsHostname (hostname : Bytes) : Bool :=
  if hostname.isEmpty ∨ hostname.length > maxDnsHostnameLen then false
  else hostnameLoop hostname 0 (byte '.')

/-! ## Code points -/

/-- Which numbers were seen, as bits of words. -/
structure SeenCodePoints where
  words : List (BitVec 64)

namespace SeenCodePoints

def empty (words : ℕ) : SeenCodePoints := ⟨List.replicate words 0⟩

/-- Record a number, and report whether it was there before; a number that does not fit counts as if it
    were. -/
def insertIsDuplicate (seen : SeenCodePoints) (codePoint : ℕ) : Bool × SeenCodePoints :=
  match seen.words[codePoint / 64]? with
  | none => (true, seen)
  | some word =>
    let bit := 1#64 <<< (codePoint % 64)
    (word &&& bit != 0, ⟨seen.words.set (codePoint / 64) (word ||| bit)⟩)

end SeenCodePoints

def extensionTypeBitsetWords : ℕ := (65535 + 1) / 64

def nameTypeBitsetWords : ℕ := (255 + 1) / 64

/-! ## The strict parser -/

structure ClientHelloKtlsFacts where
  offersTls13 : Bool := false
  offersAes128Gcm : Bool := false
  offersAes256Gcm : Bool := false
  offersChacha20Poly1305 : Bool := false
  offersServerName : Bool := false
  deriving DecidableEq, Repr

def tls12Aes128GcmSuites : List ℕ := [0xC02B, 0xC02F]

def tls12Aes256GcmSuites : List ℕ := [0xC02C, 0xC030]

def tls12Chacha20Poly1305Suites : List ℕ := [0xCCA8, 0xCCA9]

def suitesLoop : Bytes → ClientHelloKtlsFacts → ClientHelloKtlsFacts
  | hi :: lo :: rest, facts =>
    let suite := beNat [hi, lo]
    suitesLoop rest
      (if tls12Aes128GcmSuites.contains suite then { facts with offersAes128Gcm := true }
      else if tls12Aes256GcmSuites.contains suite then { facts with offersAes256Gcm := true }
      else if tls12Chacha20Poly1305Suites.contains suite then
        { facts with offersChacha20Poly1305 := true }
      else facts)
  | _, facts => facts

/-- The loop over the entries of a list of names; each turn takes three bytes or more. -/
def serverNameLoop (names : Bytes) : ℕ → ℕ → SeenCodePoints → Bool
  | 0, _, _ => true
  | fuel + 1, pos, seen =>
    if pos < names.length then
      let headerEnd := pos + 3
      if names.length < headerEnd then false
      else
        let nameType := byteAt names pos
        let nameLen := u16At names (pos + 1)
        let next := headerEnd + nameLen
        if next > names.length then false
        else
          let (duplicate, seen) := seen.insertIsDuplicate nameType.toNat
          if duplicate then false
          else if nameType = 0 ∧ nameLen = 0 then false
          else serverNameLoop names fuel next seen
    else true

def serverNameExtensionIsWellFormed (data : Bytes) : Bool :=
  if data.length < 2 then false
  else
    let listLen := u16At data 0
    let names := data.drop 2
    if listLen = 0 ∨ names.length ≠ listLen then false
    else serverNameLoop names names.length 0 (.empty nameTypeBitsetWords)

structure ScannedExtensions where
  offersTls13 : Bool := false
  offersServerName : Bool := false
  deriving DecidableEq, Repr

/-- Whether TLS 1.3 is in a list of versions. -/
def versionsLoop : Bytes → Bool
  | hi :: lo :: rest => beNat [hi, lo] == 0x0304 || versionsLoop rest
  | _ => false

/-- The loop over the extensions; each turn takes four bytes or more. -/
def extensionsLoop : ℕ → Bytes → SeenCodePoints → ScannedExtensions → Option ScannedExtensions
  | 0, _, _, scanned => some scanned
  | fuel + 1, ext, seen, scanned =>
    if ext.isEmpty then some scanned
    else if ext.length < 4 then none
    else
      let extType := u16At ext 0
      let extLen := u16At ext 2
      let extensionEnd := 4 + extLen
      if ext.length < extensionEnd then none
      else
        let data := slice ext 4 extensionEnd
        let (duplicate, seen) := seen.insertIsDuplicate extType
        if duplicate then none
        else if extType = 0x0000 ∧ ¬serverNameExtensionIsWellFormed data then none
        else
          let scanned := if extType = 0x0000 then { scanned with offersServerName := true } else scanned
          if extType = 0x002b then
            match data.head? with
            | none => none
            | some listLen =>
              if listLen.toNat < 2 ∨ listLen.toNat % 2 ≠ 0 ∨ data.length ≠ 1 + listLen.toNat then none
              else
                let scanned :=
                  if versionsLoop (data.drop 1) then { scanned with offersTls13 := true } else scanned
                extensionsLoop fuel (ext.drop extensionEnd) seen scanned
          else extensionsLoop fuel (ext.drop extensionEnd) seen scanned

def scanClientHelloExtensions (ext : Bytes) : Option ScannedExtensions :=
  extensionsLoop ext.length ext (.empty extensionTypeBitsetWords) {}

def parseTlsClientHelloKtlsFacts (body : Bytes) : Option ClientHelloKtlsFacts := do
  let pos := 34
  guard (pos ≤ body.length)
  let sessionIdLen ← body[pos]?
  let pos := pos + (1 + sessionIdLen.toNat)
  guard (pos ≤ body.length)
  guard (pos + 2 ≤ body.length)
  let cipherSuitesLen := u16At body pos
  guard (2 ≤ cipherSuitesLen ∧ cipherSuitesLen % 2 = 0)
  let suitesStart := pos + 2
  let suitesEnd := suitesStart + cipherSuitesLen
  guard (suitesEnd ≤ body.length)
  let facts := suitesLoop (slice body suitesStart suitesEnd) {}
  let pos := suitesEnd
  let compressionLen ← body[pos]?
  guard (compressionLen.toNat ≠ 0)
  let pos := pos + (1 + compressionLen.toNat)
  guard (pos ≤ body.length)
  if body.length = pos then return facts
  guard (pos + 2 ≤ body.length)
  let extensionsLen := u16At body pos
  let pos := pos + 2
  let extensionsEnd := pos + extensionsLen
  guard (body.length = extensionsEnd)
  let scanned ← scanClientHelloExtensions (slice body pos extensionsEnd)
  return { facts with
    offersTls13 := scanned.offersTls13
    offersServerName := scanned.offersServerName }

/-- A message with its type and length, of which the whole body has to be there. -/
def parseClientHelloKtlsFacts (handshake : Bytes) : Option ClientHelloKtlsFacts :=
  if handshake.length < 4 ∨ byteAt handshake 0 ≠ 0x01 then none
  else
    let bodyLen := u24ToUsize (handshake.drop 1)
    if handshake.length < 4 + bodyLen then none
    else parseTlsClientHelloKtlsFacts (slice handshake 4 (4 + bodyLen))

/-! ## The lenient parser -/

/-- The loop over the entries of a list of names, up to the first host name. -/
def sniHostnameLoop (names : Bytes) : ℕ → ℕ → Option Bytes
  | 0, _ => none
  | fuel + 1, pos =>
    if pos + 3 ≤ names.length then
      let nameType := byteAt names pos
      let nameLen := u16At names (pos + 1)
      let pos := pos + 3
      if pos + nameLen > names.length then none
      else if nameType = 0x00 then
        let hostname := slice names pos (pos + nameLen)
        if isValidSniDnsHostname hostname then some (hostname.map toAsciiLowercase) else none
      else sniHostnameLoop names fuel (pos + nameLen)
    else none

def parseSniHostname (data : Bytes) : Option Bytes :=
  if data.length < 2 then none
  else
    let listLen := u16At data 0
    if data.length ≠ 2 + listLen then none
    else
      let names := data.drop 2
      sniHostnameLoop names names.length 0

/-- The loop over the extensions, up to the first of server names. -/
def sniExtensionsLoop : ℕ → Bytes → Option Bytes
  | 0, _ => none
  | fuel + 1, ext =>
    if 4 ≤ ext.length then
      let extType := u16At ext 0
      let extLen := u16At ext 2
      if ext.length < 4 + extLen then none
      else if extType = 0x0000 then parseSniHostname (slice ext 4 (4 + extLen))
      else sniExtensionsLoop fuel (ext.drop (4 + extLen))
    else none

def parseSniFromExtensions (ext : Bytes) : Option Bytes := sniExtensionsLoop ext.length ext

def parseTlsClientHelloBody (body : Bytes) : Option Bytes := do
  let pos := 34
  guard (pos ≤ body.length)
  let sessionIdLen ← body[pos]?
  let pos := pos + (1 + sessionIdLen.toNat)
  guard (pos ≤ body.length)
  guard (pos + 2 ≤ body.length)
  let cipherSuitesLen := u16At body pos
  let pos := pos + (2 + cipherSuitesLen)
  guard (pos ≤ body.length)
  let compressionLen ← body[pos]?
  let pos := pos + (1 + compressionLen.toNat)
  guard (pos ≤ body.length)
  guard (pos + 2 ≤ body.length)
  let extensionsLen := u16At body pos
  let pos := pos + 2
  let extensionsEnd := pos + min extensionsLen (body.length - pos)
  parseSniFromExtensions (slice body pos extensionsEnd)

/-- A message with its type and length, of which the body may be cut. -/
def parseClientHelloSni (handshake : Bytes) : Option Bytes :=
  if handshake.length < 4 then none
  else if byteAt handshake 0 ≠ 0x01 then none
  else
    let bodyLen := u24ToUsize (handshake.drop 1)
    parseTlsClientHelloBody (slice handshake 4 (4 + min bodyLen (handshake.length - 4)))

/-! ## Records -/

/-- The loop over the records; each turn takes five bytes or more. -/
def reassembleLoop (data : Bytes) : ℕ → ℕ → Bytes → Bytes
  | 0, _, handshake => handshake
  | fuel + 1, pos, handshake =>
    if pos + 5 ≤ data.length then
      if byteAt data pos ≠ 0x16 then handshake
      else
        let recordLen := u16At data (pos + 3)
        let payloadStart := pos + 5
        let avail := min (data.length - payloadStart) recordLen
        let handshake := handshake ++ slice data payloadStart (payloadStart + avail)
        if avail < recordLen then handshake
        else reassembleLoop data fuel (payloadStart + recordLen) handshake
    else handshake

def reassembleTlsHandshakeRecords (data : Bytes) : Option Bytes :=
  let handshake := reassembleLoop data data.length 0 []
  if handshake.isEmpty then none else some handshake

/-- Parse the handshake message, in place if the first record has all of it. -/
def parseRecords {α : Type} (parse : Bytes → Option α) (data : Bytes) : Option α :=
  if data.length < 5 then none
  else if byteAt data 0 ≠ 0x16 then none
  else
    let recordLen := u16At data 3
    let firstPayload := slice data 5 (5 + min recordLen (data.length - 5))
    if 4 ≤ firstPayload.length ∧ 4 + u24ToUsize (firstPayload.drop 1) ≤ firstPayload.length then
      parse firstPayload
    else (reassembleTlsHandshakeRecords data).bind parse

def clientHelloKtlsFacts (data : Bytes) : Option ClientHelloKtlsFacts :=
  parseRecords parseClientHelloKtlsFacts data

def extractSniFromClientHello (data : Bytes) : Option Bytes := parseRecords parseClientHelloSni data

inductive WireSpan where
  | span (bytes : ℕ)
  | needMore
  | notClientHello
  deriving DecidableEq, Repr

/-- The loop over the records. `header` has the bytes of the message's type and length that were found
    so far. -/
def wireSpanLoop (buf : Bytes) (cap : ℕ) : ℕ → ℕ → ℕ → Bytes → Option ℕ → WireSpan
  | 0, _, _, _, _ => .needMore
  | fuel + 1, pos, handshakeSeen, header, handshakeTotal =>
    if pos + 5 > buf.length then .needMore
    -- a record of another kind in between
    else if byteAt buf pos ≠ 0x16 then .span (max 1 (min pos cap))
    else
      let recordLen := u16At buf (pos + 3)
      let payloadStart := pos + 5
      let recordEnd := payloadStart + recordLen
      let avail := min buf.length recordEnd - payloadStart
      let take := min avail (4 - header.length)
      let filled := header ++ slice buf payloadStart (payloadStart + take)
      if header.length < 4 ∧ 1 ≤ filled.length ∧ byteAt filled 0 ≠ 0x01 then .notClientHello
      else
        let handshakeTotal :=
          if header.length < 4 ∧ filled.length = 4 then some (4 + u24ToUsize (filled.drop 1))
          else handshakeTotal
        let handshakeSeen := handshakeSeen + recordLen
        if handshakeTotal.any (· ≤ handshakeSeen) ∨ cap ≤ recordEnd then .span (min recordEnd cap)
        else wireSpanLoop buf cap fuel recordEnd handshakeSeen filled handshakeTotal

def tlsClienthelloWireSpan (buf : Bytes) (cap : ℕ) : WireSpan :=
  if buf.isEmpty then .needMore
  else if byteAt buf 0 ≠ 0x16 then .notClientHello
  else wireSpanLoop buf cap (buf.length + 1) 0 0 [] none

/-! ## The classification -/

def classifyClientHello (data : Bytes) : ClientHelloSni :=
  match data.head? with
  | none => .indeterminate .truncated
  | some first =>
    if first ≠ 0x16 then .notTls
    else
      match tlsClienthelloWireSpan data maxClientHelloLen with
      | .notClientHello => .notTls
      | .needMore => .indeterminate .truncated
      | .span want =>
        if data.length < want then .indeterminate .truncated
        else
          match clientHelloKtlsFacts data with
          | some facts =>
            match extractSniFromClientHello data with
            | some hostname => .sni hostname
            | none =>
              if facts.offersServerName then .indeterminate .unrepresentableName else .noSni
          | none =>
            if maxClientHelloLen ≤ data.length then .indeterminate .oversized
            else .indeterminate .malformed

end Ferrum.Sni
