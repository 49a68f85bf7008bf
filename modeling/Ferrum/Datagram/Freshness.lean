/-
  Datagram client-address metadata: the refusals, and the authenticated freshness record.

  The record is a 29-byte TLV value: version (1), sender id (4), epoch (8), sequence (8) and
  timestamp (8), all big-endian.
-/
import Ferrum.Lib.Bytes

namespace Ferrum.Datagram

open Lib

/-- Why a datagram's client-address metadata was refused. -/
inductive DatagramMetadataError where
  | untrustedPeer
  | truncatedHeader (len : ℕ)
  | invalidSignature
  | unsupportedVersion (version : UInt8)
  | unsupportedCommand (command : UInt8)
  | addressBlockTooLong (len : ℕ)
  | truncatedAddressBlock (declared available : ℕ)
  | unsupportedAddressFamily (family : UInt8)
  | nonDatagramTransport (transport : UInt8)
  | addressBlockTooShortForFamily (family : UInt8) (len : ℕ)
  | malformedTlv
  | duplicateAuthenticationTag
  | missingAuthenticationTag
  | invalidAuthenticationTagLength (len : ℕ)
  | authenticationTagMismatch
  | authenticationKeyUnavailable
  | forwardedClientChanged
  | listenerBindingMismatch
  | missingFreshness
  | duplicateFreshness
  | malformedFreshness
  | unsupportedFreshnessVersion (version : UInt8)
  | freshnessOutsideHorizon
  | replayDuplicate
  | replayStale
  | replayEpochStale
  | replaySequenceExhausted
  | replayStateCapacity
  deriving DecidableEq, Repr

/-- The freshness record of an authenticated envelope. -/
@[ext] structure DatagramFreshness where
  senderId : ℕ
  epoch : ℕ
  sequence : ℕ
  timestampMs : ℕ
  deriving DecidableEq, Repr

def freshnessVersion : UInt8 := 0x01
def freshnessTlvType : UInt8 := 0xE1
def freshnessValueLen : ℕ := 29

namespace DatagramFreshness

def encodeValue (f : DatagramFreshness) : Bytes :=
  freshnessVersion :: (beBytes 4 f.senderId ++ (beBytes 8 f.epoch ++
    (beBytes 8 f.sequence ++ beBytes 8 f.timestampMs)))

def encodeTlv (f : DatagramFreshness) : Bytes :=
  freshnessTlvType :: (beBytes 2 freshnessValueLen ++ f.encodeValue)

def decodeValue (value : Bytes) : Except DatagramMetadataError DatagramFreshness :=
  if value.length ≠ freshnessValueLen then .error .malformedFreshness
  else
    let version := value.headD 0
    if version ≠ freshnessVersion then .error (.unsupportedFreshnessVersion version)
    else .ok
      { senderId := beNat (slice value 1 5)
        epoch := beNat (slice value 5 13)
        sequence := beNat (slice value 13 21)
        timestampMs := beNat (slice value 21 29) }

end DatagramFreshness

end Ferrum.Datagram
