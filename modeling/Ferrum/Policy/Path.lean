/-
  The canonical policy path: the prescan, the decoding pass and the admission check.

  The loops are written over the bytes that remain, with what they have accumulated as
  arguments.
-/
import Ferrum.Lib.Str

namespace Ferrum.Policy

open Lib

/-- Why a request target was refused as a policy path. -/
inductive PolicyPathRejection where
  | invalidEscape
  | doubleEncoding
  | encodedSeparator
  | encodedBackslash
  | literalBackslash
  | encodedControl
  | unrepresentableEscape
  | ambiguousDotSegment
  | literalDotSegment
  deriving DecidableEq, Repr

def PolicyPathRejection.reason : PolicyPathRejection → String
  | .invalidEscape => "invalid_escape"
  | .doubleEncoding => "double_encoding"
  | .encodedSeparator => "encoded_separator"
  | .encodedBackslash => "encoded_backslash"
  | .literalBackslash => "literal_backslash"
  | .encodedControl => "encoded_control"
  | .unrepresentableEscape => "unrepresentable_escape"
  | .ambiguousDotSegment => "ambiguous_dot_segment"
  | .literalDotSegment => "literal_dot_segment"

def isAsciiAlphanumeric (byte : UInt8) : Bool :=
  (0x30 ≤ byte && byte ≤ 0x39) || (0x41 ≤ byte && byte ≤ 0x5a) || (0x61 ≤ byte && byte ≤ 0x7a)

/-- Letters, digits, `-`, `.`, `_` and `~`. -/
def unreserved (byte : UInt8) : Bool :=
  isAsciiAlphanumeric byte || [0x2d, 0x2e, 0x5f, 0x7e].contains byte

/-- `!`, `$`, `&`, `'`, `(`, `)`, `*`, `+`, `,`, `;` and `=`. -/
def subDelims (byte : UInt8) : Bool :=
  [0x21, 0x24, 0x26, 0x27, 0x28, 0x29, 0x2a, 0x2b, 0x2c, 0x3b, 0x3d].contains byte

/-- The table `DECODE_TO_LITERAL`: the bytes whose escapes are decoded. -/
def decodeToLiteral (byte : UInt8) : Bool :=
  unreserved byte || subDelims byte || byte == 0x3a || byte == 0x40

def hexValue (byte : UInt8) : Option UInt8 :=
  if 0x30 ≤ byte ∧ byte ≤ 0x39 then some (byte - 0x30)
  else if 0x61 ≤ byte ∧ byte ≤ 0x66 then some (byte - 0x61 + 10)
  else if 0x41 ≤ byte ∧ byte ≤ 0x46 then some (byte - 0x41 + 10)
  else none

/-- Whether literal bytes are held to the request-path contract, or only escapes are. -/
inductive LiteralStructure where
  | enforced
  | patternOnly
  deriving DecidableEq, Repr

def isDotSegment (segment : Bytes) : Bool := segment == [0x2e] || segment == [0x2e, 0x2e]

/-- Reject a completed `.` or `..` segment, naming whether an escape built it. -/
def checkSegment (canonical : Bytes) (segmentStart : ℕ) (segmentHasEscape : Bool)
    (struct : LiteralStructure) : Except PolicyPathRejection Unit :=
  if struct = .patternOnly then .ok ()
  else if isDotSegment (canonical.drop segmentStart) then
    .error (if segmentHasEscape then .ambiguousDotSegment else .literalDotSegment)
  else .ok ()

inductive Prescan where
  | alreadyCanonical
  | needsDecoding
  deriving DecidableEq, Repr

/-- The loop of `prescan`; `segment` is the current segment so far. -/
def prescanLoop (struct : LiteralStructure) (segment : Bytes) :
    Bytes → Except PolicyPathRejection Prescan
  | [] =>
    if struct = .enforced ∧ isDotSegment segment then .error .literalDotSegment
    else .ok .alreadyCanonical
  | byte :: rest =>
    if byte = 0x25 then .ok .needsDecoding
    else if byte = 0x5c ∧ struct = .enforced then .error .literalBackslash
    else if byte = 0x2f ∧ struct = .enforced then
      if isDotSegment segment then .error .literalDotSegment
      else prescanLoop struct [] rest
    else prescanLoop struct (segment ++ [byte]) rest

def prescan (bytes : Bytes) (struct : LiteralStructure) : Except PolicyPathRejection Prescan :=
  prescanLoop struct [] bytes

/-- Why an escape of `value` is refused, if it is. -/
def escapeRejection (value : UInt8) : Option PolicyPathRejection :=
  if value = 0x25 then some .doubleEncoding
  else if value = 0x2f ∨ value = 0x3f ∨ value = 0x23 then some .encodedSeparator
  else if value = 0x5c then some .encodedBackslash
  else if value ≤ 0x1f ∨ value = 0x7f then some .encodedControl
  else if decodeToLiteral value = false then some .unrepresentableEscape
  else none

/-- The byte an escape with the digits `high` and `low` stands for. -/
def escapeValue (high low : UInt8) : UInt8 := (high <<< 4) ||| low

/-- The values of the two hexadecimal digits at the front. -/
def escapeDigits : Bytes → Option (UInt8 × UInt8)
  | h :: l :: _ =>
    match hexValue h, hexValue l with
    | some high, some low => some (high, low)
    | _, _ => none
  | _ => none

def canonicalizeLoop (struct : LiteralStructure) (canonical : Bytes) (segmentStart : ℕ)
    (segmentHasEscape : Bool) : Bytes → Except PolicyPathRejection Bytes
  | [] =>
    match checkSegment canonical segmentStart segmentHasEscape struct with
    | .error e => .error e
    | .ok () => .ok canonical
  | byte :: rest =>
    if byte = 0x2f then
      match checkSegment canonical segmentStart segmentHasEscape struct with
      | .error e => .error e
      | .ok () =>
        canonicalizeLoop struct (canonical ++ [0x2f]) (canonical ++ [0x2f]).length false rest
    else if byte = 0x5c ∧ struct = .enforced then .error .literalBackslash
    else if byte ≠ 0x25 then
      canonicalizeLoop struct (canonical ++ [byte]) segmentStart segmentHasEscape rest
    else match escapeDigits rest with
      | none => .error .invalidEscape
      | some (high, low) =>
        match escapeRejection (escapeValue high low) with
        | some e => .error e
        | none =>
          canonicalizeLoop struct (canonical ++ [escapeValue high low]) segmentStart true
            (rest.drop 2)
termination_by bs => bs.length

def canonicalize (raw : Str) (struct : LiteralStructure) : Except PolicyPathRejection (Cow Str) :=
  match prescan raw.bytes struct with
  | .error e => .error e
  | .ok .alreadyCanonical => .ok (.borrowed raw)
  | .ok .needsDecoding =>
    match canonicalizeLoop struct [] 0 false raw.bytes with
    | .error e => .error e
    | .ok canonical =>
      match Str.fromUtf8 canonical with
      | some s => .ok (.owned s)
      | none => .error .unrepresentableEscape

/-- The canonical policy path of `raw`, or a refusal of the request target. -/
def canonicalizePolicyPath (raw : Str) : Except PolicyPathRejection (Cow Str) :=
  canonicalize raw .enforced

def reasonFor : Except PolicyPathRejection (Cow Str) → Option String
  | .ok (.borrowed _) => none
  | .ok (.owned _) => some "percent-escapes that canonicalize to a different path"
  | .error rejection => some rejection.reason

/-- Why a configured path is not already canonical. -/
def nonCanonicalPolicyPathReason (path : Str) : Option String :=
  reasonFor (canonicalize path .enforced)

end Ferrum.Policy
