/-
  The scanner for request heads on the wire.

  It is fed one byte after the other, keeps no text of the head but the end of the request line, and
  says at the empty line whether the head has both a Content-Length and a Transfer-Encoding, and how
  the body is framed.  On the way it names reasons for which the head will be rejected; they are
  returned with the step, in the order in which they are stored.
-/
import Ferrum.Framing.Signals
import Ferrum.Lib.Str

namespace Ferrum.Framing

open Lib

def isOws (b : UInt8) : Bool := b == byte ' ' || b == byte '\t'

def isDigit (b : UInt8) : Bool := byte '0' ≤ b && b ≤ byte '9'

/-! ## The value of a Content-Length -/

inductive ContentLengthPhase where
  | leadingOws | digits | trailingOws | invalid
  deriving DecidableEq, Repr

structure ContentLengthScanner where
  phase : ContentLengthPhase := .leadingOws
  value : ℕ := 0

/-- `value * 10 + digit`, if it is a u64. -/
def ContentLengthScanner.digit (s : ContentLengthScanner) (b : UInt8) : ContentLengthScanner :=
  let value := s.value * 10 + (b - byte '0').toNat
  if value < 2 ^ 64 then ⟨.digits, value⟩ else { s with phase := .invalid }

def ContentLengthScanner.observe (s : ContentLengthScanner) (b : UInt8) : ContentLengthScanner :=
  match s.phase with
  | .leadingOws =>
    if isOws b then s else if isDigit b then s.digit b else { s with phase := .invalid }
  | .digits =>
    if isDigit b then s.digit b
    else if isOws b then { s with phase := .trailingOws }
    else { s with phase := .invalid }
  | .trailingOws => if isOws b then s else { s with phase := .invalid }
  | .invalid => s

def ContentLengthScanner.finish (s : ContentLengthScanner) : Option ℕ :=
  match s.phase with
  | .digits | .trailingOws => some s.value
  | .leadingOws | .invalid => none

/-! ## The text of the request line -/

def utf8CharWidth (b : UInt8) : ℕ :=
  if b < 0x80 then 1
  else if 0xC2 ≤ b ∧ b ≤ 0xDF then 2
  else if 0xE0 ≤ b ∧ b ≤ 0xEF then 3
  else if 0xF0 ≤ b ∧ b ≤ 0xF4 then 4
  else 0

/-- The bytes that may come second in a character of three or four bytes. -/
def utf8Second (first b : UInt8) : Bool :=
  if first = 0xE0 then 0xA0 ≤ b && b ≤ 0xBF
  else if first = 0xED then 0x80 ≤ b && b ≤ 0x9F
  else if first = 0xF0 then 0x90 ≤ b && b ≤ 0xBF
  else if first = 0xF4 then 0x80 ≤ b && b ≤ 0x8F
  else 0x80 ≤ b && b ≤ 0xBF

/-- `error_len().is_none()`: the bytes end within a character. -/
def utf8Incomplete : Bytes → Bool
  | [b₀] => 2 ≤ utf8CharWidth b₀
  | [b₀, b₁] => 3 ≤ utf8CharWidth b₀ && utf8Second b₀ b₁
  | [b₀, b₁, b₂] => utf8CharWidth b₀ == 4 && utf8Second b₀ b₁ && 0x80 ≤ b₂ && b₂ ≤ 0xBF
  | _ => false

structure RequestLineUtf8 where
  partial_ : Bytes := []
  invalid : Bool := false

def RequestLineUtf8.observe (u : RequestLineUtf8) (b : UInt8) : RequestLineUtf8 :=
  if u.invalid then u
  else if 4 ≤ u.partial_.length then { u with invalid := true }
  else
    let slice := u.partial_ ++ [b]
    if IsUtf8 slice then { u with partial_ := [] }
    else if utf8Incomplete slice then { u with partial_ := slice }
    else { partial_ := slice, invalid := true }

def RequestLineUtf8.finishOk (u : RequestLineUtf8) : Bool := !u.invalid && u.partial_.isEmpty

/-! ## The head -/

inductive CurrentHeader where
  | name | contentLength | other
  deriving DecidableEq, Repr

inductive BodyFraming where
  | none
  | fixed (length : ℕ)
  | chunked
  | invalid
  deriving DecidableEq, Repr

structure HeadOutcome where
  conflict : Bool
  framing : BodyFraming
  deriving DecidableEq, Repr

inductive HeadStep where
  | continue_
  | complete (outcome : HeadOutcome)
  | disable
  deriving DecidableEq, Repr

structure HeadScanner where
  maxBytes : ℕ
  bytesSeen : ℕ := 0
  requestLine : Bool := true
  lineHasData : Bool := false
  pendingCr : Bool := false
  currentHeader : CurrentHeader := .name
  nameLen : ℕ := 0
  contentLengthCandidate : Bool := true
  transferEncodingCandidate : Bool := true
  contentLengthValue : ContentLengthScanner := {}
  canonicalContentLength : Option ℕ := none
  contentLengthValid : Bool := true
  seenContentLength : Bool := false
  seenTransferEncoding : Bool := false
  conflict : Bool := false
  http10Request : Bool := false
  requestLineUtf8 : RequestLineUtf8 := {}
  requestLineTail : Bytes := .replicate 12 0
  requestLineTailLen : ℕ := 0

/-- A scanner after a step, and the parse-reject hints it stored. -/
structure HeadObserved where
  head : HeadScanner
  step : HeadStep
  hints : List UInt8 := []

def contentLengthName : Bytes := lit "content-length"
def transferEncodingName : Bytes := lit "transfer-encoding"
def http10Version : Bytes := lit "HTTP/1.0"

def patternByteMatches (pattern : Bytes) (index : ℕ) (b : UInt8) : Bool :=
  pattern[index]?.any fun expected => asciiLowercase expected == asciiLowercase b

namespace HeadScanner

/-- The last twelve bytes of the request line. -/
def pushTail (h : HeadScanner) (b : UInt8) : HeadScanner :=
  if h.requestLineTailLen < 12 then
    { h with
      requestLineTail := h.requestLineTail.set h.requestLineTailLen b
      requestLineTailLen := h.requestLineTailLen + 1 }
  else { h with requestLineTail := h.requestLineTail.tail ++ [b] }

/-- The end of a header name. -/
def observeColon (h : HeadScanner) : HeadScanner :=
  let h :=
    if h.contentLengthCandidate && h.nameLen == contentLengthName.length then
      { h with
        currentHeader := .contentLength
        contentLengthValue := {}
        seenContentLength := true }
    else
      { h with
        currentHeader := .other
        seenTransferEncoding := h.seenTransferEncoding ||
          (h.transferEncodingCandidate && h.nameLen == transferEncodingName.length) }
  { h with conflict := h.seenContentLength && h.seenTransferEncoding }

def observeLineByte (h : HeadScanner) (b : UInt8) : HeadScanner :=
  let h := { h with lineHasData := true }
  if h.requestLine then
    { h with requestLineUtf8 := h.requestLineUtf8.observe b }.pushTail b
  else if h.conflict then h
  else
    match h.currentHeader with
    | .name =>
      if b = byte ':' then h.observeColon
      else
        { h with
          contentLengthCandidate :=
            h.contentLengthCandidate && patternByteMatches contentLengthName h.nameLen b
          transferEncodingCandidate :=
            h.transferEncodingCandidate && patternByteMatches transferEncodingName h.nameLen b
          nameLen := h.nameLen + 1 }
    | .contentLength => { h with contentLengthValue := h.contentLengthValue.observe b }
    | .other => h

def utf8Hints (h : HeadScanner) : List UInt8 :=
  if h.requestLine && h.requestLineUtf8.invalid then [parseHintInvalidRequestTargetUtf8] else []

def http10Hints (h : HeadScanner) : List UInt8 :=
  if h.http10Request && h.seenTransferEncoding then [parseHintHttp10TransferEncoding] else []

def framing (h : HeadScanner) : BodyFraming :=
  if h.seenTransferEncoding then .chunked
  else if !h.contentLengthValid then .invalid
  else
    match h.canonicalContentLength with
    | some length => if length = 0 then .none else .fixed length
    | none => .none

/-- The value of the line that ends goes to the canonical length. -/
def finishContentLength (h : HeadScanner) : HeadScanner × List UInt8 :=
  match h.contentLengthValue.finish with
  | some value =>
    if h.canonicalContentLength.isNone || h.canonicalContentLength == some value then
      ({ h with canonicalContentLength := some value }, [])
    else ({ h with contentLengthValid := false }, [parseHintConflictingContentLength])
  | none => ({ h with contentLengthValid := false }, [])

/-- A line with data ends. -/
def finishDataLine (h : HeadScanner) : HeadScanner × List UInt8 :=
  if h.requestLine then
    ({ h with
      requestLine := false
      http10Request := (List.range 5).any fun i =>
        eqIgnoreAsciiCase ((h.requestLineTail.drop i).take http10Version.length) http10Version },
      if h.requestLineUtf8.finishOk then [] else [parseHintInvalidRequestTargetUtf8])
  else if h.currentHeader = .contentLength ∧ h.conflict = false then h.finishContentLength
  else (h, [])

def finishLine (h : HeadScanner) : HeadObserved :=
  if !h.lineHasData then
    if h.requestLine then ⟨h, .continue_, []⟩
    else ⟨h, .complete ⟨h.conflict, h.framing⟩, h.http10Hints⟩
  else
    let (h, hints) := h.finishDataLine
    ⟨{ h with
        lineHasData := false
        currentHeader := .name
        nameLen := 0
        contentLengthCandidate := true
        transferEncodingCandidate := true
        requestLineTailLen := 0 }, .continue_, hints ++ h.http10Hints⟩

/-- A byte that no CR is pending before. -/
def observeByte (h : HeadScanner) (b : UInt8) : HeadObserved :=
  if b = byte '\r' then ⟨{ h with pendingCr := true }, .continue_, []⟩
  else if b = byte '\n' then h.finishLine
  else
    let h := h.observeLineByte b
    ⟨h, .continue_, h.utf8Hints⟩

def observe (h : HeadScanner) (b : UInt8) : HeadObserved :=
  let h := { h with bytesSeen := h.bytesSeen + 1 }
  if h.maxBytes < h.bytesSeen then ⟨h, .disable, []⟩
  else if h.pendingCr then
    let h := { h with pendingCr := false }
    if b = byte '\n' then h.finishLine
    else
      -- the CR was not the start of a line end
      let h := h.observeLineByte (byte '\r')
      let observed := h.observeByte b
      { observed with hints := h.utf8Hints ++ observed.hints }
  else h.observeByte b

end HeadScanner

end Ferrum.Framing
