/-
  The lexemes of the scanner for duplicate object member names in JSON documents.

  An index into the document is modelled by the bytes from there on.

  * `readString`, `readNumber`, `expectLiteral`, `readScalar`.
  * `decodeMemberName`, `readMemberName`.
-/
import Ferrum.Lib.Str

namespace Ferrum.Json

open Lib

inductive JsonScanReject where
  | duplicateKey | depthExceeded | tokenBudgetExceeded | memberBudgetExceeded | keyTooLong
  | tooLarge | malformed | invalidSurrogate
  deriving DecidableEq, Repr

structure JsonScanLimits where
  maxBytes : ℕ
  maxDepth : ℕ
  maxTokens : ℕ
  maxObjectMembers : ℕ
  maxKeyBytes : ℕ
  deriving DecidableEq, Repr

/-! ## Lexemes -/

def isWhitespace (b : UInt8) : Bool :=
  b == byte ' ' || b == byte '\t' || b == byte '\n' || b == byte '\r'

def isDigit (b : UInt8) : Bool := byte '0' ≤ b && b ≤ byte '9'

def skipWhitespace (rest : Bytes) : Bytes := rest.dropWhile isWhitespace

def expectLiteral (literal rest : Bytes) : Except JsonScanReject Bytes :=
  if rest.take literal.length = literal then .ok (rest.drop literal.length) else .error .malformed

def hexDigit (b : UInt8) : Option ℕ :=
  if byte '0' ≤ b && b ≤ byte '9' then some (b - byte '0').toNat
  else if byte 'a' ≤ b && b ≤ byte 'f' then some ((b - byte 'a').toNat + 10)
  else if byte 'A' ≤ b && b ≤ byte 'F' then some ((b - byte 'A').toNat + 10)
  else none

/-- The number of the first four bytes. -/
def readHex4 : Bytes → Except JsonScanReject ℕ
  | b₁ :: b₂ :: b₃ :: b₄ :: _ =>
    match hexDigit b₁, hexDigit b₂, hexDigit b₃, hexDigit b₄ with
    | some d₁, some d₂, some d₃, some d₄ => .ok (((d₁ * 16 + d₂) * 16 + d₃) * 16 + d₄)
    | _, _, _, _ => .error .malformed
  | _ => .error .malformed

def isHighSurrogate (code : ℕ) : Bool := 0xD800 ≤ code && code < 0xDC00

def isLowSurrogate (code : ℕ) : Bool := 0xDC00 ≤ code && code < 0xE000

def isSimpleEscape (b : UInt8) : Bool :=
  b == byte '"' || b == byte '\\' || b == byte '/' || b == byte 'b' || b == byte 'f' ||
    b == byte 'n' || b == byte 'r' || b == byte 't'

/-- What is after the backslash of an escape: its text, and what is behind it. -/
def readEscape (rest : Bytes) : Except JsonScanReject (Bytes × Bytes) :=
  match rest with
  | [] => .error .malformed
  | escape :: rest =>
    if isSimpleEscape escape then .ok ([escape], rest)
    else if escape = byte 'u' then do
      let code ← readHex4 rest
      if isHighSurrogate code then
        -- a low surrogate must follow
        if (rest.drop 4).take 2 ≠ [byte '\\', byte 'u'] then .error .invalidSurrogate
        else
          let low ← readHex4 (rest.drop 6)
          if isLowSurrogate low then .ok (escape :: rest.take 10, rest.drop 10)
          else .error .invalidSurrogate
      else if isLowSurrogate code then .error .invalidSurrogate
      else .ok (escape :: rest.take 4, rest.drop 4)
    else .error .malformed

theorem length_readEscape {rest text rest' : Bytes} (h : readEscape rest = .ok (text, rest')) :
    rest'.length ≤ rest.length := by
  cases rest with
  | nil => cases h
  | cons escape rest =>
    simp only [readEscape, bind, Except.bind] at h
    repeat' split at h
    all_goals cases h
    all_goals simp only [List.length_cons, List.length_drop]; omega

/-- A string that was read: its text before the closing quote, whether there is an escape in it,
    and what is after the quote. -/
structure Read where
  raw : Bytes
  hasEscape : Bool
  rest : Bytes

def Read.push (text : Bytes) (escape : Bool) (r : Read) : Read :=
  { r with raw := text ++ r.raw, hasEscape := escape || r.hasEscape }

/-- The loop of `read_string`, up to the closing quote. -/
def stringBody (rest : Bytes) : Except JsonScanReject Read :=
  match rest with
  | [] => .error .malformed
  | b :: rest =>
    if b = byte '"' then .ok ⟨[], false, rest⟩
    else if b = byte '\\' then
      match _h : readEscape rest with
      | .error reject => .error reject
      | .ok (text, rest') => (stringBody rest').map (.push (b :: text) true)
    else if b < 0x20 then .error .malformed
    else (stringBody rest).map (.push [b] false)
termination_by rest.length
decreasing_by
  · exact Nat.lt_succ_of_le (length_readEscape ‹_›)
  · exact Nat.lt_succ_self _

def readString (rest : Bytes) : Except JsonScanReject Read :=
  match rest with
  | b :: rest =>
    if b = byte '"' then do
      let r ← stringBody rest
      if IsUtf8 r.raw then .ok r else .error .malformed
    else .error .malformed
  | [] => .error .malformed

/-- `char::from_u32`. -/
def fromU32 (scalar : ℕ) : Option Char :=
  if scalar.isValidChar then some (Char.ofNat scalar) else none

def simpleEscape (b : UInt8) : Option Char :=
  if b = byte '"' then some '"'
  else if b = byte '\\' then some '\\'
  else if b = byte '/' then some '/'
  else if b = byte 'b' then some '\x08'
  else if b = byte 'f' then some '\x0C'
  else if b = byte 'n' then some '\n'
  else if b = byte 'r' then some '\r'
  else if b = byte 't' then some '\t'
  else none

/-- The scalar of a pair of surrogates. -/
def pairScalar (code low : ℕ) : ℕ := 0x10000 + (code - 0xD800) * 1024 + (low - 0xDC00)

/-- The character of a `\u` escape, and what is behind it. -/
def decodeUnicode (rest : Bytes) : Char × Bytes :=
  let code := (readHex4 rest).toOption.getD 0
  if isHighSurrogate code then
    let low := (readHex4 (rest.drop 6)).toOption.getD 0xDC00
    ((fromU32 (pairScalar code low)).getD '�', rest.drop 10)
  else ((fromU32 code).getD '�', rest.drop 4)

theorem length_decodeUnicode (rest : Bytes) : (decodeUnicode rest).2.length ≤ rest.length := by
  simp only [decodeUnicode, apply_ite Prod.snd, apply_ite List.length, List.length_drop]
  split <;> exact Nat.sub_le _ _

def decodeLoop : Bytes → Bytes
  | [] => []
  | b :: rest =>
    if b ≠ byte '\\' then b :: decodeLoop rest
    else
      match rest with
      | [] => []
      | escape :: rest =>
        match simpleEscape escape with
        | some c => String.utf8EncodeChar c ++ decodeLoop rest
        | none =>
          if escape = byte 'u' then
            String.utf8EncodeChar (decodeUnicode rest).1 ++ decodeLoop (decodeUnicode rest).2
          else decodeLoop rest
termination_by raw => raw.length
decreasing_by
  all_goals
    have := length_decodeUnicode rest
    simp only [List.length_cons]
    omega

def decodeMemberName (raw : Bytes) (hasEscape : Bool) : Bytes :=
  if !hasEscape then raw else decodeLoop raw

/-- A member name, and what is after its colon. -/
structure MemberName where
  duplicate : Bool
  names : List Bytes
  memberCount : ℕ
  rest : Bytes

def readMemberName (limits : JsonScanLimits) (names : List Bytes) (memberCount : ℕ)
    (rest : Bytes) : Except JsonScanReject MemberName := do
  let r ← readString rest
  if limits.maxKeyBytes < r.raw.length then .error .keyTooLong
  else
    match skipWhitespace r.rest with
    | b :: rest =>
      if b ≠ byte ':' then .error .malformed
      else
        let rest := skipWhitespace rest
        if limits.maxObjectMembers ≤ memberCount then .error .memberBudgetExceeded
        else
          let name := decodeMemberName r.raw r.hasEscape
          .ok ⟨decide (name ∈ names), names.insert name, memberCount + 1, rest⟩
    | [] => .error .malformed

/-- The byte, if it is here, is skipped. -/
def skipOne (p : UInt8 → Bool) : Bytes → Bytes
  | b :: rest => if p b then rest else b :: rest
  | [] => []

def readFraction (rest : Bytes) : Except JsonScanReject Bytes :=
  match rest with
  | b :: digits =>
    if b = byte '.' then
      if digits.head?.any isDigit then .ok (digits.dropWhile isDigit) else .error .malformed
    else .ok rest
  | [] => .ok rest

def readExponent (rest : Bytes) : Except JsonScanReject Bytes :=
  match rest with
  | b :: digits =>
    if b = byte 'e' ∨ b = byte 'E' then
      let digits := skipOne (fun sign => sign == byte '+' || sign == byte '-') digits
      if digits.head?.any isDigit then .ok (digits.dropWhile isDigit) else .error .malformed
    else .ok rest
  | [] => .ok rest

def readInteger (rest : Bytes) : Except JsonScanReject Bytes :=
  match rest with
  | b :: digits =>
    if b = byte '0' then .ok digits
    else if isDigit b then .ok (digits.dropWhile isDigit)
    else .error .malformed
  | [] => .error .malformed

def readNumber (rest : Bytes) : Except JsonScanReject Bytes := do
  let rest ← readInteger (skipOne (· == byte '-') rest)
  let rest ← readFraction rest
  readExponent rest

/-- A value that is no container. -/
def readScalar (rest : Bytes) : Except JsonScanReject Bytes :=
  match rest with
  | [] => .error .malformed
  | b :: _ =>
    if b = byte '"' then (readString rest).map Read.rest
    else if b = byte 't' then expectLiteral [byte 't', byte 'r', byte 'u', byte 'e'] rest
    else if b = byte 'f' then
      expectLiteral [byte 'f', byte 'a', byte 'l', byte 's', byte 'e'] rest
    else if b = byte 'n' then expectLiteral [byte 'n', byte 'u', byte 'l', byte 'l'] rest
    else readNumber rest

end Ferrum.Json
