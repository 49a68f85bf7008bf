/-
  HTTP/1 requests as they are on the wire.

  * `RequestHead`: empty lines, a request line, header fields and an empty line; a line ends in LF or
    CRLF.
  * `ChunkedBody`: chunks with extensions, the last chunk, and trailers.
  * `Request`: a head that is not too long, whose Content-Length fields agree, and the body that the
    head frames.
  * `Request.verdict`: whether the head has both a Content-Length and a Transfer-Encoding.
-/
import Ferrum.Framing.Wire

namespace Ferrum.Framing

open Lib

/-! ## Heads -/

inductive LineEnd where
  | lf | crlf
  deriving DecidableEq, Repr

def LineEnd.bytes : LineEnd → Bytes
  | .lf => [byte '\n']
  | .crlf => [byte '\r', byte '\n']

/-- A text before a line end: a CR at its end would belong to the line end. -/
def LineText (text : Bytes) : Prop := byte '\n' ∉ text ∧ text.getLast? ≠ some (byte '\r')

instance (text : Bytes) : Decidable (LineText text) := inferInstanceAs (Decidable (_ ∧ _))

def isAlphanumeric (b : UInt8) : Bool :=
  isDigit b || byte 'a' ≤ asciiLowercase b && asciiLowercase b ≤ byte 'z'

/-- The characters of a token. -/
def isTchar (b : UInt8) : Bool := isAlphanumeric b || b ∈ lit "!#$%&'*+-.^_`|~"

structure Field where
  name : Bytes
  value : Bytes
  ending : LineEnd
  token : name ≠ [] ∧ ∀ b ∈ name, isTchar b
  text : LineText value

namespace Field

def line (f : Field) : Bytes := f.name ++ byte ':' :: f.value

def bytes (f : Field) : Bytes := f.line ++ f.ending.bytes

def isContentLength (f : Field) : Bool := eqIgnoreAsciiCase f.name contentLengthName

def isTransferEncoding (f : Field) : Bool := eqIgnoreAsciiCase f.name transferEncodingName

end Field

structure RequestHead where
  leading : List LineEnd
  requestLine : Bytes
  requestEnd : LineEnd
  fields : List Field
  ending : LineEnd
  nonempty : requestLine ≠ []
  text : LineText requestLine

namespace RequestHead

def bytes (h : RequestHead) : Bytes :=
  h.leading.flatMap LineEnd.bytes ++ (h.requestLine ++ h.requestEnd.bytes) ++
    h.fields.flatMap Field.bytes ++ h.ending.bytes

def hasContentLength (h : RequestHead) : Bool := h.fields.any Field.isContentLength

def hasTransferEncoding (h : RequestHead) : Bool := h.fields.any Field.isTransferEncoding

end RequestHead

/-- The number with the decimal digits `digits`. -/
def decimalNat (digits : Bytes) : ℕ := digits.foldl (fun n b => n * 10 + (b - byte '0').toNat) 0

/-- A decimal u64 with white space around it. -/
def ContentLengthValue (value : Bytes) (n : ℕ) : Prop :=
  ∃ before digits after, value = before ++ digits ++ after ∧
    (∀ b ∈ before, isOws b) ∧ (∀ b ∈ digits, isDigit b) ∧ (∀ b ∈ after, isOws b) ∧
    digits ≠ [] ∧ decimalNat digits = n ∧ n < 2 ^ 64

/-! ## Chunked bodies -/

/-- The number with the hexadecimal digits `digits`. -/
def hexNat (digits : Bytes) : ℕ := digits.foldl (fun n b => n * 16 + (hexValue b).getD 0) 0

def crlf : Bytes := LineEnd.crlf.bytes

/-- The line before the data of a chunk. -/
structure ChunkLine where
  digits : Bytes
  space : Bytes
  extension : Option Bytes
  hex : digits ≠ [] ∧ ∀ b ∈ digits, (hexValue b).isSome
  bounded : hexNat digits < 2 ^ 64
  blank : ∀ b ∈ space, isOws b
  plain : ∀ text ∈ extension, byte '\r' ∉ text ∧ byte '\n' ∉ text

namespace ChunkLine

def size (l : ChunkLine) : ℕ := hexNat l.digits

def extensionBytes (l : ChunkLine) : ℕ := (l.extension.getD []).length

def bytes (l : ChunkLine) : Bytes :=
  l.digits ++ l.space ++ l.extension.elim [] (byte ';' :: ·) ++ crlf

end ChunkLine

structure Chunk where
  line : ChunkLine
  data : Bytes
  sized : line.size = data.length
  nonempty : data ≠ []

def Chunk.bytes (c : Chunk) : Bytes := c.line.bytes ++ c.data ++ crlf

/-- The trailers are counted with the CR of their line ends. -/
structure ChunkedBody where
  chunks : List Chunk
  last : ChunkLine
  trailers : List Bytes
  final : last.size = 0
  text : ∀ t ∈ trailers, t ≠ [] ∧ byte '\r' ∉ t
  extensionsFit :
    (chunks.map fun c => c.line.extensionBytes).sum + last.extensionBytes < chunkExtensionLimit
  trailersFit : (trailers.map fun t => t.length + 1).sum < hyperTrailerLimit

def ChunkedBody.bytes (c : ChunkedBody) : Bytes :=
  c.chunks.flatMap Chunk.bytes ++ c.last.bytes ++ c.trailers.flatMap (· ++ crlf) ++ crlf

/-! ## Requests -/

structure Request (maxHeadBytes : ℕ) where
  head : RequestHead
  contentLength : ℕ
  body : Bytes
  headFits : head.bytes.length ≤ maxHeadBytes
  lengths : ∀ f ∈ head.fields, f.isContentLength → ContentLengthValue f.value contentLength
  framed : if head.hasTransferEncoding then ∃ c : ChunkedBody, c.bytes = body
    else body.length = if head.hasContentLength then contentLength else 0

variable {maxHeadBytes : ℕ}

namespace Request

def bytes (r : Request maxHeadBytes) : Bytes := r.head.bytes ++ r.body

/-- The head has both a Content-Length and a Transfer-Encoding. -/
def conflict (r : Request maxHeadBytes) : Bool :=
  r.head.hasContentLength && r.head.hasTransferEncoding

def verdict (r : Request maxHeadBytes) : H1FramingResult :=
  if r.conflict then .conflict else .clear

end Request

def stream (requests : List (Request maxHeadBytes)) : Bytes := requests.flatMap Request.bytes

/-- The number of heads that are complete after `n` bytes. -/
def headsWithin : List (Request maxHeadBytes) → ℕ → ℕ
  | [], _ => 0
  | r :: rs, n =>
    if r.head.bytes.length ≤ n then headsWithin rs (n - r.bytes.length) + 1 else 0

end Ferrum.Framing
