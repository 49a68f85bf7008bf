/-
  JSON texts: the grammar of RFC 8259 over bytes.

  A phrase of the grammar is related to the bytes it starts at and to those behind it.  White space
  stands between the tokens, and around the value of a text.  A member of an object has its name as
  it is written and as it is read, with its escapes decoded.

  * `IsNumber`, `StringBody`: lexemes.
  * `Derives`: values, the items of an array and the members of an object, up to the bracket.
  * `JsonText`.
  * `JsonValue.depth`, `tokens`, `members`, `nameBytes`, `duplicate`: what a document measures.
-/
import Ferrum.Lib.Str

namespace Ferrum.Lib

open List

/-! ## Lexemes -/

def IsWs (b : UInt8) : Prop := b = 0x20 ∨ b = 0x09 ∨ b = 0x0A ∨ b = 0x0D

/-- White space, from `t` up to `r`. -/
def Ws (t r : Bytes) : Prop := ∃ w, (∀ b ∈ w, IsWs b) ∧ t = w ++ r

def IsDigits (ds : Bytes) : Prop := ds ≠ [] ∧ ∀ b ∈ ds, 0x30 ≤ b ∧ b ≤ 0x39

/-- A zero, or digits of which the first is not zero. -/
def IsInt (int : Bytes) : Prop :=
  int = [0x30] ∨ IsDigits int ∧ int.head? ≠ some 0x30

def IsFrac (frac : Bytes) : Prop := ∃ ds, IsDigits ds ∧ frac = 0x2E :: ds

def IsExp (exp : Bytes) : Prop :=
  ∃ e sign ds, (e = 0x65 ∨ e = 0x45) ∧ (sign = [] ∨ sign = [0x2B] ∨ sign = [0x2D]) ∧
    IsDigits ds ∧ exp = e :: sign ++ ds

/-- An optional minus, an integer, an optional fraction and an optional exponent. -/
def IsNumber (number : Bytes) : Prop :=
  ∃ minus int frac exp, (minus = [] ∨ minus = [0x2D]) ∧ IsInt int ∧ (frac = [] ∨ IsFrac frac) ∧
    (exp = [] ∨ IsExp exp) ∧ number = minus ++ int ++ frac ++ exp

def hexVal (b : UInt8) : Option ℕ :=
  if 0x30 ≤ b ∧ b ≤ 0x39 then some (b.toNat - 0x30)
  else if 0x61 ≤ b ∧ b ≤ 0x66 then some (b.toNat - 0x61 + 10)
  else if 0x41 ≤ b ∧ b ≤ 0x46 then some (b.toNat - 0x41 + 10)
  else none

/-- Four hexadecimal digits, of the number `code`. -/
def IsHex4 (quad : Bytes) (code : ℕ) : Prop :=
  ∃ b₁ b₂ b₃ b₄ d₁ d₂ d₃ d₄, quad = [b₁, b₂, b₃, b₄] ∧
    hexVal b₁ = some d₁ ∧ hexVal b₂ = some d₂ ∧ hexVal b₃ = some d₃ ∧ hexVal b₄ = some d₄ ∧
    code = d₁ * 16 ^ 3 + d₂ * 16 ^ 2 + d₃ * 16 + d₄

/-- The characters with an escape of two bytes. -/
def escapes : List (UInt8 × Char) :=
  [(0x22, '"'), (0x5C, '\\'), (0x2F, '/'), (0x62, '\x08'), (0x66, '\x0C'), (0x6E, '\n'),
    (0x72, '\r'), (0x74, '\t')]

/-- The character of a pair of surrogates. -/
def pairChar (high low : ℕ) : Char :=
  Char.ofNat (0x10000 + (high - 0xD800) * 1024 + (low - 0xDC00))

/-- An escape without its backslash, and the character it stands for. -/
inductive IsEscape : Bytes → Char → Prop
  | simple (e : UInt8) (c : Char) : (e, c) ∈ escapes → IsEscape [e] c
  | unicode (quad : Bytes) (code : ℕ) : IsHex4 quad code → code < 0xD800 ∨ 0xE000 ≤ code →
    IsEscape (0x75 :: quad) (Char.ofNat code)
  | pair (quad quad' : Bytes) (high low : ℕ) : IsHex4 quad high → IsHex4 quad' low →
    0xD800 ≤ high → high < 0xDC00 → 0xDC00 ≤ low → low < 0xE000 →
    IsEscape (0x75 :: (quad ++ 0x5C :: 0x75 :: quad')) (pairChar high low)

theorem hexVal_ascii {b : UInt8} {d : ℕ} (h : hexVal b = some d) : b.toNat < 0x80 := by
  unfold hexVal at h
  split_ifs at h with h1 h2 h3
  · exact Nat.lt_of_le_of_lt (UInt8.le_iff_toNat_le.1 h1.2) (by decide)
  · exact Nat.lt_of_le_of_lt (UInt8.le_iff_toNat_le.1 h2.2) (by decide)
  · exact Nat.lt_of_le_of_lt (UInt8.le_iff_toNat_le.1 h3.2) (by decide)

theorem IsHex4.ascii {quad : Bytes} {code : ℕ} (h : IsHex4 quad code) : Ascii quad := by
  obtain ⟨b₁, b₂, b₃, b₄, d₁, d₂, d₃, d₄, rfl, h₁, h₂, h₃, h₄, -⟩ := h
  simp only [ascii_cons, ascii_nil, and_true]
  exact ⟨hexVal_ascii h₁, hexVal_ascii h₂, hexVal_ascii h₃, hexVal_ascii h₄⟩

theorem IsEscape.ascii {text : Bytes} {c : Char} (h : IsEscape text c) : Ascii text := by
  cases h with
  | simple e c hc =>
    simp only [escapes, mem_cons, Prod.mk.injEq, not_mem_nil, or_false] at hc
    rw [ascii_cons]
    refine ⟨?_, ascii_nil⟩
    rcases hc with h | h | h | h | h | h | h | h <;> rw [h.1] <;> decide
  | unicode quad code hq hcd => exact ascii_cons.2 ⟨by decide, IsHex4.ascii hq⟩
  | pair quad quad' high low hq hq' h₁ h₂ h₃ h₄ =>
    refine ascii_cons.2 ⟨by decide, fun b hb => ?_⟩
    rcases mem_append.1 hb with hb | hb
    · exact IsHex4.ascii hq b hb
    · exact ascii_cons.2 ⟨by decide, ascii_cons.2 ⟨by decide, IsHex4.ascii hq'⟩⟩ b hb

theorem IsEscape.ne_nil {text : Bytes} {c : Char} (h : IsEscape text c) : text ≠ [] := by
  cases h <;> exact cons_ne_nil _ _

/-- What is behind an escape starts at a character. -/
theorem IsUtf8.of_escape {text rest : Bytes} {c : Char} (h : IsEscape text c)
    (hu : IsUtf8 (text ++ rest)) : IsUtf8 rest := by
  obtain ⟨w, b, rfl⟩ := (eq_nil_or_concat text).resolve_left h.ne_nil
  rw [concat_append] at hu
  exact (hu.split_ascii (h.ascii b (by simp))).2

/-- The text between the quotes of a string, and the string it stands for. -/
inductive StringBody : Bytes → Bytes → Prop
  | nil : StringBody [] []
  | unescaped (c : Char) {raw name : Bytes} : 0x20 ≤ c.toNat → c ≠ '"' → c ≠ '\\' →
    StringBody raw name →
    StringBody (String.utf8EncodeChar c ++ raw) (String.utf8EncodeChar c ++ name)
  | escape (text : Bytes) (c : Char) {raw name : Bytes} : IsEscape text c → StringBody raw name →
    StringBody (0x5C :: (text ++ raw)) (String.utf8EncodeChar c ++ name)

/-! ## Values -/

mutual

inductive JsonValue where
  | null
  | true_
  | false_
  | number (lexeme : Bytes)
  | string (raw : Bytes)
  | array (items : JsonItems)
  | object (members : JsonMembers)

inductive JsonItems where
  | nil
  | cons (v : JsonValue) (vs : JsonItems)

/-- Members, with their names as they are written and as they are read. -/
inductive JsonMembers where
  | nil
  | cons (raw name : Bytes) (v : JsonValue) (ms : JsonMembers)

end

inductive JsonPhrase where
  | value (v : JsonValue)
  | items (vs : JsonItems)
  | members (ms : JsonMembers)

/-- The phrase stands between `t` and `r`; items and members with their closing bracket. -/
inductive Derives : JsonPhrase → Bytes → Bytes → Prop
  | null {r : Bytes} : Derives (.value .null) ([0x6E, 0x75, 0x6C, 0x6C] ++ r) r
  | true_ {r : Bytes} : Derives (.value .true_) ([0x74, 0x72, 0x75, 0x65] ++ r) r
  | false_ {r : Bytes} : Derives (.value .false_) ([0x66, 0x61, 0x6C, 0x73, 0x65] ++ r) r
  | number {lexeme r : Bytes} : IsNumber lexeme →
    Derives (.value (.number lexeme)) (lexeme ++ r) r
  | string {raw name r : Bytes} : StringBody raw name →
    Derives (.value (.string raw)) (0x22 :: (raw ++ 0x22 :: r)) r
  | emptyArray {t r : Bytes} : Ws t (0x5D :: r) → Derives (.value (.array .nil)) (0x5B :: t) r
  | array {vs : JsonItems} {t t' r : Bytes} : Ws t t' → Derives (.items vs) t' r →
    Derives (.value (.array vs)) (0x5B :: t) r
  | lastItem {v : JsonValue} {t t' r : Bytes} : Derives (.value v) t t' → Ws t' (0x5D :: r) →
    Derives (.items (.cons v .nil)) t r
  | moreItems {v : JsonValue} {vs : JsonItems} {t t₁ t₂ t₃ r : Bytes} : Derives (.value v) t t₁ →
    Ws t₁ (0x2C :: t₂) → Ws t₂ t₃ → Derives (.items vs) t₃ r → Derives (.items (.cons v vs)) t r
  | emptyObject {t r : Bytes} : Ws t (0x7D :: r) → Derives (.value (.object .nil)) (0x7B :: t) r
  | object {ms : JsonMembers} {t t' r : Bytes} : Ws t t' → Derives (.members ms) t' r →
    Derives (.value (.object ms)) (0x7B :: t) r
  | lastMember {raw name : Bytes} {v : JsonValue} {t t₁ t₂ t₃ r : Bytes} : StringBody raw name →
    Ws t (0x3A :: t₁) → Ws t₁ t₂ → Derives (.value v) t₂ t₃ → Ws t₃ (0x7D :: r) →
    Derives (.members (.cons raw name v .nil)) (0x22 :: (raw ++ 0x22 :: t)) r
  | moreMembers {raw name : Bytes} {v : JsonValue} {ms : JsonMembers} {t t₁ t₂ t₃ t₄ t₅ r : Bytes} :
    StringBody raw name → Ws t (0x3A :: t₁) → Ws t₁ t₂ → Derives (.value v) t₂ t₃ →
    Ws t₃ (0x2C :: t₄) → Ws t₄ t₅ → Derives (.members ms) t₅ r →
    Derives (.members (.cons raw name v ms)) (0x22 :: (raw ++ 0x22 :: t)) r

/-- A text: a value with white space around it. -/
def JsonText (text : Bytes) (v : JsonValue) : Prop :=
  ∃ t r, Ws text t ∧ Derives (.value v) t r ∧ Ws r []

/-! ## Measures -/

mutual

/-- How deep containers are nested. -/
def JsonValue.depth : JsonValue → ℕ
  | .array vs => vs.depth + 1
  | .object ms => ms.depth + 1
  | _ => 0

def JsonItems.depth : JsonItems → ℕ
  | .nil => 0
  | .cons v vs => max v.depth vs.depth

def JsonMembers.depth : JsonMembers → ℕ
  | .nil => 0
  | .cons _ _ v ms => max v.depth ms.depth

end

mutual

/-- How many values and member names there are. -/
def JsonValue.tokens : JsonValue → ℕ
  | .array vs => vs.tokens + 1
  | .object ms => ms.tokens + 1
  | _ => 1

def JsonItems.tokens : JsonItems → ℕ
  | .nil => 0
  | .cons v vs => v.tokens + vs.tokens

def JsonMembers.tokens : JsonMembers → ℕ
  | .nil => 0
  | .cons _ _ v ms => v.tokens + 1 + ms.tokens

end

def JsonMembers.names : JsonMembers → List Bytes
  | .nil => []
  | .cons _ name _ ms => name :: ms.names

mutual

/-- The most members of an object. -/
def JsonValue.members : JsonValue → ℕ
  | .array vs => vs.members
  | .object ms => max ms.names.length ms.members
  | _ => 0

def JsonItems.members : JsonItems → ℕ
  | .nil => 0
  | .cons v vs => max v.members vs.members

def JsonMembers.members : JsonMembers → ℕ
  | .nil => 0
  | .cons _ _ v ms => max v.members ms.members

end

mutual

/-- The most bytes of a member name, as it is written. -/
def JsonValue.nameBytes : JsonValue → ℕ
  | .array vs => vs.nameBytes
  | .object ms => ms.nameBytes
  | _ => 0

def JsonItems.nameBytes : JsonItems → ℕ
  | .nil => 0
  | .cons v vs => max v.nameBytes vs.nameBytes

def JsonMembers.nameBytes : JsonMembers → ℕ
  | .nil => 0
  | .cons raw _ v ms => max raw.length (max v.nameBytes ms.nameBytes)

end

mutual

/-- Has an object two members whose names read the same? -/
def JsonValue.duplicate : JsonValue → Bool
  | .array vs => vs.duplicate
  | .object ms => !decide ms.names.Nodup || ms.duplicate
  | _ => false

def JsonItems.duplicate : JsonItems → Bool
  | .nil => false
  | .cons v vs => v.duplicate || vs.duplicate

def JsonMembers.duplicate : JsonMembers → Bool
  | .nil => false
  | .cons _ _ v ms => v.duplicate || ms.duplicate

end

/-! ## First bytes, and lengths -/

/-- A value starts with one of these. -/
def StartsValue (b : UInt8) : Prop :=
  b = 0x22 ∨ b = 0x5B ∨ b = 0x7B ∨ b = 0x74 ∨ b = 0x66 ∨ b = 0x6E ∨ b = 0x2D ∨
    0x30 ≤ b ∧ b ≤ 0x39

theorem IsNumber.starts {number : Bytes} (h : IsNumber number) :
    ∃ b rest, number = b :: rest ∧ (b = 0x2D ∨ 0x30 ≤ b ∧ b ≤ 0x39) := by
  obtain ⟨minus, int, frac, exp, hm, hi, -, -, rfl⟩ := h
  rcases hm with rfl | rfl
  · rcases hi with rfl | ⟨⟨hne, hd⟩, -⟩
    · exact ⟨0x30, _, rfl, .inr (by decide)⟩
    · obtain ⟨b, ds, rfl⟩ := exists_cons_of_ne_nil hne
      exact ⟨b, _, rfl, .inr (hd b (mem_cons_self ..))⟩
  · exact ⟨0x2D, _, rfl, .inl rfl⟩

theorem Derives.starts {p : JsonPhrase} {t r : Bytes} (h : Derives p t r) :
    match p with
    | .members _ => ∃ rest, t = 0x22 :: rest
    | _ => ∃ b rest, t = b :: rest ∧ StartsValue b := by
  induction h with
  | null => exact ⟨0x6E, _, rfl, by simp [StartsValue]⟩
  | true_ => exact ⟨0x74, _, rfl, by simp [StartsValue]⟩
  | false_ => exact ⟨0x66, _, rfl, by simp [StartsValue]⟩
  | number hn =>
    obtain ⟨b, rest, rfl, hb⟩ := hn.starts
    refine ⟨b, _, rfl, ?_⟩
    rcases hb with hb | hb
    · simp [StartsValue, hb]
    · simp [StartsValue, hb]
  | string => exact ⟨0x22, _, rfl, by simp [StartsValue]⟩
  | emptyArray | array => exact ⟨0x5B, _, rfl, by simp [StartsValue]⟩
  | emptyObject | object => exact ⟨0x7B, _, rfl, by simp [StartsValue]⟩
  | lastItem _ _ ih => exact ih
  | moreItems _ _ _ _ ih => exact ih
  | lastMember => exact ⟨_, rfl⟩
  | moreMembers => exact ⟨_, rfl⟩

theorem Ws.length_le {t r : Bytes} (h : Ws t r) : r.length ≤ t.length := by
  obtain ⟨w, -, rfl⟩ := h
  rw [length_append]
  exact Nat.le_add_left _ _

theorem Ws.trans {t₁ t₂ t₃ : Bytes} (h : Ws t₁ t₂) (h' : Ws t₂ t₃) : Ws t₁ t₃ := by
  obtain ⟨w, hw, rfl⟩ := h
  obtain ⟨w', hw', rfl⟩ := h'
  refine ⟨w ++ w', fun b hb => ?_, (append_assoc w w' t₃).symm⟩
  exact (mem_append.1 hb).elim (hw b) (hw' b)

theorem Derives.length_lt {p : JsonPhrase} {t r : Bytes} (h : Derives p t r) :
    r.length < t.length := by
  induction h with
  | null | true_ | false_ => simp only [length_append, length_cons]; omega
  | number hn =>
    obtain ⟨b, rest, rfl, -⟩ := hn.starts
    simp only [length_append, length_cons]
    omega
  | string => simp only [length_append, length_cons]; omega
  | emptyArray hws | emptyObject hws =>
    have := Ws.length_le hws
    simp only [length_cons] at this ⊢
    omega
  | array hws _ ih | object hws _ ih =>
    have := Ws.length_le hws
    simp only [length_cons]
    omega
  | lastItem _ hws ih =>
    have := Ws.length_le hws
    simp only [length_cons] at this
    omega
  | moreItems _ hws hws' _ ih ih' =>
    have := Ws.length_le hws
    have := Ws.length_le hws'
    simp only [length_cons] at *
    omega
  | lastMember _ hc hws _ hcl ih =>
    have := Ws.length_le hc
    have := Ws.length_le hws
    have := Ws.length_le hcl
    simp only [length_append, length_cons] at *
    omega
  | moreMembers _ hc hws _ hcm hws' _ ih ih' =>
    have := Ws.length_le hc
    have := Ws.length_le hws
    have := Ws.length_le hcm
    have := Ws.length_le hws'
    simp only [length_append, length_cons] at *
    omega

end Ferrum.Lib
