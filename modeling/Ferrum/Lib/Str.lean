/-
  Strings: byte strings that are UTF-8.

  * `IsUtf8.split_ascii`: an ASCII byte is a boundary between characters.
  * `IsUtf8.split_word`: where a string stands in a string, it starts and ends between characters.
  * `AsciiRewrite`: copying bytes and replacing ASCII words by ASCII words; it keeps UTF-8.
-/
import Ferrum.Lib.Bytes

namespace Ferrum.Lib

open List

/-- `bs` is the UTF-8 encoding of some characters. -/
def IsUtf8 (bs : Bytes) : Prop := ByteArray.IsValidUTF8 bs.toByteArray

instance : DecidablePred IsUtf8 := fun bs =>
  inferInstanceAs (Decidable (ByteArray.IsValidUTF8 bs.toByteArray))

/-- A string: bytes that are UTF-8. -/
@[ext] structure Str where
  bytes : Bytes
  utf8 : IsUtf8 bytes
  deriving DecidableEq

/-- `String::from_utf8`. -/
def Str.fromUtf8 (bs : Bytes) : Option Str := if h : IsUtf8 bs then some ⟨bs, h⟩ else none

/-- A borrowed or an owned value. -/
inductive Cow (α : Type) where
  | borrowed (a : α)
  | owned (a : α)
  deriving DecidableEq

/-- The value, borrowed or owned. -/
def Cow.get {α : Type} : Cow α → α
  | .borrowed a => a
  | .owned a => a

def asciiLowercase (b : UInt8) : UInt8 := if 0x41 ≤ b ∧ b ≤ 0x5a then b + 0x20 else b

def toAsciiLowercase (s : Bytes) : Bytes := s.map asciiLowercase

def eqIgnoreAsciiCase (s t : Bytes) : Bool := toAsciiLowercase s == toAsciiLowercase t

variable {bs s t : Bytes} {b : UInt8} {c : Char}

theorem isUtf8_iff : IsUtf8 bs ↔ ∃ cs : List Char, cs.flatMap String.utf8EncodeChar = bs := by
  constructor
  · rintro ⟨cs, h⟩
    refine ⟨cs, ?_⟩
    have := congrArg (fun b => b.data.toList) h
    simpa [utf8Encode] using this.symm
  · rintro ⟨cs, rfl⟩
    exact ⟨cs, rfl⟩

theorem IsUtf8.nil : IsUtf8 [] := isUtf8_iff.2 ⟨[], rfl⟩

theorem IsUtf8.append (hs : IsUtf8 s) (ht : IsUtf8 t) : IsUtf8 (s ++ t) := by
  obtain ⟨cs, rfl⟩ := isUtf8_iff.1 hs
  obtain ⟨ds, rfl⟩ := isUtf8_iff.1 ht
  exact isUtf8_iff.2 ⟨cs ++ ds, flatMap_append⟩

/-- All bytes are ASCII. -/
def Ascii (bs : Bytes) : Prop := ∀ b ∈ bs, b.toNat < 0x80

@[simp] theorem ascii_nil : Ascii [] := fun _ hb => absurd hb List.not_mem_nil

@[simp] theorem ascii_cons : Ascii (b :: bs) ↔ b.toNat < 0x80 ∧ Ascii bs :=
  List.forall_mem_cons

/-- A character is one ASCII byte, or none of its bytes is ASCII. -/
theorem encodeChar_cases (c : Char) :
    (∃ b : UInt8, b.toNat < 0x80 ∧ b.toNat = c.toNat ∧ String.utf8EncodeChar c = [b]) ∨
      0x80 ≤ c.toNat ∧ ∀ b ∈ String.utf8EncodeChar c, ¬ b.toNat < 0x80 := by
  simp only [String.utf8EncodeChar]
  split_ifs with h1 h2 h3
  · have hv : (UInt8.ofNat c.val.toNat).toNat = c.toNat :=
      UInt8.toNat_ofNat_of_lt' (Nat.lt_of_le_of_lt h1 (by decide))
    exact .inl ⟨_, hv ▸ Nat.lt_of_le_of_lt h1 (by decide), hv, rfl⟩
  -- every byte of a longer encoding has its top bit set
  all_goals
    refine .inr ⟨Nat.lt_of_not_le h1, fun b hb ha => ?_⟩
    simp only [mem_cons, not_mem_nil, or_false] at hb
    rcases hb with rfl | rfl | rfl | rfl <;> simp only [UInt8.toNat_ofNat'] at ha <;> omega

/-- An ASCII byte in the encoding of a character is the whole encoding. -/
theorem encodeChar_of_ascii (hb : b ∈ String.utf8EncodeChar c) (ha : b.toNat < 0x80) :
    String.utf8EncodeChar c = [b] := by
  rcases encodeChar_cases c with ⟨b', -, -, hc⟩ | ⟨-, hc⟩
  · rw [hc] at hb ⊢
    rw [mem_singleton.1 hb]
  · exact absurd ha (hc b hb)

theorem encodeChar_ascii (ha : b.toNat < 0x80) :
    String.utf8EncodeChar (Char.ofNat b.toNat) = [b] := by
  have hv : (Char.ofNat b.toNat).val.toNat = b.toNat := by
    have : b.toNat.isValidChar := Or.inl (by omega)
    rw [Char.ofNat, dif_pos this]; rfl
  simp only [String.utf8EncodeChar, hv]
  rw [if_pos (by omega)]
  simp

theorem IsUtf8.of_ascii (h : Ascii bs) : IsUtf8 bs := by
  refine isUtf8_iff.2 ⟨bs.map fun b => Char.ofNat b.toNat, ?_⟩
  induction bs with
  | nil => rfl
  | cons b bs ih =>
    rw [map_cons, flatMap_cons, encodeChar_ascii (h b mem_cons_self),
      ih fun x hx => h x (mem_cons_of_mem _ hx)]
    rfl

/-- An ASCII byte is a boundary between characters, on both sides. -/
theorem IsUtf8.split_ascii (h : IsUtf8 (s ++ b :: t)) (ha : b.toNat < 0x80) :
    IsUtf8 s ∧ IsUtf8 t := by
  obtain ⟨cs, hcs⟩ := isUtf8_iff.1 h
  clear h
  induction cs generalizing s with
  | nil => simp at hcs
  | cons c cs ih =>
    rw [flatMap_cons, append_eq_append_iff] at hcs
    rcases hcs with ⟨u, hs, hr⟩ | ⟨u, hc, hu⟩
    · -- the first character lies before the byte
      obtain ⟨h1, h2⟩ := ih hr
      refine ⟨?_, h2⟩
      rw [hs]
      exact (isUtf8_iff.2 ⟨[c], by simp⟩).append h1
    · rcases u with _ | ⟨x, u⟩
      · obtain ⟨h1, h2⟩ := ih (s := []) hu.symm
        refine ⟨?_, h2⟩
        rw [append_nil] at hc
        exact isUtf8_iff.2 ⟨[c], by simpa using hc⟩
      · -- the byte lies in the first character, so it is that character
        obtain ⟨rfl, ht⟩ := List.cons.inj hu
        have hm : b ∈ String.utf8EncodeChar c := by rw [hc]; simp
        rw [encodeChar_of_ascii hm ha, ← singleton_append] at hc
        rcases s with _ | ⟨y, s⟩
        · simp only [nil_append, singleton_append, List.cons.injEq, true_and] at hc
          subst hc
          exact ⟨.nil, isUtf8_iff.2 ⟨cs, by rw [ht]; rfl⟩⟩
        · simp at hc

/-! ## Boundaries -/

/-- `is_char_boundary`: a byte that does not continue a character, or the end. -/
def isCharBoundary (s : Bytes) (i : ℕ) : Bool :=
  i == 0 || match s[i]? with
    | some b => b < 0x80 || 0xc0 ≤ b
    | none => i == s.length

/-- `&s[start..stop]`; a range that is not one, or cuts a character, would panic. -/
def sliceStr (s : Bytes) (start stop : ℕ) : Option Bytes :=
  if start ≤ stop ∧ isCharBoundary s start ∧ isCharBoundary s stop then some (slice s start stop)
  else none

/-- The first byte of a string is that of a character. -/
theorem IsUtf8.first (h : IsUtf8 (b :: t)) : b.IsUTF8FirstByte := by
  have := ByteArray.IsValidUTF8.isUTF8FirstByte_getElem_zero h (by simp)
  simpa using this

/-- The first byte of a character is a boundary. -/
theorem IsUtf8.split_first (h : IsUtf8 (s ++ b :: t)) (hb : b.IsUTF8FirstByte) :
    IsUtf8 s ∧ IsUtf8 (b :: t) := by
  obtain ⟨cs, hcs⟩ := isUtf8_iff.1 h
  clear h
  induction cs generalizing s with
  | nil => simp at hcs
  | cons c cs ih =>
    rw [flatMap_cons, append_eq_append_iff] at hcs
    have hc : IsUtf8 (String.utf8EncodeChar c) := isUtf8_iff.2 ⟨[c], by simp⟩
    rcases hcs with ⟨u, rfl, hr⟩ | ⟨u, hsu, hu⟩
    · obtain ⟨h1, h2⟩ := ih hr
      exact ⟨hc.append h1, h2⟩
    · rcases u with _ | ⟨x, u⟩
      · rw [append_nil] at hsu
        rw [nil_append] at hu
        exact ⟨hsu ▸ hc, isUtf8_iff.2 ⟨cs, hu.symm⟩⟩
      · -- the byte lies in the first character, and only its first byte is a first byte
        obtain ⟨rfl, ht⟩ := List.cons.inj hu
        have hlt : s.length < (String.utf8EncodeChar c).length := by simp [hsu]
        have hget : (String.utf8EncodeChar c)[s.length] = b := by simp [hsu]
        have hs : s = [] :=
          length_eq_zero_iff.1 (UInt8.isUTF8FirstByte_getElem_utf8EncodeChar.1 (hget ▸ hb))
        subst hs
        refine ⟨.nil, isUtf8_iff.2 ⟨c :: cs, ?_⟩⟩
        rw [flatMap_cons, hsu, ht]
        rfl

/-- A character can be read off the front of a text. -/
theorem encodeChar_append_inj {d : Char}
    (h : String.utf8EncodeChar c ++ s = String.utf8EncodeChar d ++ t) : c = d := by
  have hr : ∀ (c : Char) (s : Bytes),
      (String.utf8EncodeChar c ++ s).toByteArray.utf8DecodeChar? 0 = some c := fun c s => by
    rw [toByteArray_append]
    exact ByteArray.utf8DecodeChar?_utf8EncodeChar_append
  have hc := hr c s
  rw [h, hr d t] at hc
  exact (Option.some.inj hc).symm

/-- What follows a string in a string is one. -/
theorem IsUtf8.of_append (h : IsUtf8 (s ++ t)) (hs : IsUtf8 s) : IsUtf8 t := by
  obtain ⟨cs, rfl⟩ := isUtf8_iff.1 hs
  clear hs
  induction cs with
  | nil => exact h
  | cons c cs ih =>
    rw [flatMap_cons, append_assoc] at h
    refine ih ?_
    obtain ⟨ds, hds⟩ := isUtf8_iff.1 h
    cases ds with
    | nil => exact absurd (append_eq_nil_iff.1 hds.symm).1 String.utf8EncodeChar_ne_nil
    | cons d ds =>
      rw [flatMap_cons] at hds
      obtain rfl : d = c := encodeChar_append_inj hds
      exact isUtf8_iff.2 ⟨ds, append_cancel_left hds⟩

/-- **Where a string stands in a string**, it starts and ends between characters. -/
theorem IsUtf8.split_word {p : Bytes} (h : IsUtf8 (s ++ (p ++ t))) (hp : IsUtf8 p) (hne : p ≠ []) :
    IsUtf8 s ∧ IsUtf8 (p ++ t) ∧ IsUtf8 t := by
  obtain ⟨b, p, rfl⟩ := exists_cons_of_ne_nil hne
  obtain ⟨hs, hpt⟩ := h.split_first hp.first
  exact ⟨hs, hpt, hpt.of_append hp⟩

theorem isCharBoundary_append (h : IsUtf8 t) : isCharBoundary (s ++ t) s.length = true := by
  rw [isCharBoundary]
  cases t with
  | nil => simp
  | cons b t =>
    have ha : ∀ n < 256, (UInt8.ofNat n).IsUTF8FirstByte →
        UInt8.ofNat n < 0x80 ∨ 0xc0 ≤ UInt8.ofNat n := by
      decide +kernel
    have hb : b < 0x80 ∨ 0xc0 ≤ b := by
      have := ha b.toNat b.toNat_lt
      rw [UInt8.ofNat_toNat] at this
      exact this h.first
    simpa using .inr hb

/-- `t` is `s` with some non-empty ASCII words replaced by ASCII words. -/
inductive AsciiRewrite : Bytes → Bytes → Prop
  | nil : AsciiRewrite [] []
  | copy (b : UInt8) {s t : Bytes} : AsciiRewrite s t → AsciiRewrite (b :: s) (b :: t)
  | replace {u v s t : Bytes} : u ≠ [] → Ascii u → Ascii v → AsciiRewrite s t →
      AsciiRewrite (u ++ s) (v ++ t)

/-- **Rewriting ASCII keeps UTF-8.** -/
theorem AsciiRewrite.isUtf8 (h : AsciiRewrite s t) (hs : IsUtf8 s) : IsUtf8 t := by
  -- with the bytes copied so far in front, since a copy may end inside a character
  suffices ∀ p, IsUtf8 (p ++ s) → IsUtf8 (p ++ t) from this [] hs
  clear hs
  induction h with
  | nil => exact fun _ hp => hp
  | copy b _ ih =>
    intro p hp
    rw [append_cons] at hp ⊢
    exact ih _ hp
  | @replace u v s t hne hu hv _ ih =>
    intro p hp
    -- the first and the last byte of the word bound what is before and behind it
    obtain ⟨x, u', rfl⟩ := exists_cons_of_ne_nil hne
    have hp1 : IsUtf8 p := (hp.split_ascii (hu x mem_cons_self)).1
    have hs : IsUtf8 s := by
      have hw := dropLast_concat_getLast hne
      rw [← hw, append_assoc, ← append_assoc, singleton_append] at hp
      exact (hp.split_ascii (hu _ (getLast_mem hne))).2
    exact hp1.append ((IsUtf8.of_ascii hv).append (ih [] hs))

end Ferrum.Lib
