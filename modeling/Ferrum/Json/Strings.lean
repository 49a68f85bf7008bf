/-
  The strings, member names and scalars of the scanner are those of the JSON grammar.

  The scanner looks at the bytes of a string one by one and checks that they are UTF-8 at its end;
  the grammar is over characters.  An escape is ASCII, so the two cut a string at the same places.

  * `readEscape_ok`, `readEscape_eq`: escapes.
  * `stringBody_ok`, `stringBody_eq`: the bytes up to the closing quote.
  * `readString_ok`, `readString_eq`: strings.
  * `decodeMemberName_eq`: the name a string stands for.
  * `readMemberName_ok`, `readMemberName_eq`: names, with their colon.
  * `readScalar_ok`, `readScalar_eq`: values that are no container.
-/
import Ferrum.Json.Lexemes
import Ferrum.Lib.Runs

namespace Ferrum.Json

open Lib List

/-! ## Escapes -/

theorem hexDigit_eq (b : UInt8) : hexDigit b = hexVal b := by
  have h0 : byte '0' = 0x30 := rfl
  have h9 : byte '9' = 0x39 := rfl
  have ha : byte 'a' = 0x61 := rfl
  have hf : byte 'f' = 0x66 := rfl
  have hA : byte 'A' = 0x41 := rfl
  have hF : byte 'F' = 0x46 := rfl
  rw [hexDigit, hexVal, h0, h9, ha, hf, hA, hF]
  simp only [Bool.and_eq_true, decide_eq_true_eq]
  split_ifs with h1 h2 h3
  · rw [UInt8.toNat_sub_of_le _ _ h1.1]; rfl
  · rw [UInt8.toNat_sub_of_le _ _ h2.1]; rfl
  · rw [UInt8.toNat_sub_of_le _ _ h3.1]; rfl
  · rfl

variable {code high low : ℕ} {t quad rest quad' text raw name r : Bytes} {e : UInt8} {c : Char}

theorem readHex4_ok (h : readHex4 t = .ok code) :
    ∃ quad rest, t = quad ++ rest ∧ IsHex4 quad code := by
  unfold readHex4 at h
  split at h
  · next b₁ b₂ b₃ b₄ rest =>
    split at h
    · next d₁ d₂ d₃ d₄ h₁ h₂ h₃ h₄ =>
      cases h
      rw [hexDigit_eq] at h₁ h₂ h₃ h₄
      exact ⟨[b₁, b₂, b₃, b₄], rest, rfl, b₁, b₂, b₃, b₄, d₁, d₂, d₃, d₄, rfl, h₁, h₂, h₃, h₄,
        by ring⟩
    · cases h
  · cases h

theorem readHex4_eq (h : IsHex4 quad code) : readHex4 (quad ++ rest) = .ok code := by
  obtain ⟨b₁, b₂, b₃, b₄, d₁, d₂, d₃, d₄, rfl, h₁, h₂, h₃, h₄, rfl⟩ := h
  simp only [← hexDigit_eq] at h₁ h₂ h₃ h₄
  simp only [cons_append, nil_append, readHex4, h₁, h₂, h₃, h₄]
  congr 1
  ring

theorem length_hex4 (h : IsHex4 quad code) : quad.length = 4 := by
  obtain ⟨b₁, b₂, b₃, b₄, d₁, d₂, d₃, d₄, rfl, -⟩ := h
  rfl

theorem isHighSurrogate_iff : isHighSurrogate code = true ↔ 0xD800 ≤ code ∧ code < 0xDC00 := by
  simp only [isHighSurrogate, Bool.and_eq_true, decide_eq_true_eq]

theorem isLowSurrogate_iff : isLowSurrogate code = true ↔ 0xDC00 ≤ code ∧ code < 0xE000 := by
  simp only [isLowSurrogate, Bool.and_eq_true, decide_eq_true_eq]

theorem isSimpleEscape_iff : isSimpleEscape e = true ↔ ∃ c, (e, c) ∈ escapes := by
  simp only [isSimpleEscape, Bool.or_eq_true, beq_iff_eq, escapes, mem_cons, Prod.mk.injEq,
    not_mem_nil, or_false, exists_or, exists_and_left, exists_eq, and_true, or_assoc]
  rfl

theorem take_hex4 (h : IsHex4 quad code) :
    (quad ++ rest).take 4 = quad := take_left' (length_hex4 h)

theorem drop_hex4 (h : IsHex4 quad code) :
    (quad ++ rest).drop 4 = rest := drop_left' (length_hex4 h)

/-- The ten bytes of a pair of escapes, after its first `u`. -/
theorem take_pair (h : IsHex4 quad high) (h' : IsHex4 quad' low) :
    (quad ++ 0x5C :: 0x75 :: (quad' ++ rest)).take 10 = quad ++ 0x5C :: 0x75 :: quad' := by
  have hln : (quad ++ 0x5C :: 0x75 :: quad').length = 10 := by
    simp [length_hex4 h, length_hex4 h']
  rw [show quad ++ 0x5C :: 0x75 :: (quad' ++ rest) = (quad ++ 0x5C :: 0x75 :: quad') ++ rest by simp]
  exact take_left' hln

theorem drop_pair (h : IsHex4 quad high) (h' : IsHex4 quad' low) :
    (quad ++ 0x5C :: 0x75 :: (quad' ++ rest)).drop 10 = rest := by
  simp [drop_append, length_hex4 h, length_hex4 h']

theorem drop_mark (h : IsHex4 quad code) : (quad ++ rest).drop 6 = rest.drop 2 := by
  simp [drop_append, length_hex4 h]

theorem readEscape_ok (h : readEscape t = .ok (text, rest)) :
    t = text ++ rest ∧ ∃ c, IsEscape text c := by
  cases t with
  | nil => cases h
  | cons e t =>
    rw [readEscape] at h
    by_cases hs : isSimpleEscape e = true
    · rw [if_pos hs] at h
      cases h
      obtain ⟨c, hc⟩ := isSimpleEscape_iff.1 hs
      exact ⟨rfl, c, .simple e c hc⟩
    rw [if_neg hs] at h
    by_cases hu : e = byte 'u'
    swap
    · rw [if_neg hu] at h; cases h
    rw [if_pos hu] at h
    subst hu
    obtain ⟨code, hcd, h⟩ := bind_ok h
    obtain ⟨quad, t, rfl, hq⟩ := readHex4_ok hcd
    rw [drop_hex4 hq, take_hex4 hq, drop_mark hq] at h
    by_cases hh : isHighSurrogate code = true
    · rw [if_pos hh] at h
      by_cases hm : t.take 2 = [byte '\\', byte 'u']
      swap
      · rw [if_pos hm] at h; cases h
      rw [if_neg (not_not.2 hm)] at h
      obtain ⟨low, hlw, h⟩ := bind_ok h
      obtain ⟨quad', t', ht', hq'⟩ := readHex4_ok hlw
      have ht : t = 0x5C :: 0x75 :: (quad' ++ t') := by
        rw [← t.take_append_drop 2, hm, ht']; rfl
      subst ht
      rw [take_pair hq hq', drop_pair hq hq'] at h
      split_ifs at h with hlw'
      cases h
      rw [isHighSurrogate_iff] at hh
      rw [isLowSurrogate_iff] at hlw'
      refine ⟨by simp, pairChar code low, ?_⟩
      exact .pair quad quad' code low hq hq' hh.1 hh.2 hlw'.1 hlw'.2
    · rw [if_neg hh] at h
      split_ifs at h with hlw
      cases h
      rw [isHighSurrogate_iff] at hh
      rw [isLowSurrogate_iff] at hlw
      exact ⟨rfl, Char.ofNat code, .unicode quad code hq (by omega)⟩

theorem readEscape_eq (h : IsEscape text c) : readEscape (text ++ rest) = .ok (text, rest) := by
  have hu : (0x75 : UInt8) = byte 'u' := rfl
  cases h with
  | simple e c hc =>
    rw [singleton_append, readEscape, if_pos (isSimpleEscape_iff.2 ⟨c, hc⟩)]
  | unicode quad code hq hcd =>
    have hh : ¬ isHighSurrogate code = true := by rw [isHighSurrogate_iff]; omega
    have hlw : ¬ isLowSurrogate code = true := by rw [isLowSurrogate_iff]; omega
    rw [cons_append, readEscape, if_neg (by decide), if_pos hu, readHex4_eq hq]
    simp only [bind, Except.bind]
    rw [if_neg hh, if_neg hlw, take_hex4 hq, drop_hex4 hq]
  | pair quad quad' high low hq hq' h₁ h₂ h₃ h₄ =>
    have hm : (0x5C :: 0x75 :: (quad' ++ rest)).take 2 = [byte '\\', byte 'u'] := rfl
    rw [cons_append, append_assoc, cons_append, cons_append, readEscape,
      if_neg (by decide), if_pos hu, readHex4_eq hq]
    simp only [bind, Except.bind]
    rw [if_pos (isHighSurrogate_iff.2 ⟨h₁, h₂⟩), drop_hex4 hq, if_neg (not_not.2 hm),
      drop_mark hq, take_pair hq hq', drop_pair hq hq', drop_succ_cons,
      drop_succ_cons, drop_zero, readHex4_eq hq']
    simp only
    rw [if_pos (isLowSurrogate_iff.2 ⟨h₃, h₄⟩)]

/-! ## The bytes of a string -/

/-- What the loop of `read_string` goes over: escapes, and bytes that need none. -/
inductive Scanned : Bytes → Prop
  | nil : Scanned []
  | plain (b : UInt8) {raw : Bytes} : b ≠ byte '"' → b ≠ byte '\\' → ¬ b < 0x20 → Scanned raw →
    Scanned (b :: raw)
  | escape (text : Bytes) (c : Char) {raw : Bytes} : IsEscape text c → Scanned raw →
    Scanned (byte '\\' :: (text ++ raw))

theorem stringBody_ok {t : Bytes} {r : Read} (h : stringBody t = .ok r) :
    Scanned r.raw ∧ t = r.raw ++ byte '"' :: r.rest ∧
      r.hasEscape = decide (byte '\\' ∈ r.raw) := by
  fun_induction stringBody t generalizing r with
  | case1 => cases h
  | case2 rest => cases h; exact ⟨.nil, rfl, rfl⟩
  | case3 rest reject he => cases h
  | case4 rest text rest' he hq ih =>
    obtain ⟨r, hr, rfl⟩ := map_ok h
    obtain ⟨hs, rfl, -⟩ := ih hr
    obtain ⟨rfl, c, hc⟩ := readEscape_ok he
    exact ⟨.escape text c hc hs, by simp [Read.push], by simp [Read.push]⟩
  | case5 => cases h
  | case6 b rest hq hb hlt ih =>
    obtain ⟨r, hr, rfl⟩ := map_ok h
    obtain ⟨hs, rfl, he⟩ := ih hr
    refine ⟨.plain b hq hb hlt hs, rfl, ?_⟩
    simp [Read.push, he, Ne.symm hb]

theorem stringBody_eq (h : Scanned raw) :
    stringBody (raw ++ byte '"' :: rest) = .ok ⟨raw, decide (byte '\\' ∈ raw), rest⟩ := by
  induction h with
  | nil => rw [nil_append, stringBody, if_pos rfl]; rfl
  | plain b hq hb hlt _ ih =>
    rw [cons_append, stringBody, if_neg hq, if_neg hb, if_neg hlt, ih]
    simp [Except.map, Read.push, Ne.symm hb]
  | escape text c hc _ ih =>
    rw [cons_append, append_assoc, stringBody, if_neg (by decide), if_pos rfl]
    split
    · next he => rw [readEscape_eq hc] at he; cases he
    · next he =>
      rw [readEscape_eq hc] at he
      cases he
      rw [ih]
      simp [Except.map, Read.push]

theorem Scanned.of_cons {b : UInt8} {raw : Bytes} (h : Scanned (b :: raw)) (hb : ¬ b.toNat < 0x80) :
    Scanned raw := by
  generalize hr : b :: raw = raw' at h
  cases h with
  | nil => cases hr
  | plain _ _ _ _ h => cases hr; exact h
  | escape => cases hr; exact absurd (by decide) hb

theorem Scanned.of_append {w raw : Bytes} (h : Scanned (w ++ raw))
    (hw : ∀ b ∈ w, ¬ b.toNat < 0x80) : Scanned raw := by
  induction w with
  | nil => exact h
  | cons b w ih =>
    rw [forall_mem_cons] at hw
    exact ih (h.of_cons hw.1) hw.2

theorem Scanned.append {w raw : Bytes} (h : Scanned raw) (hw : ∀ b ∈ w, ¬ b.toNat < 0x80) :
    Scanned (w ++ raw) := by
  induction w with
  | nil => exact h
  | cons b w ih =>
    rw [forall_mem_cons] at hw
    refine .plain b ?_ ?_ ?_ (ih hw.2)
    · rintro rfl; exact hw.1 (by decide)
    · rintro rfl; exact hw.1 (by decide)
    · intro hlt; exact hw.1 (Nat.lt_trans (UInt8.lt_iff_toNat_lt.1 hlt) (by decide))

/-- A scanned string that is UTF-8 is one of the grammar. -/
theorem Scanned.stringBody {raw : Bytes} (h : Scanned raw) (hu : IsUtf8 raw) :
    ∃ name, StringBody raw name := by
  -- on the length, since an escape leaves the characters of the rest to be cut anew
  induction hn : raw.length using Nat.strong_induction_on generalizing raw with
  | _ n ih =>
  subst hn
  cases h with
  | nil => exact ⟨[], .nil⟩
  | escape text e ht h =>
    have hu' : IsUtf8 (text ++ _) := (IsUtf8.split_ascii (s := []) hu (by decide)).2
    obtain ⟨name, hnm⟩ := ih _ (by simp only [length_cons, length_append]; omega) h (.of_escape ht hu') rfl
    exact ⟨_, .escape text e ht hnm⟩
  | @plain b raw hq hbk hlt h =>
    obtain ⟨cs, hcs⟩ := isUtf8_iff.1 hu
    rcases cs with _ | ⟨c, cs⟩
    · cases hcs
    have hcs' : IsUtf8 (cs.flatMap String.utf8EncodeChar) := isUtf8_iff.2 ⟨cs, rfl⟩
    rw [flatMap_cons] at hcs
    generalize cs.flatMap String.utf8EncodeChar = raw' at hcs hcs'
    rcases encodeChar_cases c with ⟨b', hb', hbc, he⟩ | ⟨hc, hh⟩
    · rw [he] at hcs
      obtain ⟨rfl, rfl⟩ := List.cons.inj hcs
      obtain ⟨name, hnm⟩ := ih _ (Nat.lt_succ_self _) h hcs' rfl
      have hbd := StringBody.unescaped c ?_ ?_ ?_ hnm
      · rw [he] at hbd
        exact ⟨_, hbd⟩
      · rw [← hbc]
        exact Nat.le_of_not_lt fun hlt' => hlt (UInt8.lt_iff_toNat_lt.2 hlt')
      · rintro rfl; exact hq (UInt8.toNat_inj.1 hbc)
      · rintro rfl; exact hbk (UInt8.toNat_inj.1 hbc)
    · have hs : Scanned (String.utf8EncodeChar c ++ raw') := by
        rw [hcs]
        exact .plain b hq hbk hlt h
      have hln : raw'.length < (b :: raw).length := by
        rw [← hcs, length_append]
        exact Nat.lt_add_of_pos_left (String.length_utf8EncodeChar c ▸ c.utf8Size_pos)
      obtain ⟨name, hnm⟩ := ih _ hln (hs.of_append hh) hcs' rfl
      rw [← hcs]
      refine ⟨_, .unescaped c (by omega) ?_ ?_ hnm⟩
      · rintro rfl; exact absurd hc (by decide)
      · rintro rfl; exact absurd hc (by decide)

/-- A string of the grammar is scanned, and is UTF-8. -/
theorem scanned_of_stringBody {raw name : Bytes} (h : StringBody raw name) :
    Scanned raw ∧ IsUtf8 raw := by
  induction h with
  | nil => exact ⟨.nil, .nil⟩
  | unescaped c hc hq hb _ ih =>
    refine ⟨?_, (isUtf8_iff.2 ⟨[c], by simp⟩).append ih.2⟩
    rcases encodeChar_cases c with ⟨b, -, hbc, he⟩ | ⟨-, hh⟩
    · rw [he]
      refine .plain b ?_ ?_ ?_ ih.1
      · rintro rfl; exact hq (Char.toNat_inj.1 hbc.symm)
      · rintro rfl; exact hb (Char.toNat_inj.1 hbc.symm)
      · intro hlt
        rw [UInt8.lt_iff_toNat_lt, hbc] at hlt
        exact absurd hlt (Nat.not_lt.2 hc)
    · exact ih.1.append hh
  | escape text c ht _ ih =>
    refine ⟨.escape text c ht ih.1, ?_⟩
    exact (IsUtf8.of_ascii (ascii_cons.2 ⟨by decide, ht.ascii⟩)).append ih.2

theorem readString_ok {t : Bytes} {r : Read} (h : readString t = .ok r) :
    ∃ name, StringBody r.raw name ∧ t = byte '"' :: (r.raw ++ byte '"' :: r.rest) ∧
      r.hasEscape = decide (byte '\\' ∈ r.raw) := by
  cases t with
  | nil => cases h
  | cons b t =>
    rw [readString] at h
    by_cases hb : b = byte '"'
    swap
    · rw [if_neg hb] at h; cases h
    rw [if_pos hb] at h
    obtain ⟨r', hr', h⟩ := bind_ok h
    split_ifs at h with hu
    cases h
    obtain ⟨hs, rfl, he⟩ := stringBody_ok hr'
    obtain ⟨name, hn⟩ := hs.stringBody hu
    exact ⟨name, hn, by rw [hb], he⟩

theorem readString_eq (h : StringBody raw name) :
    readString (byte '"' :: (raw ++ byte '"' :: rest)) = .ok ⟨raw, decide (byte '\\' ∈ raw), rest⟩ := by
  obtain ⟨hs, hu⟩ := scanned_of_stringBody h
  rw [readString, if_pos rfl, stringBody_eq hs]
  exact if_pos hu

/-! ## Decoding -/

theorem decodeLoop_append {w : Bytes} (hw : byte '\\' ∉ w) (raw : Bytes) :
    decodeLoop (w ++ raw) = w ++ decodeLoop raw := by
  induction w with
  | nil => rfl
  | cons b w ih =>
    rw [mem_cons, not_or] at hw
    rw [cons_append, decodeLoop.eq_def]
    simp only [if_pos (Ne.symm hw.1), ih hw.2, cons_append]

theorem simpleEscape_eq (h : (e, c) ∈ escapes) : simpleEscape e = some c := by
  simp only [escapes, mem_cons, Prod.mk.injEq, not_mem_nil, or_false] at h
  rcases h with ⟨rfl, rfl⟩ | ⟨rfl, rfl⟩ | ⟨rfl, rfl⟩ | ⟨rfl, rfl⟩ | ⟨rfl, rfl⟩ | ⟨rfl, rfl⟩ |
    ⟨rfl, rfl⟩ | ⟨rfl, rfl⟩ <;> rfl

theorem hexVal_lt {b : UInt8} {d : ℕ} (h : hexVal b = some d) : d < 16 := by
  unfold hexVal at h
  simp only [UInt8.le_iff_toNat_le, UInt8.toNat_ofNat] at h
  split_ifs at h <;> cases h <;> omega

theorem hex4_lt (h : IsHex4 quad code) : code < 0x10000 := by
  obtain ⟨b₁, b₂, b₃, b₄, d₁, d₂, d₃, d₄, rfl, h₁, h₂, h₃, h₄, rfl⟩ := h
  have := hexVal_lt h₁
  have := hexVal_lt h₂
  have := hexVal_lt h₃
  have := hexVal_lt h₄
  omega

theorem pairScalar_valid (h₁ : 0xD800 ≤ high) (h₂ : high < 0xDC00) (h₃ : 0xDC00 ≤ low)
    (h₄ : low < 0xE000) : (pairScalar high low).isValidChar := by
  unfold Nat.isValidChar pairScalar
  omega

theorem ofNat_pairScalar (high low : ℕ) : Char.ofNat (pairScalar high low) = pairChar high low := by
  unfold pairScalar pairChar
  with_reducible rfl

theorem decodeUnicode_one (h : IsHex4 quad code) (hc : code < 0xD800 ∨ 0xE000 ≤ code) :
    decodeUnicode (quad ++ rest) = (Char.ofNat code, rest) := by
  have hh : ¬ isHighSurrogate code = true := by rw [isHighSurrogate_iff]; omega
  have hv : code.isValidChar := by
    have := hex4_lt h
    unfold Nat.isValidChar
    omega
  have hr : (readHex4 (quad ++ rest)).toOption.getD 0 = code := by rw [readHex4_eq h]; rfl
  rw [decodeUnicode, hr, if_neg hh, fromU32, if_pos hv, drop_hex4 h]
  rfl

theorem decodeUnicode_pair (h : IsHex4 quad high) (h' : IsHex4 quad' low) (h₁ : 0xD800 ≤ high)
    (h₂ : high < 0xDC00) (h₃ : 0xDC00 ≤ low) (h₄ : low < 0xE000) :
    decodeUnicode (quad ++ 0x5C :: 0x75 :: (quad' ++ rest)) = (pairChar high low, rest) := by
  have hr : (readHex4 (quad ++ 0x5C :: 0x75 :: (quad' ++ rest))).toOption.getD 0 = high := by
    rw [readHex4_eq h]; rfl
  have hr' : (readHex4 (quad' ++ rest)).toOption.getD 0xDC00 = low := by
    rw [readHex4_eq h']; rfl
  rw [decodeUnicode, hr, if_pos (isHighSurrogate_iff.2 ⟨h₁, h₂⟩), drop_mark h, drop_pair h h',
    drop_succ_cons, drop_succ_cons, drop_zero, hr']
  have hc : fromU32 (pairScalar high low) = some (pairChar high low) := by
    rw [fromU32, if_pos (pairScalar_valid h₁ h₂ h₃ h₄), ofNat_pairScalar]
  show ((fromU32 (pairScalar high low)).getD _, rest) = _
  rw [hc, Option.getD_some]

theorem decodeLoop_escape (h : IsEscape text c) :
    decodeLoop (byte '\\' :: (text ++ raw)) = String.utf8EncodeChar c ++ decodeLoop raw := by
  have hu : (0x75 : UInt8) = byte 'u' := rfl
  have hn : simpleEscape 0x75 = none := rfl
  cases h with
  | simple e c hc =>
    rw [singleton_append, decodeLoop, if_neg (not_not.2 rfl)]
    simp only [simpleEscape_eq hc]
  | unicode quad code hq hcd =>
    rw [cons_append, decodeLoop, if_neg (not_not.2 rfl)]
    simp only [hn, if_pos hu, decodeUnicode_one hq hcd]
  | pair quad quad' high low hq hq' h₁ h₂ h₃ h₄ =>
    rw [cons_append, append_assoc, cons_append, cons_append, decodeLoop,
      if_neg (not_not.2 rfl)]
    simp only [hn, if_pos hu, decodeUnicode_pair hq hq' h₁ h₂ h₃ h₄]

theorem decodeLoop_eq (h : StringBody raw name) : decodeLoop raw = name := by
  induction h with
  | nil => rw [decodeLoop]
  | unescaped c _ _ hb _ ih =>
    rw [decodeLoop_append ?_, ih]
    intro hm
    rcases encodeChar_cases c with ⟨b, -, hbc, he⟩ | ⟨-, hh⟩
    · rw [he, mem_singleton] at hm
      exact hb (Char.toNat_inj.1 (hbc ▸ hm ▸ rfl))
    · exact hh _ hm (by decide)
  | escape text c ht _ ih =>
    rw [← ih]
    exact decodeLoop_escape ht

/-- **A member name is decoded** to the string it stands for. -/
theorem decodeMemberName_eq (h : StringBody raw name) :
    decodeMemberName raw (decide (byte '\\' ∈ raw)) = name := by
  by_cases hm : byte '\\' ∈ raw
  · rw [decide_eq_true hm]
    exact decodeLoop_eq h
  · rw [decide_eq_false hm, ← decodeLoop_eq h]
    have := decodeLoop_append hm []
    rw [append_nil, decodeLoop, append_nil] at this
    exact this.symm

/-! ## Member names -/

section
variable {limits : JsonScanLimits} {names : List Bytes} {count : ℕ}

theorem readMemberName_ok {t : Bytes} {m : MemberName}
    (hm : readMemberName limits names count t = .ok m) :
    ∃ raw name t₁ t₂, StringBody raw name ∧ t = 0x22 :: (raw ++ 0x22 :: t₁) ∧ Ws t₁ (0x3A :: t₂) ∧
      Ws t₂ m.rest ∧ raw.length ≤ limits.maxKeyBytes ∧ count < limits.maxObjectMembers ∧
      m = ⟨decide (name ∈ names), names.insert name, count + 1, m.rest⟩ := by
  rw [readMemberName] at hm
  obtain ⟨r, hr, h⟩ := bind_ok hm
  obtain ⟨name, hn, rfl, he⟩ := readString_ok hr
  by_cases hln : limits.maxKeyBytes < r.raw.length
  · rw [if_pos hln] at h; cases h
  rw [if_neg hln] at h
  have hws := ws_skipWhitespace r.rest
  generalize skipWhitespace r.rest = t₂ at h hws
  match t₂, h, hws with
  | b :: t₂, h, hws =>
    simp only at h
    split_ifs at h with hc hf
    cases h
    rw [not_not] at hc
    subst hc
    refine ⟨r.raw, name, r.rest, t₂, hn, rfl, hws, ws_skipWhitespace t₂, Nat.le_of_not_lt hln,
      Nat.lt_of_not_le hf, ?_⟩
    rw [he, decodeMemberName_eq hn]

theorem readMemberName_eq {raw name t₁ t₂ t₃ : Bytes} (hn : StringBody raw name)
    (hc : Ws t₁ (0x3A :: t₂)) (hws : Ws t₂ t₃) (hs : ∀ b, t₃.head? = some b → ¬ IsWs b)
    (hln : raw.length ≤ limits.maxKeyBytes) (hf : count < limits.maxObjectMembers) :
    readMemberName limits names count (0x22 :: (raw ++ 0x22 :: t₁))
      = .ok ⟨decide (name ∈ names), names.insert name, count + 1, t₃⟩ := by
  have hsk : skipWhitespace t₁ = 0x3A :: t₂ := by
    refine skipWhitespace_eq hc fun b hb => ?_
    cases hb
    simp [IsWs]
  have hr : readString (0x22 :: (raw ++ 0x22 :: t₁)) = _ := readString_eq hn
  rw [readMemberName, hr]
  simp only [bind, Except.bind, if_neg (Nat.not_lt.2 hln), hsk, skipWhitespace_eq hws hs,
    decodeMemberName_eq hn, if_neg (Nat.not_le.2 hf)]
  rfl

end

/-! ## Scalars -/

/-- No container. -/
def IsScalar : JsonValue → Prop
  | .array _ | .object _ => False
  | _ => True

theorem expectLiteral_ok {literal : Bytes} (h : expectLiteral literal t = .ok r) :
    t = literal ++ r := by
  unfold expectLiteral at h
  split_ifs at h with heq
  cases h
  rw [← t.take_append_drop literal.length, heq]
  simp

theorem expectLiteral_eq (literal r : Bytes) : expectLiteral literal (literal ++ r) = .ok r := by
  rw [expectLiteral, take_left, drop_left, if_pos rfl]

/-- **A scalar that is read** is one of the grammar. -/
theorem readScalar_ok (h : readScalar t = .ok r) : ∃ v, IsScalar v ∧ Derives (.value v) t r := by
  cases t with
  | nil => cases h
  | cons b t =>
    rw [readScalar] at h
    split_ifs at h
    · obtain ⟨s, hs, rfl⟩ := map_ok h
      obtain ⟨name, hnm, ht, -⟩ := readString_ok hs
      rw [ht]
      exact ⟨.string s.raw, trivial, .string hnm⟩
    · exact ⟨.true_, trivial, expectLiteral_ok h ▸ .true_⟩
    · exact ⟨.false_, trivial, expectLiteral_ok h ▸ .false_⟩
    · exact ⟨.null, trivial, expectLiteral_ok h ▸ .null⟩
    · obtain ⟨number, hn, ht⟩ := readNumber_ok h
      rw [ht]
      exact ⟨.number number, trivial, .number hn⟩

/-- **A scalar of the grammar** is read. -/
theorem readScalar_eq {v : JsonValue} (h : Derives (.value v) t r) (hv : IsScalar v)
    (hr : Follows r) : readScalar t = .ok r := by
  cases h with
  | null => exact expectLiteral_eq [byte 'n', byte 'u', byte 'l', byte 'l'] r
  | true_ => exact expectLiteral_eq [byte 't', byte 'r', byte 'u', byte 'e'] r
  | false_ => exact expectLiteral_eq [byte 'f', byte 'a', byte 'l', byte 's', byte 'e'] r
  | string hnm =>
    have hq : (0x22 : UInt8) = byte '"' := rfl
    rw [readScalar, if_pos hq, hq, readString_eq hnm]
    rfl
  | number hn =>
    obtain ⟨b, rest, hb, hf⟩ := hn.starts
    have hrd := readNumber_eq hn hr
    rw [hb, cons_append] at hrd ⊢
    have hne : b ≠ byte '"' ∧ b ≠ byte 't' ∧ b ≠ byte 'f' ∧ b ≠ byte 'n' := by
      rcases hf with rfl | ⟨hlw, hh⟩
      · decide
      · refine ⟨?_, ?_, ?_, ?_⟩ <;> rintro rfl
        · exact absurd hlw (by decide)
        all_goals exact absurd hh (by decide)
    rw [readScalar, if_neg hne.1, if_neg hne.2.1, if_neg hne.2.2.1, if_neg hne.2.2.2, hrd]
  | emptyArray | array | emptyObject | object => cases hv

end Ferrum.Json
