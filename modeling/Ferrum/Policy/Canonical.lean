/-
  What the canonicalizer accepts, and what the accepted paths look like.

  The specification does not mention the loops: `decodeOnce` is the single-pass decoding, and a
  target is `Accepted` iff its escapes are escapes of `pchar` bytes, it has no backslash, and
  no segment of its decoding is a dot segment.

  * `canonicalizePolicyPath_ok_iff`: the loops accept exactly these targets.
  * `policy_path_canonical`: the accepted paths are the fixed points of every later pass.
-/
import Ferrum.Policy.Path
import Ferrum.Router.Keys
import Mathlib.Data.FinEnum

namespace Ferrum.Policy

open Lib List

/-! ## The specification -/

/-- The single-pass decoding: every escape is replaced by its byte. -/
def decodeOnce : Bytes → Bytes
  | [] => []
  | b :: rest =>
    if b = 0x25 then
      match escapeDigits rest with
      | some (high, low) => escapeValue high low :: decodeOnce (rest.drop 2)
      | none => b :: decodeOnce rest
    else b :: decodeOnce rest
termination_by bs => bs.length

/-- The escape behind a `%` is one of a `pchar` byte. -/
def PcharEscape (rest : Bytes) : Prop :=
  ∃ high low, escapeDigits rest = some (high, low) ∧ decodeToLiteral (escapeValue high low) = true

/-- Every `%` starts an escape of a `pchar` byte. -/
def EscapesOk (raw : Bytes) : Prop := ∀ pre rest, raw = pre ++ 0x25 :: rest → PcharEscape rest

/-- No segment is `.` or `..`. -/
def NoDotSegment (path : Bytes) : Prop := ∀ segment ∈ path.splitOn 0x2f, isDotSegment segment = false

structure Accepted (raw : Bytes) : Prop where
  escapes : EscapesOk raw
  backslash : (0x5c : UInt8) ∉ raw
  dots : NoDotSegment (decodeOnce raw)

/-! ## Bytes -/

theorem decodeToLiteral_facts : ∀ b : UInt8, decodeToLiteral b = true →
    b ≠ 0x25 ∧ b ≠ 0x2f ∧ b ≠ 0x5c ∧ b.toNat < 0x80 := by
  decide +kernel

theorem hexValue_facts : ∀ b : UInt8, hexValue b ≠ none →
    b ≠ 0x25 ∧ b ≠ 0x2f ∧ b ≠ 0x5c ∧ b.toNat < 0x80 := by
  decide +kernel

/-- The rejections cover exactly the bytes outside the table. -/
theorem escapeRejection_eq_none_iff : ∀ b : UInt8,
    escapeRejection b = none ↔ decodeToLiteral b = true := by
  decide +kernel

variable {high low : UInt8} {bs : Bytes}

/-- The digits of an escape, as bytes of the path. -/
theorem escapeDigits_some {rest : Bytes} (h : escapeDigits rest = some (high, low)) :
    ∃ x y t, rest = x :: y :: t ∧ hexValue x ≠ none ∧ hexValue y ≠ none := by
  unfold escapeDigits at h
  split at h
  · next x y t =>
    split at h
    · next hx hy => exact ⟨x, y, t, rfl, by simp [hx], by simp [hy]⟩
    · cases h
  · cases h

/-! ## Escapes -/

theorem escapesOk_cons {b : UInt8} {rest : Bytes} :
    EscapesOk (b :: rest) ↔ (b = 0x25 → PcharEscape rest) ∧ EscapesOk rest := by
  constructor
  · intro h
    refine ⟨fun hb => h [] rest (by rw [hb]; rfl), fun pre post hp => ?_⟩
    exact h (b :: pre) post (by rw [hp]; rfl)
  · rintro ⟨h1, h2⟩ pre post hp
    rcases pre with _ | ⟨x, pre⟩
    · obtain ⟨rfl, rfl⟩ := List.cons.inj hp
      exact h1 rfl
    · obtain ⟨-, hp⟩ := List.cons.inj hp
      exact h2 pre post hp

theorem escapesOk_of_not_mem (h : (0x25 : UInt8) ∉ bs) : EscapesOk bs := by
  intro pre rest hp
  exact absurd (by rw [hp]; simp) h

/-- The digits of an escape start no escape. -/
theorem escapesOk_drop {rest : Bytes} (h : escapeDigits rest = some (high, low)) :
    EscapesOk rest ↔ EscapesOk (rest.drop 2) := by
  obtain ⟨x, y, t, rfl, hx, hy⟩ := escapeDigits_some h
  have hx' := (hexValue_facts x hx).1
  have hy' := (hexValue_facts y hy).1
  simp only [escapesOk_cons, hx', hy', false_implies, true_and, drop_succ_cons, drop_zero]

theorem decodeOnce_ne {b : UInt8} {rest : Bytes} (h : b ≠ 0x25) :
    decodeOnce (b :: rest) = b :: decodeOnce rest := by
  rw [decodeOnce, if_neg h]

theorem decodeOnce_escape {rest : Bytes} (h : escapeDigits rest = some (high, low)) :
    decodeOnce (0x25 :: rest) = escapeValue high low :: decodeOnce (rest.drop 2) := by
  rw [decodeOnce, if_pos rfl]; simp only [h]

theorem decodeOnce_of_not_mem (h : (0x25 : UInt8) ∉ bs) : decodeOnce bs = bs := by
  induction bs with
  | nil => rw [decodeOnce]
  | cons b bs ih =>
    rw [mem_cons, not_or] at h
    rw [decodeOnce_ne (Ne.symm h.1), ih h.2]

/-- Induction over the escapes and the other bytes of a path. -/
theorem escapesOk_induction {P : Bytes → Prop} (nil : P [])
    (other : ∀ b rest, b ≠ 0x25 → EscapesOk rest → P rest → P (b :: rest))
    (escape : ∀ rest high low, escapeDigits rest = some (high, low) →
      decodeToLiteral (escapeValue high low) = true → EscapesOk (rest.drop 2) → P (rest.drop 2) →
      P (0x25 :: rest)) (h : EscapesOk bs) : P bs := by
  induction bs using decodeOnce.induct with
  | case1 => exact nil
  | case2 rest high low hd ih =>
    obtain ⟨hp, hr⟩ := escapesOk_cons.1 h
    obtain ⟨high', low', hd', hli⟩ := hp rfl
    rw [hd, Option.some.injEq, Prod.mk.injEq] at hd'
    obtain ⟨rfl, rfl⟩ := hd'
    rw [escapesOk_drop hd] at hr
    exact escape rest _ _ hd hli hr (ih hr)
  | case3 rest hd ih =>
    obtain ⟨high, low, hd', -⟩ := (escapesOk_cons.1 h).1 rfl
    rw [hd] at hd'; cases hd'
  | case4 b rest hb ih =>
    have hr := (escapesOk_cons.1 h).2
    exact other b rest hb hr (ih hr)

/-- Decoding a path with good escapes rewrites ASCII. -/
theorem decodeOnce_rewrite (h : EscapesOk bs) : AsciiRewrite bs (decodeOnce bs) := by
  refine escapesOk_induction (P := fun bs => AsciiRewrite bs (decodeOnce bs)) ?_ ?_ ?_ h
  · rw [decodeOnce]; exact .nil
  · intro b rest hb _ ih
    rw [decodeOnce_ne hb]; exact .copy b ih
  · intro rest high low hd hli _ ih
    rw [decodeOnce_escape hd]
    obtain ⟨x, y, t, rfl, hx, hy⟩ := escapeDigits_some hd
    have hu : Ascii [0x25, x, y] := by
      intro z hz
      simp only [mem_cons, not_mem_nil, or_false] at hz
      rcases hz with rfl | rfl | rfl
      · decide
      · exact (hexValue_facts z hx).2.2.2
      · exact (hexValue_facts z hy).2.2.2
    have hv : Ascii [escapeValue high low] := by
      intro z hz
      rw [mem_singleton.1 hz]
      exact (decodeToLiteral_facts _ hli).2.2.2
    exact .replace (u := [0x25, x, y]) (v := [escapeValue high low]) (by simp) hu hv ih

/-- A byte that no escape stands for is in the decoding only if it is in the path. -/
theorem mem_decodeOnce (h : EscapesOk bs) {x : UInt8} (hx : decodeToLiteral x = false)
    (hm : x ∈ decodeOnce bs) : x ≠ 0x25 ∧ x ∈ bs := by
  revert hm
  refine escapesOk_induction (P := fun bs => x ∈ decodeOnce bs → x ≠ 0x25 ∧ x ∈ bs) ?_ ?_ ?_ h
  · intro hm; rw [decodeOnce] at hm; cases hm
  · intro b rest hb _ ih hm
    rw [decodeOnce_ne hb] at hm
    rcases mem_cons.1 hm with rfl | hm
    · exact ⟨hb, mem_cons_self⟩
    · exact ⟨(ih hm).1, mem_cons_of_mem _ (ih hm).2⟩
  · intro rest high low hd hli _ ih hm
    rw [decodeOnce_escape hd] at hm
    rcases mem_cons.1 hm with rfl | hm
    · rw [hli] at hx; cases hx
    · exact ⟨(ih hm).1, mem_cons_of_mem _ (mem_of_mem_drop (ih hm).2)⟩

/-! ## Segments -/

theorem escapeDigits_append_slash (s t : Bytes) :
    escapeDigits (s ++ 0x2f :: t) = escapeDigits s := by
  have hs : hexValue 0x2f = none := by decide
  match s with
  | [] => cases t <;> simp [escapeDigits, hs]
  | [x] => cases hx : hexValue x <;> simp [escapeDigits, hs, hx]
  | x :: y :: s => rfl

theorem decodeOnce_append_slash (s t : Bytes) :
    decodeOnce (s ++ 0x2f :: t) = decodeOnce s ++ 0x2f :: decodeOnce t := by
  induction s using decodeOnce.induct with
  | case1 => rw [nil_append, decodeOnce_ne (by decide), decodeOnce]; rfl
  | case2 rest high low hd ih =>
    have hd' := (escapeDigits_append_slash rest t).trans hd
    obtain ⟨x, y, r, rfl, -, -⟩ := escapeDigits_some hd
    rw [cons_append, decodeOnce_escape hd', decodeOnce_escape hd]
    exact congrArg _ ih
  | case3 rest hd ih =>
    have hd' := (escapeDigits_append_slash rest t).trans hd
    rw [cons_append, decodeOnce, if_pos rfl, decodeOnce, if_pos rfl]
    simp only [hd, hd']
    rw [ih, cons_append]
  | case4 b rest hb ih => rw [cons_append, decodeOnce_ne hb, decodeOnce_ne hb, ih, cons_append]

theorem EscapesOk.of_append_slash {s t : Bytes} (h : EscapesOk (s ++ 0x2f :: t)) :
    EscapesOk s ∧ EscapesOk t := by
  constructor
  · rintro pre rest rfl
    obtain ⟨high, low, hd, hli⟩ := h pre (rest ++ 0x2f :: t) (by simp)
    exact ⟨high, low, (escapeDigits_append_slash rest t).symm.trans hd, hli⟩
  · rintro pre rest rfl
    exact h (s ++ 0x2f :: pre) rest (by simp)

theorem splitOn_decodeOnce (h : EscapesOk bs) :
    (decodeOnce bs).splitOn 0x2f = (bs.splitOn 0x2f).map decodeOnce := by
  induction hn : bs.length using Nat.strong_induction_on generalizing bs with
  | _ n ih =>
    by_cases hs : (0x2f : UInt8) ∈ bs
    · obtain ⟨s, t, rfl, hs'⟩ := eq_append_cons_of_mem hs
      obtain ⟨h1, h2⟩ := h.of_append_slash
      rw [decodeOnce_append_slash, splitOn_append_cons_self, splitOn_append_cons_self,
        map_append, ih s.length (by simp at hn; omega) h1 rfl, ih t.length (by simp at hn; omega) h2 rfl]
    · have hs' : (0x2f : UInt8) ∉ decodeOnce bs := fun hm =>
        hs (mem_decodeOnce h (by decide) hm).2
      rw [splitOn_eq_singleton hs, splitOn_eq_singleton hs']
      rfl

/-! ## The loops -/

/-- What is left to check: the bytes that remain, behind the current segment. -/
def Good (segment rest : Bytes) : Prop :=
  EscapesOk rest ∧ (0x5c : UInt8) ∉ rest ∧ NoDotSegment (segment ++ decodeOnce rest)

section
variable {segment rest : Bytes} {b : UInt8}

theorem good_nil (hs : (0x2f : UInt8) ∉ segment) : Good segment [] ↔ isDotSegment segment = false := by
  have hn : decodeOnce [] = [] := by rw [decodeOnce]
  simp only [Good, NoDotSegment, hn, append_nil, splitOn_eq_singleton hs,
    mem_singleton, forall_eq, not_mem_nil, not_false_eq_true, true_and]
  exact ⟨fun h => h.2, fun h => ⟨escapesOk_of_not_mem not_mem_nil, h⟩⟩

theorem good_slash (hs : (0x2f : UInt8) ∉ segment) :
    Good segment (0x2f :: rest) ↔ isDotSegment segment = false ∧ Good [] rest := by
  have hne : (0x2f : UInt8) ≠ 0x25 := by decide
  simp only [Good, NoDotSegment, escapesOk_cons, decodeOnce_ne hne, hne, false_implies, true_and,
    splitOn_append_cons_self, splitOn_eq_singleton hs, singleton_append,
    mem_cons, forall_eq_or_imp, not_or, nil_append]
  constructor
  · rintro ⟨h1, ⟨-, h2⟩, h3, h4⟩
    exact ⟨h3, h1, h2, h4⟩
  · rintro ⟨h3, h1, h2, h4⟩
    exact ⟨h1, ⟨by decide, h2⟩, h3, h4⟩

theorem good_other (hp : b ≠ 0x25) (hb : b ≠ 0x5c) :
    Good segment (b :: rest) ↔ Good (segment ++ [b]) rest := by
  simp only [Good, escapesOk_cons, decodeOnce_ne hp, hp, false_implies, true_and, mem_cons,
    not_or, Ne.symm hb, not_false_eq_true, append_assoc, singleton_append]

/-- An escape of a `pchar` byte extends it by that byte. -/
theorem good_escape {high low : UInt8} (hd : escapeDigits rest = some (high, low)) :
    Good segment (0x25 :: rest) ↔ decodeToLiteral (escapeValue high low) = true ∧
      Good (segment ++ [escapeValue high low]) (rest.drop 2) := by
  have hp : PcharEscape rest ↔ decodeToLiteral (escapeValue high low) = true := by
    constructor
    · rintro ⟨h, l, hd', hli⟩
      rw [hd, Option.some.injEq, Prod.mk.injEq] at hd'
      obtain ⟨rfl, rfl⟩ := hd'
      exact hli
    · exact fun hli => ⟨high, low, hd, hli⟩
  have hb : (0x5c : UInt8) ∉ 0x25 :: rest ↔ (0x5c : UInt8) ∉ rest.drop 2 := by
    obtain ⟨x, y, t, rfl, hx, hy⟩ := escapeDigits_some hd
    have hx' := (hexValue_facts x hx).2.2.1
    have hy' := (hexValue_facts y hy).2.2.1
    simp [Ne.symm hx', Ne.symm hy']
  simp only [Good, escapesOk_cons, true_implies, hp, escapesOk_drop hd, hb,
    decodeOnce_escape hd, append_assoc, singleton_append, and_assoc]

theorem not_good_backslash : ¬ Good segment (0x5c :: rest) := fun h => h.2.1 mem_cons_self

theorem not_good_escape (hd : escapeDigits rest = none) : ¬ Good segment (0x25 :: rest) := by
  rintro ⟨h, -, -⟩
  obtain ⟨high, low, hd', -⟩ := (escapesOk_cons.1 h).1 rfl
  rw [hd] at hd'; cases hd'

end

/-- The decoding pass accepts exactly what is good, and returns the decoding. -/
theorem canonicalizeLoop_ok_iff {canonical : Bytes} {start : ℕ} {esc : Bool} {rest out : Bytes}
    (hle : start ≤ canonical.length) (hs : (0x2f : UInt8) ∉ canonical.drop start) :
    canonicalizeLoop .enforced canonical start esc rest = .ok out ↔
      Good (canonical.drop start) rest ∧ out = canonical ++ decodeOnce rest := by
  induction hn : rest.length using Nat.strong_induction_on
    generalizing canonical start esc rest with
  | _ n ih =>
    have hdr : ∀ x, (canonical ++ [x]).drop start = canonical.drop start ++ [x] := fun x =>
      drop_append_of_le_length hle
    have hln : ∀ x, start ≤ (canonical ++ [x]).length := fun x => by
      rw [length_append]; omega
    rcases rest with _ | ⟨b, rest⟩
    · rw [canonicalizeLoop, good_nil hs, decodeOnce, append_nil, checkSegment]
      rcases isDotSegment (canonical.drop start) with _ | _ <;> simp [eq_comm]
    · rw [canonicalizeLoop]
      simp only [length_cons] at hn
      by_cases hsl : b = 0x2f
      · subst hsl
        have ih' : canonicalizeLoop .enforced (canonical ++ [0x2f]) (canonical ++ [0x2f]).length
            false rest = .ok out ↔ _ := ih rest.length (by omega) le_rfl (by simp) rfl
        rw [drop_length, append_assoc, singleton_append] at ih'
        rw [if_pos rfl, good_slash hs, checkSegment, decodeOnce_ne (by decide)]
        rcases isDotSegment (canonical.drop start) with _ | _
        · simpa using ih'
        · simp
      · rw [if_neg hsl]
        by_cases hb : b = 0x5c
        · subst hb
          simp [not_good_backslash]
        · rw [if_neg (fun h => hb h.1)]
          by_cases hp : b = 0x25
          · subst hp
            rw [if_neg (not_not.2 rfl)]
            rcases hd : escapeDigits rest with _ | ⟨high, low⟩
            · simp [not_good_escape hd]
            · rw [good_escape hd, decodeOnce_escape hd]
              rcases hli : decodeToLiteral (escapeValue high low) with _ | _
              · have : escapeRejection (escapeValue high low) ≠ none := by
                  rw [Ne, escapeRejection_eq_none_iff, hli]; simp
                obtain ⟨e, he⟩ := Option.ne_none_iff_exists'.1 this
                simp [he]
              · have hne := (decodeToLiteral_facts _ hli).2.1
                simp only [(escapeRejection_eq_none_iff _).2 hli]
                rw [ih (rest.drop 2).length (by rw [length_drop]; omega) (hln _)
                  (by rw [hdr]; simp [hs, Ne.symm hne]) rfl, hdr]
                simp
          · rw [if_pos hp, good_other hp hb, decodeOnce_ne hp,
              ih rest.length (by omega) (hln _) (by rw [hdr]; simp [hs, Ne.symm hsl]) rfl, hdr]
            simp

theorem prescanLoop_spec {segment rest : Bytes} (hs : (0x2f : UInt8) ∉ segment) :
    match prescanLoop .enforced segment rest with
    | .error _ => ¬ Good segment rest
    | .ok .alreadyCanonical => Good segment rest ∧ (0x25 : UInt8) ∉ rest
    | .ok .needsDecoding => (0x25 : UInt8) ∈ rest := by
  revert segment
  induction rest with
  | nil =>
    intro segment hs
    rw [prescanLoop, good_nil hs]
    rcases isDotSegment segment with _ | _ <;> simp
  | cons b rest ih =>
    intro segment hs
    rw [prescanLoop]
    by_cases hp : b = 0x25
    · subst hp; simp
    rw [if_neg hp]
    by_cases hb : b = 0x5c
    · subst hb; simpa using not_good_backslash
    rw [if_neg (fun h => hb h.1)]
    by_cases hsl : b = 0x2f
    · subst hsl
      have ih' := @ih [] not_mem_nil
      rw [if_pos ⟨rfl, rfl⟩, good_slash hs]
      rcases isDotSegment segment with _ | _
      · simpa using ih'
      · simp
    · rw [if_neg (fun h => hsl h.1), good_other hp hb]
      have ih' := @ih (segment ++ [b]) (by simp [hs, Ne.symm hsl])
      simpa [Ne.symm hp] using ih'

/-! ## The canonicalizer -/

theorem good_nil_iff_accepted {raw : Bytes} : Good [] raw ↔ Accepted raw :=
  ⟨fun ⟨h1, h2, h3⟩ => ⟨h1, h2, h3⟩, fun ⟨h1, h2, h3⟩ => ⟨h1, h2, h3⟩⟩

/-- The canonicalizer accepts exactly the accepted targets; it returns the decoding, borrowed
    iff there is nothing to decode. -/
theorem canonicalizePolicyPath_ok_iff {raw : Str} {c : Cow Str} :
    canonicalizePolicyPath raw = .ok c ↔
      Accepted raw.bytes ∧ c.get.bytes = decodeOnce raw.bytes ∧
        ((0x25 : UInt8) ∉ raw.bytes ↔ c = .borrowed c.get) := by
  unfold canonicalizePolicyPath canonicalize prescan
  have hp := @prescanLoop_spec [] raw.bytes not_mem_nil
  rcases hs : prescanLoop .enforced [] raw.bytes with e | _ | _
  · rw [hs, good_nil_iff_accepted] at hp
    simp [hp]
  · rw [hs, good_nil_iff_accepted] at hp
    obtain ⟨ha, hpt⟩ := hp
    simp only [Except.ok.injEq, ha, true_and, decodeOnce_of_not_mem hpt, hpt, not_false_eq_true,
      true_iff]
    constructor
    · rintro rfl; exact ⟨rfl, rfl⟩
    · rintro ⟨h1, h2⟩
      rw [h2, show raw = c.get from Str.ext h1.symm]
  · rw [hs] at hp
    have hlp := fun out =>
      @canonicalizeLoop_ok_iff [] 0 false raw.bytes out le_rfl not_mem_nil
    simp only [drop_nil, good_nil_iff_accepted, nil_append] at hlp
    by_cases ha : Accepted raw.bytes
    · have hok := (hlp _).2 ⟨ha, rfl⟩
      have hu : IsUtf8 (decodeOnce raw.bytes) := (decodeOnce_rewrite ha.escapes).isUtf8 raw.utf8
      simp only [hok, Str.fromUtf8, dif_pos hu, Except.ok.injEq, ha, true_and, hp, not_true_eq_false,
        false_iff]
      constructor
      · rintro rfl; exact ⟨rfl, by rintro ⟨⟩⟩
      · rintro ⟨h1, h2⟩
        cases c with
        | borrowed s => exact absurd rfl h2
        | owned s => rw [show s = ⟨_, hu⟩ from Str.ext h1]
    · have he : ∀ out, canonicalizeLoop .enforced [] 0 false raw.bytes ≠ .ok out := fun out h =>
        ha ((hlp out).1 h).1
      rcases hl : canonicalizeLoop .enforced [] 0 false raw.bytes with e | out
      · simp [ha]
      · exact absurd hl (he out)

section
variable {raw : Str} {c : Cow Str}

/-- Nothing of the escape alphabet survives. -/
theorem Accepted.decoded {raw : Bytes} (h : Accepted raw) :
    (0x25 : UInt8) ∉ decodeOnce raw ∧ (0x5c : UInt8) ∉ decodeOnce raw :=
  ⟨fun hm => (mem_decodeOnce h.escapes (by decide) hm).1 rfl,
    fun hm => h.backslash (mem_decodeOnce h.escapes (by decide) hm).2⟩

/-- An accepted path is accepted again, and decodes to itself. -/
theorem Accepted.again {raw : Bytes} (h : Accepted raw) :
    Accepted (decodeOnce raw) ∧ decodeOnce (decodeOnce raw) = decodeOnce raw := by
  have hd := decodeOnce_of_not_mem h.decoded.1
  exact ⟨⟨escapesOk_of_not_mem h.decoded.1, h.decoded.2, by rw [hd]; exact h.dots⟩, hd⟩

/-- Canonicalizing is idempotent, and the second time it borrows. -/
theorem canonicalizePolicyPath_idem (h : canonicalizePolicyPath raw = .ok c) :
    canonicalizePolicyPath c.get = .ok (.borrowed c.get) := by
  obtain ⟨ha, hc, -⟩ := canonicalizePolicyPath_ok_iff.1 h
  obtain ⟨ha', hd⟩ := ha.again
  refine canonicalizePolicyPath_ok_iff.2 ⟨hc ▸ ha', ?_, ?_⟩
  · exact (hc ▸ hd).symm
  · exact iff_of_true (hc ▸ ha.decoded.1) rfl

theorem canonicalizePolicyPath_borrowed {s : Str}
    (h : canonicalizePolicyPath raw = .ok (.borrowed s)) : s = raw := by
  obtain ⟨-, hc, hb⟩ := canonicalizePolicyPath_ok_iff.1 h
  rw [decodeOnce_of_not_mem (hb.2 rfl)] at hc
  exact Str.ext hc

theorem nonCanonicalPolicyPathReason_eq_none_iff :
    nonCanonicalPolicyPathReason raw = none ↔ canonicalizePolicyPath raw = .ok (.borrowed raw) := by
  unfold nonCanonicalPolicyPathReason
  change reasonFor (canonicalizePolicyPath raw) = none ↔ _
  rcases h : canonicalizePolicyPath raw with e | s | s
  · simp [reasonFor]
  · obtain rfl := canonicalizePolicyPath_borrowed h
    simp [reasonFor]
  · simp [reasonFor]

end

/-- **The policy path.**  A target is accepted iff every `%` starts an escape of a `pchar` byte,
    it has no backslash and no segment of its single-pass decoding is a dot segment.  The
    canonical path is then that decoding: it has no `%`, no backslash and no dot segment, the
    segments of the target, and is left alone by every later pass; and the paths that the
    admission check lets pass are the canonical ones. -/
theorem policy_path_canonical (raw : Str) :
    ((∃ c, canonicalizePolicyPath raw = .ok c) ↔
      EscapesOk raw.bytes ∧ (0x5c : UInt8) ∉ raw.bytes ∧ NoDotSegment (decodeOnce raw.bytes)) ∧
    (∀ c, canonicalizePolicyPath raw = .ok c →
      c.get.bytes = decodeOnce raw.bytes ∧
      (0x25 : UInt8) ∉ c.get.bytes ∧ (0x5c : UInt8) ∉ c.get.bytes ∧ NoDotSegment c.get.bytes ∧
      c.get.bytes.splitOn 0x2f = (raw.bytes.splitOn 0x2f).map decodeOnce ∧
      canonicalizePolicyPath c.get = .ok (.borrowed c.get) ∧
      Router.normalizeEncodedSlashes c.get = .borrowed c.get) ∧
    (nonCanonicalPolicyPathReason raw = none ↔
      ∃ raw' c, canonicalizePolicyPath raw' = .ok c ∧ c.get = raw) := by
  refine ⟨?_, ?_, ?_⟩
  · constructor
    · rintro ⟨c, h⟩
      obtain ⟨⟨h1, h2, h3⟩, -⟩ := canonicalizePolicyPath_ok_iff.1 h
      exact ⟨h1, h2, h3⟩
    · rintro ⟨h1, h2, h3⟩
      have hu : IsUtf8 (decodeOnce raw.bytes) := (decodeOnce_rewrite h1).isUtf8 raw.utf8
      by_cases hp : (0x25 : UInt8) ∈ raw.bytes
      · exact ⟨.owned ⟨_, hu⟩, canonicalizePolicyPath_ok_iff.2
          ⟨⟨h1, h2, h3⟩, rfl, iff_of_false (not_not.2 hp) (by rintro ⟨⟩)⟩⟩
      · exact ⟨.borrowed ⟨_, hu⟩, canonicalizePolicyPath_ok_iff.2
          ⟨⟨h1, h2, h3⟩, rfl, iff_of_true hp rfl⟩⟩
  · intro c h
    obtain ⟨ha, hc, -⟩ := canonicalizePolicyPath_ok_iff.1 h
    obtain ⟨hp, hb⟩ := ha.decoded
    rw [← hc] at hp hb
    refine ⟨hc, hp, hb, hc ▸ ha.dots, hc ▸ splitOn_decodeOnce ha.escapes,
      canonicalizePolicyPath_idem h, Router.normalizeEncodedSlashes_of_not_mem hp⟩
  · rw [nonCanonicalPolicyPathReason_eq_none_iff]
    constructor
    · exact fun h => ⟨raw, _, h, rfl⟩
    · rintro ⟨raw', c, h, rfl⟩
      exact canonicalizePolicyPath_idem h

end Ferrum.Policy
