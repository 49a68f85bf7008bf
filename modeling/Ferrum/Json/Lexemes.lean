/-
  The white space and the numbers of the scanner are those of the JSON grammar.

  * `skipWhitespace_eq`.
  * `readNumber_ok`, `readNumber_eq`.
-/
import Ferrum.Json.Lexer
import Ferrum.Lib.Json
import Mathlib.Data.List.TakeWhile

namespace Ferrum.Json

open Lib List

/-! ## White space -/

variable {b : UInt8} {r t ds : Bytes}

theorem isWhitespace_iff : isWhitespace b = true ↔ IsWs b := by
  simp only [isWhitespace, IsWs, Bool.or_eq_true, beq_iff_eq, or_assoc]
  rfl

theorem ws_skipWhitespace (t : Bytes) : Ws t (skipWhitespace t) :=
  ⟨t.takeWhile isWhitespace, fun _ hb => isWhitespace_iff.1 (mem_takeWhile_imp hb),
    (takeWhile_append_dropWhile).symm⟩

theorem skipWhitespace_eq (h : Ws t r) (hr : ∀ b, r.head? = some b → ¬ IsWs b) :
    skipWhitespace t = r := by
  obtain ⟨w, hw, rfl⟩ := h
  induction w with
  | nil =>
    cases r with
    | nil => rfl
    | cons b r =>
      have hb : isWhitespace b = false := by
        rw [← Bool.not_eq_true, isWhitespace_iff]
        exact hr b rfl
      rw [nil_append, skipWhitespace, dropWhile_cons, hb]
      rfl
  | cons b w ih =>
    have hb : isWhitespace b = true := isWhitespace_iff.2 (hw b (mem_cons_self ..))
    rw [cons_append, skipWhitespace, dropWhile_cons, hb]
    exact ih fun b' hb' => hw b' (mem_cons_of_mem b hb')

theorem length_skipWhitespace (t : Bytes) : (skipWhitespace t).length ≤ t.length :=
  length_dropWhile_le _ _

/-! ## Numbers -/

theorem isDigit_iff : isDigit b = true ↔ 0x30 ≤ b ∧ b ≤ 0x39 := by
  simp only [isDigit, Bool.and_eq_true, decide_eq_true_eq]
  rfl

/-- The digits up to the first byte that is none. -/
theorem digits_ok (h : t.head?.any isDigit = true) :
    ∃ ds, IsDigits ds ∧ t = ds ++ t.dropWhile isDigit := by
  refine ⟨t.takeWhile isDigit, ⟨?_, fun b hb => isDigit_iff.1 (mem_takeWhile_imp hb)⟩,
    (takeWhile_append_dropWhile).symm⟩
  cases t with
  | nil => cases h
  | cons b t =>
    have hb : isDigit b = true := h
    simp [hb]

theorem dropWhile_digits (hds : ∀ b ∈ ds, 0x30 ≤ b ∧ b ≤ 0x39) (hr : r.head?.any isDigit = false) :
    (ds ++ r).dropWhile isDigit = r := by
  induction ds with
  | nil =>
    cases r with
    | nil => rfl
    | cons b r =>
      have hb : isDigit b = false := hr
      rw [nil_append, dropWhile_cons, hb]
      rfl
  | cons b ds ih =>
    have hb : isDigit b = true := isDigit_iff.2 (hds b (mem_cons_self ..))
    rw [cons_append, dropWhile_cons, hb]
    exact ih fun b' hb' => hds b' (mem_cons_of_mem b hb')

theorem head_digits (hds : IsDigits ds) : (ds ++ r).head?.any isDigit = true := by
  obtain ⟨b, ds, rfl⟩ := exists_cons_of_ne_nil hds.1
  exact isDigit_iff.2 (hds.2 b (mem_cons_self ..))

theorem readInteger_ok (h : readInteger t = .ok r) : ∃ int, IsInt int ∧ t = int ++ r := by
  cases t with
  | nil => cases h
  | cons b t =>
    simp only [readInteger] at h
    split_ifs at h with hz hd
    · cases h
      exact ⟨[0x30], .inl rfl, by rw [hz]; rfl⟩
    · cases h
      obtain ⟨ds, hds, heq⟩ := digits_ok (t := b :: t) hd
      rw [dropWhile_cons, if_pos hd] at heq
      refine ⟨ds, .inr ⟨hds, fun hh => hz ?_⟩, heq⟩
      obtain ⟨b', ds, rfl⟩ := exists_cons_of_ne_nil hds.1
      cases hh
      exact (List.cons.inj heq).1

theorem readFraction_ok (h : readFraction t = .ok r) :
    ∃ frac, (frac = [] ∨ IsFrac frac) ∧ t = frac ++ r := by
  cases t with
  | nil => cases h; exact ⟨[], .inl rfl, rfl⟩
  | cons b t =>
    simp only [readFraction] at h
    split_ifs at h with hdt hd
    · cases h
      obtain ⟨ds, hds, heq⟩ := digits_ok hd
      exact ⟨0x2E :: ds, .inr ⟨ds, hds, rfl⟩, by rw [hdt, cons_append, ← heq]; rfl⟩
    · cases h
      exact ⟨[], .inl rfl, rfl⟩

/-- What is skipped is nothing or one byte. -/
theorem skipOne_ok (p : UInt8 → Bool) (t : Bytes) :
    ∃ w, (w = [] ∨ ∃ b, p b = true ∧ w = [b]) ∧ t = w ++ skipOne p t := by
  cases t with
  | nil => exact ⟨[], .inl rfl, rfl⟩
  | cons b t =>
    cases hb : p b with
    | true => exact ⟨[b], .inr ⟨b, hb, rfl⟩, by simp [skipOne, hb]⟩
    | false => exact ⟨[], .inl rfl, by simp [skipOne, hb]⟩

theorem skipOne_of_not {p : UInt8 → Bool} (h : ∀ b, t.head? = some b → p b = false) :
    skipOne p t = t := by
  cases t with
  | nil => rfl
  | cons b t => simp [skipOne, h b rfl]

theorem readExponent_ok (h : readExponent t = .ok r) :
    ∃ exp, (exp = [] ∨ IsExp exp) ∧ t = exp ++ r := by
  cases t with
  | nil => cases h; exact ⟨[], .inl rfl, rfl⟩
  | cons b t =>
    obtain ⟨sign, hsg, heq⟩ := skipOne_ok (fun s => s == byte '+' || s == byte '-') t
    simp only [readExponent] at h
    generalize skipOne _ t = digits at h heq
    split_ifs at h with he hd
    · cases h
      obtain ⟨ds, hds, hr⟩ := digits_ok hd
      refine ⟨b :: sign ++ ds, .inr ⟨b, sign, ds, he, ?_, hds, rfl⟩, ?_⟩
      · rcases hsg with rfl | ⟨s, hs, rfl⟩
        · exact .inl rfl
        · rcases Bool.or_eq_true_iff.1 hs with hs | hs
          · exact .inr (.inl (by rw [eq_of_beq hs]; rfl))
          · exact .inr (.inr (by rw [eq_of_beq hs]; rfl))
      · rw [heq, append_assoc, cons_append, ← hr]
    · cases h
      exact ⟨[], .inl rfl, rfl⟩

/-- **Numbers read are numbers.** -/
theorem readNumber_ok (h : readNumber t = .ok r) : ∃ number, IsNumber number ∧ t = number ++ r := by
  obtain ⟨minus, hm, heq⟩ := skipOne_ok (· == byte '-') t
  have hm' : minus = [] ∨ minus = [0x2D] := by
    rcases hm with rfl | ⟨b, hb, rfl⟩
    · exact .inl rfl
    · exact .inr (by rw [eq_of_beq hb]; rfl)
  simp only [readNumber] at h
  generalize skipOne _ t = t₁ at h heq
  cases hi : readInteger t₁ with
  | error e => rw [hi] at h; cases h
  | ok t₂ =>
    rw [hi] at h
    cases hf : readFraction t₂ with
    | error e => simp only [hf, bind, Except.bind] at h; cases h
    | ok t₃ =>
      simp only [hf, bind, Except.bind] at h
      obtain ⟨int, hi', rfl⟩ := readInteger_ok hi
      obtain ⟨frac, hf', rfl⟩ := readFraction_ok hf
      obtain ⟨exp, he', rfl⟩ := readExponent_ok h
      refine ⟨minus ++ int ++ frac ++ exp, ⟨minus, int, frac, exp, hm', hi', hf', he', rfl⟩,
        ?_⟩
      rw [heq]
      simp only [append_assoc]

/-- No byte here continues a number. -/
def Follows (r : Bytes) : Prop :=
  ∀ b, r.head? = some b → isDigit b = false ∧ b ≠ 0x2E ∧ b ≠ 0x65 ∧ b ≠ 0x45

theorem Follows.digit (h : Follows r) : r.head?.any isDigit = false := by
  cases r with
  | nil => rfl
  | cons b r => exact (h b rfl).1

theorem readExponent_eq {exp : Bytes} (h : exp = [] ∨ IsExp exp) (hr : Follows r) :
    readExponent (exp ++ r) = .ok r := by
  rcases h with rfl | ⟨e, sign, ds, he, hsg, hds, rfl⟩
  · cases r with
    | nil => rfl
    | cons b r =>
      obtain ⟨-, -, hlw, hup⟩ := hr b rfl
      have hno : ¬ (b = byte 'e' ∨ b = byte 'E') := not_or.2 ⟨hlw, hup⟩
      simp only [nil_append, readExponent, if_neg hno]
  · have hep : e = byte 'e' ∨ e = byte 'E' := he
    have hdg : skipOne (fun s => s == byte '+' || s == byte '-') (sign ++ (ds ++ r)) =
        ds ++ r := by
      rcases hsg with rfl | rfl | rfl
      · refine skipOne_of_not fun b hb => ?_
        have hd := head_digits (r := r) hds
        rw [show (ds ++ r).head? = some b from hb] at hd
        by_contra hs
        simp only [Bool.not_eq_false, Bool.or_eq_true, beq_iff_eq] at hs
        rcases hs with rfl | rfl <;> exact absurd hd (by decide)
      · rfl
      · rfl
    rw [append_assoc, cons_append]
    simp only [readExponent, if_pos hep]
    rw [hdg, if_pos (head_digits hds), dropWhile_digits hds.2 hr.digit]

theorem readFraction_eq {frac : Bytes} (h : frac = [] ∨ IsFrac frac)
    (hr : r.head?.any isDigit = false) (hd : r.head? ≠ some 0x2E) :
    readFraction (frac ++ r) = .ok r := by
  rcases h with rfl | ⟨ds, hds, rfl⟩
  · cases r with
    | nil => rfl
    | cons b r =>
      have hno : b ≠ byte '.' := fun hb => hd (by rw [hb]; rfl)
      simp only [nil_append, readFraction, if_neg hno]
  · rw [cons_append]
    simp only [readFraction]
    rw [if_pos (show (0x2E : UInt8) = byte '.' from rfl), if_pos (head_digits hds),
      dropWhile_digits hds.2 hr]

theorem readInteger_eq {int : Bytes} (h : IsInt int) (hr : r.head?.any isDigit = false) :
    readInteger (int ++ r) = .ok r := by
  rcases h with rfl | ⟨⟨hne, hd⟩, hh⟩
  · rfl
  · obtain ⟨b, ds, rfl⟩ := exists_cons_of_ne_nil hne
    have hz : b ≠ byte '0' := fun hb => hh (by rw [hb]; rfl)
    have hb : isDigit b = true := isDigit_iff.2 (hd b (mem_cons_self ..))
    rw [cons_append]
    simp only [readInteger, if_neg hz, if_pos hb]
    rw [dropWhile_digits (fun b' hb' => hd b' (mem_cons_of_mem b hb')) hr]

/-- **Numbers are read**, all of them. -/
theorem readNumber_eq {number : Bytes} (h : IsNumber number) (hr : Follows r) :
    readNumber (number ++ r) = .ok r := by
  obtain ⟨minus, int, frac, exp, hm, hi, hf, hep, rfl⟩ := h
  have hep' := readExponent_eq hep hr
  -- what is behind each part does not continue it
  have ha : (exp ++ r).head?.any isDigit = false ∧ (exp ++ r).head? ≠ some 0x2E := by
    rcases hep with rfl | ⟨e, sign, ds, he, -, -, rfl⟩
    · refine ⟨hr.digit, fun hdt => ?_⟩
      exact (hr _ hdt).2.1 rfl
    · rcases he with rfl | rfl <;> exact ⟨rfl, by simp⟩
  have hf' := readFraction_eq hf ha.1 ha.2
  have ha' : (frac ++ (exp ++ r)).head?.any isDigit = false := by
    rcases hf with rfl | ⟨ds, -, rfl⟩
    · exact ha.1
    · rfl
  have hi' := readInteger_eq hi ha'
  have hm' : skipOne (· == byte '-') (minus ++ (int ++ (frac ++ (exp ++ r)))) =
      int ++ (frac ++ (exp ++ r)) := by
    rcases hm with rfl | rfl
    · refine skipOne_of_not fun b hb => ?_
      have hd : isDigit b = true := by
        rcases hi with rfl | ⟨hdg, -⟩
        · cases hb
          rfl
        · have hfr := head_digits (r := frac ++ (exp ++ r)) hdg
          rwa [show (int ++ (frac ++ (exp ++ r))).head? = some b from hb] at hfr
      by_contra hs
      simp only [Bool.not_eq_false, beq_iff_eq] at hs
      rw [hs] at hd
      exact absurd hd (by decide)
    · rfl
  simp only [readNumber, append_assoc]
  rw [hm', hi']
  simp only [bind, Except.bind, hf', hep']

end Ferrum.Json
