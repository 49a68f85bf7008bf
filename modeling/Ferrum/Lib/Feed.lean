/-
  Scanners that are fed one symbol after the other.

  A step of a scanner goes on, is done with a result, or fails.

  * `feed`: a word is fed; a scanner that is done before its end fails.
  * `feed_append`: words are fed one after the other.
  * `feed_cons_done`: what the first symbol of a word does on which the scanner is done.
-/
import Mathlib.Data.List.Basic

namespace Ferrum.Lib

inductive Fed (σ ρ : Type*) where
  | more (s : σ)
  | done (r : ρ)
  | failed

variable {σ ρ β : Type*} {step : σ → β → Fed σ ρ} {s s' : σ} {b : β} {xs ys : List β} {r : ρ}

def feed (step : σ → β → Fed σ ρ) : σ → List β → Fed σ ρ
  | s, [] => .more s
  | s, b :: bs =>
    match step s b with
    | .more s' => feed step s' bs
    | .done r =>
      match bs with
      | [] => .done r
      | _ :: _ => .failed
    | .failed => .failed

theorem feed_cons (h : step s b = .more s') : feed step s (b :: xs) = feed step s' xs := by
  rw [feed, h]

theorem feed_singleton (step : σ → β → Fed σ ρ) (s : σ) (b : β) : feed step s [b] = step s b := by
  rw [feed]
  cases step s b <;> rfl

theorem feed_congr (h : step s b = step s' b) : feed step s (b :: xs) = feed step s' (b :: xs) := by
  rw [feed, feed, h]

theorem feed_cons_more (h : feed step s (b :: xs) = .more s') :
    ∃ t, step s b = .more t ∧ feed step t xs = .more s' := by
  cases hb : step s b with
  | more t => exact ⟨t, rfl, feed_cons hb ▸ h⟩
  | done r =>
    rw [feed, hb] at h
    cases xs <;> cases h
  | failed =>
    rw [feed, hb] at h
    cases h

/-- **Words are fed** one after the other. -/
theorem feed_append (h : feed step s xs = .more s') : feed step s (xs ++ ys) = feed step s' ys := by
  induction xs generalizing s with
  | nil =>
    cases h
    rfl
  | cons b xs ih =>
    obtain ⟨t, hb, h⟩ := feed_cons_more h
    rw [List.cons_append, feed_cons hb, ih h]

/-- On a word on which the scanner is done, it goes on until the last symbol. -/
theorem feed_cons_done (h : feed step s (b :: xs) = .done r) :
    xs = [] ∧ step s b = .done r ∨ ∃ s', step s b = .more s' ∧ feed step s' xs = .done r := by
  cases hb : step s b with
  | more t => exact .inr ⟨t, rfl, feed_cons hb ▸ h⟩
  | done r' =>
    rw [feed, hb] at h
    cases xs with
    | nil => exact .inl ⟨rfl, congrArg Fed.done (Fed.done.inj h)⟩
    | cons b' xs => cases h
  | failed =>
    rw [feed, hb] at h
    cases h

/-- A part of a word on which the scanner is done, and the next symbol. -/
theorem feed_take_done {n : ℕ} (h : feed step s xs = .done r)
    (hn : feed step s (xs.take n) = .more s') (hb : xs[n]? = some b) :
    n + 1 < xs.length ∧ (∃ t, step s' b = .more t ∧ feed step s (xs.take (n + 1)) = .more t) ∨
      n + 1 = xs.length ∧ step s' b = .done r := by
  obtain ⟨hlt, rfl⟩ := List.getElem?_eq_some_iff.1 hb
  have hs : xs = xs.take n ++ xs[n] :: xs.drop (n + 1) := by
    rw [← List.drop_eq_getElem_cons hlt, List.take_append_drop]
  rw [hs, feed_append hn] at h
  rcases feed_cons_done h with ⟨hnl, hd⟩ | ⟨t, ht, hr⟩
  · exact .inr ⟨Nat.le_antisymm hlt (List.drop_eq_nil_iff.1 hnl), hd⟩
  · refine .inl ⟨Nat.lt_of_le_of_ne hlt fun heq => ?_, t, ht, ?_⟩
    · rw [heq, List.drop_length] at hr
      cases hr
    · rw [List.take_succ_eq_append_getElem hlt, feed_append hn, feed_cons ht, feed]

end Ferrum.Lib
