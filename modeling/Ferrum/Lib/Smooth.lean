/-
  Smooth weighted round-robin.

  Every candidate has a weight and a balance.  A round adds to each balance its weight, chooses a
  candidate of greatest balance, and takes the total of the weights from it.

  * `Rounds weight choices balance`: the choices so far, and the balances they leave.
  * `Rounds.balance_eq`: a balance is what the candidate is short of its share.
  * `Rounds.abs_balance_lt`: no balance reaches the total times the number of candidates.
  * `Rounds.count_eq`: after as many rounds as the total, everyone was chosen as often as its
    weight says.
-/
import Mathlib.Algebra.BigOperators.Ring.Finset
import Mathlib.Algebra.Order.BigOperators.Group.Finset
import Mathlib.Tactic.Linarith
import Mathlib.Tactic.Ring

namespace Ferrum.Lib

open Finset

variable {ι : Type*} [Fintype ι] [DecidableEq ι]

/-- The choices of some rounds, and the balances after them. -/
inductive Rounds (weight : ι → ℤ) : List ι → (ι → ℤ) → Prop
  | nil : Rounds weight [] fun _ => 0
  | snoc {choices : List ι} {balance : ι → ℤ} {i : ι} (h : Rounds weight choices balance)
      (hmax : ∀ j, balance j + weight j ≤ balance i + weight i) :
      Rounds weight (choices ++ [i])
        fun j => balance j + weight j - if j = i then ∑ k, weight k else 0

namespace Rounds
variable {weight : ι → ℤ} {choices : List ι} {balance : ι → ℤ}

theorem balance_eq (h : Rounds weight choices balance) (j : ι) :
    balance j = choices.length * weight j - (∑ k, weight k) * choices.count j := by
  induction h with
  | nil => simp
  | snoc h _ ih =>
    rename_i i _
    simp only [ih, List.length_append, List.length_singleton, List.count_append,
      List.count_singleton, beq_iff_eq]
    by_cases hj : j = i
    · rw [if_pos hj, if_pos hj.symm]
      push_cast
      ring
    · rw [if_neg hj, if_neg (Ne.symm hj)]
      push_cast
      ring

theorem sum_balance (h : Rounds weight choices balance) : ∑ j, balance j = 0 := by
  induction h with
  | nil => simp
  | snoc h _ ih =>
    rw [sum_sub_distrib, sum_add_distrib, ih, sum_ite_eq' univ]
    simp

section
variable (hpos : ∀ j, 0 < weight j) (h : Rounds weight choices balance) (j : ι)
include hpos j

omit [DecidableEq ι] in
theorem total_pos : 0 < ∑ k, weight k := sum_pos (fun k _ => hpos k) ⟨j, mem_univ j⟩

include h

/-- Whoever is chosen had at least an average balance, which is positive. -/
theorem neg_lt : -∑ k, weight k < balance j := by
  have hs := total_pos hpos j
  induction h with
  | nil => simpa using hs
  | snoc h hmax ih =>
    rename_i choices balance i
    by_cases hj : j = i
    · subst hj
      have hc : 0 < balance j + weight j := by
        by_contra hle
        have ht : ∑ k, (balance k + weight k) ≤ 0 :=
          sum_nonpos fun k _ => (hmax k).trans (not_lt.1 hle)
        rw [sum_add_distrib, h.sum_balance, zero_add] at ht
        exact absurd hs (not_lt.2 ht)
      simp only [if_true]
      linarith
    · simp only [if_neg hj]
      linarith [hpos j]

theorem lt_mul : balance j < Fintype.card ι * ∑ k, weight k := by
  have hs := total_pos hpos j
  have hc : balance j = -∑ k ∈ univ.erase j, balance k := by
    have := h.sum_balance
    rw [← add_sum_erase univ balance (mem_univ j)] at this
    linarith
  have hb : ∑ k ∈ univ.erase j, -∑ l, weight l ≤ ∑ k ∈ univ.erase j, balance k :=
    sum_le_sum fun k _ => (h.neg_lt hpos k).le
  rw [sum_const, card_erase_of_mem (mem_univ j), card_univ, nsmul_eq_mul,
    Nat.cast_sub (Fintype.card_pos_iff.2 ⟨j⟩), Nat.cast_one] at hb
  linarith

/-- **No balance** reaches the total times the number of candidates. -/
theorem abs_balance_lt : |balance j| < Fintype.card ι * ∑ k, weight k := by
  have hs := total_pos hpos j
  have hc : (1 : ℤ) ≤ Fintype.card ι := by exact_mod_cast Fintype.card_pos_iff.2 ⟨j⟩
  refine abs_lt.2 ⟨?_, h.lt_mul hpos j⟩
  have hle : ∑ k, weight k ≤ Fintype.card ι * ∑ k, weight k := le_mul_of_one_le_left hs.le hc
  exact lt_of_le_of_lt (neg_le_neg hle) (h.neg_lt hpos j)

/-- **A whole period**: everyone was chosen as often as its weight says. -/
theorem count_eq (hln : (choices.length : ℤ) = ∑ k, weight k) :
    (choices.count j : ℤ) = weight j := by
  have hs := total_pos hpos j
  have hb : ∀ k, balance k = (∑ l, weight l) * (weight k - choices.count k) := by
    intro k
    rw [h.balance_eq k, hln]
    ring
  -- the balances are multiples of the total above its negative
  have hn : ∀ k, 0 ≤ balance k := by
    intro k
    have hlt := h.neg_lt hpos k
    rw [hb k] at hlt ⊢
    have : -1 < weight k - choices.count k := by
      by_contra hle
      nlinarith [not_lt.1 hle]
    exact mul_nonneg hs.le (by linarith)
  have hz := (sum_eq_zero_iff_of_nonneg fun k _ => hn k).1 h.sum_balance j (mem_univ j)
  rw [hb j] at hz
  rcases mul_eq_zero.1 hz with h0 | h0
  · exact absurd h0 hs.ne'
  · linarith

end

theorem take (h : Rounds weight choices balance) (k : ℕ) :
    ∃ balance', Rounds weight (choices.take k) balance' := by
  induction h with
  | nil =>
    rw [List.take_nil]
    exact ⟨_, .nil⟩
  | snoc h hmax ih =>
    rename_i choices balance i
    by_cases hk : k ≤ choices.length
    · rw [List.take_append_of_le_length hk]
      exact ih
    · rw [List.take_of_length_le (by simp; omega)]
      exact ⟨_, h.snoc hmax⟩

end Rounds

end Ferrum.Lib
