/-
  Words as sets of positions.

  * `positions`: the positions of the bits that are set, in ascending order.
  * `setBits`: the loop that takes the lowest bit and clears it.
  * `ctz_clearLowest`: the lowest bit after `k` were cleared is the `k`-th position.
-/
import Mathlib.Data.List.Basic
import Ferrum.Lib.Window

namespace Ferrum.Lib

open List BitVec

/-- Lists in ascending order are determined by their members. -/
theorem eq_of_ascending {l₁ l₂ : List ℕ} (h₁ : l₁.Pairwise (· < ·)) (h₂ : l₂.Pairwise (· < ·))
    (h : ∀ i, i ∈ l₁ ↔ i ∈ l₂) : l₁ = l₂ := by
  have hp : l₁.Perm l₂ := by
    rw [perm_ext_iff_of_nodup (h₁.imp Nat.ne_of_lt) (h₂.imp Nat.ne_of_lt)]
    exact h
  exact hp.eq_of_pairwise (fun a b _ _ hab hba => absurd hab (Nat.lt_asymm hba)) h₁ h₂

variable {w : ℕ} {x : BitVec w} {i k : ℕ}

/-- The bits that are set. -/
def positions (x : BitVec w) : List ℕ := (List.range w).filter fun i => x.getLsbD i

theorem mem_positions : i ∈ positions x ↔ x.getLsbD i = true := by
  rw [positions, mem_filter, mem_range]
  exact ⟨And.right, fun h => ⟨lt_of_getLsbD h, h⟩⟩

theorem positions_pairwise (x : BitVec w) : (positions x).Pairwise (· < ·) :=
  pairwise_lt_range.filter _

theorem positions_lt (h : i ∈ positions x) : i < w := lt_of_getLsbD (mem_positions.1 h)

theorem positions_eq {is : List ℕ} (his : is.Pairwise (· < ·))
    (h : ∀ i, x.getLsbD i = true ↔ i ∈ is) : positions x = is :=
  eq_of_ascending (positions_pairwise x) his fun i => mem_positions.trans (h i)

theorem length_positions_le (x : BitVec w) : (positions x).length ≤ w :=
  (length_filter_le _ _).trans_eq length_range

theorem toNat_cpop_eq (x : BitVec w) : x.cpop.toNat = (positions x).length := by
  have key : ∀ n acc, x.cpopNatRec n acc =
      acc + ((List.range n).filter fun i => x.getLsbD i).length := by
    intro n
    induction n with
    | zero => intro acc; rfl
    | succ n ih =>
      intro acc
      rw [cpopNatRec_succ, ih, range_succ, filter_append, length_append,
        Nat.add_assoc, Nat.add_comm (x.getLsbD n).toNat]
      cases hb : x.getLsbD n <;> simp [hb]
  rw [toNat_cpop, key, Nat.zero_add]
  rfl

/-! ## The lowest bit -/

def clearLowest (x : BitVec w) : BitVec w := x &&& (x - 1#w)

theorem toNat_sub_one (h : x ≠ 0#w) : (x - 1#w).toNat = x.toNat - 1 := by
  have hpos : 0 < x.toNat := Nat.pos_of_ne_zero fun h0 => h (eq_of_toNat_eq (by simpa using h0))
  have hw : w ≠ 0 := by
    rintro rfl
    exact absurd x.isLt (by simpa using hpos.ne')
  have ho : (1#w).toNat = 1 := by
    rw [toNat_ofNat, Nat.mod_eq_of_lt (Nat.one_lt_two_pow hw)]
  rw [toNat_sub_of_le (by rw [le_def, ho]; exact hpos), ho]

theorem clearLowest_lt (h : x ≠ 0#w) : (clearLowest x).toNat < x.toNat := by
  have hpos : 0 < x.toNat := Nat.pos_of_ne_zero fun h0 => h (eq_of_toNat_eq (by simpa using h0))
  rw [clearLowest, toNat_and, toNat_sub_one h]
  exact lt_of_le_of_lt Nat.and_le_right (Nat.sub_lt hpos Nat.one_pos)

/-- A number above its lowest bit `t`. -/
theorem eq_above_lowest {n t : ℕ} (hb : ∀ i < t, n.testBit i = false)
    (ht : n.testBit t = true) : n = 2 ^ (t + 1) * (n / 2 ^ (t + 1)) + 2 ^ t := by
  have hm : n % 2 ^ (t + 1) = 2 ^ t := by
    apply Nat.eq_of_testBit_eq
    intro i
    rw [Nat.testBit_mod_two_pow, Nat.testBit_two_pow]
    rcases Nat.lt_trichotomy i t with h | rfl | h
    · simp [hb i h, h.ne']
    · simp [ht]
    · simp [h.ne, Nat.not_lt.2 (Nat.succ_le_of_lt h)]
  conv_lhs => rw [← Nat.div_add_mod n (2 ^ (t + 1)), hm]

theorem getLsbD_clearLowest (h : x ≠ 0#w) :
    (clearLowest x).getLsbD i = (x.getLsbD i && decide (i ≠ x.ctz.toNat)) := by
  set t := x.ctz.toNat with ht
  have hb : x.toNat.testBit t = true := by
    rw [testBit_toNat]
    exact getLsbD_true_ctz_of_ne_zero h
  have hs := eq_above_lowest (fun i hi => by
    rw [testBit_toNat]
    exact getLsbD_false_of_lt_ctz hi) hb
  have hlt : 2 ^ t < 2 ^ (t + 1) := Nat.pow_lt_pow_right (by decide) t.lt_succ_self
  have hp : x.toNat - 1 = 2 ^ (t + 1) * (x.toNat / 2 ^ (t + 1)) + (2 ^ t - 1) := by
    have := Nat.two_pow_pos t
    omega
  rw [clearLowest, getLsbD_and, ← testBit_toNat (x - 1#w), toNat_sub_one h, hp,
    Nat.testBit_two_pow_mul_add _ (lt_of_le_of_lt (Nat.sub_le _ _) hlt),
    ← testBit_toNat x, Nat.testBit_two_pow_sub_one]
  rcases Nat.lt_trichotomy i t with hi | hi | hi
  · rw [if_pos (hi.trans t.lt_succ_self), decide_eq_true hi, decide_eq_true hi.ne]
  · subst hi
    simp
  · rw [if_neg (Nat.not_lt.2 hi), decide_eq_true hi.ne', Bool.and_true]
    rw [Nat.testBit_div_two_pow, Nat.sub_add_cancel hi, Bool.and_self]

theorem positions_eq_cons (h : x ≠ 0#w) :
    positions x = x.ctz.toNat :: positions (clearLowest x) := by
  have hm : ∀ i, x.getLsbD i = true ↔ i ∈ x.ctz.toNat :: positions (clearLowest x) := by
    intro i
    rw [mem_cons, mem_positions, getLsbD_clearLowest h, Bool.and_eq_true, decide_eq_true_eq]
    by_cases hi : i = x.ctz.toNat
    · simp [hi, getLsbD_true_ctz_of_ne_zero h]
    · simp [hi]
  refine positions_eq (pairwise_cons.2 ⟨fun i hi => ?_, positions_pairwise _⟩) hm
  rw [mem_positions, getLsbD_clearLowest h, Bool.and_eq_true, decide_eq_true_eq] at hi
  refine Nat.lt_of_le_of_ne (Nat.not_lt.1 fun hlt => ?_) (Ne.symm hi.2)
  rw [getLsbD_false_of_lt_ctz hlt] at hi
  exact absurd hi.1 Bool.false_ne_true

/-- The positions as a loop takes them: the lowest bit, until no bit is left. -/
def setBits (x : BitVec w) : List ℕ :=
  if _h : x = 0#w then [] else x.ctz.toNat :: setBits (clearLowest x)
termination_by x.toNat
decreasing_by exact clearLowest_lt _h

theorem setBits_eq (x : BitVec w) : setBits x = positions x := by
  fun_induction setBits x with
  | case1 =>
    symm
    rw [positions, filter_eq_nil_iff]
    simp
  | case2 x h ih => rw [ih, positions_eq_cons h]

/-- After `k` bits were cleared. -/
theorem positions_iterate_clearLowest (x : BitVec w) (k : ℕ) :
    positions (clearLowest^[k] x) = (positions x).drop k := by
  induction k generalizing x with
  | zero => rfl
  | succ k ih =>
    rw [Function.iterate_succ_apply, ih]
    by_cases h : x = 0#w
    · subst h
      have hz : clearLowest (0#w) = 0#w := zero_and
      have hn : positions (0#w) = [] := by
        rw [positions, filter_eq_nil_iff]
        simp
      rw [hz, hn, drop_nil, drop_nil]
    · rw [positions_eq_cons h, drop_succ_cons]

theorem ctz_clearLowest (h : (positions x)[k]? = some i) : (clearLowest^[k] x).ctz.toNat = i := by
  have hd := positions_iterate_clearLowest x k
  obtain ⟨hlt, hget⟩ := List.getElem?_eq_some_iff.1 h
  rw [drop_eq_getElem_cons hlt, hget] at hd
  have hne : clearLowest^[k] x ≠ 0#w := by
    intro hz
    rw [hz] at hd
    have hm : i ∈ positions (0#w) := hd ▸ mem_cons_self
    rw [mem_positions, getLsbD_zero] at hm
    exact absurd hm Bool.false_ne_true
  rw [positions_eq_cons hne] at hd
  exact (List.cons.inj hd).1

end Ferrum.Lib
