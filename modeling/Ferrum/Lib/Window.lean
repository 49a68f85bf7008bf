/-
  Sliding windows: the members of a set of numbers among the `n` numbers just below a
  highest one, recorded in `n` bits.

  Bit `i` of the window at `h` stands for the number `h - 1 - i`.
-/
import Mathlib.Data.Set.Insert
import Mathlib.Data.Nat.Bitwise

namespace Ferrum.Lib

variable {n : ℕ}

/-- `w` records the members of `S` among the `n` numbers just below `h`. -/
def Records (w : BitVec n) (h : ℕ) (S : Set ℕ) : Prop :=
  ∀ i, i < n → i < h → (w.getLsbD i = true ↔ h - 1 - i ∈ S)

variable {k h : ℕ} {w : BitVec n} {S : Set ℕ}

theorem getLsbD_one_shiftLeft {i : ℕ} (hi : i < n) : ((1#n) <<< k).getLsbD i = decide (i = k) := by
  rw [BitVec.getLsbD_shiftLeft]
  by_cases h : i < k
  · simp [hi, h]; omega
  · by_cases hk : i = k
    · subst hk; simp [hi]; omega
    · have : i - k ≠ 0 := by omega
      simp [hi, h, hk, BitVec.getLsbD_one, this]

theorem and_one_shiftLeft_ne_zero (hk : k < n) :
    w &&& ((1#n) <<< k) ≠ 0#n ↔ w.getLsbD k = true := by
  constructor
  · intro h
    by_contra hw
    apply h
    apply BitVec.eq_of_getLsbD_eq
    intro i hi
    rw [BitVec.getLsbD_and, getLsbD_one_shiftLeft hi]
    by_cases he : i = k
    · subst he; simp at hw; simp [hw]
    · simp [he]
  · intro h he
    have := congrArg (fun v => v.getLsbD k) he
    simp only [BitVec.getLsbD_and, getLsbD_one_shiftLeft hk, h, BitVec.getLsbD_zero] at this
    simp at this

/-- A fresh window records a set with no member below the highest. -/
theorem Records.fresh (h : ℕ) : Records (0#n) h {h} := by
  intro i _ hi
  simp only [BitVec.getLsbD_zero, Bool.false_eq_true, Set.mem_singleton_iff, false_iff]
  omega

/-- The window after the highest number moved up by `d`: the old bits move up by `d`, and the
    old highest gets its bit while it is still in range. -/
def advance (w : BitVec n) (d : ℕ) : BitVec n :=
  (if n ≤ d then 0#n else w <<< d) ||| (if d ≤ n then (1#n) <<< (d - 1) else 0#n)

theorem Records.advance {d : ℕ} (hw : Records w h S) (hS : ∀ q ∈ S, q ≤ h) (hh : h ∈ S) (hd : 0 < d)
    :
    Records (Lib.advance w d) (h + d) (insert (h + d) S) := by
  intro i hi hih
  simp only [Lib.advance, BitVec.getLsbD_or, Set.mem_insert_iff]
  have hne : h + d - 1 - i ≠ h + d := by omega
  simp only [hne, false_or, Bool.or_eq_true]
  -- below, at, or above the place of the old highest number
  rcases Nat.lt_trichotomy i (d - 1) with hlt | heq | hgt
  · have ho : h + d - 1 - i ∉ S := fun hq => by have := hS _ hq; omega
    refine iff_of_false ?_ ho
    rintro (h1 | h1)
    · split_ifs at h1 with hnd
      · simp at h1
      · rw [BitVec.getLsbD_shiftLeft] at h1; simp at h1; omega
    · split_ifs at h1 with hdn
      · rw [getLsbD_one_shiftLeft hi] at h1; simp at h1; omega
      · simp at h1
  · have hin : h + d - 1 - i = h := by omega
    rw [hin]
    refine iff_of_true (Or.inr ?_) hh
    rw [if_pos (by omega), getLsbD_one_shiftLeft hi]; simp [heq]
  · have h2 : (if d ≤ n then (1#n) <<< (d - 1) else 0#n).getLsbD i = false := by
      split_ifs
      · rw [getLsbD_one_shiftLeft hi]; simp; omega
      · simp
    rw [if_neg (by omega), BitVec.getLsbD_shiftLeft]
    have hr := hw (i - d) (by omega) (by omega)
    rw [show h + d - 1 - i = h - 1 - (i - d) by omega, ← hr, h2]
    have : ¬ i < d := by omega
    simp [hi, this]

/-- Marking the number `b` below the highest. -/
theorem Records.mark {b : ℕ} (hw : Records w h S) (hb : 0 < b) (hbh : b ≤ h) :
    Records (w ||| (1#n) <<< (b - 1)) h (insert (h - b) S) := by
  intro i hi hih
  rw [BitVec.getLsbD_or, getLsbD_one_shiftLeft hi, Set.mem_insert_iff, Bool.or_eq_true,
    hw i hi hih, decide_eq_true_eq]
  have : i = b - 1 ↔ h - 1 - i = h - b := by omega
  rw [this, or_comm]

end Ferrum.Lib
