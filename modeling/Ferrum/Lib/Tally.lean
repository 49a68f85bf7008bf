/-
  Counting the recent members of a sequence of numbers in a ring.

  A ring of `N` slots counts the numbers among the `N` up to `current`, each in the slot of its
  residue; `total` is the sum.  Numbers below are forgotten when `current` moves up.

  * `Tally.tick`, `Tally.clear`, `Tally.add`: one number up, far up, one more number.
  * `Spaced`: no number comes when `limit` others are within `width` of it.
  * `Spaced.interval`: then no interval of that width has more than `limit` numbers.
-/
import Mathlib.Data.List.Count

namespace Ferrum.Lib

theorem countP_split {α : Type*} {xs : List α} {p q r : α → Bool}
    (h : ∀ x ∈ xs, p x = (q x || r x) ∧ (q x && r x) = false) :
    xs.countP p = xs.countP q + xs.countP r := by
  induction xs with
  | nil => rfl
  | cons x xs ih =>
    have ht := ih fun y hy => h y (List.mem_cons_of_mem x hy)
    have hx := h x (List.mem_cons_self ..)
    rw [List.countP_cons, List.countP_cons, List.countP_cons, ht, hx.1]
    cases hq : q x <;> cases hr : r x <;> simp_all <;> omega

variable {N : ℕ}

/-- The ring counts the numbers of `xs` among the `N` up to `current`. -/
structure Tally (slots : Vector ℕ N) (current total : ℕ) (xs : List ℕ) : Prop where
  le : ∀ x ∈ xs, x ≤ current
  slot : ∀ (j : ℕ) (hj : j < N), slots[j] = xs.countP fun x => x % N = j ∧ current < x + N
  total : total = xs.countP fun x => current < x + N

section
variable {slots : Vector ℕ N} {current total : ℕ} {xs : List ℕ}

theorem Tally.empty : Tally (.replicate N 0) current 0 [] :=
  ⟨fun _ h => (nomatch h), fun _ hj => Vector.getElem_replicate hj, rfl⟩

theorem Tally.slot_le (h : Tally slots current total xs) {j : ℕ} (hj : j < N) :
    slots[j] ≤ total := by
  rw [h.slot j hj, h.total]
  refine List.countP_mono_left fun x _ hx => ?_
  simp only [decide_eq_true_eq] at hx ⊢
  exact hx.2

/-- The one number that the slot of `current + 1` still counts. -/
theorem residue_iff {x : ℕ} (hx : x ≤ current) :
    x % N = (current + 1) % N ∧ current < x + N ↔ x + N = current + 1 := by
  constructor
  · rintro ⟨hm, hlt⟩
    have hz : (current + 1 - x) % N = 0 := Nat.sub_mod_eq_zero_of_mod_eq hm.symm
    rcases Nat.lt_or_ge (current + 1 - x) N with hs | hge
    · rw [Nat.mod_eq_of_lt hs] at hz
      omega
    · omega
  · intro h
    exact ⟨by rw [← h, Nat.add_mod_right], by omega⟩

theorem Tally.tick (h : Tally slots current total xs) (hs : (current + 1) % N < N) :
    Tally (slots.set ((current + 1) % N) 0 hs) (current + 1) (total - slots[(current + 1) % N])
      xs := by
  refine ⟨fun x hx => Nat.le_succ_of_le (h.le x hx), fun j hj => ?_, ?_⟩
  · rw [Vector.getElem_set]
    split_ifs with hjs
    · -- the number taken over is the only one of its residue
      refine (List.countP_eq_zero.2 fun x hx => ?_).symm
      simp only [decide_eq_true_eq, not_and, Nat.not_lt]
      intro hm
      by_contra hlt
      have := (residue_iff (h.le x hx)).1 ⟨hm.trans hjs.symm, by omega⟩
      omega
    · rw [h.slot j hj]
      refine List.countP_congr fun x hx => ?_
      simp only [decide_eq_true_eq, and_congr_right_iff]
      intro hm
      constructor
      · intro hlt
        have : x + N ≠ current + 1 := fun he => hjs (by rw [← he, Nat.add_mod_right, hm])
        omega
      · omega
  · rw [h.total, h.slot]
    refine Nat.sub_eq_of_eq_add (countP_split fun x hx => ?_)
    have hr := residue_iff (N := N) (h.le x hx)
    simp only [hr]
    by_cases hlv : current + 1 < x + N
    · have hne : x + N ≠ current + 1 := by omega
      simp [hlv, hne, show current < x + N by omega]
    · simp only [hlv, decide_false, Bool.false_or, Bool.false_and, and_true, decide_eq_decide]
      omega

theorem Tally.clear (h : Tally slots current total xs) {c : ℕ} (hc : current + N ≤ c) :
    Tally (.replicate N 0) c 0 xs := by
  have ho (x : ℕ) (hx : x ∈ xs) : ¬ c < x + N := by
    have := h.le x hx
    omega
  refine ⟨fun x hx => Nat.le_trans (h.le x hx) (by omega), fun j hj => ?_, ?_⟩
  · rw [Vector.getElem_replicate]
    exact (List.countP_eq_zero.2 fun x hx => by simp [ho x hx]).symm
  · exact (List.countP_eq_zero.2 fun x hx => by simpa using ho x hx).symm

theorem Tally.add (h : Tally slots current total xs) (hs : current % N < N) :
    Tally (slots.set (current % N) (slots[current % N] + 1) hs) current (total + 1)
      (current :: xs) := by
  have hN : 0 < N := Nat.zero_lt_of_lt hs
  refine ⟨?_, fun j hj => ?_, ?_⟩
  · intro x hx
    rcases List.mem_cons.1 hx with rfl | hx
    · exact Nat.le_refl _
    · exact h.le x hx
  · rw [Vector.getElem_set, List.countP_cons]
    split_ifs with hjs hc hc
    · rw [h.slot]
      simp [hjs]
    · simp [hjs, hN] at hc
    · simp [hjs] at hc
    · exact h.slot j hj
  · rw [h.total, List.countP_cons]
    simp [hN]

end

/-! ## Spacing -/

/-- Each of the numbers, the last one first, comes when fewer than `limit` others are within `width`
    of it. -/
def Spaced (limit width : ℕ) : List ℕ → Prop
  | [] => True
  | x :: xs => xs.countP (fun y => x ≤ y + width) < limit ∧ Spaced limit width xs

/-- **Intervals.**  At most `limit` numbers are in an interval of this width. -/
theorem Spaced.interval {limit width : ℕ} {xs : List ℕ} (h : Spaced limit width xs)
    (hs : xs.Pairwise fun x y => y ≤ x) (low : ℕ) :
    xs.countP (fun x => low ≤ x ∧ x ≤ low + width) ≤ limit := by
  induction xs with
  | nil => exact Nat.zero_le _
  | cons x xs ih =>
    rw [List.pairwise_cons] at hs
    rw [List.countP_cons]
    split_ifs with hx
    · -- the others in the interval are within its width of the last one
      simp only [decide_eq_true_eq] at hx
      refine Nat.lt_of_le_of_lt (List.countP_mono_left fun y hy hyx => ?_) h.1
      simp only [decide_eq_true_eq] at hyx ⊢
      omega
    · exact ih h.2 hs.2

end Ferrum.Lib
