/-
  The binary search of a slice.

  `binarySearchBy` halves the range that is left until one entry is, and asks about that one last.
  Of several entries that are equal it finds the last.

  * `binarySearchBy_ok`, `binarySearchBy_error`: what is found, and where else it would be.
-/
import Mathlib.Data.List.Basic
import Mathlib.Order.Nat

namespace Ferrum.Lib

variable {α : Type}

/-- The first entry of the range that is left, once it has one entry. -/
def searchLoop (cmp : ℕ → Ordering) (base size : ℕ) : ℕ :=
  if size ≤ 1 then base
  else
    let half := size / 2
    let mid := base + half
    searchLoop cmp (if cmp mid = .gt then base else mid) (size - half)
termination_by size
decreasing_by omega

/-- Entries out of bounds, which the search never asks for, are above everything. -/
def cmpAt (xs : List α) (f : α → Ordering) (i : ℕ) : Ordering := (xs[i]?.map f).getD .gt

/-- Where an entry is, or else where it could be inserted. -/
def binarySearchBy (xs : List α) (f : α → Ordering) : Except ℕ ℕ :=
  if xs.length = 0 then .error 0
  else
    let base := searchLoop (cmpAt xs f) 0 xs.length
    match cmpAt xs f base with
    | .eq => .ok base
    | .lt => .error (base + 1)
    | .gt => .error base

/-- Entries below come first, and entries above last. -/
def Ordered (f : α → Ordering) (xs : List α) : Prop :=
  xs.Pairwise fun a b => (f a = .gt → f b = .gt) ∧ (f b = .lt → f a = .lt)

variable {xs : List α} {f : α → Ordering} {i j : ℕ}

theorem cmpAt_of_getElem? {x : α} (h : xs[i]? = some x) : cmpAt xs f i = f x := by
  rw [cmpAt, h, Option.map_some, Option.getD_some]

theorem cmpAt_of_le (h : xs.length ≤ i) : cmpAt xs f i = .gt := by
  rw [cmpAt, List.getElem?_eq_none h, Option.map_none, Option.getD_none]

theorem Ordered.cmpAt_le (h : Ordered f xs) (hij : i < j) :
    (cmpAt xs f i = .gt → cmpAt xs f j = .gt) ∧ (cmpAt xs f j = .lt → cmpAt xs f i = .lt) := by
  by_cases hj : j < xs.length
  · have hi : i < xs.length := hij.trans hj
    rw [cmpAt_of_getElem? (List.getElem?_eq_getElem hi),
      cmpAt_of_getElem? (List.getElem?_eq_getElem hj)]
    exact List.pairwise_iff_getElem.1 h i j hi hj hij
  · rw [cmpAt_of_le (not_lt.1 hj)]
    exact ⟨fun _ => rfl, nofun⟩

/-- What is left out of the range: nothing before it is needed, everything after it is above. -/
structure Narrowed (xs : List α) (f : α → Ordering) (base size : ℕ) : Prop where
  lt : base < xs.length
  below : base = 0 ∨ cmpAt xs f base ≠ .gt
  above : ∀ j, base + size ≤ j → cmpAt xs f j = .gt

theorem searchLoop_narrowed (ho : Ordered f xs) {base size : ℕ} (hs : 0 < size)
    (h : Narrowed xs f base size) :
    Narrowed xs f (searchLoop (cmpAt xs f) base size) 1 := by
  fun_induction searchLoop (cmpAt xs f) base size with
  | case1 base size hon =>
    have heq : size = 1 := by omega
    exact heq ▸ h
  | case2 base size hon half mid ih =>
    refine ih (by omega) ?_
    split_ifs with hgt
    · refine ⟨h.lt, h.below, fun j hj => ?_⟩
      rcases Nat.lt_or_ge mid j with hlt | hge
      · exact (ho.cmpAt_le hlt).1 hgt
      · have heq : j = mid ∨ base + size ≤ j := by omega
        rcases heq with rfl | hle
        · exact hgt
        · exact h.above j hle
    · refine ⟨?_, .inr hgt, fun j hj => h.above j (by omega)⟩
      by_contra hot
      exact hgt (cmpAt_of_le (not_lt.1 hot))

theorem narrowed_start (hne : xs ≠ []) : Narrowed xs f 0 xs.length :=
  ⟨List.length_pos_of_ne_nil hne, .inl rfl, fun j hj => cmpAt_of_le (by omega)⟩

theorem binarySearchBy_ok (ho : Ordered f xs) (h : binarySearchBy xs f = .ok i) :
    i < xs.length ∧ cmpAt xs f i = .eq ∧ ∀ j, i < j → cmpAt xs f j = .gt := by
  rw [binarySearchBy] at h
  split_ifs at h with he
  have hf := searchLoop_narrowed ho (Nat.pos_of_ne_zero he)
    (narrowed_start (List.ne_nil_of_length_pos (Nat.pos_of_ne_zero he)))
  simp only at h
  split at h
  · next heq =>
    cases h
    exact ⟨hf.lt, heq, fun j hj => hf.above j hj⟩
  · cases h
  · cases h

theorem binarySearchBy_error (ho : Ordered f xs) (h : binarySearchBy xs f = .error i) :
    i ≤ xs.length ∧ (∀ j < i, cmpAt xs f j = .lt) ∧ ∀ j, i ≤ j → cmpAt xs f j = .gt := by
  rw [binarySearchBy] at h
  split_ifs at h with he
  · cases h
    exact ⟨Nat.zero_le _, nofun, fun j _ => cmpAt_of_le (by omega)⟩
  have hf := searchLoop_narrowed ho (Nat.pos_of_ne_zero he)
    (narrowed_start (List.ne_nil_of_length_pos (Nat.pos_of_ne_zero he)))
  simp only at h
  set base := searchLoop (cmpAt xs f) 0 xs.length
  split at h
  · cases h
  · next heq =>
    cases h
    refine ⟨hf.lt, fun j hj => ?_, hf.above⟩
    rcases Nat.lt_succ_iff_lt_or_eq.1 hj with hlt | rfl
    · exact (ho.cmpAt_le hlt).2 heq
    · exact heq
  · next heq =>
    obtain rfl : base = i := by simpa using h
    -- the range starts with an entry above only if nothing came before it
    have hz : base = 0 := hf.below.resolve_right (· heq)
    refine ⟨hf.lt.le, fun j hj => by omega, fun j hj => ?_⟩
    rcases Nat.eq_or_lt_of_le hj with rfl | hlt
    · exact heq
    · exact (ho.cmpAt_le hlt).1 heq

theorem binarySearchBy_isOk (ho : Ordered f xs) (hi : cmpAt xs f i = .eq) :
    ∃ p, binarySearchBy xs f = .ok p := by
  cases h : binarySearchBy xs f with
  | ok p => exact ⟨p, rfl⟩
  | error p =>
    obtain ⟨-, hb, ha⟩ := binarySearchBy_error ho h
    rcases Nat.lt_or_ge i p with hlt | hge
    · rw [hb i hlt] at hi
      cases hi
    · rw [ha i hge] at hi
      cases hi

end Ferrum.Lib
