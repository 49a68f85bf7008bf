/-
  A queue in a ring.

  The elements of the queue are in the slots from `consumed` on, modulo the capacity.

  * `Queued`: the queue that a ring holds.
  * `Queued.push`, `Queued.pop`.
-/
import Mathlib.Data.Nat.ModEq
import Mathlib.Data.List.Basic

namespace Ferrum.Lib

variable {α : Type*} {cell cell' : ℕ → α} {cap consumed : ℕ} {pending : List α} {v : α}

/-- The ring with the cells `cell` holds the queue `pending`. -/
def Queued (cell : ℕ → α) (cap consumed : ℕ) (pending : List α) : Prop :=
  ∀ i v, pending[i]? = some v → cell ((consumed + i) % cap) = v

theorem Queued.nil : Queued cell cap consumed [] := nofun

/-- Places that are less than a round apart have different slots. -/
theorem slot_ne {i n : ℕ} (hi : i < n) (hn : n < cap) : (consumed + i) % cap ≠ (consumed + n) % cap := by
  intro h
  have hz := Nat.sub_mod_eq_zero_of_mod_eq h.symm
  rw [Nat.add_sub_add_left, Nat.mod_eq_of_lt (by omega)] at hz
  omega

/-- **A push** writes the slot behind the queue. -/
theorem Queued.push (h : Queued cell cap consumed pending) (hr : pending.length < cap)
    (hv : cell' ((consumed + pending.length) % cap) = v)
    (ho : ∀ slot, slot ≠ (consumed + pending.length) % cap → cell' slot = cell slot) :
    Queued cell' cap consumed (pending ++ [v]) := by
  intro i w hw
  rcases Nat.lt_trichotomy i pending.length with hi | rfl | hi
  · rw [List.getElem?_append_left hi] at hw
    rw [ho _ (slot_ne hi hr)]
    exact h i w hw
  · rw [List.getElem?_append_right le_rfl, Nat.sub_self] at hw
    rw [hv]
    exact Option.some.inj hw
  · rw [List.getElem?_eq_none (by simp; omega)] at hw
    cases hw

/-- **A pop** reads the first slot. -/
theorem Queued.pop (h : Queued cell cap consumed (v :: pending)) :
    cell (consumed % cap) = v ∧ Queued cell cap (consumed + 1) pending := by
  refine ⟨h 0 v rfl, fun i w hw => ?_⟩
  rw [Nat.add_right_comm, Nat.add_assoc]
  exact h (i + 1) w hw

end Ferrum.Lib
