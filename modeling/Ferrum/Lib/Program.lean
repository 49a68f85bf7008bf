/-
  Programs that may panic.

  * `index`: `xs[i]`, which panics out of bounds.
  * `ok_bind`: a program goes on from where its first part ended.
  * `foldlM_ok`, `mapM_ok`: loops whose body does not panic.
  * `foldl_pair`: a loop with two accumulators.
  * `foldl_append_filter`: a loop that collects elements.
-/
import Mathlib.Data.List.Basic

namespace Ferrum.Lib

inductive Panic where
  | outOfBounds | divideByZero
  deriving DecidableEq, Repr

/-- `xs[i]`. -/
def index {α : Type} (xs : List α) (i : ℕ) : Except Panic α :=
  match xs[i]? with
  | some x => .ok x
  | none => .error .outOfBounds

section
variable {ε α β : Type} {xs : List α} {i : ℕ}

@[simp]
theorem ok_bind (a : α) (f : α → Except ε β) : (Except.ok a >>= f) = f a := rfl

theorem index_ok {x : α} (h : xs[i]? = some x) : index xs i = .ok x := by
  rw [index, h]

theorem index_lt (h : i < xs.length) : index xs i = .ok xs[i] :=
  index_ok (List.getElem?_eq_getElem h)

theorem foldlM_ok {f : β → α → Except ε β} {g : β → α → β} {b : β}
    (h : ∀ b, ∀ a ∈ xs, f b a = .ok (g b a)) : xs.foldlM f b = .ok (xs.foldl g b) := by
  induction xs generalizing b with
  | nil => rfl
  | cons a xs ih =>
    rw [List.foldlM_cons, h b a List.mem_cons_self]
    exact ih fun b a ha => h b a (List.mem_cons_of_mem _ ha)

theorem mapM_ok {f : α → Except ε β} {g : α → β} (h : ∀ a ∈ xs, f a = .ok (g a)) :
    xs.mapM f = .ok (xs.map g) := by
  induction xs with
  | nil => rfl
  | cons a xs ih =>
    rw [List.mapM_cons, h a List.mem_cons_self, ih fun a ha => h a (List.mem_cons_of_mem _ ha)]
    rfl

theorem foldl_pair {γ : Type} (f : β → α → β) (g : γ → α → γ) (b : β) (c : γ) :
    xs.foldl (fun acc a => (f acc.1 a, g acc.2 a)) (b, c) = (xs.foldl f b, xs.foldl g c) := by
  induction xs generalizing b c with
  | nil => rfl
  | cons a xs ih => exact ih (f b a) (g c a)

theorem foldl_append_filter (p : α → Bool) (acc : List α) :
    xs.foldl (fun acc a => if p a then acc ++ [a] else acc) acc = acc ++ xs.filter p := by
  induction xs generalizing acc with
  | nil => simp
  | cons a xs ih =>
    rw [List.foldl_cons, ih, List.filter_cons]
    split_ifs <;> simp

end

end Ferrum.Lib
