/-
  Texts with gaps: parts that stand in a text one after another.

  * `Occur parts v`: the parts stand in `v`, in this order, with anything around them.
  * `Fills U parts v`: `v` is the first part, a gap, the second part, and so on up to the last part;
    the gaps have the property `U`.
  * `occur_of_first`: taking the first occurrence of a part loses nothing, so a leftmost search is
    complete.
  * `fills_iff_occur`: a text with gaps is pinned at both ends, and the other parts occur between.
-/
import Mathlib.Data.List.Basic

namespace Ferrum.Lib

open List

variable {α : Type} {U : List α → Prop} {p q : List α} {ps : List (List α)} {v w x : List α}

def Occur : List (List α) → List α → Prop
  | [], _ => True
  | p :: ps, v => ∃ x w, v = x ++ (p ++ w) ∧ Occur ps w

def Fills (U : List α → Prop) : List (List α) → List α → Prop
  | [], v => v = []
  | [p], v => v = p
  | p :: q :: ps, v => ∃ x w, U x ∧ v = p ++ (x ++ w) ∧ Fills U (q :: ps) w

/-- The parts with the gaps between them. -/
def weave : List (List α) → List (List α) → List α
  | [], _ => []
  | p :: _, [] => p
  | p :: ps, x :: xs => p ++ (x ++ weave ps xs)

/-! ## Occurrences -/

theorem Occur.append (h : Occur ps v) (x : List α) : Occur ps (x ++ v) := by
  cases ps with
  | nil => trivial
  | cons p ps =>
    obtain ⟨y, w, rfl, hw⟩ := h
    exact ⟨x ++ y, w, by rw [append_assoc], hw⟩

/-- **The first occurrence will do**: what is left behind a later one is left behind it as well. -/
theorem occur_of_first (hv : v = x ++ (p ++ w))
    (hf : ∀ y u, v = y ++ (p ++ u) → x.length ≤ y.length) : Occur (p :: ps) v ↔ Occur ps w := by
  constructor
  · rintro ⟨y, u, hy, hu⟩
    have hle := hf y u hy
    have hd : w = (w.take (y.length - x.length)) ++ u := by
      have hw : w = v.drop (x.length + p.length) := by
        rw [hv, ← append_assoc, drop_left' (by rw [length_append])]
      have hu : u = v.drop (y.length + p.length) := by
        rw [hy, ← append_assoc, drop_left' (by rw [length_append])]
      have hb : u = w.drop (y.length - x.length) := by
        rw [hu, hw, drop_drop]
        congr 1
        omega
      rw [hb, take_append_drop]
    rw [hd]
    exact hu.append _
  · intro h
    exact ⟨x, w, hv, h⟩

theorem occur_filter [DecidableEq α] : Occur (ps.filter (· ≠ [])) v ↔ Occur ps v := by
  induction ps generalizing v with
  | nil => rfl
  | cons p ps ih =>
    by_cases hp : p = []
    · subst hp
      rw [filter_cons_of_neg (by simp), ih]
      constructor
      · intro h
        exact ⟨[], v, rfl, h⟩
      · rintro ⟨x, w, rfl, h⟩
        exact h.append x
    · rw [filter_cons_of_pos (by simpa using hp)]
      simp only [Occur, ih]

/-! ## Gaps -/

/-- **A text with gaps is pinned at both ends.** -/
theorem fills_iff_occur : Fills (fun _ => True) (p :: (ps ++ [q])) v ↔
    ∃ m, v = p ++ (m ++ q) ∧ Occur ps m := by
  induction ps generalizing p v with
  | nil =>
    constructor
    · rintro ⟨x, w, -, rfl, rfl⟩
      exact ⟨x, rfl, trivial⟩
    · rintro ⟨m, rfl, -⟩
      exact ⟨m, q, trivial, rfl, rfl⟩
  | cons p' ps ih =>
    constructor
    · rintro ⟨x, w, -, rfl, hw⟩
      obtain ⟨m, rfl, hm⟩ := ih.1 hw
      exact ⟨x ++ (p' ++ m), by simp only [append_assoc], x, m, rfl, hm⟩
    · rintro ⟨m, rfl, x, w, rfl, hw⟩
      exact ⟨x, p' ++ (w ++ q), trivial, by simp only [append_assoc], ih.2 ⟨w, rfl, hw⟩⟩

theorem fills_iff_weave : Fills U (p :: ps) v ↔
    ∃ xs : List (List α), xs.length = ps.length ∧ (∀ x ∈ xs, U x) ∧ v = weave (p :: ps) xs := by
  induction ps generalizing p v with
  | nil =>
    constructor
    · rintro rfl
      exact ⟨[], rfl, nofun, rfl⟩
    · rintro ⟨xs, hln, -, rfl⟩
      rw [length_eq_zero_iff.1 hln]
      rfl
  | cons q ps ih =>
    constructor
    · rintro ⟨x, w, hx, rfl, hw⟩
      obtain ⟨xs, hln, hU, rfl⟩ := ih.1 hw
      exact ⟨x :: xs, by rw [length_cons, hln, length_cons],
        forall_mem_cons.2 ⟨hx, hU⟩, rfl⟩
    · rintro ⟨xs, hln, hU, rfl⟩
      cases xs with
      | nil => cases hln
      | cons x xs =>
        obtain ⟨hx, hxs⟩ := forall_mem_cons.1 hU
        exact ⟨x, _, hx, rfl, ih.2 ⟨xs, Nat.succ.inj hln, hxs, rfl⟩⟩

/-- The gap before an empty part that is not the last one can take anything. -/
theorem Fills.append (h : Fills (fun _ => True) ([] :: q :: ps) v) (x : List α) :
    Fills (fun _ => True) ([] :: q :: ps) (x ++ v) := by
  obtain ⟨y, w, -, rfl, hw⟩ := h
  exact ⟨x ++ y, w, trivial, by simp only [nil_append, append_assoc], hw⟩

theorem Fills.exists_append (h : Fills (fun _ => True) (p :: ps) v) : ∃ w, v = p ++ w := by
  cases ps with
  | nil => exact ⟨[], by rw [show v = p from h, append_nil]⟩
  | cons q ps =>
    obtain ⟨x, w, -, rfl, -⟩ := h
    exact ⟨x ++ w, rfl⟩

/-- Gaps can be chosen in a class of texts from which the parts can be cut. -/
theorem Fills.strengthen (hn : U []) (hc : ∀ {s t}, U (s ++ t) → U s → U t)
    (hct : ∀ {s p w}, p ≠ [] → U p → U (s ++ (p ++ w)) → U s)
    (h : Fills (fun _ => True) (p :: ps) v) (hv : U v) (hps : ∀ p' ∈ p :: ps, U p') :
    Fills U (p :: ps) v := by
  induction ps generalizing p v with
  | nil => exact h
  | cons q ps ih =>
    obtain ⟨hp, hqs⟩ := forall_mem_cons.1 hps
    obtain ⟨x, w, -, rfl, hw⟩ := h
    have hxw : U (x ++ w) := hc hv hp
    by_cases hq : q = []
    · subst hq
      cases ps with
      | nil =>
        obtain rfl : w = [] := hw
        rw [append_nil] at hxw
        exact ⟨x, [], hxw, rfl, rfl⟩
      | cons q' ps => exact ⟨[], x ++ w, hn, rfl, ih (hw.append x) hxw hqs⟩
    · obtain ⟨u, rfl⟩ := hw.exists_append
      have hx : U x := hct hq (hqs q mem_cons_self) hxw
      exact ⟨x, q ++ u, hx, rfl, ih hw (hc hxw hx) hqs⟩

end Ferrum.Lib
