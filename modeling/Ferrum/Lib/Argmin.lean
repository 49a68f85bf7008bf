/-
  The first least element of a list, stable sorting, and filters.

  * `argmin_eq_some`: what it is, by its position.
  * `argmin_lex_filter`, `findSome_argmin`, `argmin_place`: with a lexicographic rank, look for the
    least first component and only then at the second.
  * `scanLeast`: the loop that keeps the best so far and stops at rank zero.
-/
import Mathlib.Data.List.MinMax
import Mathlib.Data.List.Sort
import Mathlib.Data.Prod.Lex

namespace Ferrum.Lib

open List

variable {α β γ κ : Type*} [LinearOrder β] [LinearOrder γ]

/-! ## Position -/

variable {f : α → β} {m a : α} {p : α → Bool} {g : α → γ}

/-- The least element is strictly below those before it and not above those after it. -/
theorem argmin_split {l : List α} (h : l.argmin f = some m) :
    ∃ l₁ l₂, l = l₁ ++ m :: l₂ ∧ (∀ a ∈ l₁, f m < f a) ∧ ∀ a ∈ l₂, f m ≤ f a := by
  induction l using reverseRecOn generalizing m with
  | nil => cases h
  | append_singleton l a ih =>
    rw [argmin_concat] at h
    cases hl : l.argmin f with
    | none =>
      rw [hl] at h; cases h
      rw [argmin_eq_none] at hl
      exact ⟨[], [], by rw [hl], nofun, nofun⟩
    | some c =>
      obtain ⟨l₁, l₂, rfl, h₁, h₂⟩ := ih hl
      rw [hl] at h
      simp only at h
      split_ifs at h with hac <;> cases h
      · refine ⟨_, [], rfl, fun x hx => ?_, nofun⟩
        rcases mem_append.1 hx with hx | hx
        · exact hac.trans (h₁ x hx)
        · rcases mem_cons.1 hx with rfl | hx
          · exact hac
          · exact hac.trans_le (h₂ x hx)
      · exact ⟨l₁, l₂ ++ [a], by simp, h₁,
          forall_mem_append.2 ⟨h₂, forall_mem_singleton.2 (not_lt.1 hac)⟩⟩

theorem argmin_eq_some {l₁ l₂ : List α} (h₁ : ∀ a ∈ l₁, f m < f a) (h₂ : ∀ a ∈ l₂, f m ≤ f a) :
    (l₁ ++ m :: l₂).argmin f = some m := by
  cases h : (l₁ ++ m :: l₂).argmin f with
  | none => rw [argmin_eq_none] at h; simp at h
  | some m' =>
    obtain ⟨l₁', l₂', hl, h₁', h₂'⟩ := argmin_split h
    -- the two elements are at the same position
    rcases append_eq_append_iff.1 hl with ⟨u, hu, hv⟩ | ⟨u, hu, hv⟩
    · cases u with
      | nil => simp only [nil_append, List.cons.injEq] at hv; rw [hv.1]
      | cons x u =>
        simp only [cons_append, List.cons.injEq] at hv
        obtain ⟨rfl, rfl⟩ := hv
        exact absurd (h₁' m (by rw [hu]; simp)) (not_lt.2 (h₂ m' (by simp)))
    · cases u with
      | nil => simp only [nil_append, List.cons.injEq] at hv; rw [hv.1]
      | cons x u =>
        simp only [cons_append, List.cons.injEq] at hv
        obtain ⟨rfl, rfl⟩ := hv
        exact absurd (h₁ m' (by rw [hu]; simp)) (not_lt.2 (h₂' m (by simp)))

theorem argmin_cons_of_le {l : List α} (h : ∀ c ∈ l, f a ≤ f c) : (a :: l).argmin f = some a := by
  rw [← nil_append (a :: l)]
  exact argmin_eq_some nofun h

/-- The first least element stays so if others are left out. -/
theorem argmin_filter {l : List α} (h : l.argmin f = some a) (ha : p a = true) :
    (l.filter p).argmin f = some a := by
  obtain ⟨l₁, l₂, rfl, h₁, h₂⟩ := argmin_split h
  rw [filter_append, filter_cons_of_pos ha]
  exact argmin_eq_some (fun b hb => h₁ b (mem_filter.1 hb).1)
    fun b hb => h₂ b (mem_filter.1 hb).1

theorem argmin_congr {l : List α} (h : ∀ a ∈ l, ∀ b ∈ l, f a < f b ↔ g a < g b) :
    l.argmin f = l.argmin g := by
  cases hf : l.argmin f with
  | none => rw [argmin_eq_none] at hf; subst hf; rfl
  | some m =>
    obtain ⟨l₁, l₂, rfl, h₁, h₂⟩ := argmin_split hf
    symm
    apply argmin_eq_some
    · exact fun a ha => (h m (by simp) a (by simp [ha])).1 (h₁ a ha)
    · exact fun a ha => not_lt.1 fun hlt =>
        absurd ((h a (by simp [ha]) m (by simp)).2 hlt) (not_lt.2 (h₂ a ha))

theorem argmin_pair_congr [DecidableEq α] {l : List α} {c w : α} (h : f c < f w ↔ g c < g w)
    (h' : f w < f c ↔ g w < g c) : (l.filter fun x => x = c ∨ x = w).argmin f =
      (l.filter fun x => x = c ∨ x = w).argmin g := by
  refine argmin_congr fun a ha b hb => ?_
  rcases of_decide_eq_true (mem_filter.1 ha).2 with rfl | rfl <;>
    rcases of_decide_eq_true (mem_filter.1 hb).2 with rfl | rfl <;> first | assumption | simp

theorem argmin_map {δ : Type*} (h : δ → α) (f : α → β) (l : List δ) :
    (l.map h).argmin f = (l.argmin fun x => f (h x)).map h := by
  induction l using reverseRecOn with
  | nil => rfl
  | append_singleton l a ih =>
    rw [map_append, map_singleton, argmin_concat, argmin_concat, ih]
    cases l.argmin fun x => f (h x) with
    | none => rfl
    | some c =>
      simp only [Option.map_some]
      split_ifs <;> rfl

/-! ## Lexicographic ranks -/

/-- If `p` says which elements have the least first component, only these count. -/
theorem argmin_lex_filter {l : List α} {b : β} (hle : ∀ a ∈ l, b ≤ f a)
    (hp : ∀ a ∈ l, f a = b ↔ p a = true) (hne : l.filter p ≠ []) :
    l.argmin (fun a => toLex (f a, g a)) = (l.filter p).argmin g := by
  cases hg : (l.filter p).argmin g with
  | none => exact absurd (argmin_eq_none.1 hg) hne
  | some m =>
    obtain ⟨u, v, huv, h₁, h₂⟩ := argmin_split hg
    obtain ⟨l₁, l₂, rfl, rfl, hv⟩ := filter_eq_append_iff.1 huv
    obtain ⟨l₃, l₄, rfl, h₃, hm, rfl⟩ := filter_eq_cons_iff.1 hv
    have hfm : f m = b := (hp m (by simp)).2 hm
    rw [← append_assoc]
    apply argmin_eq_some
    · intro a ha
      rw [Prod.Lex.toLex_lt_toLex, hfm]
      by_cases hpa : p a = true
      · refine Or.inr ⟨((hp a (by simp at ha ⊢; tauto)).2 hpa).symm, h₁ a ?_⟩
        rcases mem_append.1 ha with ha | ha
        · exact mem_filter.2 ⟨ha, hpa⟩
        · exact absurd hpa (h₃ a ha)
      · have hmm : a ∈ l₁ ++ (l₃ ++ m :: l₄) := by simp at ha ⊢; tauto
        exact Or.inl (lt_of_le_of_ne (hle a hmm) fun h => hpa ((hp a hmm).1 h.symm))
    · intro a ha
      have hmm : a ∈ l₁ ++ (l₃ ++ m :: l₄) := by simp [ha]
      rw [Prod.Lex.toLex_le_toLex, hfm]
      by_cases hpa : p a = true
      · exact Or.inr ⟨((hp a hmm).2 hpa).symm, h₂ a (mem_filter.2 ⟨ha, hpa⟩)⟩
      · exact Or.inl (lt_of_le_of_ne (hle a hmm) fun h => hpa ((hp a hmm).1 h.symm))

theorem findSome_congr {δ : Type*} {f g : κ → Option δ} {l : List κ} (h : ∀ k ∈ l, f k = g k) :
    l.findSome? f = l.findSome? g := by
  induction l with
  | nil => rfl
  | cons k l ih =>
    rw [findSome?_cons, findSome?_cons, h k mem_cons_self,
      ih fun k' hk' => h k' (mem_cons_of_mem k hk')]

/-- Try the keys in the order of their size: the first one with an element has the least. -/
theorem findSome_argmin [DecidableEq κ] (key : α → κ) (size : κ → β) (g : α → γ) {l : List α}
    {ks : List κ} (hks : ks.Pairwise fun k k' => size k ≤ size k') (hm : ∀ a ∈ l, key a ∈ ks)
    (hi : ∀ a ∈ l, ∀ k ∈ ks, size (key a) = size k → key a = k) :
    (ks.findSome? fun k => (l.filter fun a => key a = k).argmin g) =
      l.argmin fun a => toLex (size (key a), g a) := by
  induction ks with
  | nil =>
    cases l with
    | nil => rfl
    | cons a l => exact absurd (hm a (by simp)) (by simp)
  | cons k ks ih =>
    rw [pairwise_cons] at hks
    by_cases hne : (l.filter fun a => key a = k) = []
    · rw [findSome?_cons, hne]
      refine ih hks.2 (fun a ha => ?_) fun a ha k' hk' => hi a ha k' (mem_cons_of_mem _ hk')
      refine (mem_cons.1 (hm a ha)).resolve_left fun h => ?_
      rw [filter_eq_nil_iff] at hne
      exact hne a ha (by simpa using h)
    · rw [argmin_lex_filter (b := size k) (fun a ha => ?_) (fun a ha => ?_) hne]
      · cases h : (l.filter fun a => key a = k).argmin g with
        | none => exact absurd (argmin_eq_none.1 h) hne
        | some m => rw [findSome?_cons, h]
      · rcases mem_cons.1 (hm a ha) with h | h
        · rw [h]
        · exact hks.1 _ h
      · rw [decide_eq_true_iff]
        exact ⟨hi a ha k (by simp), fun h => by rw [h]⟩

/-- Ranked by the place of their class, the elements of the first class come first. -/
theorem argmin_place [DecidableEq κ] {cls : α → κ} {l : List α}
    (hp : ∀ a b, cls a = cls b → p a = p b) {l' : List α} (h : l.filter p = a :: l') :
    (l.filter p).argmin (fun x => toLex (l.findIdx (fun y => cls y = cls x), g x)) =
      ((l.filter p).filter fun x => cls x = cls a).argmin g := by
  obtain ⟨l₁, l₂, rfl, h₁, ha, -⟩ := filter_eq_cons_iff.1 h
  have hn : ∀ y ∈ l₁, p y ≠ true := h₁
  -- `a` is the first of its class, and no class that `p` holds for starts before it
  have hpl : ∀ x, p x = true → l₁.length ≤ (l₁ ++ a :: l₂).findIdx fun y => cls y = cls x := by
    intro x hx
    rw [findIdx_append, findIdx_eq_length.2]
    · simp
    · intro y hy
      rw [decide_eq_false_iff_not]
      intro hc
      exact hn y hy ((hp y x hc).trans hx)
  have hf : ((l₁ ++ a :: l₂).findIdx fun y => cls y = cls a) = l₁.length := by
    refine le_antisymm ?_ (hpl a ha)
    rw [findIdx_append]
    split_ifs with hlt
    · exact hlt.le
    · simp [findIdx_cons]
  refine argmin_lex_filter (b := l₁.length) (fun x hx => hpl x (mem_filter.1 hx).2)
    (fun x hx => ?_) ?_
  · rw [decide_eq_true_iff]
    constructor
    · intro he
      have hlt : ((l₁ ++ a :: l₂).findIdx fun y => cls y = cls x) < (l₁ ++ a :: l₂).length := by
        rw [he]; simp
      have := findIdx_getElem (w := hlt)
      simp only [he, getElem_append_right (Nat.le_refl _), Nat.sub_self,
        getElem_cons_zero, decide_eq_true_iff] at this
      exact this.symm
    · intro hc
      simp only [hc]
      exact hf
  · rw [h]
    simp

/-! ## The loop -/

/-- Keep the best of the ranked elements so far, the earlier of two equals; stop at rank zero. -/
def scanLeast (r : α → Option ℕ) : List α → Option (α × ℕ) → Option (α × ℕ)
  | [], best => best
  | a :: l, best =>
    match r a with
    | none => scanLeast r l best
    | some n =>
      if best.all fun b => n < b.2 then
        if n = 0 then some (a, n) else scanLeast r l (some (a, n))
      else scanLeast r l best

section
variable {r : α → Option ℕ}

theorem argmin_cons_cons (f : α → β) (a c : α) (l : List α) :
    (a :: c :: l).argmin f = if f c < f a then (c :: l).argmin f else (a :: l).argmin f := by
  simp only [argmin, foldl_cons, argAux]
  split_ifs <;> rfl

theorem scanLeast_some {l : List α} {a : α} {n : ℕ} (ha : r a = some n) :
    (scanLeast r l (some (a, n))).map Prod.fst =
      (a :: l.filter fun x => (r x).isSome).argmin fun x => (r x).getD 0 := by
  induction l generalizing a n with
  | nil => rfl
  | cons c l ih =>
    cases hc : r c with
    | none =>
      rw [filter_cons_of_neg (by simp [hc])]
      simp only [scanLeast, hc]
      exact ih ha
    | some m =>
      rw [filter_cons_of_pos (by simp [hc]), argmin_cons_cons]
      simp only [scanLeast, hc, ha, Option.all_some, Option.getD_some, decide_eq_true_iff]
      split_ifs with hlt h0
      · subst h0
        exact (argmin_cons_of_le fun x _ => by simp [hc]).symm
      · exact ih hc
      · exact ih ha

/-- The loop finds the first least of the ranked elements. -/
theorem scanLeast_none (l : List α) :
    (scanLeast r l none).map Prod.fst =
      (l.filter fun x => (r x).isSome).argmin fun x => (r x).getD 0 := by
  induction l with
  | nil => rfl
  | cons a l ih =>
    cases ha : r a with
    | none =>
      rw [filter_cons_of_neg (by simp [ha])]
      simp only [scanLeast, ha]
      exact ih
    | some n =>
      rw [filter_cons_of_pos (by simp [ha])]
      simp only [scanLeast, ha, Option.all_none, if_true]
      split_ifs with h0
      · subst h0
        exact (argmin_cons_of_le fun x _ => by simp [ha]).symm
      · exact scanLeast_some ha

end

/-! ## Sorting and filters -/

/-- `sort_by_key`, which is stable. -/
def sortByKey (key : α → β) (l : List α) : List α := l.insertionSort fun a b => key a ≤ key b

section
variable (key : α → β) (l : List α)

theorem sortByKey_perm : (sortByKey key l).Perm l := perm_insertionSort _ l

theorem sortByKey_pairwise : (sortByKey key l).Pairwise fun a b => key a ≤ key b := by
  have : Std.Total fun a b : α => key a ≤ key b := ⟨fun a b => le_total (key a) (key b)⟩
  have : IsTrans α fun a b => key a ≤ key b := ⟨fun _ _ _ => le_trans⟩
  exact pairwise_insertionSort _ l

variable {l' : List α}

theorem sortByKey_eq_of_perm (hp : l.Perm l') (hs : l'.Pairwise fun a b => key a < key b) :
    sortByKey key l = l' := by
  have hn : (l'.map key).Nodup := (pairwise_map.2 hs).imp ne_of_lt
  have hp' := (sortByKey_perm key l).trans hp
  refine hp'.eq_of_pairwise (fun a b ha hb hab hba => ?_) (sortByKey_pairwise key l)
    (hs.imp le_of_lt)
  exact inj_on_of_nodup_map hn (hp'.subset ha) hb (le_antisymm hab hba)

/-- The sorted list does not depend on the order before, if the keys are distinct. -/
theorem sortByKey_congr (hp : l.Perm l') (hn : (l.map key).Nodup) :
    sortByKey key l = sortByKey key l' := by
  have hp' : (sortByKey key l).Perm (sortByKey key l') :=
    (sortByKey_perm key l).trans (hp.trans (sortByKey_perm key l').symm)
  refine hp'.eq_of_pairwise (fun a b ha hb hab hba => ?_) (sortByKey_pairwise key l)
    (sortByKey_pairwise key l')
  refine inj_on_of_nodup_map hn ((sortByKey_perm key l).subset ha) ?_
    (le_antisymm hab hba)
  exact hp.symm.subset ((sortByKey_perm key l').subset hb)

/-- The order of elements of one key stays. -/
theorem filter_sortByKey {p : α → Bool} (hp : ∀ a b, p a → p b → key a = key b) :
    (sortByKey key l).filter p = l.filter p := by
  have : Std.Total fun a b : α => key a ≤ key b := ⟨fun a b => le_total (key a) (key b)⟩
  have : IsTrans α fun a b => key a ≤ key b := ⟨fun _ _ _ => le_trans⟩
  have hpr : (l.filter p).Pairwise fun a b => key a ≤ key b :=
    pairwise_of_forall_mem_list fun a ha b hb =>
      (hp a b (mem_filter.1 ha).2 (mem_filter.1 hb).2).le
  have hs := (sublist_insertionSort hpr filter_sublist).filter p
  simp only [filter_filter, Bool.and_self] at hs
  exact (hs.eq_of_length ((sortByKey_perm key l).filter p).length_eq.symm).symm

end

/-- The elements at the places where `p` holds. -/
theorem filterMap_getElem_range (p : α → Bool) (l : List α) :
    (((List.range l.length).filter fun i => (l[i]?).any p).filterMap fun i => l[i]?) =
      l.filter p := by
  induction l with
  | nil => rfl
  | cons a l ih =>
    rw [length_cons, range_succ_eq_map, filter_cons, filter_map]
    simp only [Function.comp_def, getElem?_cons_zero, getElem?_cons_succ, Option.any_some]
    have ht : filterMap (fun i => (a :: l)[i]?)
        (((List.range l.length).filter fun i => (l[i]?).any p).map Nat.succ) = l.filter p := by
      rw [filterMap_map, ← ih]; rfl
    by_cases ha : p a
    · rw [if_pos ha, filter_cons_of_pos ha, ← ht]; rfl
    · rw [if_neg ha, filter_cons_of_neg ha, ht]

end Ferrum.Lib
