/-
  Rings of hashes.

  Entries are in the order of their hashes.  A walk starts where a binary search for a hash ends,
  and goes once around.

  * `clockwise`: the order in which a walk meets the entries.  Of the entries at the hash itself the
    last one comes first, and the others come when the walk is around.
  * `ringWalk_eq`: a walk ends at the first entry in that order that it is looking for.
-/
import Mathlib.Data.List.Rotate
import Ferrum.Lib.Search

namespace Ferrum.Lib

open List

variable {α : Type} (key : α → ℕ)

/-- Where the walk for a hash starts. -/
def ringStart (ring : List α) (hash : ℕ) : ℕ :=
  match binarySearchBy ring fun e => compare (key e) hash with
  | .ok pos => pos
  | .error pos => pos % ring.length

/-- The first entry with `p` from `pos` on, once around. -/
def ringWalk (ring : List α) (pos : ℕ) (p : α → Bool) : Option α :=
  (List.range ring.length).findSome? fun i => ring[(pos + i) % ring.length]?.filter p

/-- The entries in the order of a walk. -/
def clockwise (ring : List α) (hash : ℕ) : List α :=
  let at_ := ring.filter fun e => key e = hash
  at_.getLast?.toList ++ ring.filter (fun e => hash < key e) ++
    ring.filter (fun e => key e < hash) ++ at_.dropLast

variable {key} {ring : List α} {hash i : ℕ}

theorem findSome_filter (p : α → Bool) (l : List α) :
    l.findSome? (fun e => (some e).filter p) = l.find? p := by
  induction l with
  | nil => rfl
  | cons e l ih =>
    rw [findSome?_cons, find?_cons, ih]
    cases hp : p e <;> simp [Option.filter, hp]

theorem ringWalk_rotate (pos : ℕ) (p : α → Bool) :
    ringWalk ring pos p = (ring.rotate pos).find? p := by
  have hr : (List.range ring.length).map (fun i => ring[(pos + i) % ring.length]?) =
      (ring.rotate pos).map some := by
    refine ext_getElem (by simp) fun i hi _ => ?_
    have hlt : i < ring.length := by simpa using hi
    rw [getElem_map, getElem_map, getElem_range, Nat.add_comm,
      ← getElem?_rotate hlt, getElem?_eq_getElem]
  calc ringWalk ring pos p
      = ((List.range ring.length).map fun i => ring[(pos + i) % ring.length]?).findSome?
          (Option.filter p) := by
        rw [findSome?_map]
        rfl
    _ = (ring.rotate pos).findSome? fun e => (some e).filter p := by
        rw [hr, findSome?_map]
        rfl
    _ = (ring.rotate pos).find? p := findSome_filter p _

variable {l : List α} {e : α} {p q : α → Bool}

/-- Entries up to a hash: those below it, and then those at it. -/
theorem filter_append_filter (hs : l.Pairwise fun a b => key a ≤ key b)
    (hle : ∀ e ∈ l, key e ≤ hash) :
    l.filter (fun e => key e < hash) ++ l.filter (fun e => key e = hash) = l := by
  induction l with
  | nil => rfl
  | cons e l ih =>
    obtain ⟨hh, hs⟩ := pairwise_cons.1 hs
    rcases Nat.lt_or_eq_of_le (hle e mem_cons_self) with hlt | heq
    · rw [filter_cons_of_pos (by simpa using hlt),
        filter_cons_of_neg (by simpa using hlt.ne), cons_append,
        ih hs fun e he => hle e (mem_cons_of_mem _ he)]
    · have ha : ∀ e' ∈ e :: l, key e' = hash := by
        rintro e' he'
        refine le_antisymm (hle e' he') ?_
        rcases mem_cons.1 he' with rfl | he'
        · exact heq.ge
        · exact heq.ge.trans (hh e' he')
      rw [filter_eq_nil_iff.2 fun e' he' => by simpa using (ha e' he').ge,
        filter_eq_self.2 fun e' he' => by simpa using ha e' he', nil_append]

theorem ordered_of_sorted (hs : ring.Pairwise fun a b => key a ≤ key b) (hash : ℕ) :
    Ordered (fun e => compare (key e) hash) ring :=
  hs.imp fun hab =>
    ⟨fun ha => compare_gt_iff_gt.2 ((compare_gt_iff_gt.1 ha).trans_le hab),
      fun hb => compare_lt_iff_lt.2 (hab.trans_lt (compare_lt_iff_lt.1 hb))⟩

theorem cmpAt_compare (hi : i < ring.length) :
    cmpAt ring (fun e => compare (key e) hash) i = compare (key ring[i]) hash :=
  cmpAt_of_getElem? (getElem?_eq_getElem hi)

/-- What comes before an entry at the hash, and after the last one. -/
theorem clockwise_of_ok (hsr : ring.Pairwise fun a b => key a ≤ key b) (hi : i < ring.length)
    (heq : key ring[i] = hash) (hgt : ∀ e ∈ ring.drop (i + 1), hash < key e) :
    clockwise key ring hash = ring.rotate i := by
  have hs : ring = ring.take i ++ ring[i] :: ring.drop (i + 1) := by simp
  have hn : (ring.drop (i + 1)).filter (fun e => key e = hash) = [] :=
    filter_eq_nil_iff.2 fun e he => by simpa using (hgt e he).ne'
  have hn' : (ring.drop (i + 1)).filter (fun e => key e < hash) = [] :=
    filter_eq_nil_iff.2 fun e he => by simpa using (hgt e he).le
  have hle : ∀ e ∈ ring.take i, key e ≤ hash := by
    rw [hs, pairwise_append] at hsr
    intro e he
    exact heq ▸ hsr.2.2 e he _ mem_cons_self
  have hat : ring.filter (fun e => key e = hash) =
      (ring.take i).filter (fun e => key e = hash) ++ [ring[i]] := by
    conv_lhs => rw [hs]
    rw [filter_append, filter_cons_of_pos (by simpa using heq), hn]
  have ha : ring.filter (fun e => hash < key e) = ring.drop (i + 1) := by
    conv_lhs => rw [hs]
    rw [filter_append, filter_eq_nil_iff.2 fun e he => by simpa using hle e he,
      filter_cons_of_neg (by simpa using heq.le),
      filter_eq_self.2 fun e he => by simpa using hgt e he, nil_append]
  have hb : ring.filter (fun e => key e < hash) =
      (ring.take i).filter fun e => key e < hash := by
    conv_lhs => rw [hs]
    rw [filter_append, filter_cons_of_neg (by simpa using heq.ge), hn', append_nil]
  rw [clockwise, hat, ha, hb, getLast?_append, dropLast_concat,
    append_assoc, filter_append_filter (hsr.sublist (take_sublist i ring)) hle,
    rotate_eq_drop_append_take hi.le, drop_eq_getElem_cons hi]
  rfl

theorem clockwise_of_error (hle : i ≤ ring.length) (hlt : ∀ e ∈ ring.take i, key e < hash)
    (hgt : ∀ e ∈ ring.drop i, hash < key e) :
    clockwise key ring hash = ring.rotate (i % ring.length) := by
  have hat : ring.filter (fun e => key e = hash) = [] := by
    rw [← take_append_drop i ring, filter_append,
      filter_eq_nil_iff.2 fun e he => by simpa using (hlt e he).ne,
      filter_eq_nil_iff.2 fun e he => by simpa using (hgt e he).ne', nil_append]
  have ha : ring.filter (fun e => hash < key e) = ring.drop i := by
    conv_lhs => rw [← take_append_drop i ring]
    rw [filter_append, filter_eq_nil_iff.2 fun e he => by simpa using (hlt e he).le,
      filter_eq_self.2 fun e he => by simpa using hgt e he, nil_append]
  have hb : ring.filter (fun e => key e < hash) = ring.take i := by
    conv_lhs => rw [← take_append_drop i ring]
    rw [filter_append, filter_eq_self.2 fun e he => by simpa using hlt e he,
      filter_eq_nil_iff.2 fun e he => by simpa using (hgt e he).le, append_nil]
  rw [clockwise, hat, ha, hb, rotate_mod, rotate_eq_drop_append_take hle]
  simp

theorem clockwise_eq (hs : ring.Pairwise fun a b => key a ≤ key b) (hash : ℕ) :
    clockwise key ring hash = ring.rotate (ringStart key ring hash) := by
  have ho := ordered_of_sorted hs hash
  rw [ringStart]
  cases hsr : binarySearchBy ring fun e => compare (key e) hash with
  | ok i =>
    obtain ⟨hi, heq, hgt⟩ := binarySearchBy_ok ho hsr
    rw [cmpAt_compare hi, compare_eq_iff_eq] at heq
    show clockwise key ring hash = ring.rotate i
    refine clockwise_of_ok hs hi heq fun e he => ?_
    obtain ⟨j, hj, rfl⟩ := mem_drop_iff_getElem.1 he
    have hj' := hgt (i + 1 + j) (by omega)
    rwa [cmpAt_compare (by omega), compare_gt_iff_gt] at hj'
  | error i =>
    obtain ⟨hi, hlt, hgt⟩ := binarySearchBy_error ho hsr
    refine clockwise_of_error hi (fun e he => ?_) fun e he => ?_
    · obtain ⟨j, hj, rfl⟩ := mem_take_iff_getElem.1 he
      have hj' := hlt j (by omega)
      rwa [cmpAt_compare (by omega), compare_lt_iff_lt] at hj'
    · obtain ⟨j, hj, rfl⟩ := mem_drop_iff_getElem.1 he
      have hj' := hgt (i + j) (by omega)
      rwa [cmpAt_compare (by omega), compare_gt_iff_gt] at hj'

/-- **A walk** ends at the first entry in clockwise order that it is looking for. -/
theorem ringWalk_eq (hs : ring.Pairwise fun a b => key a ≤ key b) (hash : ℕ)
    (p : α → Bool) :
    ringWalk ring (ringStart key ring hash) p = (clockwise key ring hash).find? p := by
  rw [ringWalk_rotate, clockwise_eq hs]

theorem ringWalk_mem {pos : ℕ} (h : ringWalk ring pos p = some e) : e ∈ ring ∧ p e = true := by
  rw [ringWalk_rotate] at h
  exact ⟨mem_rotate.1 (mem_of_find?_eq_some h), find?_some h⟩

theorem ringWalk_congr (h : ∀ e ∈ ring, p e = q e) (pos : ℕ) :
    ringWalk ring pos p = ringWalk ring pos q := by
  rw [ringWalk, ringWalk]
  congr 1
  funext i
  cases he : ring[(pos + i) % ring.length]? with
  | none => rfl
  | some e => rw [Option.filter_some, Option.filter_some, h e (mem_of_getElem? he)]

theorem mem_clockwise (hs : ring.Pairwise fun a b => key a ≤ key b) :
    e ∈ clockwise key ring hash ↔ e ∈ ring := by
  rw [clockwise_eq hs, mem_rotate]

/-- What is found first among more is found first among less, if it is still there. -/
theorem find_of_imp (hpq : ∀ e ∈ l, q e = true → p e = true) (hp : l.find? p = some e)
    (hq : q e = true) : l.find? q = some e := by
  induction l with
  | nil => cases hp
  | cons e' l ih =>
    rw [find?_cons] at hp ⊢
    cases he' : p e' with
    | true =>
      rw [he'] at hp
      cases hp
      rw [hq]
    | false =>
      rw [he'] at hp
      have hq' : q e' = false := by
        by_contra hne
        rw [hpq e' mem_cons_self (by simpa using hne)] at he'
        cases he'
      rw [hq']
      exact ih (fun e he => hpq e (mem_cons_of_mem _ he)) hp

end Ferrum.Lib
