/-
  Sets of at most 128 targets, as the selectors keep them.

  * `HealthBitset`: a word and the number of its bits.
  * `Holds b indices`: the set `b` has the `indices`, which are in ascending order.
  * `holds_foldl_set`: a set is built by setting its members, in any order.
-/
import Ferrum.Balancer.Order
import Ferrum.Lib.Bitset

namespace Ferrum.Balancer

open Lib

structure HealthBitset where
  bits : BitVec 128
  len : UInt8
  deriving DecidableEq

namespace HealthBitset

def all (n : ℕ) : HealthBitset where
  bits := if 128 ≤ n then BitVec.allOnes 128 else if n = 0 then 0 else (1#128 <<< n) - 1#128
  len := n.toUInt8

def empty : HealthBitset := ⟨0, 0⟩

/-- Shifts of an `u128` take their amount modulo 128. -/
def mask (idx : ℕ) : BitVec 128 := 1#128 <<< (idx % 128)

def set (b : HealthBitset) (idx : ℕ) : HealthBitset := ⟨b.bits ||| mask idx, b.len + 1⟩

def clear (b : HealthBitset) (idx : ℕ) : HealthBitset :=
  if b.bits &&& mask idx ≠ 0 then ⟨b.bits &&& ~~~mask idx, b.len - 1⟩ else b

def contains (b : HealthBitset) (idx : ℕ) : Bool := b.bits &&& mask idx ≠ 0

def count (b : HealthBitset) : ℕ := b.len.toNat

def isEmpty (b : HealthBitset) : Bool := b.len == 0

def isAll (b : HealthBitset) (total : ℕ) : Bool := b.count == total

def nthSetBit (b : HealthBitset) (n : ℕ) : Except Panic ℕ :=
  if b.count = 0 then .error .divideByZero
  else .ok (clearLowest^[n % b.count] b.bits).ctz.toNat

def fromBits (bits : BitVec 128) : HealthBitset := ⟨bits, bits.cpop.toNat.toUInt8⟩

def intersect (a b : HealthBitset) : HealthBitset := fromBits (a.bits &&& b.bits)

/-- The order in which `for_each_set_bit` visits the members. -/
def visits (b : HealthBitset) : List ℕ := setBits b.bits

/-- `for idx in 0..n { if p(idx) { set(idx) } }`, from the empty set. -/
def collect (n : ℕ) (p : ℕ → Bool) : HealthBitset :=
  (List.range n).foldl (fun b idx => if p idx then b.set idx else b) empty

end HealthBitset

open HealthBitset

def bitsetForIndices (indices : List ℕ) : HealthBitset :=
  indices.foldl (fun b idx => if idx < maxBitsetTargets then b.set idx else b) .empty

/-! ## Members -/

open HealthBitset

/-- The set has the `indices`. -/
structure Holds (b : HealthBitset) (indices : List ℕ) : Prop where
  bits : positions b.bits = indices
  len : b.len.toNat = indices.length

section
variable {b b' : HealthBitset} {indices indices' : List ℕ} {idx n : ℕ}

theorem getLsbD_mask (hid : idx < 128) {i : ℕ} (hi : i < 128) :
    (mask idx).getLsbD i = decide (i = idx) := by
  rw [mask, Nat.mod_eq_of_lt hid, getLsbD_one_shiftLeft hi]

theorem contains_iff (hi : idx < 128) : b.contains idx = b.bits.getLsbD idx := by
  rw [Bool.eq_iff_iff, contains, decide_eq_true_eq, mask, Nat.mod_eq_of_lt hi]
  exact and_one_shiftLeft_ne_zero hi

theorem Holds.contains (h : Holds b indices) (hi : idx < 128) :
    b.contains idx = decide (idx ∈ indices) := by
  rw [Bool.eq_iff_iff, contains_iff hi, decide_eq_true_eq, ← h.bits, mem_positions]

section
variable (h : Holds b indices)
include h

theorem Holds.ascending : indices.Pairwise (· < ·) :=
  h.bits ▸ positions_pairwise b.bits

theorem Holds.lt (hi : idx ∈ indices) : idx < 128 :=
  positions_lt (h.bits.symm ▸ hi)

theorem Holds.visits : b.visits = indices := by
  rw [HealthBitset.visits, setBits_eq, h.bits]

theorem Holds.count : b.count = indices.length := h.len

theorem Holds.isEmpty : b.isEmpty = indices.isEmpty := by
  rw [Bool.eq_iff_iff, HealthBitset.isEmpty, beq_iff_eq, ← UInt8.toNat_inj, h.len,
    List.isEmpty_iff, ← List.length_eq_zero_iff]
  rfl

/-- Sets with the same members are the same. -/
theorem Holds.unique (h' : Holds b' indices) : b = b' := by
  have hb : b.bits = b'.bits := by
    refine BitVec.eq_of_getLsbD_eq fun i hi => ?_
    rw [Bool.eq_iff_iff, ← mem_positions, ← mem_positions, h.bits, h'.bits]
  have hln : b.len = b'.len := UInt8.toNat_inj.1 (h.len.trans h'.len.symm)
  cases b
  cases b'
  cases hb
  cases hln
  rfl

end

theorem holds_empty : Holds .empty [] where
  bits := by rfl
  len := rfl

theorem Holds.set (h : Holds b indices) (hid : idx < 128) (hn : idx ∉ indices)
    (hs : indices'.Pairwise (· < ·)) (hm : ∀ i, i ∈ indices' ↔ i = idx ∨ i ∈ indices) :
    Holds (b.set idx) indices' := by
  have hb : positions (b.set idx).bits = indices' := by
    refine positions_eq hs fun i => ?_
    rw [hm, ← h.bits, mem_positions]
    show (b.bits ||| mask idx).getLsbD i = true ↔ _
    by_cases hi : i < 128
    · rw [BitVec.getLsbD_or, getLsbD_mask hid hi, Bool.or_eq_true, decide_eq_true_eq, or_comm]
    · rw [BitVec.getLsbD_of_ge _ _ (not_lt.1 hi), BitVec.getLsbD_of_ge _ _ (not_lt.1 hi)]
      exact ⟨nofun, by rintro (rfl | h) <;> contradiction⟩
  have hp : indices'.Perm (idx :: indices) := by
    rw [List.perm_ext_iff_of_nodup (hs.imp Nat.ne_of_lt)
      (List.nodup_cons.2 ⟨hn, h.ascending.imp Nat.ne_of_lt⟩)]
    intro i
    rw [hm, List.mem_cons]
  refine ⟨hb, ?_⟩
  have hle : indices'.length ≤ 128 := hb ▸ length_positions_le _
  rw [hp.length_eq, List.length_cons] at hle ⊢
  show (b.len + 1).toNat = _
  rw [UInt8.toNat_add, h.len]
  exact Nat.mod_eq_of_lt (show indices.length + 1 < 256 by omega)

/-- A set is built by setting its members once each, in any order. -/
theorem holds_foldl_set {is : List ℕ} (hpr : is.Perm indices)
    (hs : indices.Pairwise (· < ·)) (hlt : ∀ i ∈ indices, i < 128) :
    Holds (is.foldl set .empty) indices := by
  have key : ∀ (is : List ℕ) (b : HealthBitset) (indices₀ : List ℕ), Holds b indices₀ →
      (is ++ indices₀).Perm indices → Holds (is.foldl set b) indices := by
    intro is
    induction is with
    | nil =>
      intro b indices₀ h hp
      have : indices₀ = indices := eq_of_ascending h.ascending hs fun i => hp.mem_iff
      exact this ▸ h
    | cons i is ih =>
      intro b indices₀ h hp
      have hn : (i :: (is ++ indices₀)).Nodup :=
        hp.nodup_iff.2 (hs.imp Nat.ne_of_lt)
      have hnw : i ∉ indices₀ := fun hm =>
        (List.nodup_cons.1 hn).1 (List.mem_append_right _ hm)
      have hm : ∀ j, j ∈ indices.filter (fun j => j = i ∨ j ∈ indices₀) ↔
          j = i ∨ j ∈ indices₀ := by
        intro j
        rw [List.mem_filter, decide_eq_true_eq, and_iff_right_iff_imp]
        rintro (rfl | hj)
        · exact hp.subset List.mem_cons_self
        · exact hp.subset (List.mem_cons_of_mem _ (List.mem_append_right _ hj))
      have hst := h.set (hlt i (hp.subset List.mem_cons_self)) hnw (hs.filter _) hm
      refine ih _ _ hst (List.Perm.trans ?_ hp)
      have hpr' : (indices.filter fun j => j = i ∨ j ∈ indices₀).Perm (i :: indices₀) := by
        rw [List.perm_ext_iff_of_nodup ((hs.imp Nat.ne_of_lt).filter _)
          (List.nodup_cons.2 ⟨hnw, h.ascending.imp Nat.ne_of_lt⟩)]
        intro j
        rw [hm, List.mem_cons]
      exact (hpr'.append_left is).trans List.perm_middle
  refine key is .empty [] holds_empty ?_
  rwa [List.append_nil]

theorem holds_collect (hn : n ≤ 128) (p : ℕ → Bool) :
    Holds (collect n p) ((List.range n).filter p) := by
  rw [collect, ← List.foldl_filter]
  exact holds_foldl_set (List.Perm.refl _) (List.pairwise_lt_range.filter p) fun i hi =>
    (List.mem_range.1 (List.mem_filter.1 hi).1).trans_le hn

theorem holds_bitsetForIndices (hs : indices.Pairwise (· < ·)) (hlt : ∀ i ∈ indices, i < 128) :
    Holds (bitsetForIndices indices) indices := by
  have hf : indices.filter (fun i => i < maxBitsetTargets) = indices :=
    List.filter_eq_self.2 fun i hi => decide_eq_true (hlt i hi)
  have hfl : bitsetForIndices indices =
      (indices.filter fun i => i < maxBitsetTargets).foldl set .empty := by
    rw [List.foldl_filter]
    simp only [decide_eq_true_eq]
    rfl
  rw [hfl, hf]
  exact holds_foldl_set (List.Perm.refl _) hs hlt

theorem holds_fromBits {bits : BitVec 128} (h : positions bits = indices) :
    Holds (fromBits bits) indices := by
  refine ⟨h, ?_⟩
  show (bits.cpop.toNat.toUInt8).toNat = _
  have hle : bits.cpop.toNat ≤ 128 := (toNat_cpop_eq bits).trans_le (length_positions_le bits)
  rw [UInt8.toNat_ofNat', toNat_cpop_eq, h, Nat.mod_eq_of_lt]
  rw [toNat_cpop_eq, h] at hle
  omega

theorem Holds.intersect (h : Holds b indices) (h' : Holds b' indices') :
    Holds (b.intersect b') (indices.filter fun i => i ∈ indices') := by
  refine holds_fromBits (positions_eq (h.ascending.filter _) fun i => ?_)
  rw [BitVec.getLsbD_and, Bool.and_eq_true, ← mem_positions, ← mem_positions, h.bits, h'.bits,
    List.mem_filter, decide_eq_true_eq]

theorem holds_all (hn : n ≤ 128) : Holds (.all n) (List.range n) := by
  refine ⟨positions_eq List.pairwise_lt_range fun i => ?_, ?_⟩
  · rw [List.mem_range, all]
    by_cases hge : 128 ≤ n
    · obtain rfl : n = 128 := le_antisymm hn hge
      rw [if_pos hge, BitVec.getLsbD_allOnes, decide_eq_true_eq]
    · have hlt : n < 128 := not_le.1 hge
      simp only [if_neg hge]
      split_ifs with h0
      · simp [h0]
      · have hs : (1#128 <<< n - 1#128).toNat = 2 ^ n - 1 := by
          have hne : 1#128 <<< n ≠ 0#128 := by
            intro hz
            have := congrArg (fun x => x.getLsbD n) hz
            simp only [getLsbD_one_shiftLeft hlt, BitVec.getLsbD_zero, decide_true] at this
            cases this
          rw [toNat_sub_one hne, BitVec.toNat_shiftLeft, BitVec.toNat_ofNat,
            Nat.one_mod_two_pow (by decide), Nat.one_shiftLeft,
            Nat.mod_eq_of_lt (Nat.pow_lt_pow_right (by decide) hlt)]
        rw [← BitVec.testBit_toNat, hs, Nat.testBit_two_pow_sub_one, decide_eq_true_eq]
  · show n.toUInt8.toNat = _
    rw [UInt8.toNat_ofNat', Nat.mod_eq_of_lt (by omega), List.length_range]

theorem Holds.clear (h : Holds b indices) (hid : idx < 128) :
    Holds (b.clear idx) (indices.filter fun i => i ≠ idx) := by
  have hc := h.contains hid
  rw [HealthBitset.contains] at hc
  rw [HealthBitset.clear]
  by_cases hm : idx ∈ indices
  · rw [decide_eq_true hm, decide_eq_true_eq] at hc
    rw [if_pos hc]
    refine ⟨positions_eq (h.ascending.filter _) fun i => ?_, ?_⟩
    · rw [BitVec.getLsbD_and, BitVec.getLsbD_not, List.mem_filter, decide_eq_true_eq, ← h.bits,
        mem_positions, Bool.and_eq_true]
      by_cases hi : i < 128
      · rw [getLsbD_mask hid hi, decide_eq_true hi, Bool.true_and, Bool.not_eq_true',
          decide_eq_false_iff_not]
      · rw [BitVec.getLsbD_of_ge _ _ (not_lt.1 hi)]
        exact ⟨fun h => absurd h.1 Bool.false_ne_true, fun h => absurd h.1 Bool.false_ne_true⟩
    · have hn : indices.Nodup := h.ascending.imp Nat.ne_of_lt
      have hln : (indices.filter fun i => i ≠ idx).length = indices.length - 1 := by
        rw [← List.length_erase_of_mem hm, hn.erase_eq_filter]
        simp only [ne_eq, decide_not, bne, beq_eq_decide]
      have hpos : 0 < indices.length := List.length_pos_of_mem hm
      show (b.len - 1).toNat = _
      rw [hln, UInt8.toNat_sub_of_le, h.len]
      · rfl
      · rw [UInt8.le_iff_toNat_le, h.len]
        exact hpos
  · rw [decide_eq_false hm, decide_eq_false_iff_not] at hc
    rw [if_neg hc, List.filter_eq_self.2 fun i hi => by
      rw [decide_eq_true_eq]
      rintro rfl
      exact hm hi]
    exact h

theorem Holds.nthSetBit (h : Holds b indices) (hne : indices ≠ []) (k : ℕ) :
    ∃ i, indices[k % indices.length]? = some i ∧ b.nthSetBit k = .ok i := by
  have hpos : 0 < indices.length := List.length_pos_of_ne_nil hne
  have hlt := Nat.mod_lt k hpos
  refine ⟨_, List.getElem?_eq_getElem hlt, ?_⟩
  rw [HealthBitset.nthSetBit, h.count, if_neg hpos.ne']
  congr 1
  refine ctz_clearLowest ?_
  rw [h.bits]
  exact List.getElem?_eq_getElem hlt

end

end Ferrum.Balancer
