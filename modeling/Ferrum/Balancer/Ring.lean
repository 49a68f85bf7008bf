/-
  Consistent hashing.

  * `ringChoice`: the first candidate that a walk from the hash of the request meets.
  * `consistent_hash_stable`: both paths return it, and a smaller pool that still has it does not
    change it.
-/
import Ferrum.Balancer.Wrr
import Ferrum.Lib.HashRing

namespace Ferrum.Balancer

open Lib List

def ringKey (e : UInt64 × ℕ) : ℕ := e.1.toNat

namespace Selector
variable (self : Selector)

def selectConsistentHashBitsetWithRing (ctxKey : Bytes) (healthy : HealthBitset)
    (hashRing : HashRing) : Except Panic Chosen :=
  if healthy.isEmpty || hashRing.isEmpty then .ok none
  else
    let pos := ringStart ringKey hashRing (fxHashStr ctxKey).toNat
    match ringWalk hashRing pos fun e => healthy.contains e.2 with
    | some e => do return some (← self.target e.2)
    | none => do return some (← self.target (← healthy.nthSetBit 0))

def selectConsistentHashVecWithRing (ctxKey : Bytes) (candidates : Candidates)
    (hashRing : HashRing) : Except Panic Chosen :=
  if candidates.isEmpty || hashRing.isEmpty then .ok none
  else
    let candidateSet := candidates.map Prod.fst
    let pos := ringStart ringKey hashRing (fxHashStr ctxKey).toNat
    match ringWalk hashRing pos fun e => candidateSet.contains e.2 with
    | some e => do return some (← self.target e.2)
    | none => do return some (← index candidates 0)

end Selector

/-- The candidate that a walk finds, and else the first one. -/
def ringChoice (ctxKey : Bytes) (ring : HashRing) (is : List ℕ) : Option ℕ :=
  ((ringWalk ring (ringStart ringKey ring (fxHashStr ctxKey).toNat)
    fun e => is.contains e.2).map Prod.snd).or is.head?

section
variable {self : Selector} {is : List ℕ} {ring : HashRing} {ctxKey : Bytes}

theorem ringChoice_mem (hne : is ≠ []) : ∃ i ∈ is, ringChoice ctxKey ring is = some i := by
  rw [ringChoice]
  cases hw : ringWalk ring (ringStart ringKey ring (fxHashStr ctxKey).toNat)
      fun e => is.contains e.2 with
  | some e => exact ⟨e.2, by simpa using (ringWalk_mem hw).2, rfl⟩
  | none =>
    obtain ⟨i, is, rfl⟩ := exists_cons_of_ne_nil hne
    exact ⟨i, mem_cons_self, rfl⟩

theorem selectConsistentHashBitsetWithRing_eq {healthy : HealthBitset} (hb : Holds healthy is)
    (hlt : ∀ i ∈ is, i < self.targets.length) (hne : is ≠ []) (hr : ring ≠ [])
    (hring_lt : ∀ e ∈ ring, e.2 < maxBitsetTargets) :
    self.selectConsistentHashBitsetWithRing ctxKey healthy ring =
      .ok (self.handle (ringChoice ctxKey ring is)) := by
  have hrn : (healthy.isEmpty || ring.isEmpty) = false := by simp [hb.isEmpty, hne, hr]
  have hw : ∀ pos, (ringWalk ring pos fun e => healthy.contains e.2) =
      ringWalk ring pos fun e => is.contains e.2 := by
    refine ringWalk_congr fun e he => ?_
    rw [hb.contains (hring_lt e he), contains_eq_mem]
  rw [Selector.selectConsistentHashBitsetWithRing, hrn, if_neg Bool.false_ne_true, ringChoice]
  simp only [hw]
  cases hf : ringWalk ring (ringStart ringKey ring (fxHashStr ctxKey).toNat)
      fun e => is.contains e.2 with
  | some e => exact target_ok (hlt e.2 (by simpa using (ringWalk_mem hf).2))
  | none =>
    obtain ⟨i, hget, hn⟩ := hb.nthSetBit hne 0
    have hh : is.head? = some i := by rw [head?_eq_getElem?, ← hget, Nat.zero_mod]
    show (healthy.nthSetBit 0 >>= fun idx => _) = _
    rw [hn, Option.map_none, Option.none_or, hh]
    exact target_ok (hlt i (mem_of_getElem? hget))

theorem selectConsistentHashVecWithRing_eq (hlt : ∀ i ∈ is, i < self.targets.length)
    (hne : is ≠ []) (hr : ring ≠ []) :
    self.selectConsistentHashVecWithRing ctxKey (self.attach is) ring =
      .ok (self.handle (ringChoice ctxKey ring is)) := by
  have hrn : ((self.attach is).isEmpty || ring.isEmpty) = false := by
    have hln := length_attach hlt
    have hpos := length_pos_of_ne_nil hne
    have ha : self.attach is ≠ [] := ne_nil_of_length_pos (hln ▸ hpos)
    simp [ha, hr]
  rw [Selector.selectConsistentHashVecWithRing, hrn, if_neg Bool.false_ne_true, ringChoice]
  simp only [attach_fst hlt]
  cases hf : ringWalk ring (ringStart ringKey ring (fxHashStr ctxKey).toNat)
      fun e => is.contains e.2 with
  | some e => exact target_ok (hlt e.2 (by simpa using (ringWalk_mem hf).2))
  | none =>
    obtain ⟨i, is, rfl⟩ := exists_cons_of_ne_nil hne
    exact index_attach hlt (show (i :: is)[0]? = some i from rfl)

end

/-! ## Changing pools -/

/-- Both paths return the target `i` for the pool. -/
structure Selector.HashesTo (s : Selector) (ctxKey : Bytes) (ring : HashRing) (pool : List ℕ)
    (i : ℕ) : Prop where
  bitset : s.targets.length ≤ maxBitsetTargets → ∀ healthy, Holds healthy pool →
    s.selectConsistentHashBitsetWithRing ctxKey healthy ring = .ok (s.handle (some i))
  vec : s.selectConsistentHashVecWithRing ctxKey (s.attach pool) ring = .ok (s.handle (some i))

section
variable {self : Selector} {indices pool : List ℕ} {ctxKey : Bytes}

theorem hashRing_sorted (keys : List Bytes) (indices : List ℕ) :
    (buildHashRingForIndices keys indices).Pairwise fun a b => ringKey a ≤ ringKey b :=
  sortByKey_pairwise _ _

theorem exists_mem_hashRing {keys : List Bytes} {i : ℕ} (hi : i ∈ indices) (hlt : i < keys.length) :
    ∃ e ∈ buildHashRingForIndices keys indices, e.2 = i := by
  refine ⟨(fxHashStr (keys[i] ++ lit ":" ++ lit (toString 0)), i), ?_, rfl⟩
  refine (sortByKey_perm _ _).symm.subset (mem_flatMap.2 ⟨i, hi, ?_⟩)
  rw [getElem?_eq_getElem hlt]
  exact mem_map.2 ⟨0, mem_range.2 (by decide), rfl⟩

section
variable (hs : self.Sized) (hlt : ∀ i ∈ pool, i < self.targets.length)
  (hin : ∀ i ∈ pool, i ∈ indices) (hne : pool ≠ [])
include hs hlt hin hne

/-- The first entry in clockwise order whose target is in a pool of the ring. -/
theorem exists_clockwise (hash : ℕ) :
    ∃ e, (clockwise ringKey (buildHashRingForIndices self.hostPortKeys indices) hash).find?
      (fun e => pool.contains e.2) = some e := by
  obtain ⟨i, hi⟩ := exists_mem_of_ne_nil pool hne
  obtain ⟨e, he, rfl⟩ := exists_mem_hashRing (hin i hi) (hs.hostPortKeys ▸ hlt i hi)
  refine Option.isSome_iff_exists.1 (find?_isSome.2 ⟨e, ?_, by simpa using hi⟩)
  exact (mem_clockwise (hashRing_sorted _ _)).2 he

theorem hashesTo_of_find {e : UInt64 × ℕ}
    (hf : (clockwise ringKey (buildHashRingForIndices self.hostPortKeys indices)
      (fxHashStr ctxKey).toNat).find? (fun e => pool.contains e.2) = some e) :
    self.HashesTo ctxKey (buildHashRingForIndices self.hostPortKeys indices) pool e.2 := by
  obtain ⟨i, hi⟩ := exists_mem_of_ne_nil pool hne
  have hr : buildHashRingForIndices self.hostPortKeys indices ≠ [] :=
    hashRing_ne_nil (hin i hi) (hs.hostPortKeys ▸ hlt i hi)
  have hc : ringChoice ctxKey (buildHashRingForIndices self.hostPortKeys indices) pool =
      some e.2 := by
    rw [ringChoice, ringWalk_eq (hashRing_sorted _ _), hf, Option.map_some, Option.some_or]
  constructor
  · intro hn healthy hb
    rw [selectConsistentHashBitsetWithRing_eq hb hlt hne hr, hc]
    intro e he
    exact (hs.hostPortKeys ▸ (mem_hashRing he).2).trans_le hn
  · rw [selectConsistentHashVecWithRing_eq hlt hne hr, hc]

end

/-- **Consistent hashing.**  Both paths return the target of the first entry in clockwise order that
    is in the pool.  They still do so in any part of the pool that has the target. -/
theorem consistent_hash_stable (hs : self.Sized) {pool' : List ℕ}
    (hlt : ∀ i ∈ pool, i < self.targets.length) (hindices : ∀ i ∈ pool, i ∈ indices)
    (hpart : ∀ i ∈ pool', i ∈ pool) (hne : pool' ≠ []) :
    ∃ e, (clockwise ringKey (buildHashRingForIndices self.hostPortKeys indices)
        (fxHashStr ctxKey).toNat).find? (fun e => pool.contains e.2) = some e ∧ e.2 ∈ pool ∧
      self.HashesTo ctxKey (buildHashRingForIndices self.hostPortKeys indices) pool e.2 ∧
      (e.2 ∈ pool' →
        self.HashesTo ctxKey (buildHashRingForIndices self.hostPortKeys indices) pool' e.2) := by
  obtain ⟨i, hi⟩ := exists_mem_of_ne_nil pool' hne
  have hne' : pool ≠ [] := ne_nil_of_mem (hpart i hi)
  obtain ⟨e, he⟩ := exists_clockwise hs hlt hindices hne' (fxHashStr ctxKey).toNat
  refine ⟨e, he, by simpa using find?_some he, hashesTo_of_find hs hlt hindices hne' he,
    fun hm => ?_⟩
  refine hashesTo_of_find hs (fun i hi => hlt i (hpart i hi))
    (fun i hi => hindices i (hpart i hi)) hne (find_of_imp ?_ he (by simpa using hm))
  intro e _ hm'
  simpa using hpart e.2 (by simpa using hm')

end

def duplicatedSelector : Selector :=
  (LoadBalancer.withSubsetsAndPortOverrides (lit "u")
    [{ host := lit "a", port := 80 }, { host := lit "a", port := 80, path := some (lit "/b") },
      { host := lit "c", port := 80 }]
    { algorithm := .consistentHashing }).idle

/-- The first two targets share their hashes.  The walk starts at the second one, and so it meets
    the third before the first, whose entry is at the hash. -/
theorem duplicated_hash_skipped :
    ((duplicatedSelector.hashRing.filter fun e => fxHashStr (lit "a:80:0") ≤ e.1).find?
      fun e => [0, 2].contains e.2).map Prod.snd = some 0 ∧
    (duplicatedSelector.selectConsistentHashVecWithRing (lit "a:80:0")
      (duplicatedSelector.attach [0, 2]) duplicatedSelector.hashRing).map (Option.map Prod.fst) =
        .ok (some 2) := by
  decide +kernel

theorem consistent_hash_stable_pair : ∃ i ∈ [0, 2], duplicatedSelector.HashesTo (lit "session")
    (buildHashRingForIndices duplicatedSelector.hostPortKeys [0, 1, 2]) [0, 2] i := by
  have hs : duplicatedSelector.Sized := ⟨by decide +kernel, by decide +kernel⟩
  obtain ⟨e, -, hm, hto, -⟩ := @consistent_hash_stable duplicatedSelector [0, 1, 2] [0, 2]
    (lit "session") hs [2] (by decide +kernel) (by decide) (by decide) (by decide)
  exact ⟨e.2, hm, hto⟩

end Ferrum.Balancer
