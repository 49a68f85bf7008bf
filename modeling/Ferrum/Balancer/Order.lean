/-
  The order in which weighted round-robin goes through its targets.

  * `boundWrrWeights`: the slots of each target in a period of bounded length.
  * `buildSmoothWrrOrder`: the period, unless it is too much work to build.
  * `smooth_order_shares`: in a period everyone has its slots, and in any part of it close to its
    share of them.
-/
import Mathlib.Data.Nat.GCD.Basic
import Mathlib.Data.Rat.Floor
import Ferrum.Balancer.Config
import Ferrum.Lib.Argmin
import Ferrum.Lib.Program
import Ferrum.Lib.Smooth

namespace Ferrum.Balancer

open Lib List Nat

def maxBitsetTargets : ℕ := 128

def wrrMaxScheduleLen : ℕ := 8192

def wrrSmoothBuildMaxWork : ℕ := wrrMaxScheduleLen * maxBitsetTargets

def i64Min : ℤ := -2 ^ 63

def i64Max : ℤ := 2 ^ 63 - 1

/-- The nearest `i64`. -/
def satI64 (x : ℤ) : ℤ := max i64Min (min x i64Max)

theorem satI64_eq {x : ℤ} (hm : i64Min ≤ x) (hmax : x ≤ i64Max) : satI64 x = x := by
  rw [satI64, min_eq_left hmax, max_eq_right hm]

def wrrGcd (a b : ℕ) : ℕ :=
  if b = 0 then a else wrrGcd b (a % b)
termination_by b
decreasing_by exact mod_lt _ (pos_of_ne_zero ‹_›)

inductive WrrOrderBuild where
  | smooth (order : List ℕ)
  | zeroWeight
  | lotteryOnly
  deriving DecidableEq, Repr

/-! ## The weights of a period -/

/-- The slots of a target without its fraction of one, which is the second part. -/
def apportion (remaining denominator weight : ℕ) : ℕ × ℕ :=
  (min (weight * remaining / denominator) (2 ^ 64 - 1), weight * remaining % denominator)

/-- One slot more for the target at `slot`. -/
def addSlot (apportioned : List (ℕ × ℤ)) (slot : ℕ) : Except Panic (List (ℕ × ℤ)) := do
  let e ← index apportioned slot
  return apportioned.set slot (e.1, satI64 (e.2 + 1))

def boundWrrWeights (normalized : List (ℕ × ℕ)) (totalWeight : ℕ) : Except Panic (List (ℕ × ℤ)) :=
  let scheduleLen := max wrrMaxScheduleLen normalized.length
  if totalWeight ≤ scheduleLen then
    .ok (normalized.map fun e => (e.1, (e.2 : ℤ)))
  else
    let remaining := scheduleLen - normalized.length
    let denominator := max totalWeight 1
    let parts := normalized.map fun e => apportion remaining denominator e.2
    let apportioned := (normalized.zip parts).map fun (e, part) =>
      (e.1, min (satAdd part.1 1 : ℤ) i64Max)
    let assigned := parts.foldl (fun assigned part => satAdd assigned part.1) normalized.length
    -- the greatest fractions first, and of these the first slot
    let remainders := sortByKey (fun e : ℕ × ℕ => toLex (OrderDual.toDual e.2, e.1))
      (parts.zipIdx.map fun (part, slot) => (slot, part.2))
    let leftover := scheduleLen - assigned
    (remainders.take leftover).foldlM (fun apportioned e => addSlot apportioned e.1) apportioned

/-! ## The period -/

/-- One slot in the loop over the slots: its balance grows, and the greatest so far is kept. -/
def growSlot (acc : List ℤ × ℕ × ℤ) (e : (ℕ × ℤ) × ℕ) : Except Panic (List ℤ × ℕ × ℤ) := do
  let (current, bestSlot, bestCurrent) := acc
  let value := satI64 ((← index current e.2) + e.1.2)
  let current := current.set e.2 value
  if bestCurrent < value then return (current, e.2, value)
  else return (current, bestSlot, bestCurrent)

/-- The balances after one round, and the target that is next. -/
def smoothStep (bounded : List (ℕ × ℤ)) (boundedTotal : ℤ) (current : List ℤ) :
    Except Panic (List ℤ × ℕ) := do
  let (current, bestSlot, _) ← bounded.zipIdx.foldlM growSlot (current, 0, i64Min)
  let best ← index current bestSlot
  let target ← index bounded bestSlot
  return (current.set bestSlot (satI64 (best - boundedTotal)), target.1)

def smoothOrder (bounded : List (ℕ × ℤ)) (boundedTotal : ℤ) :
    ℕ → List ℤ → Except Panic (List ℕ)
  | 0, _ => .ok []
  | steps + 1, current => do
    let (current, target) ← smoothStep bounded boundedTotal current
    let order ← smoothOrder bounded boundedTotal steps current
    return target :: order

/-- The divisor of all positive weights; zero if there are none. -/
def weightsGcd (weighted : List (ℕ × UInt32)) : ℕ :=
  weighted.foldl
    (fun gcd e => if e.2 = 0 then gcd else if gcd = 0 then e.2.toNat else wrrGcd gcd e.2.toNat) 0

/-- The positive weights, divided by the `gcd`. -/
def normalizeWeights (weighted : List (ℕ × UInt32)) (gcd : ℕ) : List (ℕ × ℕ) :=
  (weighted.filter fun e => 0 < e.2).map fun e => (e.1, e.2.toNat / gcd)

def buildSmoothWrrOrder (weighted : List (ℕ × UInt32)) : Except Panic WrrOrderBuild := do
  let gcd := weightsGcd weighted
  if gcd = 0 then return .zeroWeight
  let normalized := normalizeWeights weighted gcd
  let totalWeight := (normalized.map Prod.snd).sum
  let bounded ← boundWrrWeights normalized totalWeight
  let boundedTotal := (bounded.map Prod.snd).sum
  if boundedTotal ≤ 0 then return .zeroWeight
  let steps := boundedTotal.toNat
  if wrrSmoothBuildMaxWork < steps * bounded.length then return .lotteryOnly
  let order ← smoothOrder bounded boundedTotal steps (replicate bounded.length 0)
  return .smooth order

/-! ## The divisor -/

theorem wrrGcd_eq (a b : ℕ) : wrrGcd a b = Nat.gcd a b := by
  fun_induction wrrGcd a b with
  | case1 a => rw [Nat.gcd_zero_right]
  | case2 a b hb ih => rw [ih, Nat.gcd_comm a b, gcd_rec b a, Nat.gcd_comm]

section
variable {weighted : List (ℕ × UInt32)}

theorem weightsGcd_eq (weighted : List (ℕ × UInt32)) :
    weightsGcd weighted = (weighted.map fun e => e.2.toNat).foldl Nat.gcd 0 := by
  rw [weightsGcd, foldl_map]
  congr 1
  funext gcd e
  by_cases hw : e.2 = 0
  · rw [if_pos hw, hw]
    exact (Nat.gcd_zero_right gcd).symm
  · rw [if_neg hw]
    split_ifs with hgc
    · rw [hgc, Nat.gcd_zero_left]
    · exact wrrGcd_eq _ _

theorem foldl_gcd_dvd (ws : List ℕ) (g : ℕ) :
    ws.foldl Nat.gcd g ∣ g ∧ ∀ w ∈ ws, ws.foldl Nat.gcd g ∣ w := by
  induction ws generalizing g with
  | nil => exact ⟨dvd_refl _, nofun⟩
  | cons w ws ih =>
    obtain ⟨hg, hws⟩ := ih (g.gcd w)
    refine ⟨hg.trans (Nat.gcd_dvd_left g w), fun v hv => ?_⟩
    rcases mem_cons.1 hv with rfl | hv
    · exact hg.trans (Nat.gcd_dvd_right g v)
    · exact hws v hv

variable {e : ℕ × UInt32}

theorem weightsGcd_dvd (he : e ∈ weighted) : weightsGcd weighted ∣ e.2.toNat := by
  rw [weightsGcd_eq]
  exact (foldl_gcd_dvd _ 0).2 _ (mem_map_of_mem he)

/-- Without a positive weight there is no divisor. -/
theorem weightsGcd_eq_zero (h : weightsGcd weighted = 0) (he : e ∈ weighted) : e.2 = 0 := by
  have hd := weightsGcd_dvd he
  rw [h, Nat.zero_dvd] at hd
  exact UInt32.toNat_inj.1 hd

theorem mem_normalizeWeights {gcd : ℕ} {e : ℕ × ℕ} (h : e ∈ normalizeWeights weighted gcd) :
    ∃ w, (e.1, w) ∈ weighted ∧ 0 < w ∧ e.2 = w.toNat / gcd := by
  obtain ⟨⟨i, w⟩, hm, rfl⟩ := mem_map.1 h
  rw [mem_filter, decide_eq_true_eq] at hm
  exact ⟨w, hm.1, hm.2, rfl⟩

/-- No positive weight is lost by the division. -/
theorem one_le_normalizeWeights (hgc : weightsGcd weighted ≠ 0) {e : ℕ × ℕ}
    (h : e ∈ normalizeWeights weighted (weightsGcd weighted)) : 1 ≤ e.2 := by
  obtain ⟨w, hm, hpos, he⟩ := mem_normalizeWeights h
  rw [he]
  have hw : 0 < w.toNat := UInt32.lt_iff_toNat_lt.1 hpos
  exact div_pos (le_of_dvd hw (weightsGcd_dvd hm)) (pos_of_ne_zero hgc)

end

/-! ## Slots -/

/-- The slots are those of the targets, each with at least one. -/
structure SlotsOk (targets : List ℕ) (bounded : List (ℕ × ℤ)) : Prop where
  targets : bounded.map Prod.fst = targets
  pos : ∀ e ∈ bounded, 1 ≤ e.2

variable {apportioned : List (ℕ × ℤ)} {targets : List ℕ} {normalized : List (ℕ × ℕ)}

theorem addSlot_ok {slot : ℕ} (h : SlotsOk targets apportioned) (hs : slot < targets.length) :
    ∃ apportioned', addSlot apportioned slot = .ok apportioned' ∧ SlotsOk targets apportioned' := by
  have hlt : slot < apportioned.length := by
    rw [← h.targets, length_map] at hs
    exact hs
  refine ⟨_, by rw [addSlot, index_lt hlt]; rfl, ?_, fun e he => ?_⟩
  · have hsl := @set_getElem_self _ (apportioned.map Prod.fst) slot (by simpa using hlt)
    rw [getElem_map] at hsl
    rw [map_set, hsl, h.targets]
  · rcases mem_or_eq_of_mem_set he with he | rfl
    · exact h.pos e he
    · have hpos := h.pos _ (getElem_mem hlt)
      rw [satI64, i64Min, i64Max]
      omega

theorem addSlots_ok {slots : List (ℕ × ℕ)} (h : SlotsOk targets apportioned)
    (hs : ∀ e ∈ slots, e.1 < targets.length) :
    ∃ bounded, slots.foldlM (fun apportioned e => addSlot apportioned e.1) apportioned =
      .ok bounded ∧ SlotsOk targets bounded := by
  induction slots generalizing apportioned with
  | nil => exact ⟨_, rfl, h⟩
  | cons e slots ih =>
    obtain ⟨next, hn, hok⟩ := addSlot_ok h (hs e mem_cons_self)
    obtain ⟨bounded, hb, hf⟩ := ih hok fun e he => hs e (mem_cons_of_mem _ he)
    refine ⟨bounded, ?_, hf⟩
    rw [foldlM_cons, hn]
    exact hb

theorem boundWrrWeights_ok (totalWeight : ℕ) (hpos : ∀ e ∈ normalized, 1 ≤ e.2) :
    ∃ bounded, boundWrrWeights normalized totalWeight = .ok bounded ∧
      SlotsOk (normalized.map Prod.fst) bounded := by
  rw [boundWrrWeights]
  simp only
  split_ifs with hf
  · refine ⟨_, rfl, by simp, fun e he => ?_⟩
    obtain ⟨e', he', rfl⟩ := mem_map.1 he
    exact Int.ofNat_le.2 (hpos e' he')
  · refine addSlots_ok ⟨?_, fun e he => ?_⟩ fun e he => ?_
    · rw [map_map]
      refine (map_map (g := Prod.fst) (f := Prod.fst)).symm.trans ?_
      rw [map_fst_zip (length_map _).ge]
    · obtain ⟨⟨e, part⟩, -, rfl⟩ := mem_map.1 he
      simp only [satAdd, i64Max]
      omega
    · have hm := (sortByKey_perm _ _).subset (take_subset _ _ he)
      obtain ⟨⟨part, slot⟩, hp, rfl⟩ := mem_map.1 hm
      have := (mem_zipIdx' hp).1
      simpa using this

/-- A period that fits has a slot for each unit of weight. -/
theorem boundWrrWeights_fits {totalWeight : ℕ} (h : totalWeight ≤ wrrMaxScheduleLen) :
    boundWrrWeights normalized totalWeight = .ok (normalized.map fun e => (e.1, (e.2 : ℤ))) := by
  rw [boundWrrWeights]
  exact if_pos (h.trans (le_max_left _ _))

/-! ## Rounds -/

section
variable {bounded : List (ℕ × ℤ)}

def slotWeight (bounded : List (ℕ × ℤ)) (j : Fin bounded.length) : ℤ := bounded[j].2

theorem sum_slotWeight (bounded : List (ℕ × ℤ)) :
    ∑ j, slotWeight bounded j = (bounded.map Prod.snd).sum := by
  have h : (finRange bounded.length).map (slotWeight bounded) = bounded.map Prod.snd :=
    ext_getElem (by simp) fun i h₁ h₂ => by simp [slotWeight]
  rw [← h]
  rfl

variable {m : ℕ} {c : Fin bounded.length → ℤ} {choices : List (Fin bounded.length)}

theorem set_ofFn {c : Fin m → ℤ} (i : Fin m) (v : ℤ) :
    (List.ofFn c).set i v = List.ofFn fun j => if j = i then v else c j := by
  refine ext_getElem (by simp) fun k h₁ h₂ => ?_
  rw [getElem_set, List.getElem_ofFn, List.getElem_ofFn]
  simp only [Fin.ext_iff, eq_comm]

theorem index_ofFn {c : Fin m → ℤ} (i : Fin m) : index (List.ofFn c) i = .ok (c i) := by
  rw [index_lt (by simp), List.getElem_ofFn]

/-- The balances leave room in an `i64`. -/
structure Roomy (bounded : List (ℕ × ℤ)) (c : Fin bounded.length → ℤ) : Prop where
  lower : ∀ j, i64Min < c j + slotWeight bounded j - ∑ k, slotWeight bounded k
  upper : ∀ j, c j + slotWeight bounded j ≤ i64Max

theorem growSlot_ok (j : Fin bounded.length) {best : ℕ × ℤ}
    (hm : i64Min ≤ c j + slotWeight bounded j) (hmax : c j + slotWeight bounded j ≤ i64Max) :
    growSlot (ofFn c, best) (bounded[j], j) = .ok
      (ofFn fun l => if l = j then c j + slotWeight bounded j else c l,
        if best.2 < c j + slotWeight bounded j then (j.1, c j + slotWeight bounded j)
        else best) := by
  have hv : satI64 (c j + bounded[j].2) = c j + slotWeight bounded j := satI64_eq hm hmax
  simp only [growSlot, index_ofFn]
  show (if best.2 < satI64 (c j + bounded[j].2) then _ else _) = _
  rw [hv, set_ofFn]
  split_ifs <;> rfl

/-- The loop over the first `k` slots: their balances have grown, and the greatest is known. -/
theorem growSlots_ok (hm : ∀ j, i64Min < c j + slotWeight bounded j)
    (hmax : ∀ j, c j + slotWeight bounded j ≤ i64Max) (k : ℕ) (hk : k ≤ bounded.length) :
    ∃ best : ℕ × ℤ,
      ((bounded.take k).zipIdx).foldlM growSlot (ofFn c, 0, i64Min) = .ok
        (ofFn fun j => if j.1 < k then c j + slotWeight bounded j else c j, best) ∧
      (∀ j : Fin bounded.length, j.1 < k → c j + slotWeight bounded j ≤ best.2) ∧
      (0 < k → ∃ i : Fin bounded.length, best = (i.1, c i + slotWeight bounded i)) ∧
      (k = 0 → best.2 = i64Min) := by
  induction k with
  | zero => exact ⟨(0, i64Min), by simp; rfl, nofun, nofun, fun _ => rfl⟩
  | succ k ih =>
    obtain ⟨best, hf, hb, hc, hn⟩ := ih (Nat.le_of_succ_le hk)
    have hgr := @growSlot_ok bounded
      (fun j => if j.1 < k then c j + slotWeight bounded j else c j) ⟨k, hk⟩ best
    simp only [lt_irrefl, if_false] at hgr
    have hnx : (ofFn fun l : Fin bounded.length => if l = ⟨k, hk⟩ then
        c ⟨k, hk⟩ + slotWeight bounded ⟨k, hk⟩
          else if l.1 < k then c l + slotWeight bounded l else c l) =
        ofFn fun j => if j.1 < k + 1 then c j + slotWeight bounded j else c j := by
      congr 1
      funext l
      by_cases hl : l = ⟨k, hk⟩
      · subst hl
        rw [if_pos rfl, if_pos (Nat.lt_succ_self k)]
      · have hne : l.1 ≠ k := fun h => hl (Fin.ext h)
        rw [if_neg hl]
        by_cases hlt : l.1 < k
        · rw [if_pos hlt, if_pos (Nat.lt_succ_of_lt hlt)]
        · rw [if_neg hlt, if_neg (by omega)]
    have hs : ((bounded.take (k + 1)).zipIdx).foldlM growSlot (ofFn c, 0, i64Min) =
        growSlot (ofFn fun j => if j.1 < k then c j + slotWeight bounded j else c j, best)
          (bounded[k], k) := by
      rw [take_succ_eq_append_getElem hk, zipIdx_append, foldlM_append, hf]
      simp [length_take, Nat.min_eq_left (Nat.le_of_succ_le hk)]
    rw [hnx] at hgr
    refine ⟨_, hs.trans (hgr (hm _).le (hmax _)), fun j hj => ?_, fun _ => ?_, nofun⟩
    · split_ifs with hlt
      · rcases Nat.lt_succ_iff_lt_or_eq.1 hj with hj | hj
        · exact (hb j hj).trans hlt.le
        · exact (congrArg (fun j => c j + slotWeight bounded j) (Fin.ext hj : j = ⟨k, hk⟩)).le
      · rcases Nat.lt_succ_iff_lt_or_eq.1 hj with hj | hj
        · exact hb j hj
        · rw [(Fin.ext hj : j = ⟨k, hk⟩)]
          exact not_lt.1 hlt
    · split_ifs with hlt
      · exact ⟨⟨k, hk⟩, rfl⟩
      · rcases k.eq_zero_or_pos with rfl | hpos
        · rw [hn rfl] at hlt
          exact absurd (hm ⟨0, hk⟩) hlt
        · exact hc hpos

theorem smoothStep_ok (hne : 0 < bounded.length) (hn : 0 ≤ ∑ k, slotWeight bounded k)
    (h : Roomy bounded c) :
    ∃ i : Fin bounded.length, smoothStep bounded (∑ k, slotWeight bounded k) (ofFn c) =
        .ok (ofFn fun j => c j + slotWeight bounded j -
          if j = i then ∑ k, slotWeight bounded k else 0, bounded[i].1) ∧
      ∀ j, c j + slotWeight bounded j ≤ c i + slotWeight bounded i := by
  have hm : ∀ j, i64Min < c j + slotWeight bounded j := fun j => by linarith [h.lower j]
  obtain ⟨best, hf, hb, hc, -⟩ := growSlots_ok hm h.upper bounded.length le_rfl
  obtain ⟨i, rfl⟩ := hc hne
  refine ⟨i, ?_, fun j => hb j j.2⟩
  have hgr : (fun j : Fin bounded.length => if j.1 < bounded.length then
      c j + slotWeight bounded j else c j) = fun j => c j + slotWeight bounded j := by
    funext j
    rw [if_pos j.2]
  rw [take_length, hgr] at hf
  rw [smoothStep, hf]
  show (index (ofFn _) i >>= fun best => index bounded i >>= fun target => _) = _
  rw [index_ofFn]
  show (index bounded i >>= fun target => _) = _
  rw [index_lt i.2]
  show Except.ok ((ofFn _).set i (satI64 _), bounded[i].1) = _
  rw [set_ofFn, satI64_eq (h.lower i).le (by linarith [h.upper i])]
  congr 3
  funext j
  split_ifs with hj
  · rw [hj]
  · rw [sub_zero]

/-- The slots are positive and the work is within bounds. -/
structure Buildable (bounded : List (ℕ × ℤ)) : Prop where
  ne_nil : bounded ≠ []
  pos : ∀ e ∈ bounded, 1 ≤ e.2
  work : (bounded.map Prod.snd).sum.toNat * bounded.length ≤ wrrSmoothBuildMaxWork

theorem slotWeight_pos (h : Buildable bounded) (j : Fin bounded.length) :
    0 < slotWeight bounded j := h.pos _ (getElem_mem j.2)

theorem Buildable.roomy (h : Buildable bounded) (hr : Rounds (slotWeight bounded) choices c) :
    Roomy bounded c := by
  have hln : (1 : ℤ) ≤ bounded.length := by exact_mod_cast length_pos_of_ne_nil h.ne_nil
  have hs : 0 ≤ ∑ k, slotWeight bounded k :=
    Finset.sum_nonneg fun k _ => (slotWeight_pos h k).le
  have hw : (bounded.length : ℤ) * ∑ k, slotWeight bounded k ≤ 8192 * 128 := by
    have := h.work
    rw [← sum_slotWeight] at this
    zify at this
    rw [Int.toNat_of_nonneg hs, mul_comm] at this
    exact this
  have ha : ∀ j, |c j| < 8192 * 128 := by
    intro j
    have := hr.abs_balance_lt (slotWeight_pos h) j
    rw [Fintype.card_fin] at this
    exact this.trans_le hw
  have ht : ∑ k, slotWeight bounded k ≤ 8192 * 128 :=
    (le_mul_of_one_le_left hs hln).trans hw
  have hwg : ∀ j, slotWeight bounded j ≤ ∑ k, slotWeight bounded k := fun j =>
    Finset.single_le_sum (fun k _ => (slotWeight_pos h k).le) (Finset.mem_univ j)
  refine ⟨fun j => ?_, fun j => ?_⟩
  · have := (abs_lt.1 (ha j)).1
    have := slotWeight_pos h j
    rw [i64Min]
    linarith
  · have := (abs_lt.1 (ha j)).2
    have := hwg j
    rw [i64Max]
    linarith

/-- The loop goes on from the rounds so far. -/
theorem smoothOrder_ok (h : Buildable bounded) (steps : ℕ)
    (hr : Rounds (slotWeight bounded) choices c) :
    ∃ more : List (Fin bounded.length),
      smoothOrder bounded (∑ k, slotWeight bounded k) steps (ofFn c) =
        .ok (more.map fun i => bounded[i].1) ∧ more.length = steps ∧
      ∃ c', Rounds (slotWeight bounded) (choices ++ more) c' := by
  induction steps generalizing choices c with
  | zero => exact ⟨[], rfl, rfl, c, (append_nil choices).symm ▸ hr⟩
  | succ steps ih =>
    obtain ⟨i, hs, hmax⟩ := smoothStep_ok (length_pos_of_ne_nil h.ne_nil)
      (Finset.sum_nonneg fun k _ => (slotWeight_pos h k).le) (h.roomy hr)
    obtain ⟨more, hm, hln, c', hc'⟩ := ih (hr.snoc hmax)
    refine ⟨i :: more, ?_, by rw [length_cons, hln], c', ?_⟩
    · rw [smoothOrder, hs]
      show (smoothOrder _ _ _ _ >>= fun order => _) = _
      rw [hm]
      rfl
    · rwa [append_assoc] at hc'

theorem smoothOrder_period (h : Buildable bounded) :
    ∃ choices : List (Fin bounded.length),
      smoothOrder bounded (bounded.map Prod.snd).sum (bounded.map Prod.snd).sum.toNat
        (replicate bounded.length 0) = .ok (choices.map fun i => bounded[i].1) ∧
      (choices.length : ℤ) = ∑ k, slotWeight bounded k ∧
      ∃ c, Rounds (slotWeight bounded) choices c := by
  obtain ⟨choices, ho, hln, c, hc⟩ :=
    smoothOrder_ok h (bounded.map Prod.snd).sum.toNat .nil
  refine ⟨choices, ?_, ?_, c, hc⟩
  · rw [sum_slotWeight, ofFn_const] at ho
    exact ho
  · rw [hln, ← sum_slotWeight, Int.toNat_of_nonneg]
    exact Finset.sum_nonneg fun k _ => (slotWeight_pos h k).le

end

/-! ## What is built -/

section
variable {weighted : List (ℕ × UInt32)}

def positiveTargets (weighted : List (ℕ × UInt32)) : List ℕ :=
  (weighted.filter fun e => 0 < e.2).map Prod.fst

theorem mem_positiveTargets {i : ℕ} :
    i ∈ positiveTargets weighted ↔ ∃ w, (i, w) ∈ weighted ∧ 0 < w := by
  simp [positiveTargets]

theorem normalizeWeights_fst (gcd : ℕ) :
    (normalizeWeights weighted gcd).map Prod.fst = positiveTargets weighted := by
  rw [normalizeWeights, map_map]
  rfl

/-- What `buildSmoothWrrOrder` can return. -/
theorem buildSmoothWrrOrder_cases (weighted : List (ℕ × UInt32)) :
    (buildSmoothWrrOrder weighted = .ok .zeroWeight ∧ ∀ e ∈ weighted, e.2 = 0) ∨
      ∃ bounded, boundWrrWeights (normalizeWeights weighted (weightsGcd weighted))
          ((normalizeWeights weighted (weightsGcd weighted)).map Prod.snd).sum = .ok bounded ∧
        SlotsOk (positiveTargets weighted) bounded ∧ positiveTargets weighted ≠ [] ∧
        (buildSmoothWrrOrder weighted = .ok .lotteryOnly ∨
          Buildable bounded ∧ ∃ choices : List (Fin bounded.length),
            buildSmoothWrrOrder weighted = .ok (.smooth (choices.map fun i => bounded[i].1)) ∧
            (choices.length : ℤ) = ∑ k, slotWeight bounded k ∧
            ∃ c, Rounds (slotWeight bounded) choices c) := by
  by_cases hgc : weightsGcd weighted = 0
  · refine .inl ⟨?_, fun e he => weightsGcd_eq_zero hgc he⟩
    rw [buildSmoothWrrOrder, if_pos hgc]
    rfl
  · obtain ⟨bounded, hbn, hs⟩ := boundWrrWeights_ok
      ((normalizeWeights weighted (weightsGcd weighted)).map Prod.snd).sum
      fun e he => one_le_normalizeWeights hgc he
    rw [normalizeWeights_fst] at hs
    have hp : positiveTargets weighted ≠ [] := by
      intro hn
      refine hgc ?_
      have hz : ∀ e ∈ weighted, e.2.toNat = 0 := by
        intro e he
        by_contra hne
        have hpos : 0 < e.2 := UInt32.lt_iff_toNat_lt.2 (pos_of_ne_zero hne)
        exact ne_nil_of_mem (mem_positiveTargets.2 ⟨e.2, he, hpos⟩) hn
      rw [weightsGcd_eq]
      refine foldlRecOn (motive := fun g : ℕ => g = 0) _ _ rfl fun g hg w hw => ?_
      obtain ⟨e, he, rfl⟩ := mem_map.1 hw
      rw [hg, hz e he, Nat.gcd_zero_left]
    have hne : bounded ≠ [] := by
      rintro rfl
      exact hp hs.targets.symm
    have hsm : ¬ (bounded.map Prod.snd).sum ≤ 0 := by
      rw [← sum_slotWeight, not_le]
      refine Finset.sum_pos (fun k _ => ?_)
        ⟨⟨0, length_pos_of_ne_nil hne⟩, Finset.mem_univ _⟩
      exact hs.pos _ (getElem_mem k.2)
    refine .inr ⟨bounded, hbn, hs, hp, ?_⟩
    have hb : buildSmoothWrrOrder weighted =
        if wrrSmoothBuildMaxWork < (bounded.map Prod.snd).sum.toNat * bounded.length then
          .ok .lotteryOnly
        else (smoothOrder bounded (bounded.map Prod.snd).sum (bounded.map Prod.snd).sum.toNat
          (replicate bounded.length 0)).map .smooth := by
      rw [buildSmoothWrrOrder, if_neg hgc]
      show (boundWrrWeights _ _ >>= fun bounded => _) = _
      rw [hbn]
      show (if (bounded.map Prod.snd).sum ≤ 0 then _ else _) = _
      rw [if_neg hsm]
      rfl
    by_cases hwr : wrrSmoothBuildMaxWork < (bounded.map Prod.snd).sum.toNat * bounded.length
    · rw [if_pos hwr] at hb
      exact .inl hb
    · have hbl : Buildable bounded := ⟨hne, hs.pos, not_lt.1 hwr⟩
      obtain ⟨choices, ho, hln, hr⟩ := smoothOrder_period hbl
      rw [if_neg hwr, ho] at hb
      exact .inr ⟨hbl, choices, hb, hln, hr⟩

theorem positiveTargets_nodup (h : (weighted.map Prod.fst).Nodup) :
    (positiveTargets weighted).Nodup :=
  (filter_sublist.map Prod.fst).nodup h

theorem slot_injective {bounded : List (ℕ × ℤ)} (h : (bounded.map Prod.fst).Nodup) :
    Function.Injective fun i : Fin bounded.length => bounded[i].1 := by
  intro i j hij
  have hi : i.1 < (bounded.map Prod.fst).length := by simp
  have hj : j.1 < (bounded.map Prod.fst).length := by simp
  exact Fin.ext ((@List.Nodup.getElem_inj_iff _ _ h i hi j hj).1 (by simpa using hij))

theorem take_share_lt {bounded : List (ℕ × ℤ)} (h : Buildable bounded)
    {choices : List (Fin bounded.length)} {c : Fin bounded.length → ℤ}
    (hr : Rounds (slotWeight bounded) choices c) {k : ℕ} (hk : k ≤ choices.length)
    (j : Fin bounded.length) :
    |((choices.take k).count j : ℚ) -
      k * slotWeight bounded j / (∑ l, slotWeight bounded l : ℤ)| < bounded.length := by
  obtain ⟨c', hc'⟩ := hr.take k
  have hlt := hc'.abs_balance_lt (slotWeight_pos h) j
  rw [hc'.balance_eq, length_take, min_eq_left hk, Fintype.card_fin] at hlt
  have hs : (0 : ℚ) < (∑ l, slotWeight bounded l : ℤ) := by
    exact_mod_cast Finset.sum_pos (fun l _ => slotWeight_pos h l) ⟨j, Finset.mem_univ j⟩
  have hcs : |((k : ℚ) * slotWeight bounded j -
      (∑ l, slotWeight bounded l : ℤ) * ((choices.take k).count j : ℚ))| <
        bounded.length * (∑ l, slotWeight bounded l : ℤ) := by
    exact_mod_cast hlt
  have hd : ((choices.take k).count j : ℚ) -
      k * slotWeight bounded j / (∑ l, slotWeight bounded l : ℤ) =
        -((k : ℚ) * slotWeight bounded j -
          (∑ l, slotWeight bounded l : ℤ) * ((choices.take k).count j : ℚ)) /
            (∑ l, slotWeight bounded l : ℤ) := by
    field_simp
    ring
  rw [hd, abs_div, abs_neg, abs_of_pos hs, div_lt_iff₀ hs]
  exact hcs

/-- **A smooth schedule**: in a period everyone of positive weight has its slots, and in any prefix
    it is off its share of them by less than the number of targets. -/
theorem smooth_order_shares (hids : (weighted.map Prod.fst).Nodup) {order : List ℕ}
    (h : buildSmoothWrrOrder weighted = .ok (.smooth order)) :
    ∃ bounded, boundWrrWeights (normalizeWeights weighted (weightsGcd weighted))
        ((normalizeWeights weighted (weightsGcd weighted)).map Prod.snd).sum = .ok bounded ∧
      bounded.map Prod.fst = positiveTargets weighted ∧
      (∀ e ∈ bounded, 1 ≤ e.2) ∧
      (((normalizeWeights weighted (weightsGcd weighted)).map Prod.snd).sum ≤ wrrMaxScheduleLen →
        ∀ e ∈ bounded, ∃ w, (e.1, w) ∈ weighted ∧
          e.2 = (w.toNat / (weighted.map fun e => e.2.toNat).foldl Nat.gcd 0 : ℕ)) ∧
      (∀ i ∈ order, i ∈ positiveTargets weighted) ∧
      (order.length : ℤ) = (bounded.map Prod.snd).sum ∧
      (∀ e ∈ bounded, (order.count e.1 : ℤ) = e.2) ∧
      ∀ k ≤ order.length, ∀ e ∈ bounded,
        |((order.take k).count e.1 : ℚ) - k * e.2 / (bounded.map Prod.snd).sum| <
          (positiveTargets weighted).length := by
  rcases buildSmoothWrrOrder_cases weighted with
    ⟨hz, -⟩ | ⟨bounded, hb, hs, -, hlr | ⟨hbl, choices, hsm, hln, c, hc⟩⟩
  · rw [h] at hz
    cases hz
  · rw [h] at hlr
    cases hlr
  · rw [h] at hsm
    cases hsm
    have hin := slot_injective (hs.targets ▸ positiveTargets_nodup hids)
    have hsl : ∀ e ∈ bounded, ∃ j : Fin bounded.length, e = bounded[j] := by
      intro e he
      obtain ⟨j, hj, rfl⟩ := getElem_of_mem he
      exact ⟨⟨j, hj⟩, rfl⟩
    refine ⟨bounded, hb, hs.targets, hs.pos, fun hf e he => ?_, fun i hi => ?_, ?_,
      fun e he => ?_, fun k hk e he => ?_⟩
    · rw [boundWrrWeights_fits hf] at hb
      cases hb
      obtain ⟨e', he', rfl⟩ := mem_map.1 he
      obtain ⟨w, hw, -, heq⟩ := mem_normalizeWeights he'
      rw [← weightsGcd_eq]
      exact ⟨w, hw, congrArg Nat.cast heq⟩
    · obtain ⟨j, -, rfl⟩ := mem_map.1 hi
      rw [← hs.targets]
      exact mem_map_of_mem (getElem_mem j.2)
    · rw [length_map, hln, sum_slotWeight]
    · obtain ⟨j, rfl⟩ := hsl e he
      rw [count_map_of_injective _ _ hin]
      exact hc.count_eq (slotWeight_pos hbl) j hln
    · obtain ⟨j, rfl⟩ := hsl e he
      rw [← map_take, count_map_of_injective _ _ hin, ← sum_slotWeight, ← hs.targets, length_map]
      rw [length_map] at hk
      exact take_share_lt hbl hc hk j

theorem smooth_order_shares_five_one_one :
    buildSmoothWrrOrder [(0, 5), (1, 1), (2, 0), (3, 1)] = .ok (.smooth [0, 0, 1, 0, 3, 0, 0]) ∧
      ∃ bounded : List (ℕ × ℤ), bounded.map Prod.fst = [0, 1, 3] ∧
        ∀ e ∈ bounded, (([0, 0, 1, 0, 3, 0, 0] : List ℕ).count e.1 : ℤ) = e.2 := by
  have hb : buildSmoothWrrOrder [(0, 5), (1, 1), (2, 0), (3, 1)] =
      .ok (.smooth [0, 0, 1, 0, 3, 0, 0]) := by decide +kernel
  obtain ⟨bounded, -, ht, -, -, -, -, hc, -⟩ :=
    smooth_order_shares (by decide) hb
  exact ⟨hb, bounded, ht, hc⟩

end

end Ferrum.Balancer
