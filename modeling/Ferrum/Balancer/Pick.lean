/-
  The algorithms that look for the least: connections, and latency.

  Least latency warms its targets up first.  Both have a copy on bitsets and one on vectors.

  * `Selector.chooseLeastLatency`: what the copies choose, by indices.
  * `selectLeastConnectionsBitset_eq`, `selectLeastLatencyVec_eq` and the like: they do.
-/
import Ferrum.Balancer.Prefer
import Ferrum.Balancer.Ring

namespace Ferrum.Balancer

open Lib List Selector

def Counters.tick (counters : Counters) (shard : Fin counterShards) : Counters :=
  Function.update counters shard (counters shard + 1)

/-! ## The least of some items -/

section
variable {ι γ : Type} [LT γ] [DecidableLT γ]

/-- `if !found || cost < best`; items without a cost are skipped. -/
def leastFound (cost : ι → Except Panic (Option γ)) (items : List ι) :
    Except Panic (Option (γ × ι)) :=
  items.foldlM (fun best item => do
    match ← cost item with
    | none => return best
    | some c =>
      match best with
      | none => return some (c, item)
      | some b => if c < b.1 then return some (c, item) else return some b) none

/-- `if cost < best`, from a first item. -/
def leastFrom (cost : ι → Except Panic γ) (items : List ι) (first : γ × ι) : Except Panic (γ × ι) :=
  items.foldlM (fun best item => do
    let c ← cost item
    if c < best.1 then return (c, item) else return best) first

end

def latencyWarmupThreshold : ℕ := 5

def latencyUnset : ℕ := 2 ^ 64 - 1

def latencyWarmupExplorePermille : ℕ := 100

/-- The best item, unless its latency is not known. -/
def known {ι : Type} (best : Option (ℕ × ι)) : Option ι :=
  best.bind fun b => if b.1 = latencyUnset then none else some b.2

def unwarmedExploreSlot (ticket : UInt64) (unwarmedCount : ℕ) : Option ℕ :=
  if unwarmedCount = 0 then none
  else
    let scrambled := (goldenRatioHash ticket).toNat
    if latencyWarmupExplorePermille ≤ scrambled % 1000 then none
    else some (scrambled / 1000 % unwarmedCount)

namespace Selector
variable (self : Selector)

def connections (idx : ℕ) : Except Panic ℤ := do
  let key ← index self.hostPortKeys idx
  return ((self.activeConnections.get key).map Subtype.val).getD 0

def samples (idx : ℕ) : Except Panic ℕ := do
  let key ← index self.hostPortKeys idx
  return ((self.latencySampleCount.get key).map UInt64.toNat).getD 0

def latency (idx : ℕ) : Except Panic ℕ := do
  let key ← index self.hostPortKeys idx
  return ((self.latencyEwma.get key).map UInt64.toNat).getD latencyUnset

/-- `for i in 0..n`, those in the bitset. -/
def visited (healthy : HealthBitset) : List ℕ :=
  (List.range self.targets.length).filter healthy.contains

/-! ## Least connections -/

def selectLeastConnectionsBitset (healthy : HealthBitset) : Except Panic Chosen := do
  match ← leastFound (fun i => do return some (← self.connections i)) (self.visited healthy) with
  | some best => return some (← self.target best.2)
  | none => return none

def selectLeastConnectionsVec (candidates : Candidates) : Except Panic Chosen :=
  if candidates = [] then .ok none
  else do
    let first ← index candidates 0
    let best ← leastFrom (fun c => self.connections c.1) candidates (i64Max, first)
    return some best.2

/-! ## Least latency -/

section
variable {ι : Type} (idx : ι → ℕ)

/-- How many items are warmed up and how many are not, and whether one has any samples. -/
def warmup (items : List ι) : Except Panic (ℕ × ℕ × Bool) :=
  items.foldlM (fun acc item => do
    let samples ← self.samples (idx item)
    let hasData := acc.2.2 || 0 < samples
    if latencyWarmupThreshold ≤ samples then return (acc.1 + 1, acc.2.1, hasData)
    else return (acc.1, acc.2.1 + 1, hasData)) (0, 0, false)

def nthUnwarmed : List ι → ℕ → Except Panic (Option ι)
  | [], _ => .ok none
  | item :: items, skip => do
    if latencyWarmupThreshold ≤ (← self.samples (idx item)) then nthUnwarmed items skip
    else
      match skip with
      | 0 => return some item
      | skip + 1 => nthUnwarmed items skip

def leastWarmed (items : List ι) : Except Panic (Option (ℕ × ι)) :=
  leastFound (fun item => do
    if (← self.samples (idx item)) < latencyWarmupThreshold then return none
    else return some (← self.latency (idx item))) items

/-- An item that is not warmed up, now and then. -/
def explore (items : List ι) (ticket : UInt64) (unwarmedCount : ℕ) : Except Panic (Option ι) :=
  match unwarmedExploreSlot ticket unwarmedCount with
  | some skip => self.nthUnwarmed idx items skip
  | none => .ok none

/-- Round-robin until something is warmed up.  Then mostly the least latency, and now and then a
    target that is not warmed up. -/
def leastLatency (get : ι → Except Panic Chosen) (nth : ℕ → Except Panic Chosen)
    (steady : Except Panic (Option (ℕ × ι))) (items : List ι) (counters : Counters) :
    Except Panic (Chosen × Counters) := do
  let (warmedCount, unwarmedCount, anyHasData) ← self.warmup idx items
  let ticket := counters self.shard
  let ticked := counters.tick self.shard
  if warmedCount = 0 ∨ !anyHasData then return (← nth ticket.toNat, ticked)
  else if unwarmedCount ≠ 0 then
    match ← self.explore idx items ticket unwarmedCount with
    | some item => return (← get item, ticked)
    | none =>
      match known (← self.leastWarmed idx items) with
      | some item => return (← get item, ticked)
      | none => return (← nth ticket.toNat, ticked)
  else
    match known (← steady) with
    | some item => return (← get item, counters)
    | none => return (← nth ticket.toNat, ticked)

end

def selectLeastLatencyBitset (healthy : HealthBitset) (rrCounter : Counters) :
    Except Panic (Chosen × Counters) :=
  if healthy.count = 0 then .ok (none, rrCounter)
  else
    self.leastLatency id (fun i => do return some (← self.target i))
      (fun ticket => do return some (← self.target (← healthy.nthSetBit ticket)))
      (leastFound (fun i => do return some (← self.latency i)) (self.visited healthy))
      (self.visited healthy) rrCounter

def selectLeastLatencyVec (candidates : Candidates) (rrCounter : Counters) :
    Except Panic (Chosen × Counters) :=
  if candidates = [] then .ok (none, rrCounter)
  else
    self.leastLatency Prod.fst (fun c => .ok (some c))
      (fun ticket => do return some (← index candidates (ticket % candidates.length)))
      (do
        let first ← index candidates 0
        return some (← leastFrom (fun c => self.latency c.1) candidates (latencyUnset, first)))
      candidates rrCounter

end Selector

namespace Selector
variable (self : Selector)

/-! ## On indices -/

def connectionsOf (i : ℕ) : ℤ :=
  ((self.hostPortKeys[i]?.bind self.activeConnections.get).map Subtype.val).getD 0

def samplesOf (i : ℕ) : ℕ :=
  ((self.hostPortKeys[i]?.bind self.latencySampleCount.get).map UInt64.toNat).getD 0

def latencyOf (i : ℕ) : ℕ :=
  ((self.hostPortKeys[i]?.bind self.latencyEwma.get).map UInt64.toNat).getD latencyUnset

def isWarmed (i : ℕ) : Bool := latencyWarmupThreshold ≤ self.samplesOf i

/-- The least latency among `among`, if one is known. -/
def leastKnown (among : List ℕ) : Option ℕ :=
  (among.argmin self.latencyOf).filter fun i => self.latencyOf i ≠ latencyUnset

def chooseLeastLatency (is : List ℕ) (counters : Counters) : Option ℕ × Counters :=
  let ticket := counters self.shard
  let ticked := counters.tick self.shard
  let next := is[ticket.toNat % is.length]?
  let warmed := is.filter self.isWarmed
  let unwarmed := is.filter fun i => !self.isWarmed i
  if warmed.length = 0 ∨ !is.any fun i => 0 < self.samplesOf i then (next, ticked)
  else if unwarmed.length ≠ 0 then
    match (unwarmedExploreSlot ticket unwarmed.length).bind (unwarmed[·]?) with
    | some i => (some i, ticked)
    | none => ((self.leastKnown warmed).or next, ticked)
  else
    match self.leastKnown is with
    | some i => (some i, counters)
    | none => (next, ticked)

end Selector

/-! ## The least -/

section
variable {ι γ : Type} [LinearOrder γ] {items : List ι}

theorem leastFound_eq {cost : ι → Except Panic (Option γ)} {keep : ι → Bool} {g : ι → γ}
    (h : ∀ item ∈ items, cost item = .ok (if keep item then some (g item) else none)) :
    leastFound cost items =
      .ok (((items.filter keep).argmin g).map fun item => (g item, item)) := by
  induction items using reverseRecOn with
  | nil => rfl
  | append_singleton items item ih =>
    have hls := h item (by simp)
    have hi := ih fun item him => h item (mem_append_left _ him)
    rw [leastFound] at hi
    rw [leastFound, foldlM_append, hi, filter_append, ok_bind, foldlM_cons, hls]
    cases hk : keep item with
    | false =>
      simp only [Bool.false_eq_true, if_false, filter_cons_of_neg, hk, not_false_eq_true,
        filter_nil, append_nil]
      rfl
    | true =>
      simp only [if_true, filter_cons_of_pos, hk, filter_nil, argmin_concat]
      cases (items.filter keep).argmin g with
      | none => rfl
      | some best =>
        show (if g item < g best then _ else _ : Except Panic _) >>= _ = _
        by_cases hlt : g item < g best
        · simp only [hlt, if_true]
          rfl
        · simp only [hlt, if_false]
          rfl

theorem leastFrom_eq {cost : ι → Except Panic γ} {g : ι → γ} {top : γ} {first : ι}
    (h : ∀ item ∈ first :: items, cost item = .ok (g item)) (ht : g first ≤ top) :
    ∃ best, (first :: items).argmin g = some best ∧
      leastFrom cost (first :: items) (top, first) = .ok (g best, best) := by
  induction items using reverseRecOn with
  | nil =>
    refine ⟨first, rfl, ?_⟩
    rw [leastFrom, foldlM_cons, h first mem_cons_self]
    show (if g first < top then _ else _ : Except Panic _) >>= _ = _
    rcases ht.lt_or_eq with hlt | heq
    · rw [if_pos hlt]
      rfl
    · rw [if_neg heq.not_lt, ← heq]
      rfl
  | append_singleton items item ih =>
    have hls := h item (by simp)
    obtain ⟨best, hb, hf⟩ := ih fun e he => h e (by
      rw [← cons_append]
      exact mem_append_left _ he)
    rw [leastFrom] at hf
    rw [← cons_append, argmin_concat, hb, leastFrom, foldlM_append, hf]
    refine ⟨if g item < g best then item else best, ?_, ?_⟩
    · show (if g item < g best then some item else some best) = _
      split_ifs <;> rfl
    · rw [ok_bind, foldlM_cons, hls]
      show (if g item < g best then _ else _ : Except Panic _) >>= _ = _
      by_cases hlt : g item < g best
      · simp only [hlt, if_true]
        rfl
      · simp only [hlt, if_false]
        rfl

end

/-- The order of the integers, so that the least connections can be computed. -/
@[reducible]
def Selector.intPreorder : Preorder ℤ := Int.instLinearOrder.toPartialOrder.toPreorder

attribute [local instance] Selector.intPreorder

section
variable {self : Selector} {is : List ℕ} {i : ℕ}

section
variable (hs : self.Sized) (hi : i < self.targets.length)
include hs hi

theorem connections_ok : self.connections i = .ok (self.connectionsOf i) := by
  rw [← hs.hostPortKeys] at hi
  rw [connections, connectionsOf, index_lt hi, getElem?_eq_getElem hi]
  rfl

theorem samples_ok : self.samples i = .ok (self.samplesOf i) := by
  rw [← hs.hostPortKeys] at hi
  rw [samples, samplesOf, index_lt hi, getElem?_eq_getElem hi]
  rfl

theorem latency_ok : self.latency i = .ok (self.latencyOf i) := by
  rw [← hs.hostPortKeys] at hi
  rw [latency, latencyOf, index_lt hi, getElem?_eq_getElem hi]
  rfl

end

theorem connectionsOf_le (i : ℕ) : self.connectionsOf i ≤ i64Max := by
  rw [connectionsOf]
  cases self.hostPortKeys[i]?.bind self.activeConnections.get with
  | none => decide
  | some x => exact x.2.2

theorem latencyOf_le (i : ℕ) : self.latencyOf i ≤ latencyUnset := by
  rw [latencyOf]
  cases self.hostPortKeys[i]?.bind self.latencyEwma.get with
  | none => exact le_rfl
  | some x => exact Nat.le_sub_one_of_lt x.toNat_lt

/-- The candidates at the indices that are least. -/
theorem argmin_attach {γ : Type} [LinearOrder γ] (hlt : ∀ i ∈ is, i < self.targets.length)
    (g : ℕ → γ) : (self.attach is).argmin (fun c => g c.1) = self.handle (is.argmin g) := by
  have hm := argmin_map Prod.fst g (self.attach is)
  rw [attach_fst hlt] at hm
  rw [hm]
  cases hls : (self.attach is).argmin fun c => g c.1 with
  | none => rfl
  | some c => exact (mem_attach (argmin_mem hls)).2.symm

theorem selectLeastConnectionsVec_eq (hs : self.Sized) (hlt : ∀ i ∈ is, i < self.targets.length)
    (hne : is ≠ []) :
    self.selectLeastConnectionsVec (self.attach is) =
      .ok (self.handle (is.argmin self.connectionsOf)) := by
  obtain ⟨i, is, rfl⟩ := exists_cons_of_ne_nil hne
  have hi := hlt i mem_cons_self
  have hcs : ∀ c ∈ self.attach (i :: is), self.connections c.1 = .ok (self.connectionsOf c.1) :=
    fun c hc => connections_ok hs (hlt _ (mem_attach hc).1)
  rw [← argmin_attach hlt]
  rw [attach_cons hi] at hcs ⊢
  obtain ⟨best, hb, hf⟩ := leastFrom_eq hcs (connectionsOf_le _)
  rw [selectLeastConnectionsVec, if_neg (cons_ne_nil _ _),
    index_ok (show (_ :: _ : Candidates)[0]? = some _ from rfl), ok_bind, hf, hb]
  rfl

variable {b : HealthBitset}

theorem visited_eq (hn : self.targets.length ≤ maxBitsetTargets) (hb : BitsetRep self b is) :
    self.visited b = is := (bitsetOps_models hn).members hb

theorem selectLeastConnectionsBitset_eq (hs : self.Sized)
    (hn : self.targets.length ≤ maxBitsetTargets) (hb : BitsetRep self b is) (hne : is ≠ []) :
    self.selectLeastConnectionsBitset b = .ok (self.handle (is.argmin self.connectionsOf)) := by
  have hc : ∀ i ∈ is, (do return some (← self.connections i) : Except Panic (Option ℤ)) =
      .ok (if (fun _ => true) i then some (self.connectionsOf i) else none) := by
    intro i hi
    rw [connections_ok hs (hb.2 i hi)]
    rfl
  rw [selectLeastConnectionsBitset, visited_eq hn hb, leastFound_eq hc, filter_true, ok_bind]
  cases hls : is.argmin self.connectionsOf with
  | none => exact absurd (argmin_eq_none.1 hls) hne
  | some i => exact target_ok (hb.2 i (argmin_mem hls))

/-! ## Least latency -/

section
variable {ι : Type} {idx : ι → ℕ} {items : List ι}

section
variable (hs : self.Sized) (hlt : ∀ item ∈ items, idx item < self.targets.length)
include hs hlt

theorem warmup_eq :
    self.warmup idx items =
      .ok (((items.map idx).filter self.isWarmed).length,
        ((items.map idx).filter fun i => !self.isWarmed i).length,
        (items.map idx).any fun i => 0 < self.samplesOf i) := by
  induction items using reverseRecOn with
  | nil => rfl
  | append_singleton items item ih =>
    have hi := ih fun e he => hlt e (mem_append_left _ he)
    rw [warmup] at hi
    rw [warmup, foldlM_append, hi, ok_bind, foldlM_cons, samples_ok hs (hlt item (by simp)),
      ok_bind, map_append, filter_append, filter_append, any_append]
    cases hw : self.isWarmed (idx item) with
    | true =>
      have hle : latencyWarmupThreshold ≤ self.samplesOf (idx item) := of_decide_eq_true hw
      simp [hw, hle]
      rfl
    | false =>
      have hle : ¬ latencyWarmupThreshold ≤ self.samplesOf (idx item) := of_decide_eq_false hw
      simp [hw, hle]
      rfl

theorem nthUnwarmed_eq (skip : ℕ) :
    self.nthUnwarmed idx items skip =
      .ok (items.filter fun item => !self.isWarmed (idx item))[skip]? := by
  induction items generalizing skip with
  | nil => rfl
  | cons item items ih =>
    have ht := ih fun e he => hlt e (mem_cons_of_mem _ he)
    rw [nthUnwarmed.eq_def]
    simp only [samples_ok hs (hlt item mem_cons_self), ok_bind]
    cases hw : self.isWarmed (idx item) with
    | true =>
      rw [if_pos (of_decide_eq_true hw), filter_cons_of_neg (by simp [hw])]
      exact ht skip
    | false =>
      rw [if_neg (of_decide_eq_false hw), filter_cons_of_pos (by simp [hw])]
      cases skip with
      | zero => rfl
      | succ skip => exact ht skip

theorem leastWarmed_eq :
    self.leastWarmed idx items =
      .ok (((items.filter fun item => self.isWarmed (idx item)).argmin
        fun item => self.latencyOf (idx item)).map fun item => (self.latencyOf (idx item), item)) := by
  refine leastFound_eq fun item hi => ?_
  rw [samples_ok hs (hlt item hi), ok_bind, latency_ok hs (hlt item hi)]
  cases hw : self.isWarmed (idx item) with
  | true => rw [if_neg (not_lt.2 (of_decide_eq_true hw))]; rfl
  | false => rw [if_pos (not_le.1 (of_decide_eq_false hw))]; rfl

theorem explore_eq (ticket : UInt64) (count : ℕ) :
    self.explore idx items ticket count = .ok ((unwarmedExploreSlot ticket count).bind
      ((items.filter fun item => !self.isWarmed (idx item))[·]?)) := by
  rw [explore]
  cases unwarmedExploreSlot ticket count with
  | none => rfl
  | some skip => exact nthUnwarmed_eq hs hlt skip

end

/-- The least latency of items, where one is known. -/
theorem known_argmin (among : List ι) :
    (known ((among.argmin fun item => self.latencyOf (idx item)).map fun item =>
      (self.latencyOf (idx item), item))).map idx = self.leastKnown (among.map idx) := by
  rw [leastKnown, argmin_map]
  cases among.argmin fun item => self.latencyOf (idx item) with
  | none => rfl
  | some item =>
    rw [Option.map_some, Option.map_some, known, Option.bind_some, Option.filter_some]
    by_cases hu : self.latencyOf (idx item) = latencyUnset <;> simp [hu]

theorem mem_of_known {among : List ι} {g : ι → ℕ} {item : ι}
    (h : known ((among.argmin g).map fun item => (g item, item)) = some item) : item ∈ among := by
  cases hls : among.argmin g with
  | none =>
    rw [hls] at h
    cases h
  | some best =>
    rw [hls, Option.map_some, known, Option.bind_some] at h
    split_ifs at h
    cases h
    exact argmin_mem hls

/-- What items stand for the members `is` of a pool. -/
structure Items (s : Selector) (idx : ι → ℕ) (get : ι → Except Panic Chosen)
    (nth : ℕ → Except Panic Chosen) (steady : Except Panic (Option (ℕ × ι))) (items : List ι)
    (is : List ℕ) : Prop where
  indices : items.map idx = is
  lt : ∀ item ∈ items, idx item < s.targets.length
  get : ∀ item ∈ items, get item = .ok (s.handle (some (idx item)))
  nth : ∀ ticket, nth ticket = .ok (s.handle is[ticket % is.length]?)
  steady : steady = .ok ((items.argmin fun item => s.latencyOf (idx item)).map fun item =>
    (s.latencyOf (idx item), item))

theorem leastLatency_eq (hs : self.Sized) {get : ι → Except Panic Chosen}
    {nth : ℕ → Except Panic Chosen} {steady : Except Panic (Option (ℕ × ι))}
    (h : Items self idx get nth steady items is) (counters : Counters) :
    self.leastLatency idx get nth steady items counters =
      self.found (self.chooseLeastLatency is counters) := by
  obtain ⟨rfl, hlt, hget, hn, hst⟩ := h
  have hw : (items.map idx).filter self.isWarmed =
      (items.filter fun item => self.isWarmed (idx item)).map idx := filter_map
  have hu : ((items.map idx).filter fun i => !self.isWarmed i) =
      (items.filter fun item => !self.isWarmed (idx item)).map idx := filter_map
  simp only [leastLatency, warmup_eq hs hlt, ok_bind, chooseLeastLatency, hn]
  split_ifs with hc hm
  · rfl
  · set slot := unwarmedExploreSlot (counters self.shard)
      ((items.map idx).filter fun i => !self.isWarmed i).length
    have he : slot.bind (((items.map idx).filter fun i => !self.isWarmed i)[·]?) =
        (slot.bind ((items.filter fun item => !self.isWarmed (idx item))[·]?)).map idx := by
      cases slot with
      | none => rfl
      | some skip => rw [Option.bind_some, Option.bind_some, hu, getElem?_map]
    rw [explore_eq hs hlt, ok_bind, he]
    cases hi : slot.bind ((items.filter fun item => !self.isWarmed (idx item))[·]?) with
    | some item =>
      obtain ⟨skip, -, hsk⟩ := Option.bind_eq_some_iff.1 hi
      have hmm := (mem_filter.1 (mem_of_getElem? hsk)).1
      simp only [hget item hmm]
      rfl
    | none =>
      have hk := @known_argmin self ι idx (items.filter fun item => self.isWarmed (idx item))
      rw [← hw] at hk
      simp only [leastWarmed_eq hs hlt, ok_bind, Option.map_none, ← hk]
      cases hb : known (((items.filter fun item => self.isWarmed (idx item)).argmin
          fun item => self.latencyOf (idx item)).map fun item =>
            (self.latencyOf (idx item), item)) with
      | some item =>
        simp only [hget item (mem_filter.1 (mem_of_known hb)).1]
        rfl
      | none => rfl
  · have hk := @known_argmin self ι idx items
    simp only [hst, ok_bind, ← hk]
    cases hb : known ((items.argmin fun item => self.latencyOf (idx item)).map fun item =>
        (self.latencyOf (idx item), item)) with
    | some item =>
      simp only [hget item (mem_of_known hb)]
      rfl
    | none => rfl

theorem selectLeastLatencyVec_eq (hs : self.Sized) (hlt : ∀ i ∈ is, i < self.targets.length)
    (hne : is ≠ []) (counters : Counters) :
    self.selectLeastLatencyVec (self.attach is) counters =
      self.found (self.chooseLeastLatency is counters) := by
  have hn : self.attach is ≠ [] := fun hn => hne (List.isEmpty_iff.1 (by
    rw [← attach_isEmpty hlt, hn]; rfl))
  rw [selectLeastLatencyVec, if_neg hn]
  refine leastLatency_eq hs ⟨attach_fst hlt, fun c hc => hlt _ (mem_attach hc).1,
    fun c hc => congrArg Except.ok (mem_attach hc).2.symm, fun ticket => ?_, ?_⟩ counters
  · obtain ⟨i, -, hget⟩ := getElem_mod hne ticket
    rw [length_attach hlt, hget]
    exact index_attach hlt hget
  · obtain ⟨i, is, rfl⟩ := exists_cons_of_ne_nil hne
    have hcs : ∀ c ∈ self.attach (i :: is), self.latency c.1 = .ok (self.latencyOf c.1) :=
      fun c hc => latency_ok hs (hlt _ (mem_attach hc).1)
    rw [attach_cons (hlt i mem_cons_self)] at hcs ⊢
    obtain ⟨best, hb, hf⟩ := leastFrom_eq hcs (latencyOf_le _)
    rw [index_ok (show (_ :: _ : Candidates)[0]? = some _ from rfl), ok_bind, hf, hb]
    rfl

theorem selectLeastLatencyBitset_eq (hs : self.Sized)
    (hn : self.targets.length ≤ maxBitsetTargets) (hb : BitsetRep self b is) (hne : is ≠ [])
    (counters : Counters) :
    self.selectLeastLatencyBitset b counters =
      self.found (self.chooseLeastLatency is counters) := by
  rw [selectLeastLatencyBitset, hb.1.count, if_neg (length_pos_of_ne_nil hne).ne', visited_eq hn hb]
  refine leastLatency_eq hs ⟨map_id is, hb.2, fun i hi => target_ok (hb.2 i hi),
    fun ticket => ?_, ?_⟩ counters
  · obtain ⟨i, hget, hnt⟩ := hb.1.nthSetBit hne ticket
    rw [hnt, ok_bind, hget]
    exact target_ok (hb.2 i (mem_of_getElem? hget))
  · have hc : ∀ i ∈ is, (do return some (← self.latency i) : Except Panic (Option ℕ)) =
        .ok (if (fun _ => true) i then some (self.latencyOf i) else none) := by
      intro i hi
      rw [latency_ok hs (hb.2 i hi)]
      rfl
    rw [leastFound_eq hc, filter_true]
    rfl

end

end

end Ferrum.Balancer
