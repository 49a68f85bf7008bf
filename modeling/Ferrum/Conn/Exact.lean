/-
  Lanes and counters are exact under every interleaving.

  * `Newest`: the strictest lane of the newest configuration; `Newest.acquire`: publications keep
    the lane of an entry so.
  * `Effect`: what a step does to the maps.
  * `exact_step`: one step keeps both maps exact.
  * `admission_exact`: the lane of a key in use is the strictest one of the newest configuration
    published for it, and a counter is the number of the guards of its key.
-/
import Ferrum.Conn.Admission
import Mathlib.Order.Bounds.Basic

namespace Ferrum.Conn

open Lib ReqwestConnectionAdmission ReqwestDialLaneEntry Option Function

/-! ## What is published -/

/-- The newest generation that has been published, and the strictest of its lanes. -/
structure Newest (published : List Publication) (generation : ℕ) (lane : ReqwestLane) : Prop where
  newest : IsGreatest {g | ∃ l, (g, l) ∈ published} generation
  strictest : IsLeast {l | (generation, l) ∈ published} lane

theorem newest_singleton (generation : ℕ) (lane : ReqwestLane) :
    Newest [(generation, lane)] generation lane := by
  constructor
  · refine ⟨⟨lane, by simp⟩, ?_⟩
    rintro g ⟨l, hl⟩
    simp only [List.mem_singleton, Prod.mk.injEq] at hl
    exact hl.1.le
  · refine ⟨by simp, fun l hl => ?_⟩
    simp only [Set.mem_ofPred_eq, List.mem_singleton, Prod.mk.injEq, true_and] at hl
    exact hl.ge

/-- It does not depend on the order of the publications. -/
theorem Newest.unique {published published' : List Publication} {generation generation' : ℕ}
    {lane lane' : ReqwestLane} (h : Newest published generation lane)
    (h' : Newest published' generation' lane') (hp : published.Perm published') :
    lane = lane' := by
  have hm (p : Publication) : p ∈ published ↔ p ∈ published' := hp.mem_iff
  have hn := h.newest
  have hs := h.strictest
  simp only [hm] at hn hs
  obtain rfl := hn.unique h'.newest
  exact hs.unique h'.strictest

section
variable {published : List Publication} {generation generation' : ℕ} {lane lane' : ReqwestLane}

theorem mem_append_one {p : Publication} : p ∈ published ++ [(generation', lane')] ↔
    p ∈ published ∨ p.1 = generation' ∧ p.2 = lane' := by
  rw [List.mem_append, List.mem_singleton, Prod.ext_iff]

section
variable (h : Newest published generation lane)
include h

/-- A newer configuration replaces the lane. -/
theorem Newest.newer (hlt : generation < generation') :
    Newest (published ++ [(generation', lane')]) generation' lane' := by
  have hold {l : ReqwestLane} {g : ℕ} (hl : (g, l) ∈ published) : g < generation' :=
    (h.newest.2 ⟨l, hl⟩).trans_lt hlt
  constructor
  · refine ⟨⟨lane', by simp⟩, ?_⟩
    rintro g ⟨l, hl⟩
    rcases mem_append_one.1 hl with hl | hl
    · exact (hold hl).le
    · exact hl.1.le
  · refine ⟨by simp, fun l hl => ?_⟩
    rcases mem_append_one.1 hl with hl | hl
    · exact absurd (hold hl) (lt_irrefl _)
    · exact hl.2.ge

/-- One that is not newer leaves the generation as it is. -/
theorem Newest.generation_append (hle : generation' ≤ generation) :
    IsGreatest {g | ∃ l, (g, l) ∈ published ++ [(generation', lane')]} generation := by
  obtain ⟨⟨l₀, hl₀⟩, hmax⟩ := h.newest
  refine ⟨⟨l₀, List.mem_append_left _ hl₀⟩, ?_⟩
  rintro g ⟨l, hl⟩
  rcases mem_append_one.1 hl with hl | hl
  · exact hmax ⟨l, hl⟩
  · exact hl.1.trans_le hle

/-- A stricter lane of the same configuration replaces the lane. -/
theorem Newest.stricter (hlt : lane' < lane) :
    Newest (published ++ [(generation, lane')]) generation lane' := by
  refine ⟨h.generation_append le_rfl, by simp, fun l hl => ?_⟩
  rcases mem_append_one.1 hl with hl | hl
  · exact hlt.le.trans (h.strictest.2 hl)
  · exact hl.2.ge

theorem Newest.other (hle : generation' ≤ generation)
    (hln : generation' = generation → lane ≤ lane') :
    Newest (published ++ [(generation', lane')]) generation lane := by
  refine ⟨h.generation_append hle, List.mem_append_left _ h.strictest.1, fun l hl => ?_⟩
  rcases mem_append_one.1 hl with hl | hl
  · exact h.strictest.2 hl
  · exact (hln hl.1.symm).trans hl.2.ge

end

end

/-- **A publication** is folded into the lane of an entry that has leases. -/
theorem Newest.acquire {published : List Publication} {e : ReqwestDialLaneEntry}
    (h : Newest published e.state.generation e.state.lane) (hls : e.state.leases + 1 ≠ 1)
    (generation : ℕ) (lane : ReqwestLane) :
    Newest (published ++ [(generation, lane)]) (e.acquire generation lane).state.generation
      (e.acquire generation lane).state.lane := by
  rw [ReqwestDialLaneEntry.acquire]
  dsimp only
  by_cases hn : generation > e.state.generation
  · rw [if_pos (.inr hn)]
    exact h.newer hn
  · rw [if_neg (not_or.2 ⟨hls, hn⟩)]
    by_cases hs : generation = e.state.generation ∧ lane < e.state.lane
    · rw [if_pos hs]
      obtain ⟨rfl, hlt⟩ := hs
      exact h.stricter hlt
    · rw [if_neg hs]
      exact h.other (not_lt.1 hn) fun heq => not_lt.1 fun hlt => hs ⟨heq, hlt⟩

/-! ## Entries -/

/-- The lease that a thread holds. -/
def Pc.leased : Pc → Option (List Char)
  | .lease key => some key
  | _ => none

/-- The guard that a thread holds. -/
def Pc.guarded : Pc → Option BackendConnKey
  | .guard key => some key
  | _ => none

/-- The slot that a thread is about to take. -/
def Pc.acquiring : Pc → Option (BackendConnKey × UInt32)
  | .slotGet key cap | .slotEntry key cap => some (key, cap)
  | _ => none

/-- The publication that a thread is about to make. -/
def Pc.publishing : Pc → Option (List Char × Publication)
  | .leaseGet key generation lane | .leaseEntry key generation lane => some (key, generation, lane)
  | _ => none

theorem acquiring_holds {pc : Pc} {slot : BackendConnKey × UInt32} (h : pc.acquiring = some slot) :
    pc.leased = none ∧ pc.guarded = none := by
  cases pc <;> first | exact ⟨rfl, rfl⟩ | cases h

theorem publishing_holds {pc : Pc} {publication : List Char × Publication}
    (h : pc.publishing = some publication) : pc.leased = none ∧ pc.guarded = none := by
  cases pc <;> first | exact ⟨rfl, rfl⟩ | cases h

/-- An entry of the map of lanes: it has a handle for each lease and one in the map. -/
structure LaneOk (published : List Publication) (key : List Char)
    (entry : Arc ReqwestDialLaneEntry) : Prop where
  key : entry.value.key = key
  strong : entry.strong = entry.value.state.leases.toNat + 1
  newest : Newest published entry.value.state.generation entry.value.state.lane

@[simp] theorem acquire_key (e : ReqwestDialLaneEntry) (generation : ℕ) (lane : ReqwestLane) :
    (e.acquire generation lane).key = e.key := by
  unfold acquire
  dsimp only
  split_ifs <;> rfl

@[simp] theorem acquire_leases (e : ReqwestDialLaneEntry) (generation : ℕ) (lane : ReqwestLane) :
    (e.acquire generation lane).state.leases = e.state.leases + 1 := by
  unfold acquire
  dsimp only
  split_ifs <;> rfl

/-- Too many leases would be too many handles. -/
theorem leases_succ {leases : UInt64} (h : leases.toNat + 1 ≤ isizeMax) :
    (leases + 1).toNat = leases.toNat + 1 := by
  rw [isizeMax] at h
  rw [UInt64.toNat_add, UInt64.toNat_one]
  omega

variable {n : UInt64} {entry : Arc ReqwestDialLaneEntry} {key : List Char}

theorem toNat_sub_one (h : 0 < n.toNat) : (n - 1).toNat + 1 = n.toNat := by
  have := n.toNat_lt
  rw [UInt64.toNat_sub, UInt64.toNat_one]
  omega

theorem toNat_add_one {cap : UInt64} (h : n < cap) : (n + 1).toNat = n.toNat + 1 := by
  have := cap.toNat_lt
  rw [UInt64.lt_iff_toNat_lt] at h
  rw [UInt64.toNat_add, UInt64.toNat_one]
  omega

theorem LaneOk.acquire {published : List Publication} (h : LaneOk published key entry)
    (hpos : 0 < entry.value.state.leases.toNat) (hle : entry.strong ≤ isizeMax) (generation : ℕ)
    (lane : ReqwestLane) :
    LaneOk (published ++ [(generation, lane)]) key
      ⟨entry.strong + 1, entry.value.acquire generation lane⟩ := by
  have hs := leases_succ (h.strong ▸ hle)
  refine ⟨by rw [acquire_key, h.key], by rw [acquire_leases, hs, h.strong],
    h.newest.acquire (fun heq => ?_) generation lane⟩
  rw [heq, UInt64.toNat_one] at hs
  omega

theorem laneOk_new (key : List Char) (generation : ℕ) (lane : ReqwestLane) :
    LaneOk [(generation, lane)] key
      ⟨2, (mk key ⟨generation, lane, 0⟩).acquire generation lane⟩ :=
  ⟨rfl, rfl, newest_singleton generation lane⟩

/-- An entry that is replaced, with what has been published for it. -/
theorem laneOk_insert {lanes : HMap (List Char) (Arc ReqwestDialLaneEntry)}
    {published : List Char → List Publication} {publications : List Publication}
    (h : ∀ k e, lanes.get k = some e → LaneOk (published k) k e)
    (hn : LaneOk publications key entry) (k : List Char) (e : Arc ReqwestDialLaneEntry)
    (hk : (lanes.insert key entry).get k = some e) :
    LaneOk (update published key publications k) k e := by
  rw [HMap.get_insert_eq] at hk
  by_cases heq : k = key
  · subst heq
    rw [if_pos rfl, some.injEq] at hk
    rw [← hk, update_self]
    exact hn
  · rw [if_neg heq] at hk
    rw [update_of_ne heq]
    exact h k e hk

/-! ## Steps -/

inductive Effect (g : Published) : Pc → Published → Pc → Prop
  | quiet {pc pc' : Pc} (hl : pc.leased = none) (hl' : pc'.leased = none) (hg : pc.guarded = none)
    (hg' : pc'.guarded = none)
    (hmiss : ∀ k cap, pc.acquiring = some (k, cap) → pc' = .slotEntry k cap)
    (hcap : ∀ k cap, pc' = .slotEntry k cap → cap ≠ 0) : Effect g pc g pc'
  | lease {pc : Pc} {key : List Char} {generation : ℕ} {lane : ReqwestLane}
    {existing : Arc ReqwestDialLaneEntry} (hpc : pc.publishing = some (key, generation, lane))
    (hget : g.admission.lanes.get key = some existing) (hle : existing.strong ≤ isizeMax) :
    Effect g pc
      ⟨⟨g.admission.limiter, g.admission.lanes.insert key
          ⟨existing.strong + 1, existing.value.acquire generation lane⟩⟩,
        update g.published key (g.published key ++ [(generation, lane)])⟩
      (.lease existing.value.key)
  | firstLease {key : List Char} {generation : ℕ} {lane : ReqwestLane}
    (hget : g.admission.lanes.get key = none) :
    Effect g (.leaseEntry key generation lane)
      ⟨⟨g.admission.limiter, g.admission.lanes.insert key
          ⟨2, (mk key ⟨generation, lane, 0⟩).acquire generation lane⟩⟩,
        update g.published key [(generation, lane)]⟩
      (.lease key)
  | dropLease (key : List Char) :
    Effect g (.lease key) ⟨g.admission.dropLease key, g.published⟩ .idle
  | slot {pc : Pc} {key : BackendConnKey} {cap : UInt32} {existing : BackendConnCounter}
    (hpc : pc.acquiring = some (key, cap))
    (hget : (g.admission.limiter.inner.get key).getD ⟨key, 0⟩ = existing)
    (hlt : existing.count < cap.toUInt64) :
    Effect g pc
      ⟨⟨⟨g.admission.limiter.inner.insert key { existing with count := existing.count + 1 }⟩,
        g.admission.lanes⟩, g.published⟩
      (.guard existing.key)
  | refused {pc : Pc} {key : BackendConnKey} {cap : UInt32} {limit : BackendConnectionLimitExceeded}
    (hpc : pc.acquiring = some (key, cap))
    (hge : cap = 0 ∨ ∃ existing, g.admission.limiter.inner.get key = some existing ∧
      cap.toUInt64 ≤ existing.count) :
    Effect g pc g (.refused limit)
  | dropGuard (key : BackendConnKey) :
    Effect g (.guard key) ⟨⟨g.admission.limiter.drop key, g.admission.lanes⟩, g.published⟩ .idle

section
variable {table : CaseTable} {g g' : Published} {pc pc' : Pc}

/-- The two ways out of `reserve`. -/
theorem reserve_cases (m : BackendConnectionLimiter) (key : BackendConnKey)
    (existing : BackendConnCounter) (cap : UInt64) :
    (existing.count < cap ∧ m.reserve key existing cap =
        (⟨m.inner.insert key { existing with count := existing.count + 1 }⟩, .ok existing.key)) ∨
      cap ≤ existing.count ∧ m.reserve key existing cap = (m, .error ⟨existing.count, cap⟩) := by
  unfold BackendConnectionLimiter.reserve
  by_cases h : existing.count ≥ cap
  · exact .inr ⟨h, if_pos h⟩
  · exact .inl ⟨UInt64.not_le.1 h, if_neg h⟩

theorem cap_zero {cap : UInt32} : cap.toUInt64 = 0 ↔ cap = 0 := by
  rw [← UInt64.toNat_inj, ← UInt32.toNat_inj, UInt32.toNat_toUInt64]
  rfl

variable {c : Choice} {key : BackendConnKey}

theorem go_of_step {g : ReqwestConnectionAdmission} {r : ReqwestConnectionAdmission × Pc}
    (hpc : pc ≠ .idle) (h : admissionStep table g pc c = some r) : c = .go := by
  cases c with
  | go => rfl
  | _ => cases pc <;> first | exact absurd rfl hpc | cases h

/-- A step of a thread that neither acquires a slot nor is about to. -/
theorem Effect.calm (hl : pc.leased = none) (hl' : pc'.leased = none) (hg : pc.guarded = none)
    (hg' : pc'.guarded = none) (ha : pc.acquiring = none)
    (he : ∀ k cap, pc' ≠ .slotEntry k cap) : Effect g pc g pc' := by
  refine .quiet hl hl' hg hg' (fun k cap h => ?_) (fun k cap h => absurd h (he k cap))
  rw [ha] at h
  cases h

/-- **What a step does**, where the cold path is only taken with a cap. -/
theorem effect_of_step {i : ℕ} (hcap : ∀ k cap, pc = .slotEntry k cap → cap ≠ 0)
    (h : (admission table).step i g pc c = some (g', pc')) : Effect g pc g' pc' := by
  obtain ⟨⟨limiter, lanes⟩, published⟩ := g
  simp only [admission, map_eq_some_iff] at h
  obtain ⟨⟨g₁, pc₁⟩, h, heq⟩ := h
  simp only [Prod.mk.injEq] at heq
  obtain ⟨rfl, rfl⟩ := heq
  by_cases hpc : pc = .idle
  · subst hpc
    cases c with
    | leaseLane =>
      cases h
      exact .calm rfl rfl rfl rfl rfl (by rintro _ _ ⟨⟩)
    | admitDst | tryAcquire =>
      simp only [admissionStep] at h
      split at h <;> cases h <;> exact .calm rfl rfl rfl rfl rfl (by rintro _ _ ⟨⟩)
    | go => cases h
  obtain rfl := go_of_step hpc h
  cases pc with
  | idle => cases h
  | leaseGet key generation lane =>
    simp only [admissionStep] at h
    cases hget : lanes.get key with
    | none =>
      rw [hget] at h
      cases h
      simp only [publish, hget, isSome_none, Bool.false_eq_true, if_false]
      exact .calm rfl rfl rfl rfl rfl (by rintro _ _ ⟨⟩)
    | some existing =>
      rw [hget] at h
      simp only [lease, map_eq_some_iff] at h
      obtain ⟨⟨g₂, key₂⟩, ⟨entry, hc, heq⟩, h⟩ := h
      cases heq
      cases h
      obtain ⟨hle, rfl⟩ := Arc.clone_eq_some hc
      simp only [publish, hget, isSome_some, if_true]
      exact .lease rfl hget hle
  | leaseEntry key generation lane =>
    simp only [admissionStep, lease, map_eq_some_iff] at h
    obtain ⟨⟨g₂, key₂⟩, ⟨entry, hc, heq⟩, h⟩ := h
    cases heq
    cases h
    obtain ⟨hle, rfl⟩ := Arc.clone_eq_some hc
    cases hget : lanes.get key with
    | none =>
      simp only [publish, hget, isSome_none, Bool.false_eq_true, if_false, getD_none]
      exact .firstLease hget
    | some existing =>
      rw [hget] at hle
      simp only [publish, hget, isSome_some, if_true, getD_some]
      exact .lease rfl hget hle
  | lease key =>
    cases h
    exact .dropLease key
  | laneFor host port =>
    simp only [admissionStep] at h
    split at h <;> cases h <;> exact .calm rfl rfl rfl rfl rfl (by rintro _ _ ⟨⟩)
  | slotGet key cap =>
    simp only [admissionStep, BackendConnectionLimiter.acquireGet] at h
    by_cases hz : cap.toUInt64 = 0
    · rw [if_pos hz] at h
      cases h
      exact .refused rfl (.inl (cap_zero.1 hz))
    · rw [if_neg hz] at h
      cases hget : limiter.inner.get key with
      | none =>
        rw [hget] at h
        cases h
        refine .quiet rfl rfl rfl rfl ?_ ?_
        · rintro k cap' hpc
          cases hpc
          rfl
        · rintro k cap' hpc rfl
          cases hpc
          exact hz rfl
      | some existing =>
        rw [hget, map_some] at h
        rcases reserve_cases limiter key existing cap.toUInt64 with ⟨hlt, hr⟩ | ⟨hge, hr⟩
        · rw [hr] at h
          cases h
          exact .slot rfl (by rw [hget]; rfl) hlt
        · rw [hr] at h
          cases h
          exact .refused rfl (.inr ⟨existing, hget, hge⟩)
  | slotEntry key cap =>
    simp only [admissionStep, BackendConnectionLimiter.acquireEntry, some.injEq] at h
    rcases reserve_cases ⟨limiter.inner.orInsert key ⟨key, 0⟩⟩ key
        ((limiter.inner.get key).getD ⟨key, 0⟩) cap.toUInt64 with ⟨hlt, hr⟩ | ⟨hge, hr⟩
    · rw [hr] at h
      cases h
      rw [HMap.insert_orInsert]
      exact .slot rfl rfl hlt
    · rw [hr] at h
      cases h
      cases hget : limiter.inner.get key with
      | none =>
        -- a new counter is zero, and the cap is not
        rw [hget] at hge
        exact absurd (cap_zero.1 (UInt64.le_zero_iff.1 hge)) (hcap key cap rfl)
      | some existing =>
        rw [hget] at hge
        rw [HMap.orInsert_of_get hget]
        exact .refused rfl (.inr ⟨existing, hget, hge⟩)
  | guard key =>
    cases h
    exact .dropGuard key
  | unlimited | refused =>
    cases h
    exact .calm rfl rfl rfl rfl rfl (by rintro _ _ ⟨⟩)

/-! ## Exactness -/

def leases (entry : Arc ReqwestDialLaneEntry) : ℕ := entry.value.state.leases.toNat

def slots (counter : BackendConnCounter) : ℕ := counter.count.toNat

/-- The entries of both maps are exact. -/
structure Exact (s : Pool Published Pc) : Prop where
  leases : Tallied leases Pc.leased s.shared.admission.lanes s
  lanes : ∀ key entry, s.shared.admission.lanes.get key = some entry →
    LaneOk (s.shared.published key) key entry
  guards : Tallied slots Pc.guarded s.shared.admission.limiter.inner s
  counters : ∀ key counter, s.shared.admission.limiter.inner.get key = some counter →
    counter.key = key
  caps : ∀ i key cap, s.thread i = .slotEntry key cap → cap ≠ 0

theorem exact_init : Exact init :=
  ⟨tallied_empty fun _ => rfl, by simp [init], tallied_empty fun _ => rfl, by simp [init],
    by simp [init]⟩

/-- The counter that a slot is taken of is that of its key. -/
theorem Exact.existing_key {s : Pool Published Pc} (hs : Exact s) (key : BackendConnKey) :
    ((s.shared.admission.limiter.inner.get key).getD ⟨key, 0⟩).key = key := by
  cases hm : s.shared.admission.limiter.inner.get key with
  | none => rfl
  | some c => exact hs.counters key c hm

/-- The drop of a lease, which has an entry. -/
theorem dropLease_lanes {g : ReqwestConnectionAdmission} {key : List Char}
    {entry : Arc ReqwestDialLaneEntry} (hget : g.lanes.get key = some entry)
    (hpos : 0 < leases entry) :
    (leases entry = 1 ∧ g.dropLease key = ⟨g.limiter, g.lanes.remove key⟩) ∨
      ∃ e : ReqwestDialLaneEntry, leases entry = e.state.leases.toNat + 1 ∧
        0 < e.state.leases.toNat ∧ e.key = entry.value.key ∧
        e.state.generation = entry.value.state.generation ∧
        e.state.lane = entry.value.state.lane ∧
        g.dropLease key = ⟨g.limiter, g.lanes.insert key ⟨entry.strong - 1, e⟩⟩ := by
  have hs := toNat_sub_one hpos
  unfold dropLease releaseIsIdle
  rw [hget]
  dsimp only
  by_cases hi : entry.value.state.leases - 1 = 0
  · refine .inl ⟨?_, if_pos (by simpa using hi)⟩
    rw [hi, UInt64.toNat_zero] at hs
    exact hs.symm
  · refine .inr ⟨entry.value.releaseIsIdle.1, hs.symm, ?_, rfl, rfl, rfl,
      if_neg (by simpa using hi)⟩
    rw [Nat.pos_iff_ne_zero]
    exact fun hz => hi (UInt64.toNat_inj.1 hz)

/-- The drop of a guard, which has a counter. -/
theorem drop_inner {m : BackendConnectionLimiter} {counter : BackendConnCounter}
    (hget : m.inner.get key = some counter) (hpos : 0 < slots counter) :
    (slots counter = 1 ∧ m.drop key = ⟨m.inner.remove key⟩) ∨
      ∃ c : BackendConnCounter, slots counter = slots c + 1 ∧ 0 < slots c ∧ c.key = counter.key ∧
        m.drop key = ⟨m.inner.insert key c⟩ := by
  have hs := toNat_sub_one hpos
  unfold BackendConnectionLimiter.drop
  rw [hget]
  dsimp only
  by_cases hls : counter.count = 1
  · refine .inl ⟨?_, if_pos hls⟩
    rw [slots, hls, UInt64.toNat_one]
  · refine .inr ⟨{ counter with count := counter.count - 1 }, hs.symm, ?_, rfl, if_neg hls⟩
    rw [slots, Nat.pos_iff_ne_zero]
    intro hz
    rw [hz] at hs
    exact hls (UInt64.toNat_inj.1 hs.symm)

theorem elim_slots (m : HMap BackendConnKey BackendConnCounter) (key : BackendConnKey) :
    (m.get key).elim 0 slots = slots ((m.get key).getD ⟨key, 0⟩) := by
  cases m.get key <;> rfl

section
variable {s : Pool Published Pc} {i : ℕ} (hs : Exact s)
  (h : Effect s.shared (s.thread i) g' pc')
include hs h

theorem Effect.leases :
    CountStep leases s.shared.admission.lanes g'.admission.lanes (s.thread i).leased
      pc'.leased := by
  generalize hpc : s.thread i = pc at h
  cases h with
  | quiet hl hl' =>
    rw [hl, hl']
    exact .keep _
  | @lease _ key generation lane existing hp hget hle =>
    have hok := hs.lanes key existing hget
    rw [(publishing_holds hp).1, Pc.leased, hok.key]
    refine .take ?_
    rw [hget, elim_some, Conn.leases, acquire_leases, leases_succ (hok.strong ▸ hle)]
    rfl
  | firstLease hget =>
    refine .take ?_
    rw [hget]
    rfl
  | dropLease key =>
    obtain ⟨entry, hget, hpos⟩ := hs.leases.held (i := i) (k := key) (by rw [hpc]; rfl)
    rcases dropLease_lanes hget hpos with ⟨ho, heq⟩ | ⟨e, hsc, hpos', -, -, -, heq⟩
    · rw [heq]
      exact .last hget ho
    · rw [heq]
      exact .leave hget hsc hpos'
  | slot ha | refused ha =>
    rw [(acquiring_holds ha).1]
    exact .keep _
  | dropGuard => exact .keep _

theorem Effect.guards :
    CountStep slots s.shared.admission.limiter.inner g'.admission.limiter.inner
      (s.thread i).guarded pc'.guarded := by
  generalize hpc : s.thread i = pc at h
  cases h with
  | quiet _ _ hg hg' =>
    rw [hg, hg']
    exact .keep _
  | lease hp =>
    rw [(publishing_holds hp).2]
    exact .keep _
  | firstLease => exact .keep _
  | dropLease key =>
    obtain ⟨entry, hget, hpos⟩ := hs.leases.held (i := i) (k := key) (by rw [hpc]; rfl)
    rcases dropLease_lanes hget hpos with ⟨-, heq⟩ | ⟨e, -, -, -, -, -, heq⟩ <;> rw [heq] <;>
      exact .keep _
  | @slot _ key cap existing ha hget hlt =>
    have hk : existing.key = key := hget ▸ hs.existing_key key
    rw [(acquiring_holds ha).2, Pc.guarded, hk]
    refine .take ?_
    rw [elim_slots, hget]
    exact toNat_add_one hlt
  | refused ha =>
    rw [(acquiring_holds ha).2]
    exact .keep _
  | dropGuard key =>
    obtain ⟨counter, hget, hpos⟩ := hs.guards.held (i := i) (k := key) (by rw [hpc]; rfl)
    rcases drop_inner hget hpos with ⟨ho, heq⟩ | ⟨c, hsc, hpos', -, heq⟩
    · rw [heq]
      exact .last hget ho
    · rw [heq]
      exact .leave hget hsc hpos'

theorem Effect.lanes (k : List Char) (entry : Arc ReqwestDialLaneEntry)
    (hk : g'.admission.lanes.get k = some entry) : LaneOk (g'.published k) k entry := by
  generalize hpc : s.thread i = pc at h
  cases h with
  | quiet | slot | refused | dropGuard => exact hs.lanes k entry hk
  | @lease _ key generation lane existing hp hget hle =>
    have hok := (hs.lanes key existing hget).acquire (hs.leases.pos hget) hle generation lane
    exact laneOk_insert hs.lanes hok k entry hk
  | @firstLease key generation lane hget =>
    exact laneOk_insert hs.lanes (laneOk_new key generation lane) k entry hk
  | dropLease key =>
    obtain ⟨existing, hget, hpos⟩ := hs.leases.held (i := i) (k := key) (by rw [hpc]; rfl)
    rcases dropLease_lanes hget hpos with ⟨-, hd⟩ | ⟨e, hsc, -, hke, hgn, hln, hd⟩
    · rw [hd, HMap.get_remove_eq] at hk
      split_ifs at hk
      exact hs.lanes k entry hk
    · have hold := hs.lanes key existing hget
      have hok : LaneOk (s.shared.published key) key ⟨existing.strong - 1, e⟩ := by
        refine ⟨hke.trans hold.key, ?_, ?_⟩
        · rw [hold.strong, Nat.add_sub_cancel]
          exact hsc
        · rw [hgn, hln]
          exact hold.newest
      rw [hd] at hk
      have := laneOk_insert hs.lanes hok k entry hk
      rwa [update_eq_self] at this

theorem Effect.counters (k : BackendConnKey) (counter : BackendConnCounter)
    (hk : g'.admission.limiter.inner.get k = some counter) : counter.key = k := by
  generalize hpc : s.thread i = pc at h
  cases h with
  | quiet | lease | firstLease | refused => exact hs.counters k counter hk
  | dropLease key =>
    obtain ⟨existing, hget, hpos⟩ := hs.leases.held (i := i) (k := key) (by rw [hpc]; rfl)
    rcases dropLease_lanes hget hpos with ⟨-, hd⟩ | ⟨e, -, -, -, -, -, hd⟩ <;>
      rw [hd] at hk <;> exact hs.counters k counter hk
  | @slot _ key cap existing _ hget _ =>
    rw [HMap.get_insert_eq] at hk
    by_cases heq : k = key
    · subst heq
      rw [if_pos rfl, some.injEq] at hk
      rw [← hk, ← hget]
      exact hs.existing_key k
    · rw [if_neg heq] at hk
      exact hs.counters k counter hk
  | dropGuard key =>
    obtain ⟨existing, hget, hpos⟩ := hs.guards.held (i := i) (k := key) (by rw [hpc]; rfl)
    rcases drop_inner hget hpos with ⟨-, hd⟩ | ⟨c, -, -, hke, hd⟩
    · rw [hd, HMap.get_remove_eq] at hk
      split_ifs at hk
      exact hs.counters k counter hk
    · rw [hd, HMap.get_insert_eq] at hk
      by_cases heq : k = key
      · subst heq
        rw [if_pos rfl, some.injEq] at hk
        rw [← hk, hke]
        exact hs.counters k existing hget
      · rw [if_neg heq] at hk
        exact hs.counters k counter hk

end

theorem Effect.cap (h : Effect g pc g' pc') (key : BackendConnKey) (cap : UInt32)
    (hpc' : pc' = .slotEntry key cap) : cap ≠ 0 := by
  subst hpc'
  cases h with
  | quiet _ _ _ _ _ hcap => exact hcap key cap rfl

/-- **One step** keeps the maps exact. -/
theorem exact_step {s t : Pool Published Pc} {a : PoolAct Choice Empty} (hs : Exact s)
    (h : s.step (admission table) a = some t) : Exact t := by
  rcases Pool.step_some h with ⟨i, c, pc', -, hst, ht⟩ | ⟨e, -⟩
  · have he := effect_of_step (hs.caps i) hst
    refine ⟨hs.leases.step ht (he.leases hs), he.lanes hs, hs.guards.step ht (he.guards hs),
      he.counters hs, fun j key cap hj => ?_⟩
    rw [ht, update_apply] at hj
    split_ifs at hj with hij
    · exact he.cap key cap hj
    · exact hs.caps j key cap hj
  · exact e.elim

theorem exact_of_reach {s : Pool Published Pc}
    (hr : Reach (Pool.step (admission table)) anyStep init s) : Exact s :=
  hr.inv exact_init fun _ _ _ _ hs _ hst => exact_step hs hst

/-- A slot is taken if fewer are, and refused otherwise. -/
theorem Effect.acquires {s : Pool Published Pc} {i : ℕ} (hs : Exact s)
    (h : Effect s.shared (s.thread i) g' pc') {cap : UInt32}
    (ha : (s.thread i).acquiring = some (key, cap)) (hd : pc'.acquiring = none) :
    pc' = .guard key ↔
      (s.shared.admission.limiter.inner.get key).elim 0 slots < cap.toNat := by
  generalize hpc : s.thread i = pc at h ha
  cases h with
  | quiet _ _ _ _ hmiss =>
    rw [hmiss key cap ha] at hd
    cases hd
  | lease hp =>
    cases pc with
    | leaseGet | leaseEntry => cases ha
    | _ => cases hp
  | firstLease | dropLease | dropGuard => cases ha
  | @slot _ key' cap' existing ha' hget hlt =>
    rw [ha'] at ha
    cases ha
    have hk : existing.key = key := hget ▸ hs.existing_key key
    rw [hk]
    refine iff_of_true rfl ?_
    rw [UInt64.lt_iff_toNat_lt, UInt32.toNat_toUInt64] at hlt
    rw [elim_slots, hget]
    exact hlt
  | @refused _ key' cap' limit ha' hge =>
    rw [ha'] at ha
    cases ha
    refine iff_of_false nofun ?_
    rcases hge with rfl | ⟨existing, hget, hle⟩
    · exact Nat.not_lt_zero _
    · rw [UInt64.le_iff_toNat_le, UInt32.toNat_toUInt64] at hle
      rw [hget, elim_some]
      exact not_lt.2 hle

/-- **Admission is exact.**  While a lease of a key is live, its lane is the strictest one of the
    newest configuration that has been published since its entry was created, in whatever order;
    the key has an entry exactly then.  A counter is the number of the live guards of its key, and
    is there exactly if there are any; a slot is taken exactly if there are fewer than the cap. -/
theorem admission_exact (table : CaseTable) {s : Pool Published Pc}
    (hr : Reach (Pool.step (admission table)) anyStep init s) :
    (∀ host port key, writeLaneKey table [] host port = key →
      ∃ live, s.Counts (fun pc => pc.leased = some key) live ∧
        (s.shared.admission.lanes.get key = none ↔ live = 0) ∧
        (0 < live → ∃ generation lane, s.shared.admission.laneFor table host port = some lane ∧
          IsGreatest {g | ∃ l, (g, l) ∈ s.shared.published key} generation ∧
          IsLeast {l | (generation, l) ∈ s.shared.published key} lane) ∧
        ∀ t, Reach (Pool.step (admission table)) anyStep init t →
          (∃ i, (s.thread i).leased = some key) → (∃ i, (t.thread i).leased = some key) →
          (s.shared.published key).Perm (t.shared.published key) →
          s.shared.admission.laneFor table host port = t.shared.admission.laneFor table host port) ∧
    ∀ key, ∃ live, s.Counts (fun pc => pc.guarded = some key) live ∧
      (s.shared.admission.limiter.inner.get key).map (·.count.toNat) =
        (if live = 0 then none else some live) ∧
      ∀ i c t cap, s.step (admission table) (.run i c) = some t →
        (s.thread i).acquiring = some (key, cap) → (t.thread i).acquiring = none →
        (t.thread i = .guard key ↔ live < cap.toNat) := by
  have hs := exact_of_reach hr
  constructor
  · rintro host port key rfl
    obtain ⟨live, hlv, htl⟩ := hs.leases (writeLaneKey table [] host port)
    refine ⟨live, hlv, ?_, fun hpos => ?_, ?_⟩
    · rw [← tally_eq_none, ← htl, map_eq_none_iff]
    · rw [tally_pos hpos, map_eq_some_iff] at htl
      obtain ⟨entry, hget, -⟩ := htl
      have hok := hs.lanes _ entry hget
      refine ⟨entry.value.state.generation, entry.value.state.lane, ?_, hok.newest.newest,
        hok.newest.strictest⟩
      rw [laneFor, hget]
      rfl
    · rintro t hrt ⟨i, hi⟩ ⟨j, hj⟩ hp
      have ht := exact_of_reach hrt
      obtain ⟨entry, hget, -⟩ := hs.leases.held hi
      obtain ⟨entry', hget', -⟩ := ht.leases.held hj
      rw [laneFor, laneFor, hget, hget', map_some, map_some,
        (hs.lanes _ entry hget).newest.unique (ht.lanes _ entry' hget').newest hp]
  · intro key
    obtain ⟨live, hlv, htl⟩ := hs.guards key
    refine ⟨live, hlv, htl, ?_⟩
    intro i c t cap hst hac hd
    rcases Pool.step_some hst with ⟨j, c', pc', ha, hst', ht⟩ | ⟨e, -⟩
    · cases ha
      have hth : t.thread i = pc' := by rw [ht, update_self]
      rw [hth] at hd ⊢
      rw [← elim_of_tally htl]
      exact (effect_of_step (hs.caps i) hst').acquires hs hac hd
    · exact e.elim

/-- Two dispatches with different caps for one destination, and two sockets that they open. -/
def conflict : List (PoolAct Choice Empty) :=
  [.run 0 (.leaseLane 1 "Api".toList 80 8080 2), .run 0 .go, .run 0 .go,
    .run 1 (.leaseLane 1 "api".toList 80 80 1), .run 1 .go,
    .run 2 (.admitDst ⟨some "API".toList, none, some "http"⟩), .run 2 .go, .run 2 .go, .run 2 .go,
    .run 3 (.admitDst ⟨some "api".toList, some 80, none⟩), .run 3 .go]

def asciiTable : CaseTable := ⟨fun c => [c.toLower]⟩

theorem conflict_isSome :
    (exec (Pool.step (admission asciiTable)) init conflict).isSome = true := by decide +kernel

/-- Its lane is the stricter one, and the second socket is refused. -/
theorem conflict_exact :
    let s := (exec (Pool.step (admission asciiTable)) init conflict).get conflict_isSome
    s.shared.admission.laneFor asciiTable "api".toList 80 = some ⟨1, 80⟩ ∧
      (∃ generation, IsLeast
        {l | (generation, l) ∈ s.shared.published (writeLaneKey asciiTable [] "api".toList 80)}
        ⟨1, 80⟩) ∧
      ∀ t, s.step (admission asciiTable) (.run 3 .go) = some t → (t.thread 3).acquiring = none →
        t.thread 3 ≠ .guard ⟨"api".toList, 80⟩ := by
  intro s
  have hr := reach_get conflict_isSome
  obtain ⟨hls, hcn⟩ := admission_exact asciiTable hr
  have hln : s.shared.admission.laneFor asciiTable "api".toList 80 = some ⟨1, 80⟩ := by
    decide +kernel
  have he : s.shared.admission.lanes.get (writeLaneKey asciiTable [] "api".toList 80) ≠ none := by
    decide +kernel
  refine ⟨hln, ?_, fun t hst hd => ?_⟩
  · obtain ⟨live, -, hn, hpos, -⟩ := hls "api".toList 80 _ rfl
    obtain ⟨generation, lane, hf, -, hla⟩ :=
      hpos (Nat.pos_of_ne_zero fun hz => he (hn.2 hz))
    rw [hln, some.injEq] at hf
    exact ⟨generation, hf ▸ hla⟩
  · obtain ⟨live, -, hc, ha⟩ := hcn ⟨"api".toList, 80⟩
    have ho : (s.shared.admission.limiter.inner.get ⟨"api".toList, 80⟩).map (·.count.toNat) =
        some 1 := by decide +kernel
    have hlv : live = 1 := by
      rw [ho] at hc
      split_ifs at hc
      exact (some.inj hc).symm
    rw [Ne, ha 3 .go t 1 hst (by decide +kernel) hd, hlv]
    decide

end

end Ferrum.Conn
