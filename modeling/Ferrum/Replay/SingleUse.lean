/-
  Proofs are admitted once.

  A marker is written under the guard of its shard, and removed under that guard if it has expired
  by a clock that was read before.  So the marker of an admission is in the map until it expires,
  whatever prunes, refreshes and lowered caps go on next to it.

  * `Effect`: what one atomic operation does to the map, to the count and to the guards.
  * `reach_holds`: markers stay until they expire, and are written under their guards.
  * `entryCount_eq`: the count accounts for every slot.
  * `step_admits`: each call that is admitted writes its marker once.
  * `replay_lane_single_use`: what holds in every state and for every step of a run.
-/
import Ferrum.Replay.Lane
import Mathlib.Tactic.Cases

namespace Ferrum.Replay

open Lib Function HMap

variable {K : Type*} {n : ℕ}

/-! ## Program points -/

/-- The call in progress. -/
def Pc.call : Pc K → Option (Call K)
  | .idle | .returned _ _ => none
  | .entry c | .occupied c _ | .refreshBegin c _ | .refreshInsert c _ | .reserveLoad c
  | .reserveCas c _ | .insertBegin c | .insert c | .noteNewest c _ _ | .noteEarliest c _ _
  | .endRevision c _ _ | .endActive c _ _ | .dropGuard c _ | .full c _ | .pruneLoad c
  | .pruneLock c | .pruneRecheck c | .pruneScans c | .epochActive c | .epochCompleted c _
  | .scan c _ _ _ _ | .reclaim c _ _ _ | .subtract c _ _ _ | .current c _ _ _ _
  | .publishActive c _ _ | .publishCompleted c _ _ _ | .publishStore c _ _ | .verifyActive c _
  | .verifyCompleted c _ _ | .publishZero c | .pruneUnlock c => some c

/-- When the call in progress was made. -/
def Pc.now (pc : Pc K) : Option ℕ := pc.call.map Call.nowMillis

/-- The key whose guard the thread holds, and what is in the map under it. -/
def Pc.held : Pc K → Option (K × Option ℕ)
  | .occupied c e | .refreshBegin c e | .refreshInsert c e => some (c.key, some e)
  | .reserveLoad c | .reserveCas c _ | .insertBegin c | .insert c => some (c.key, none)
  | .noteNewest c e true | .noteEarliest c e true | .endRevision c e true | .endActive c e true
  | .dropGuard c e => some (c.key, some e)
  | .full c existing => some (c.key, existing)
  | _ => none

/-- A slot is reserved but not yet filled. -/
def Pc.reserved : Pc K → Bool
  | .insertBegin _ | .insert _ => true
  | _ => false

/-- An entry is removed but not yet subtracted. -/
def Pc.removed : Pc K → Bool
  | .subtract _ _ _ _ => true
  | _ => false

/-- The call that has written its marker. -/
def Pc.written : Pc K → Option (Call K)
  | .noteNewest c _ _ | .noteEarliest c _ _ | .endRevision c _ _ | .endActive c _ _
  | .dropGuard c _ | .returned c .admitted => some c
  | _ => none

def Pc.Checked : Pc K → Prop
  | .occupied c e | .refreshBegin c e | .refreshInsert c e => e ≤ c.nowMillis
  | .reserveCas c count => count < c.maxEntries.toNat
  | _ => True

/-- What a thread has in hand. -/
def Pc.hand (pc : Pc K) : Option (K × Option ℕ) × Bool × Bool × Option (Call K) :=
  (pc.held, pc.reserved, pc.removed, pc.written)

/-- What is not about the bounds on the expiries. -/
def ProcessReplayLane.core (g : ProcessReplayLane K n) :
    HMap K ℕ × ℕ × (Fin n → Option ℕ) × ℕ × List (Admission K) :=
  (g.entries, g.entryCount, g.guard, g.clock, g.admissions)

variable [DecidableEq K] {shard : K → Fin n} {i : ℕ} {g g' : ProcessReplayLane K n} {pc pc' : Pc K}

/-! ## Operations -/

/-- What an operation does to the map, to the count and to the guards. -/
inductive Effect (shard : K → Fin n) (i : ℕ) (g : ProcessReplayLane K n) :
    Pc K → ProcessReplayLane K n → Pc K → Prop
  | quiet {g' : ProcessReplayLane K n} {pc pc' : Pc K} : g'.core = g.core → pc'.hand = pc.hand →
    pc'.now = pc.now ∨ pc'.now = none → pc'.Checked → Effect shard i g pc g' pc'
  | occupied {c : Call K} {e : ℕ} : g.guard (shard c.key) = none → g.entries.get c.key = some e →
    e ≤ c.nowMillis → Effect shard i g (.entry c) (g.hold (shard c.key) i) (.occupied c e)
  | vacant {c : Call K} : g.guard (shard c.key) = none → g.entries.get c.key = none →
    Effect shard i g (.entry c) (g.hold (shard c.key) i) (.reserveLoad c)
  | refresh {c : Call K} {e : ℕ} : e ≤ c.nowMillis → Effect shard i g (.refreshInsert c e)
      (g.mark c (max e c.expiresAt)) (.noteNewest c (max e c.expiresAt) true)
  | reserve {c : Call K} : g.entryCount < c.maxEntries.toNat →
    Effect shard i g (.reserveCas c g.entryCount) { g with entryCount := g.entryCount + 1 }
      (.insertBegin c)
  | insert {c : Call K} : Effect shard i g (.insert c)
      ((g.mark c c.expiresAt).release (shard c.key)) (.noteNewest c c.expiresAt false)
  | drop {c : Call K} {e : ℕ} :
    Effect shard i g (.dropGuard c e) (g.release (shard c.key)) (.returned c .admitted)
  | refuse {c : Call K} {v : Option ℕ} :
    Effect shard i g (.full c v) (g.release (shard c.key)) (.returned c .capacityRefused)
  | retry {c : Call K} {v : Option ℕ} :
    Effect shard i g (.full c v) (g.release (shard c.key)) (.pruneLoad { c with pruned := true })
  | remove {c : Call K} {epoch : WriterEpoch} {k : K} {expired : List K} {liveMin e : ℕ} :
    g.guard (shard k) = none → g.entries.get k = some e → e ≤ c.nowMillis →
    Effect shard i g (.reclaim c epoch (k :: expired) liveMin) (g.drop k)
      (.subtract c epoch expired liveMin)
  | subtract {c : Call K} {epoch : WriterEpoch} {expired : List K} {liveMin : ℕ} :
    Effect shard i g (.subtract c epoch expired liveMin)
      { g with entryCount := fetchSub g.entryCount } (.reclaim c epoch expired liveMin)

/-- A round of `fetch_update` changes nothing. -/
theorem Effect.reserveRound (c : Call K) {count : ℕ}
    (hh : pc.hand = (some (c.key, none), false, false, none)) (hn : pc.now = some c.nowMillis) :
    Effect shard i g pc g (.reserve c count) := by
  rw [Pc.reserve]
  split_ifs with hr
  · exact .quiet rfl hh.symm (.inl hn.symm) hr
  · exact .quiet rfl hh.symm (.inl hn.symm) trivial

/-- **What an operation does.** -/
theorem exec_effect {spurious : Bool} (h : exec shard i spurious g pc = some (g', pc'))
    (hc : pc.Checked) : Effect shard i g pc g' pc' := by
  cases pc with
  | idle | returned c r => cases h
  | entry c =>
    simp only [exec, ne_eq, ite_not] at h
    split_ifs at h with hgr
    split at h
    · next e hget =>
      split_ifs at h with hlv <;> cases h
      · exact .quiet rfl rfl (.inr rfl) trivial
      · exact .occupied hgr hget (Nat.not_lt.1 hlv)
    · next hget =>
      cases h
      exact .vacant hgr hget
  | occupied c e =>
    cases h
    split_ifs
    · exact .quiet rfl rfl (.inl rfl) hc
    · exact .quiet rfl rfl (.inl rfl) trivial
  | refreshBegin c e =>
    cases h
    exact .quiet rfl rfl (.inl rfl) hc
  | refreshInsert c e =>
    cases h
    exact .refresh hc
  | reserveLoad c =>
    cases h
    exact .reserveRound c rfl rfl
  | reserveCas c count =>
    simp only [exec] at h
    split_ifs at h with hcs <;> cases h
    · obtain ⟨rfl, -⟩ := hcs
      exact .reserve hc
    · exact .reserveRound c rfl rfl
  | insert c =>
    cases h
    exact .insert
  | endActive c e guarded =>
    cases h
    have hs (m : ℕ) : ({ g with activeWriters := m } : ProcessReplayLane K n).core = g.core := rfl
    cases guarded
    · exact .quiet (hs _) rfl (.inr rfl) trivial
    · exact .quiet (hs _) rfl (.inl rfl) trivial
  | dropGuard c e =>
    cases h
    exact .drop
  | full c v =>
    cases h
    split_ifs
    · exact .refuse
    · exact .retry
  | reclaim c epoch expired liveMin =>
    cases expired with
    | nil =>
      cases h
      exact .quiet rfl rfl (.inl rfl) trivial
    | cons k expired =>
      simp only [exec, ne_eq, ite_not] at h
      split_ifs at h with hgr hold <;> cases h
      · obtain ⟨e, hget, he⟩ := (Option.any_eq_true _ _).1 hold
        exact .remove hgr hget (by simpa using he)
      · exact .quiet rfl rfl (.inl rfl) trivial
  | subtract c epoch expired liveMin =>
    cases h
    exact .subtract
  | noteNewest c e guarded | noteEarliest c e guarded | endRevision c e guarded =>
    cases h
    cases guarded <;> exact .quiet rfl rfl (.inl rfl) trivial
  | _ =>
    -- only words beside the map and the count change
    simp only [exec, ne_eq, ite_not] at h
    try split_ifs at h
    all_goals
      cases h
      try split_ifs
      all_goals exact .quiet rfl rfl (.inl rfl) trivial

/-! ## Invariants -/

/-- The lane: a marker is in the map until it expires, and two admissions of one marker are apart. -/
structure LaneOk (g : ProcessReplayLane K n) : Prop where
  kept : ∀ a ∈ g.admissions, a.expiresAt ≤ g.clock ∨
    ∃ e, g.entries.get a.call.key = some e ∧ a.expiresAt ≤ e
  apart : g.admissions.Pairwise fun later earlier =>
    later.call.key = earlier.call.key → earlier.expiresAt ≤ later.clock
  fits : g.entryCount < 2 ^ 64

/-- A thread: what is under the guard it holds, and its call. -/
structure ThreadOk (shard : K → Fin n) (i : ℕ) (g : ProcessReplayLane K n) (pc : Pc K) : Prop where
  now : ∀ t, pc.now = some t → t ≤ g.clock
  held : ∀ k v, pc.held = some (k, v) → g.guard (shard k) = some i ∧ g.entries.get k = v
  checked : pc.Checked
  written : ∀ c, pc.written = some c →
    ∃ a ∈ g.admissions, a.call = c ∧ c.expiresAt ≤ a.expiresAt

/-- The marker may be written: all its admissions have expired. -/
theorem LaneOk.mark (h : LaneOk g) {c : Call K} {e : ℕ}
    (hget : ∀ e', g.entries.get c.key = some e' → e' ≤ g.clock) : LaneOk (g.mark c e) := by
  have hep (a : Admission K) (ha : a ∈ g.admissions) (hk : a.call.key = c.key) :
      a.expiresAt ≤ g.clock := by
    rcases h.kept a ha with hle | ⟨e', he', hle⟩
    · exact hle
    · rw [hk] at he'
      exact hle.trans (hget e' he')
  refine ⟨fun a ha => ?_, List.pairwise_cons.2 ⟨fun a ha hk => hep a ha hk.symm, h.apart⟩, h.fits⟩
  rcases List.mem_cons.1 ha with rfl | ha
  · exact .inr ⟨e, get_insert, le_rfl⟩
  · by_cases hk : a.call.key = c.key
    · exact .inl (hep a ha hk)
    · refine (h.kept a ha).imp_right fun ⟨e', he', hle⟩ => ⟨e', ?_, hle⟩
      exact (get_insert_ne hk).trans he'

theorem LaneOk.drop (h : LaneOk g) {k : K} {e : ℕ} (hget : g.entries.get k = some e)
    (he : e ≤ g.clock) : LaneOk (g.drop k) := by
  refine ⟨fun a ha => ?_, h.apart, h.fits⟩
  rcases h.kept a ha with hle | ⟨e', he', hle⟩
  · exact .inl hle
  · by_cases hk : a.call.key = k
    · rw [hk, hget] at he'
      cases he'
      exact .inl (hle.trans he)
    · exact .inr ⟨e', (get_remove_ne hk).trans he', hle⟩

theorem LaneOk.effect (h : LaneOk g) (ht : ThreadOk shard i g pc)
    (he : Effect shard i g pc g' pc') : LaneOk g' := by
  cases he with
  | quiet hs =>
    simp only [ProcessReplayLane.core, Prod.mk.injEq] at hs
    obtain ⟨hen, hcn, -, hcl, ha⟩ := hs
    exact ⟨by rw [ha, hcl, hen]; exact h.kept, by rw [ha]; exact h.apart, by rw [hcn]; exact h.fits⟩
  | refresh hold =>
    refine h.mark fun e he => ?_
    rw [(ht.held _ _ rfl).2] at he
    cases he
    exact hold.trans (ht.now _ rfl)
  | @reserve c hr => exact ⟨h.kept, h.apart, Nat.lt_of_le_of_lt hr c.maxEntries.toNat_lt⟩
  | @insert c =>
    have hm : LaneOk (g.mark c c.expiresAt) := h.mark fun e he => by
      rw [(ht.held _ _ rfl).2] at he
      cases he
    exact ⟨hm.kept, hm.apart, hm.fits⟩
  | remove _ hget hold => exact h.drop hget (hold.trans (ht.now _ rfl))
  | subtract => exact ⟨h.kept, h.apart, Nat.mod_lt _ (Nat.two_pow_pos 64)⟩
  | _ => exact ⟨h.kept, h.apart, h.fits⟩

theorem ThreadOk.start (hn : ∀ t, pc.now = some t → t ≤ g.clock) (hh : pc.held = none)
    (hch : pc.Checked) (hw : pc.written = none) : ThreadOk shard i g pc := by
  refine ⟨hn, fun k v hkv => ?_, hch, fun c hc => ?_⟩
  · rw [hh] at hkv
    cases hkv
  · rw [hw] at hc
    cases hc

/-- One operation keeps what its thread knows. -/
theorem ThreadOk.effect (ht : ThreadOk shard i g pc) (he : Effect shard i g pc g' pc') :
    ThreadOk shard i g' pc' := by
  cases he with
  | quiet hs hh hn hch =>
    simp only [ProcessReplayLane.core, Pc.hand, Prod.mk.injEq] at hs hh
    obtain ⟨hen, -, hgr, hcl, ha⟩ := hs
    refine ⟨fun t h => ?_, by rw [hh.1, hgr, hen]; exact ht.held, hch,
      by rw [hh.2.2.2, ha]; exact ht.written⟩
    rw [hcl]
    rcases hn with hn | hn <;> rw [hn] at h
    · exact ht.now t h
    · cases h
  | occupied _ hget hold =>
    refine ⟨ht.now, ?_, hold, ht.written⟩
    rintro _ _ ⟨⟩
    exact ⟨update_self .., hget⟩
  | vacant _ hget =>
    refine ⟨ht.now, ?_, trivial, ht.written⟩
    rintro _ _ ⟨⟩
    exact ⟨update_self .., hget⟩
  | refresh _ =>
    refine ⟨ht.now, ?_, trivial, ?_⟩
    · rintro _ _ ⟨⟩
      exact ⟨(ht.held _ _ rfl).1, get_insert⟩
    · rintro _ ⟨⟩
      exact ⟨_, List.mem_cons_self .., rfl, le_max_right ..⟩
  | reserve _ => exact ⟨ht.now, ht.held, trivial, ht.written⟩
  | insert =>
    refine ⟨ht.now, by rintro _ _ ⟨⟩, trivial, ?_⟩
    rintro _ ⟨⟩
    exact ⟨_, List.mem_cons_self .., rfl, le_rfl⟩
  | drop => exact ⟨by rintro _ ⟨⟩, by rintro _ _ ⟨⟩, trivial, ht.written⟩
  | refuse => exact ⟨by rintro _ ⟨⟩, by rintro _ _ ⟨⟩, trivial, ht.written⟩
  | retry => exact ⟨ht.now, by rintro _ _ ⟨⟩, trivial, ht.written⟩
  | remove _ _ _ => exact ⟨ht.now, by rintro _ _ ⟨⟩, trivial, ht.written⟩
  | subtract => exact ⟨ht.now, ht.held, trivial, ht.written⟩

/-- What a thread knows stays true while the guards it holds and what is under them do. -/
theorem ThreadOk.frame (ht : ThreadOk shard i g pc) (hcl : g.clock ≤ g'.clock)
    (ha : ∀ a ∈ g.admissions, a ∈ g'.admissions)
    (hh : ∀ k v, pc.held = some (k, v) →
      g'.guard (shard k) = g.guard (shard k) ∧ g'.entries.get k = g.entries.get k) :
    ThreadOk shard i g' pc := by
  refine ⟨fun t h => (ht.now t h).trans hcl, fun k v hkv => ?_, ht.checked, fun c hc => ?_⟩
  · obtain ⟨hgr, hen⟩ := hh k v hkv
    rw [hgr, hen]
    exact ht.held k v hkv
  · obtain ⟨a, hm, hac⟩ := ht.written c hc
    exact ⟨a, ha a hm, hac⟩

/-- One operation keeps what the other threads know: it writes under its own guards. -/
theorem ThreadOk.effect_other {j : ℕ} {m : Pc K} (hm : ThreadOk shard j g m) (hji : j ≠ i)
    (ht : ThreadOk shard i g pc) (he : Effect shard i g pc g' pc') : ThreadOk shard j g' m := by
  have hne {k k' : K} {v v' : Option ℕ} (hk : m.held = some (k, v)) (hk' : pc.held = some (k', v')) :
      shard k ≠ shard k' := by
    intro hs
    have h := (hm.held k v hk).1
    rw [hs, (ht.held k' v' hk').1] at h
    exact hji (Option.some.inj h).symm
  have hf {k k' : K} {v : Option ℕ} (hk : m.held = some (k, v))
      (hk' : g.guard (shard k') = none) : shard k ≠ shard k' := by
    intro hs
    have h := (hm.held k v hk).1
    rw [hs, hk'] at h
    cases h
  cases he with
  | quiet hs =>
    simp only [ProcessReplayLane.core, Prod.mk.injEq] at hs
    obtain ⟨hen, -, hgr, hcl, ha⟩ := hs
    exact hm.frame hcl.ge (fun a => by rw [ha]; exact id) fun _ _ _ => by rw [hgr, hen]; simp
  | occupied hg _ _ | vacant hg _ =>
    exact hm.frame le_rfl (fun _ => id) fun k v hkv =>
      ⟨update_of_ne (hf hkv hg) .., rfl⟩
  | drop | refuse | retry =>
    exact hm.frame le_rfl (fun _ => id) fun k v hkv =>
      ⟨update_of_ne (hne hkv rfl) .., rfl⟩
  | refresh _ =>
    exact hm.frame le_rfl (fun _ => List.mem_cons_of_mem _) fun k v hkv =>
      ⟨rfl, get_insert_ne fun h => hne hkv rfl (congrArg shard h)⟩
  | insert =>
    exact hm.frame le_rfl (fun _ => List.mem_cons_of_mem _) fun k v hkv =>
      ⟨update_of_ne (hne hkv rfl) .., get_insert_ne fun h => hne hkv rfl (congrArg shard h)⟩
  | remove hg _ _ =>
    exact hm.frame le_rfl (fun _ => id) fun k v hkv =>
      ⟨rfl, get_remove_ne fun h => hf hkv hg (congrArg shard h)⟩
  | reserve _ | subtract => exact hm.frame le_rfl (fun _ => id) fun _ _ _ => ⟨rfl, rfl⟩

theorem fetchSub_eq {m : ℕ} (hpos : 0 < m) (hf : m < 2 ^ 64) : fetchSub m = m - 1 := by
  rw [fetchSub, u64Max]
  omega

/-- What an operation adds to the count, it adds to the map or to what its thread has in hand. -/
theorem Effect.count (he : Effect shard i g pc g' pc') (ht : ThreadOk shard i g pc)
    (hf : g.entryCount < 2 ^ 64) (hpos : pc.removed = true → 0 < g.entryCount) :
    g'.entryCount + (g.entries.len + pc.reserved.toNat + pc.removed.toNat) =
      g.entryCount + (g'.entries.len + pc'.reserved.toNat + pc'.removed.toNat) := by
  cases he with
  | quiet hs hh =>
    simp only [ProcessReplayLane.core, Pc.hand, Prod.mk.injEq] at hs hh
    rw [hs.1, hs.2.1, hh.2.1, hh.2.2.1]
  | @refresh c e _ =>
    show g.entryCount + g.entries.len =
      g.entryCount + (g.entries.insert c.key (max e c.expiresAt)).len
    rw [len_insert_some (ht.held _ _ rfl).2]
  | reserve _ =>
    show g.entryCount + 1 + g.entries.len = g.entryCount + (g.entries.len + 1)
    omega
  | @insert c =>
    show g.entryCount + (g.entries.len + 1) =
      g.entryCount + (g.entries.insert c.key c.expiresAt).len
    rw [len_insert_none (ht.held _ _ rfl).2]
  | @remove c _ k _ _ _ _ hget _ =>
    show g.entryCount + g.entries.len = g.entryCount + ((g.entries.remove k).len + 1)
    have := len_remove hget
    omega
  | subtract =>
    show fetchSub g.entryCount + (g.entries.len + 1) = g.entryCount + g.entries.len
    have := hpos rfl
    rw [fetchSub_eq this hf]
    omega
  | _ => rfl

/-! ## Runs -/

variable {retention : ℕ} {s s' : Sys K n} {a : Act K}

/-- What the clock does to the lane: time passes. -/
theorem env_cases {e : ClockAct} (h : (lane shard retention).env g e = some g') :
    ∃ clock, g.clock ≤ clock ∧ g' = { g with clock := clock } := by
  cases e with
  | advance ms => cases h; exact ⟨_, Nat.le_add_right .., rfl⟩
  | setWall epochMs => cases h; exact ⟨_, le_rfl, rfl⟩

/-- What a thread does: it starts a call, or goes on with one. -/
theorem run_cases {c : Choice K} (h : (lane shard retention).step i g pc c = some (g', pc')) :
    (g' = g ∧ pc.reserved = false ∧ pc.removed = false ∧
      ∃ key maxEntries, pc' = .entry (.admitAt retention key maxEntries g.clock)) ∨
      ∃ spurious, exec shard i spurious g pc = some (g', pc') := by
  cases c with
  | admitAt key maxEntries =>
    left
    simp only [lane, Option.ite_none_right_eq_some] at h
    obtain ⟨hd, h⟩ := h
    cases h
    cases pc <;> first | exact ⟨rfl, rfl, rfl, _, _, rfl⟩ | cases hd
  | go spurious => exact .inr ⟨spurious, h⟩

/-- **In every state reached** the lane is in order, and each thread knows what it knows. -/
theorem reach_holds (h : Reach (Sys.step shard retention) anyStep Sys.init s) :
    Pool.Holds LaneOk (ThreadOk shard) s := by
  refine Pool.inv h ⟨⟨?_, .nil, Nat.two_pow_pos 64⟩, ?_⟩ ?_ ?_
  · intro a ha
    cases ha
  · intro i
    refine .start (fun t ht => ?_) rfl trivial rfl
    cases ht
  · intro x i c g' pc' _ _ hln hth hst
    rcases run_cases hst with ⟨rfl, -, -, key, maxEntries, rfl⟩ | ⟨spurious, hec⟩
    · refine ⟨hln, .start (fun t ht => ?_) rfl trivial rfl, fun j m _ hm => hm⟩
      cases ht
      exact le_rfl
    · have he := exec_effect hec hth.checked
      exact ⟨hln.effect hth he, hth.effect he, fun j m hj hm => hm.effect_other hj hth he⟩
  · intro x e g' _ hln hst
    obtain ⟨clock, hc, rfl⟩ := env_cases hst
    refine ⟨⟨fun a ha => ?_, hln.apart, hln.fits⟩, fun j m hm =>
      hm.frame hc (fun _ => id) fun _ _ _ => ⟨rfl, rfl⟩⟩
    exact (hln.kept a ha).imp_left fun hle => hle.trans hc

/-- The count accounts for the markers in the map, for the slots reserved but not yet filled and for
    the entries removed but not yet subtracted. -/
def Accounted (s : Sys K n) : Prop :=
  ∃ reserved removed, s.Counts Pc.reserved reserved ∧ s.Counts Pc.removed removed ∧
    s.shared.entryCount = s.shared.entries.len + reserved + removed

/-- A step makes no admission, or that of the one call that comes to be admitted by it. -/
inductive Admits (s s' : Sys K n) (a : Act K) : Prop
  | none : s'.shared.admissions = s.shared.admissions →
    (∀ j c, (s'.thread j).written = some c → (s.thread j).written = some c) → Admits s s' a
  | one {i : ℕ} {choice : Choice K} {c : Call K} {e : ℕ} : a = .run i choice →
    (s.thread i).written = none → (s'.thread i).written = some c →
    (∀ j, j ≠ i → s'.thread j = s.thread j) → c.expiresAt ≤ e →
    s'.shared.admissions = ⟨c, e, s.shared.clock⟩ :: s.shared.admissions → Admits s s' a

section
variable (h : Reach (Sys.step shard retention) anyStep Sys.init s)
include h

/-- The steps of a run, seen at a state reached. -/
theorem step_cases (hst : Sys.step shard retention s a = some s') :
    ((∃ clock, s'.shared = { s.shared with clock := clock }) ∧
        ∀ j, (s'.thread j).reserved = (s.thread j).reserved ∧
          (s'.thread j).removed = (s.thread j).removed ∧
          ∀ c, (s'.thread j).written = some c → (s.thread j).written = some c) ∨
      ∃ i c pc', a = .run i c ∧ s'.thread = update s.thread i pc' ∧
        ThreadOk shard i s.shared (s.thread i) ∧
        Effect shard i s.shared (s.thread i) s'.shared pc' := by
  have hh := reach_holds h
  rcases Pool.step_some hst with ⟨i, c, pc', rfl, hr, ht⟩ | ⟨e, rfl, hen, ht⟩
  · rcases run_cases hr with ⟨hg, hrs, hrm, key, maxEntries, rfl⟩ | ⟨spurious, he⟩
    · refine .inl ⟨⟨s.shared.clock, hg⟩, fun j => ?_⟩
      rw [ht, update_apply]
      split_ifs with hj
      · rw [hj, hrs, hrm]
        exact ⟨rfl, rfl, by rintro _ ⟨⟩⟩
      · exact ⟨rfl, rfl, fun _ => id⟩
    · exact .inr ⟨i, c, pc', rfl, ht, hh.thread i, exec_effect he (hh.thread i).checked⟩
  · obtain ⟨clock, -, hg⟩ := env_cases hen
    exact .inl ⟨⟨clock, hg⟩, fun j => by rw [ht]; exact ⟨rfl, rfl, fun _ => id⟩⟩

theorem entryCount_eq : Accounted s := by
  refine h.inv (I := Accounted) ⟨0, 0, Pool.counts_zero fun _ => rfl, Pool.counts_zero fun _ => rfl, rfl⟩ ?_
  rintro x a y hx ⟨reserved, removed, hrs, hrm, hcn⟩ - hst
  rcases step_cases hx hst with ⟨⟨clock, hg⟩, hp⟩ | ⟨i, c, pc', -, ht, hth, hef⟩
  · obtain ⟨ts, hts, rfl⟩ := hrs
    obtain ⟨us, hus, rfl⟩ := hrm
    refine ⟨_, _, ⟨ts, fun j => ?_, rfl⟩, ⟨us, fun j => ?_, rfl⟩, by rw [hg]; exact hcn⟩
    · rw [(hp j).1]
      exact hts j
    · rw [(hp j).2.1]
      exact hus j
  · obtain ⟨reserved', hrs', hre⟩ := hrs.update ht
    obtain ⟨removed', hrm', hrem⟩ := hrm.update ht
    -- an entry that is to be subtracted is counted
    have hpos (hr : (x.thread i).removed = true) : 0 < x.shared.entryCount := by
      have hne : removed ≠ 0 := by
        rintro rfl
        rw [hrm.eq_false i] at hr
        cases hr
      omega
    have := hef.count hth (reach_holds hx).shared.fits hpos
    exact ⟨reserved', removed', hrs', hrm', by omega⟩

section
variable (hst : Sys.step shard retention s a = some s')
include hst

/-- A marker that has not expired stays, and its expiry does not move back. -/
theorem marker_stays {k : K} {e : ℕ} (hget : s.shared.entries.get k = some e)
    (hlv : s.shared.clock < e) : s'.shared.entries.get k = some e := by
  rcases step_cases h hst with ⟨⟨clock, hg⟩, -⟩ | ⟨i, c, pc', -, -, ht, hef⟩
  · rw [hg]
    exact hget
  generalize s.thread i = pc, s'.shared = g' at ht hef ⊢
  cases hef with
  | quiet hs => exact (congrArg (fun core => core.1.get k) hs).trans hget
  | @refresh c _ hold =>
    have hk : k ≠ c.key := by
      rintro rfl
      rw [(ht.held _ _ rfl).2] at hget
      cases hget
      exact absurd (hold.trans (ht.now _ rfl)) (Nat.not_le.2 hlv)
    exact (get_insert_ne hk).trans hget
  | @insert c =>
    have hk : k ≠ c.key := by
      rintro rfl
      rw [(ht.held _ _ rfl).2] at hget
      cases hget
    exact (get_insert_ne hk).trans hget
  | @remove c _ k' _ _ _ _ hget' hold =>
    have hk : k ≠ k' := by
      rintro rfl
      rw [hget'] at hget
      cases hget
      exact absurd (hold.trans (ht.now _ rfl)) (Nat.not_le.2 hlv)
    exact (get_remove_ne hk).trans hget
  | _ => exact hget

/-- Only a call whose cap allows it raises the count. -/
theorem raise_within_cap (hr : s.shared.entryCount < s'.shared.entryCount) :
    ∃ i choice c, a = .run i choice ∧ (s.thread i).call = some c ∧
      s'.shared.entryCount ≤ c.maxEntries.toNat := by
  rcases step_cases h hst with ⟨⟨clock, hg⟩, -⟩ | ⟨i, choice, pc', rfl, ht, hth, he⟩
  · rw [hg] at hr
    exact absurd hr (Nat.lt_irrefl _)
  obtain ⟨reserved, removed, hrs, hrm, hcn⟩ := entryCount_eq h
  have hpos : (s.thread i).removed = true → 0 < removed := fun hr => Nat.pos_of_ne_zero (by
    rintro rfl
    rw [hrm.eq_false i] at hr
    cases hr)
  generalize hpc : s.thread i = pc, s'.shared = g' at hth he hr hpos ⊢
  cases he with
  | @reserve c hro => exact ⟨i, choice, c, rfl, by rw [hpc]; rfl, hro⟩
  | quiet hs => exact absurd (congrArg (·.2.1) hs).symm (Nat.ne_of_lt hr)
  | subtract =>
    -- there is an entry to subtract, so the word does not wrap
    have := hpos rfl
    change s.shared.entryCount < fetchSub s.shared.entryCount at hr
    rw [fetchSub_eq (by omega) (reach_holds h).shared.fits] at hr
    omega
  | _ => exact absurd hr (Nat.lt_irrefl _)

/-- A call comes to be admitted by writing its marker, and nothing else is an admission. -/
theorem step_admits : Admits s s' a := by
  rcases step_cases h hst with ⟨⟨clock, hg⟩, hp⟩ | ⟨i, choice, pc', rfl, ht, hth, he⟩
  · exact .none (by rw [hg]) fun j => (hp j).2.2
  have hj (j : ℕ) (hj : j ≠ i) : s'.thread j = s.thread j := by rw [ht, update_of_ne hj]
  have hi : s'.thread i = pc' := by rw [ht, update_self]
  have hl (ha : s'.shared.admissions = s.shared.admissions)
      (hw : ∀ c, pc'.written = some c → (s.thread i).written = some c) :
      Admits s s' (.run i choice) := by
    refine .none ha fun j c hc => ?_
    by_cases hji : j = i
    · subst hji
      exact hw c (hi ▸ hc)
    · exact hj j hji ▸ hc
  generalize hpc : s.thread i = pc, hg' : s'.shared = g' at hth he hl ⊢
  cases he with
  | quiet hs hh =>
    have hw : pc'.written = pc.written := congrArg (·.2.2.2) hh
    exact hl (congrArg (·.2.2.2.2) hs) fun c hc => hw ▸ hc
  | refresh _ =>
    exact .one rfl (by rw [hpc]; rfl) (by rw [hi]; rfl) hj (le_max_right ..) (by rw [hg']; rfl)
  | insert => exact .one rfl (by rw [hpc]; rfl) (by rw [hi]; rfl) hj le_rfl (by rw [hg']; rfl)
  | _ => exact hl rfl fun _ => id

end

end

/-- What holds in every state of a run, and of every step from it. -/
structure SingleUse (shard : K → Fin n) (retention : ℕ) (s : Sys K n) : Prop where
  /-- no marker is admitted again before the clock has reached its expiry -/
  apart : s.shared.admissions.Pairwise fun later earlier =>
    later.call.key = earlier.call.key → earlier.expiresAt ≤ later.clock
  /-- a call that returns `admitted` has made an admission -/
  admitted : ∀ i c, s.thread i = .returned c .admitted →
    ∃ a ∈ s.shared.admissions, a.call = c ∧ c.expiresAt ≤ a.expiresAt
  /-- which is its own: it comes to be admitted by the one step that adds its admission -/
  admits : ∀ a s', Sys.step shard retention s a = some s' → Admits s s' a
  /-- no marker is removed that has not expired -/
  stays : ∀ a s', Sys.step shard retention s a = some s' → ∀ k e,
    s.shared.entries.get k = some e → s.shared.clock < e → s'.shared.entries.get k = some e
  count : Accounted s
  /-- the call that raises the count keeps it within its cap -/
  capped : ∀ a s', Sys.step shard retention s a = some s' →
    s.shared.entryCount < s'.shared.entryCount →
    ∃ i choice c, a = .run i choice ∧ (s.thread i).call = some c ∧
      s'.shared.entryCount ≤ c.maxEntries.toNat

/-- **Single use**, for every interleaving of calls and of the prunes they make. -/
theorem replay_lane_single_use (shard : K → Fin n) (retention : ℕ) (s : Sys K n)
    (h : Reach (Sys.step shard retention) anyStep Sys.init s) : SingleUse shard retention s where
  apart := (reach_holds h).shared.apart
  admitted i c hc := ((reach_holds h).thread i).written c (by rw [hc]; rfl)
  admits _ _ hst := step_admits h hst
  stays _ _ hst _ _ hget hlv := marker_stays h hst hget hlv
  count := entryCount_eq h
  capped _ _ hst hr := raise_within_cap h hst hr

/-- Thread 0 admits marker 0; when it has expired, thread 1 finds the lane full, prunes it and admits
    marker 1. -/
def pruneSchedule : List (Act ℕ) :=
  .run 0 (.admitAt 0 1) :: List.replicate 9 (.run 0 (.go false)) ++ .env (.advance 5) ::
    .run 1 (.admitAt 1 1) :: List.replicate 29 (.run 1 (.go false))

def oneShard : ℕ → Fin 1 := fun _ => 0

theorem pruneSchedule_isSome :
    (Lib.exec (Sys.step oneShard 5) Sys.init pruneSchedule).isSome = true := by
  decide +kernel

theorem replay_lane_single_use_pruned :
    let s := (Lib.exec (Sys.step oneShard 5) Sys.init pruneSchedule).get pruneSchedule_isSome
    SingleUse oneShard 5 s ∧
      s.shared.admissions.map (fun a => (a.call.key, a.expiresAt, a.clock)) = [(1, 10, 5), (0, 5, 0)] ∧
      s.shared.entryCount = 1 :=
  ⟨replay_lane_single_use oneShard 5 _ (reach_get pruneSchedule_isSome), by decide +kernel,
    by decide +kernel⟩

end Ferrum.Replay
