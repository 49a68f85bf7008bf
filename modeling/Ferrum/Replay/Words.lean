/-
  The bounds on the expiries of a replay lane: writers and prunes.

  Next to the map a lane keeps a lower bound on the expiries, so that a full lane is not walked in
  vain, and an upper one.  Writers move them outwards without a lock.  Only a prune moves the lower
  bound later: it reads the epoch of the writers, walks the shards one after another, publishes the
  least expiry it has seen if the epoch is still the same, and looks at the epoch once more.

  * `Tracked`: the lane, with how far the last writer of each marker is.
  * `boundLane`: calls at any instant and with any retention.
  * `WordStep`: what operations other than the stores of a prune do to the words of the lane.
  * `Knows`: what a thread knows about the words; a prune, which entries it has accounted for.
  * `WordStep.entry`: what becomes of an entry, from which all else is derived.
  * `WordStep.bounded`, `WordStep.knows`: the bounds, and what other threads know, are kept.
-/
import Ferrum.Replay.Lane

namespace Ferrum.Replay

open Lib Function

variable {K : Type*} {n : ℕ}

/-! ## Tracking the writers -/

/-- How far a writer is whose marker is in the map: both bounds may be out, both are published, or
    its revision is counted too. -/
inductive WritePhase where
  | unpublished | published | revised
  deriving DecidableEq, Repr

/-- The last writer of each marker and its phase; `none` if it has finished. -/
abbrev Pending (K : Type*) := K → Option (ℕ × WritePhase)

structure Tracked (K : Type*) (n : ℕ) where
  lane : ProcessReplayLane K n
  pending : Pending K

section
variable [DecidableEq K]

/-- The writer `i` of `k` comes to its next phase, if it is still the last one. -/
def Pending.advance (p : Pending K) (i : ℕ) (k : K) (phase : WritePhase)
    (next : Option WritePhase) : Pending K :=
  if p k = some (i, phase) then update p k (next.map (i, ·)) else p

/-- What an operation of thread `i` does to the phases. -/
def track (i : ℕ) (p : Pending K) : Pc K → Pending K
  | .refreshInsert c _ | .insert c => update p c.key (some (i, .unpublished))
  | .noteEarliest c _ _ => p.advance i c.key .unpublished (some .published)
  | .endRevision c _ _ => p.advance i c.key .published (some .revised)
  | .endActive c _ _ => p.advance i c.key .revised none
  | _ => p

/-- A thread calls `admit_at` with any arguments, or goes on with the call. -/
inductive BoundChoice (K : Type*) where
  | admitAt (retention : ℕ) (key : K) (maxEntries : UInt64) (nowMillis : ℕ)
  | go (spurious : Bool)
  deriving DecidableEq, Repr

def boundLane (shard : K → Fin n) : Program (Tracked K n) (Pc K) (BoundChoice K) Empty where
  step i g pc
    | .admitAt retention key maxEntries nowMillis =>
      if pc.isDone then some (g, .entry (.admitAt retention key maxEntries nowMillis)) else none
    | .go spurious => (exec shard i spurious g.lane pc).map fun (lane, pc') =>
        (⟨lane, track i g.pending pc⟩, pc')
  env _ := nofun

end

abbrev BoundSys (K : Type*) (n : ℕ) := Pool (Tracked K n) (Pc K)
abbrev BoundAct (K : Type*) := PoolAct (BoundChoice K) Empty

def BoundSys.init : BoundSys K n := ⟨⟨.new, fun _ => none⟩, fun _ => .idle⟩

/-- The two words that count writers do not overflow. -/
def noWrap (s : BoundSys K n) : BoundAct K → Bool
  | .run i _ => match s.thread i with
    | .refreshBegin _ _ | .insertBegin _ => s.shared.lane.activeWriters + 1 < 2 ^ 64
    | .endRevision _ _ _ => s.shared.lane.completedRevisions + 1 < 2 ^ 64
    | _ => true
  | .env _ => true

/-! ## Program points -/

/-- A writer between its map write and its end. -/
def Pc.wrote : Pc K → Option (K × ℕ × WritePhase)
  | .noteNewest c e _ | .noteEarliest c e _ => some (c.key, e, .unpublished)
  | .endRevision c e _ => some (c.key, e, .published)
  | .endActive c e _ => some (c.key, e, .revised)
  | _ => none

/-- Counted as an active writer. -/
def Pc.writing : Pc K → Bool
  | .refreshInsert _ _ | .insert _ | .noteNewest _ _ _ | .noteEarliest _ _ _ | .endRevision _ _ _
  | .endActive _ _ _ => true
  | _ => false

/-- With the prune lock. -/
def Pc.pruning : Pc K → Bool
  | .pruneRecheck _ | .pruneScans _ | .epochActive _ | .epochCompleted _ _ | .scan _ _ _ _ _
  | .reclaim _ _ _ _ | .subtract _ _ _ _ | .current _ _ _ _ _ | .publishActive _ _ _
  | .publishCompleted _ _ _ _ | .publishStore _ _ _ | .verifyActive _ _ | .verifyCompleted _ _ _
  | .publishZero _ | .pruneUnlock _ => true
  | _ => false

/-- From the check of a bound on. -/
def Pc.publishing : Pc K → Bool
  | .publishActive _ _ _ | .publishCompleted _ _ _ _ | .publishStore _ _ _ | .verifyActive _ _
  | .verifyCompleted _ _ _ | .publishZero _ | .pruneUnlock _ => true
  | _ => false

/-- Between the publication of a bound and the end of its check. -/
def Pc.inWindow : Pc K → Bool
  | .verifyActive _ _ | .verifyCompleted _ _ _ | .publishZero _ => true
  | _ => false

/-- About to lower the earliest bound. -/
def Pc.noting : Pc K → Bool
  | .noteEarliest _ _ _ => true
  | _ => false

/-! ## Words -/

/-- What the bounds depend on. -/
structure Words (K : Type*) where
  entries : HMap K ℕ
  earliest : ℕ
  newest : ℕ
  completed : ℕ
  lock : Option ℕ
  pending : Pending K

def Tracked.words (g : Tracked K n) : Words K :=
  ⟨g.lane.entries, g.lane.earliestExpiryMillis, g.lane.newestExpiryMillis,
    g.lane.completedRevisions, g.lane.pruneLock, g.pending⟩

section
variable (lane : ProcessReplayLane K n) (p : Pending K) (count : ℕ)

theorem words_entryCount : (Tracked.mk { lane with entryCount := count } p).words =
    (Tracked.mk lane p).words := rfl

theorem words_activeWriters : (Tracked.mk { lane with activeWriters := count } p).words =
    (Tracked.mk lane p).words := rfl

theorem words_pruneScans : (Tracked.mk { lane with pruneScans := count } p).words =
    (Tracked.mk lane p).words := rfl

end

namespace Words

def Unpublished (w : Words K) (k : K) : Prop := ∃ i, w.pending k = some (i, .unpublished)

def Unrevised (w : Words K) (k : K) : Prop :=
  ∃ i phase, w.pending k = some (i, phase) ∧ phase ≠ .revised

variable [DecidableEq K]

/-- The lower bound, but for entries whose writer has not published it. -/
def Below (w : Words K) : Prop :=
  ∀ k e, w.entries.get k = some e → w.Unpublished k ∨ w.earliest ≤ e

/-- The upper bound, but for entries whose writer has not published it. -/
def Above (w : Words K) : Prop :=
  ∀ k e, w.entries.get k = some e → w.Unpublished k ∨ e ≤ w.newest

/-- As long as no revision is completed after `r`, the entries satisfy `Q`, but for those whose
    writer is still to complete its own. -/
def Covers (w : Words K) (r : ℕ) (Q : K → ℕ → Prop) : Prop :=
  r ≤ w.completed ∧
    (w.completed = r → ∀ k e, w.entries.get k = some e → w.Unrevised k ∨ Q k e)

theorem Covers.mono {w : Words K} {r : ℕ} {Q Q' : K → ℕ → Prop} (h : w.Covers r Q)
    (hQ : ∀ k e, w.entries.get k = some e → Q k e → Q' k e) : w.Covers r Q' :=
  ⟨h.1, fun hr k e hget => (h.2 hr k e hget).imp_right (hQ k e hget)⟩

end Words

section
variable [DecidableEq K]

/-- What thread `i` does to the words, the stores of a prune apart. -/
inductive WordStep (i : ℕ) (w : Words K) : Words K → Prop
  | quiet : WordStep i w w
  | write (k : K) (e : ℕ) : WordStep i w { w with
      entries := w.entries.insert k e
      pending := update w.pending k (some (i, .unpublished)) }
  | note (e : ℕ) : WordStep i w { w with newest := max w.newest e }
  | publish (k : K) (e : ℕ) :
    (w.pending k = some (i, .unpublished) → ∀ e', w.entries.get k = some e' → e' = e) →
    e ≤ w.newest → WordStep i w { w with
      earliest := min w.earliest e
      pending := w.pending.advance i k .unpublished (some .published) }
  | revise (k : K) : WordStep i w { w with
      completed := w.completed + 1
      pending := w.pending.advance i k .published (some .revised) }
  | finish (k : K) : WordStep i w { w with
      pending := w.pending.advance i k .revised none }
  | lock : w.lock = none → WordStep i w { w with lock := some i }
  | unlock : w.lock = some i → w.Below → WordStep i w { w with lock := none }
  | drop (k : K) : WordStep i w { w with entries := w.entries.remove k }

variable {i : ℕ} {w w' : Words K}

variable {k k' : K} {next : Option WritePhase} {phase : WritePhase} {e : ℕ}

theorem advance_self {p : Pending K} (h : p k = some (i, phase)) :
    p.advance i k phase next k = next.map (i, ·) := by
  rw [Pending.advance, if_pos h, update_self]

/-- Only the writer itself comes to another phase. -/
theorem advance_eq {p : Pending K} (h : p k' ≠ some (i, phase) ∨ k' ≠ k) :
    p.advance i k phase next k' = p k' := by
  unfold Pending.advance
  split_ifs with hk
  · by_cases hkk : k' = k
    · subst hkk
      exact absurd hk (h.resolve_right fun h => h rfl)
    · rw [update_of_ne hkk]
  · rfl

theorem advance_cases (p : Pending K) (i : ℕ) (k k' : K) (phase : WritePhase)
    (next : Option WritePhase) :
    (k' = k ∧ p k = some (i, phase) ∧ p.advance i k phase next k' = next.map (i, ·)) ∨
      p.advance i k phase next k' = p k' := by
  by_cases h : k' = k ∧ p k = some (i, phase)
  · obtain ⟨rfl, hk⟩ := h
    exact .inl ⟨rfl, hk, advance_self hk⟩
  · refine .inr (advance_eq ?_)
    by_cases hk : k' = k
    · exact .inl fun hp => h ⟨hk, hk ▸ hp⟩
    · exact .inr hk

section
variable (h : WordStep i w w')
include h

theorem WordStep.completed_le : w.completed ≤ w'.completed := by
  cases h <;> first | exact Nat.le_refl _ | exact Nat.le_succ _

theorem WordStep.earliest_le : w'.earliest ≤ w.earliest := by
  cases h <;> first | exact Nat.le_refl _ | exact Nat.min_le_left _ _

theorem WordStep.newest_le : w.newest ≤ w'.newest := by
  cases h <;> first | exact Nat.le_refl _ | exact Nat.le_max_left _ _

/-- **What becomes of an entry**: it is written, or it stays and its writer may come to the next
    phase. -/
theorem WordStep.entry (hget : w'.entries.get k = some e) :
    w'.pending k = some (i, .unpublished) ∨
      w.entries.get k = some e ∧ (w'.pending k = w.pending k ∨
        w'.pending k = some (i, .published) ∧ w'.earliest ≤ e ∧ e ≤ w'.newest ∨
        w.pending k = some (i, .published) ∧ w.completed < w'.completed ∨
        w.pending k = some (i, .revised)) := by
  cases h with
  | quiet | note _ | lock _ | unlock _ _ => exact .inr ⟨hget, .inl rfl⟩
  | write k' e' =>
    by_cases hk : k = k'
    · exact .inl (by rw [hk]; exact update_self ..)
    · rw [HMap.get_insert_ne hk] at hget
      exact .inr ⟨hget, .inl (update_of_ne hk ..)⟩
  | publish k' e' hv hnw =>
    refine .inr ⟨hget, ?_⟩
    rcases advance_cases w.pending i k' k .unpublished (some .published) with
      ⟨rfl, hp, hn⟩ | hs
    · obtain rfl := hv hp e hget
      exact .inr (.inl ⟨hn, Nat.min_le_right _ _, hnw⟩)
    · exact .inl hs
  | revise k' =>
    refine .inr ⟨hget, ?_⟩
    rcases advance_cases w.pending i k' k .published (some .revised) with ⟨rfl, hp, -⟩ | hs
    · exact .inr (.inr (.inl ⟨hp, Nat.lt_succ_self _⟩))
    · exact .inl hs
  | finish k' =>
    refine .inr ⟨hget, ?_⟩
    rcases advance_cases w.pending i k' k .revised none with ⟨rfl, hp, -⟩ | hs
    · exact .inr (.inr (.inr hp))
    · exact .inl hs
  | drop k' =>
    rw [HMap.get_remove_eq] at hget
    split_ifs at hget
    exact .inr ⟨hget, .inl rfl⟩

/-- What is known of the published entries, and of those that are published now. -/
theorem WordStep.bound {P P' : Prop} (hget : w'.entries.get k = some e)
    (hb : w.entries.get k = some e → w.Unpublished k ∨ P) (hP : P → P')
    (hnw : w'.earliest ≤ e → e ≤ w'.newest → P') : w'.Unpublished k ∨ P' := by
  rcases h.entry hget with hn | ⟨hold, hs⟩
  · exact .inl ⟨i, hn⟩
  · rcases hs with hs | ⟨-, hlo, hhi⟩ | ⟨hp, -⟩ | hp
    · exact (hb hold).imp (fun ⟨j, hj⟩ => ⟨j, hs.trans hj⟩) hP
    · exact .inr (hnw hlo hhi)
    all_goals
      refine .inr (hP ((hb hold).resolve_left ?_))
      rintro ⟨j, hj⟩
      cases hp.symm.trans hj

theorem WordStep.below (hb : w.Below) : w'.Below := fun k e hget =>
  h.bound hget (hb k e) h.earliest_le.trans fun hle _ => hle

theorem WordStep.above (ha : w.Above) : w'.Above := fun k e hget =>
  h.bound hget (ha k e) (fun hle => hle.trans h.newest_le) fun _ hle => hle

/-- What a prune has accounted for is kept: a writer that comes in between is seen by its revision
    in the end. -/
theorem WordStep.covers {r : ℕ} {Q Q' : K → ℕ → Prop} (hc : w.Covers r Q)
    (hQ : ∀ k e, Q k e → Q' k e) : w'.Covers r Q' := by
  refine ⟨hc.1.trans h.completed_le, fun hr k e hget => ?_⟩
  have hr' : w.completed = r := by
    have := h.completed_le
    have := hc.1
    omega
  rcases h.entry hget with hn | ⟨hold, hs | ⟨hp, -⟩ | ⟨-, hlt⟩ | hp⟩
  · exact .inl ⟨i, _, hn, nofun⟩
  · refine (hc.2 hr' k e hold).imp (fun ⟨j, phase, hj, hne⟩ => ⟨j, phase, ?_, hne⟩) (hQ k e)
    exact hs.trans hj
  · exact .inl ⟨i, _, hp, nofun⟩
  · omega
  · rcases hc.2 hr' k e hold with ⟨j, phase, hj, hne⟩ | hq
    · cases hp.symm.trans hj
      exact absurd rfl hne
    · exact .inr (hQ k e hq)

/-! ## What threads know -/

/-- The entries that a prune still has to deal with, or that its bound does not cover. -/
def Stage (shard : K → Fin n) (w : Words K) : Pc K → Prop
  | .scan c epoch j expired liveMin => epoch.1 = 0 → w.Covers epoch.2 fun k e =>
      j ≤ (shard k).val ∨ k ∈ expired ∧ e ≤ c.nowMillis ∨ liveMin ≤ e
  | .reclaim c epoch expired liveMin | .subtract c epoch expired liveMin
  | .current c epoch _ expired liveMin => epoch.1 = 0 → w.Covers epoch.2 fun k e =>
      k ∈ expired ∧ e ≤ c.nowMillis ∨ liveMin ≤ e
  | .publishActive _ epoch liveMin => epoch.1 = 0 → w.Covers epoch.2 fun _ e => liveMin ≤ e
  | .publishCompleted _ epoch liveMin _ | .publishStore _ epoch liveMin =>
    epoch.1 = 0 ∧ w.Covers epoch.2 fun _ e => liveMin ≤ e
  | .verifyActive _ epoch => epoch.1 = 0 ∧ w.Covers epoch.2 fun _ e => w.earliest ≤ e
  | .verifyCompleted _ epoch active => epoch.1 = 0 ∧
      (active = 0 → epoch.2 ≤ w.completed ∧ (w.completed = epoch.2 → w.Below))
  | _ => True

/-- What thread `i` knows. -/
structure Knows (shard : K → Fin n) (i : ℕ) (w : Words K) (pc : Pc K) : Prop where
  lock : pc.pruning = true → w.lock = some i
  window : w.lock = some i → pc.inWindow = true ∨ w.Below
  /-- a write that is not finished is the one the thread is at -/
  pending : ∀ k phase, w.pending k = some (i, phase) →
    ∃ e, pc.wrote = some (k, e, phase) ∧ ∀ e', w.entries.get k = some e' → e' = e
  noted : ∀ c e b, pc = .noteEarliest c e b → e ≤ w.newest
  stage : Stage shard w pc

/-- What holds of the words alone. -/
structure Bounded (w : Words K) : Prop where
  below : w.lock = none → w.Below
  above : w.Above

variable {shard : K → Fin n} {pc pc' : Pc K} {j : ℕ}

theorem WordStep.lock_none (hlc : w'.lock = none) : w.lock = none ∨ w.Below := by
  cases h with
  | lock _ => cases hlc
  | unlock _ hb => exact .inr hb
  | _ => exact .inl hlc

theorem WordStep.lock_of_ne (hj : j ≠ i) : w'.lock = some j ↔ w.lock = some j := by
  cases h with
  | lock hn =>
    rw [hn]
    constructor
    · rintro ⟨⟩
      exact absurd rfl hj
    · exact nofun
  | unlock hs _ =>
    rw [hs]
    constructor
    · exact nofun
    · rintro ⟨⟩
      exact absurd rfl hj
  | _ => exact Iff.rfl

end

theorem advance_of_ne {p : Pending K} {phase' : WritePhase} (hj : j ≠ i)
    (h : p.advance i k phase next k' = some (j, phase')) : p k' = some (j, phase') := by
  rcases advance_cases p i k k' phase next with ⟨-, -, hn⟩ | hs
  · rw [hn] at h
    obtain ⟨phase'', -, heq⟩ := Option.map_eq_some_iff.1 h
    cases heq
    exact absurd rfl hj
  · exact hs.symm.trans h

/-- The writes of other threads, and their entries. -/
theorem WordStep.pending_of_ne (h : WordStep i w w') (hj : j ≠ i)
    (hp : w'.pending k = some (j, phase)) :
    w.pending k = some (j, phase) ∧ ∀ e, w'.entries.get k = some e → w.entries.get k = some e := by
  cases h with
  | write k' e' =>
    have hk : k ≠ k' := by
      rintro rfl
      have hs : update w.pending k (some (i, .unpublished)) k = some (j, phase) := hp
      rw [update_self] at hs
      cases hs
      exact hj rfl
    refine ⟨(update_of_ne hk ..).symm.trans hp, fun e he => ?_⟩
    exact (HMap.get_insert_ne hk).symm.trans he
  | publish | revise | finish => exact ⟨advance_of_ne hj hp, fun _ he => he⟩
  | drop k' =>
    refine ⟨hp, fun e he => ?_⟩
    rw [HMap.get_remove_eq] at he
    split_ifs at he
    exact he
  | _ => exact ⟨hp, fun _ he => he⟩

theorem stage_of_not_pruning (h : pc.pruning = false) : Stage shard w pc := by
  cases pc <;> first | exact trivial | cases h

theorem WordStep.stage (h : WordStep i w w') (hs : Stage shard w pc) : Stage shard w' pc := by
  cases pc with
  | scan | reclaim | subtract | current | publishActive =>
    exact fun hz => h.covers (hs hz) fun _ _ hq => hq
  | publishCompleted | publishStore => exact ⟨hs.1, h.covers hs.2 fun _ _ hq => hq⟩
  | verifyActive c epoch => exact ⟨hs.1, h.covers hs.2 fun _ _ hq => h.earliest_le.trans hq⟩
  | verifyCompleted c epoch active =>
    refine ⟨hs.1, fun ha => ?_⟩
    obtain ⟨hle, hb⟩ := hs.2 ha
    have hm := h.completed_le
    exact ⟨hle.trans hm, fun heq => h.below (hb (by omega))⟩
  | _ => exact trivial

/-- **Other threads** still know what they know. -/
theorem WordStep.knows (h : WordStep i w w') (hj : j ≠ i) (hk : Knows shard j w pc) :
    Knows shard j w' pc := by
  refine ⟨fun hpc => (h.lock_of_ne hj).2 (hk.lock hpc), fun hlc => ?_, fun k phase hp => ?_,
    fun c e b hpc => (hk.noted c e b hpc).trans h.newest_le, h.stage hk.stage⟩
  · exact (hk.window ((h.lock_of_ne hj).1 hlc)).imp_right h.below
  · obtain ⟨hold, hget⟩ := h.pending_of_ne hj hp
    obtain ⟨e, hw, he⟩ := hk.pending k phase hold
    exact ⟨e, hw, fun e' he' => he e' (hget e' he')⟩

theorem WordStep.bounded (h : WordStep i w w') (hb : Bounded w) : Bounded w' :=
  ⟨fun hlc => h.below ((h.lock_none hlc).elim hb.below id), h.above hb.above⟩

/-- A store of the thread that has the lock is nothing to the others. -/
theorem Knows.store (hk : Knows shard j w pc) (hlc : w.lock = some i) (hj : j ≠ i) :
    Knows shard j { w with earliest := e } pc := by
  have hne : w.lock ≠ some j := by
    rw [hlc]
    rintro ⟨⟩
    exact hj rfl
  have hpc : pc.pruning = false := by
    by_contra h
    exact hne (hk.lock (by simpa using h))
  exact ⟨hk.lock, fun h => absurd h hne, hk.pending, hk.noted, stage_of_not_pruning hpc⟩

end

end Ferrum.Replay
