/-
  When a target is ejected.

  A failure counts by one exchange of the word and publishes its ejection later; a success ends the
  generation first and removes its ejection later; the timer does both under the lock of the entry.
  In between, the map lags behind the word, and some report or scan is left to catch up:

  * an ejection of a past generation has a thread that will remove it (`stale_owed`);
  * a streak past the threshold without its ejection has a thread that will publish it
    (`unpublished_owed`).

  Hence, with nothing in progress, the map says exactly what the word says.
-/
import Ferrum.Health.Passive

namespace Ferrum.Health

open Lib Function Shared Option

variable {K : Type*} {T i : ℕ} {spurious : Bool} {g g' : Shared K} {k : K}

/-! ## What is known -/

variable {n : ℕ}

theorem published_eq_false_iff : g.published k n = false ↔
    ∀ e, g.unhealthy k = some e → ∀ m, e.consecutiveGeneration = some m → m < n := by
  unfold published PassiveEjection.since
  cases hk : g.unhealthy k with
  | none => simp
  | some e => cases hm : e.consecutiveGeneration <;> simp [hm]

/-- A generation that reached the threshold, and may have been ended since. -/
def Reached (T : ℕ) (g : Shared K) (k : K) (generation : ℕ) : Prop :=
  generation ≤ g.generation k ∧ (generation = g.generation k → T ≤ g.streak k)

structure SharedOk (T : ℕ) (g : Shared K) : Prop where
  generation_le : ∀ k, g.generation k ≤ consecutiveGenMax
  entry : ∀ k e, g.unhealthy k = some e →
    ∃ generation, e.consecutiveGeneration = some generation ∧ Reached T g k generation

theorem streak_le : g.streak k ≤ consecutiveStreakMax := Nat.and_le_right

/-- The thread holds the lock of an entry of the generation. -/
def Holding (i : ℕ) (g : Shared K) (k : K) (generation : ℕ) : Prop :=
  g.locked k = some i ∧
    ∃ e, g.unhealthy k = some e ∧ e.consecutiveGeneration = some generation

/-- What a report or a scan of thread `i` knows. -/
def PcOk (T i : ℕ) (g : Shared K) : Pc K → Prop
  | .failLoad _ cfg | .failCas _ cfg _ => cfg.unhealthyThreshold = T
  | .publishedGet k _ generation | .publishClock k _ generation => Reached T g k generation
  | .publishEntry k generation e =>
    Reached T g k generation ∧ e.consecutiveGeneration = some generation
  | .publishLoad k generation e | .publishInsert k generation e =>
    Reached T g k generation ∧ e.consecutiveGeneration = some generation ∧
      g.locked k = some i ∧ g.published k generation = false
  | .publishVerify k generation => generation ≤ g.generation k
  | .retract k generation | .succContains k generation | .succRemove k generation =>
    generation < g.generation k
  | .retireLoad _ k generation _ => Holding i g k generation
  | .retireCas _ k generation current _ =>
    Holding i g k generation ∧ (unpackConsecutiveState current).1 = generation
  | .recoverRemove _ k generation _ => Holding i g k generation ∧ generation < g.generation k
  | _ => True

theorem pcOk_startReport {status : ℕ} {err : Bool} {cfg : Option PassiveHealthCheck}
    (h : ∀ c, cfg = some c → c.unhealthyThreshold = T) :
    PcOk T i g (startReport k status err cfg) := by
  cases cfg with
  | none => trivial
  | some c =>
    simp only [startReport]
    split_ifs
    · trivial
    · exact h c rfl
    · trivial

/-- What a step of thread `i` leaves to the others: generations only advance, a streak only grows
    within its generation, and a locked entry stays. -/
structure Later (i : ℕ) (g g' : Shared K) : Prop where
  generation : ∀ k, g.generation k ≤ g'.generation k
  streak : ∀ k, g'.generation k = g.generation k → g.streak k ≤ g'.streak k
  locked : ∀ k j, j ≠ i → g.locked k = some j →
    g'.locked k = some j ∧ g'.unhealthy k = g.unhealthy k

theorem Later.refl : Later i g g := ⟨fun _ => le_rfl, fun _ _ => le_rfl, fun _ _ _ h => ⟨h, rfl⟩⟩

theorem Reached.later (h : Reached T g k n) (hl : Later i g g') : Reached T g' k n := by
  refine ⟨h.1.trans (hl.generation k), fun hn => ?_⟩
  have hs : g'.generation k = g.generation k := le_antisymm (hn ▸ h.1) (hl.generation k)
  exact (h.2 (hn.trans hs)).trans (hl.streak k hs)

variable {j : ℕ}

theorem Holding.later (hj : j ≠ i) (h : Holding j g k n) (hl : Later i g g') :
    Holding j g' k n := by
  obtain ⟨hlc, e, he, hn⟩ := h
  obtain ⟨hlc', he'⟩ := hl.locked k j hj hlc
  exact ⟨hlc', e, he'.trans he, hn⟩

/-- What a thread knows stays true while others go on. -/
theorem PcOk.later {pc : Pc K} (hj : j ≠ i) (h : PcOk T j g pc) (hl : Later i g g') :
    PcOk T j g' pc := by
  cases pc with
  | publishedGet k _ n | publishClock k _ n => exact Reached.later h hl
  | publishEntry k n e => exact ⟨h.1.later hl, h.2⟩
  | publishLoad k n e | publishInsert k n e =>
    obtain ⟨hr, he, hlc, hp⟩ := h
    obtain ⟨hlc', he'⟩ := hl.locked k j hj hlc
    refine ⟨hr.later hl, he, hlc', ?_⟩
    rw [published, he']; exact hp
  | publishVerify k n => exact le_trans h (hl.generation k)
  | retract k n | succContains k n | succRemove k n => exact lt_of_lt_of_le h (hl.generation k)
  | retireLoad now k n rest => exact Holding.later hj h hl
  | retireCas now k n current rest => exact ⟨h.1.later hj hl, h.2⟩
  | recoverRemove now k n rest => exact ⟨h.1.later hj hl, lt_of_lt_of_le h.2 (hl.generation k)⟩
  | _ => exact h

/-- A step that leaves the words alone, and of locks and entries only touches those of `k`, which
    no other thread holds. -/
theorem later_of_entry (hw : g'.consecutiveState = g.consecutiveState)
    (hk : g.locked k = none ∨ g.locked k = some i)
    (hlc : ∀ k', k' ≠ k → g'.locked k' = g.locked k')
    (he : ∀ k', k' ≠ k → g'.unhealthy k' = g.unhealthy k') : Later i g g' := by
  have hgn : ∀ k', g'.generation k' = g.generation k' := fun k' => by
    rw [generation, hw]; rfl
  have hs : ∀ k', g'.streak k' = g.streak k' := fun k' => by rw [streak, hw]; rfl
  refine ⟨fun k' => (hgn k').ge, fun k' _ => (hs k').ge, fun k' j hj hl => ?_⟩
  have hne : k' ≠ k := by
    rintro rfl
    rcases hk with hk | hk <;> rw [hk] at hl <;> cases hl
    exact hj rfl
  exact ⟨(hlc k' hne).trans hl, he k' hne⟩

/-- Entries that were there, or whose generation reached the threshold. -/
theorem SharedOk.of_entry (hg : SharedOk T g) (hw : g'.consecutiveState = g.consecutiveState)
    (he : ∀ k e, g'.unhealthy k = some e → g.unhealthy k = some e ∨
      ∃ n, e.consecutiveGeneration = some n ∧ Reached T g k n) : SharedOk T g' := by
  have hgn : g'.generation = g.generation := by funext k; rw [generation, hw]; rfl
  have hs : g'.streak = g.streak := by funext k; rw [streak, hw]; rfl
  refine ⟨fun k => ?_, fun k e hk => ?_⟩
  · rw [hgn]; exact hg.generation_le k
  · unfold Reached
    rw [hgn, hs]
    rcases he k e hk with h | h
    · exact hg.entry k e h
    · exact h

/-! ## The operations on the shared state -/

section
variable [DecidableEq K]

theorem update_eq_some {V : Type*} {f : K → Option V} {v : Option V} {e : V} {k' : K}
    (h : update f k v k' = some e) : k' = k ∧ v = some e ∨ k' ≠ k ∧ f k' = some e := by
  rw [update_apply] at h
  split_ifs at h with hk
  · exact .inl ⟨hk, h⟩
  · exact .inr ⟨hk, h⟩

namespace Shared

variable {m n : ℕ}

/-- The streak that a failure leaves. -/
def failedStreak (g : Shared K) (k : K) : ℕ := min (min (g.streak k + 1) u32Max) consecutiveStreakMax

theorem unpack_update {w : K → ℕ} (hn : n ≤ consecutiveGenMax) (hm : m ≤ consecutiveStreakMax)
    (k' : K) :
    unpackConsecutiveState (update w k (packConsecutiveState n m) k') =
      if k' = k then (n, m) else unpackConsecutiveState (w k') := by
  rw [update_apply]
  split_ifs
  · exact unpack_pack hn hm
  · rfl

theorem generation_fail (hg : g.generation k ≤ consecutiveGenMax) :
    (g.fail k (g.failedStreak k)).generation = g.generation := by
  funext k'
  refine (congrArg Prod.fst (unpack_update hg (min_le_right _ _) k')).trans ?_
  split_ifs with h
  · subst h; rfl
  · rfl

theorem streak_fail (hg : g.generation k ≤ consecutiveGenMax) :
    (g.fail k (g.failedStreak k)).streak = update g.streak k (g.failedStreak k) := by
  funext k'
  refine (congrArg Prod.snd (unpack_update hg (min_le_right _ _) k')).trans ?_
  rw [update_apply]
  split_ifs <;> rfl

theorem unpack_retire (hn : n < consecutiveGenMax) (k' : K) :
    unpackConsecutiveState ((g.retire k n).consecutiveState k') =
      if k' = k then (n + 1, 0) else unpackConsecutiveState (g.consecutiveState k') := by
  have hnx : nextConsecutiveGeneration n = n + 1 := if_neg (Nat.not_le.2 hn)
  rw [retire, hnx]
  exact unpack_update hn (Nat.zero_le _) k'

theorem generation_retire (hn : n < consecutiveGenMax) :
    (g.retire k n).generation = update g.generation k (n + 1) := by
  funext k'
  refine (congrArg Prod.fst (unpack_retire hn k')).trans ?_
  rw [update_apply]
  split_ifs <;> rfl

theorem streak_retire (hn : n < consecutiveGenMax) :
    (g.retire k n).streak = update g.streak k 0 := by
  funext k'
  refine (congrArg Prod.snd (unpack_retire hn k')).trans ?_
  rw [update_apply]
  split_ifs <;> rfl

end Shared

/-! ### Each is harmless to the other threads -/

theorem later_fail (hg : g.generation k ≤ consecutiveGenMax) :
    Later i g (g.fail k (g.failedStreak k)) where
  generation k' := by rw [generation_fail hg]
  streak k' _ := by
    rw [streak_fail hg, update_apply]
    split_ifs with h
    · subst h
      have hmax : consecutiveStreakMax < u32Max := by decide
      exact le_min (le_min (Nat.le_succ _) (streak_le.trans hmax.le)) streak_le
    · exact le_rfl
  locked _ _ _ h := ⟨h, rfl⟩

theorem later_retire (hg : g.generation k < consecutiveGenMax) :
    Later i g (g.retire k (g.generation k)) where
  generation k' := by
    rw [generation_retire hg, update_apply]
    split_ifs with h
    · subst h; exact Nat.le_succ _
    · exact le_rfl
  streak k' hk' := by
    rw [generation_retire hg, update_apply] at hk'
    rw [streak_retire hg, update_apply]
    split_ifs at hk' ⊢ with h
    · subst h; omega
    · exact le_rfl
  locked _ _ _ h := ⟨h, rfl⟩

/-! ## One operation -/

variable {pc pc' : Pc K}

/-- What an operation of thread `i` finds, and where the thread goes. -/
inductive Op (i : ℕ) (g : Shared K) : Pc K → Shared K → Pc K → Prop
  | failLoad {k : K} {cfg} : Op i g (.failLoad k cfg) g (.failCas k cfg (g.consecutiveState k))
  | failRetry {k : K} {cfg current} : Op i g (.failCas k cfg current) g (.failLoad k cfg)
  | failed {k : K} {cfg : PassiveHealthCheck} :
      Op i g (.failCas k cfg (g.consecutiveState k)) (g.fail k (g.failedStreak k))
        (if cfg.unhealthyThreshold ≤ g.failedStreak k then .publishedGet k cfg (g.generation k)
        else .idle)
  | isPublished {k : K} {cfg n} : g.published k n = true → Op i g (.publishedGet k cfg n) g .idle
  | notPublished {k : K} {cfg n} : Op i g (.publishedGet k cfg n) g (.publishClock k cfg n)
  | clock {k : K} {cfg n} {e : PassiveEjection} : e.consecutiveGeneration = some n →
      Op i g (.publishClock k cfg n) g (.publishEntry k n e)
  | entryPublished {k : K} {n e} : g.published k n = true → Op i g (.publishEntry k n e) g .idle
  | entryLocked {k : K} {n e} : g.locked k = none → g.published k n = false →
      Op i g (.publishEntry k n e) (g.lock k i) (.publishLoad k n e)
  | loadPast {k : K} {n e} : g.generation k ≠ n → Op i g (.publishLoad k n e) (g.unlock k) .idle
  | loadLive {k : K} {n e} : Op i g (.publishLoad k n e) g (.publishInsert k n e)
  | inserted {k : K} {n e} :
      Op i g (.publishInsert k n e) ((g.setEntry k (some e)).unlock k) (.publishVerify k n)
  | verifyPast {k : K} {n} : g.generation k ≠ n → Op i g (.publishVerify k n) g (.retract k n)
  | verifyLive {k : K} {n} : g.generation k = n → Op i g (.publishVerify k n) g .idle
  | retracted {k : K} {n} : g.locked k = none →
      Op i g (.retract k n) (g.removeIf k fun e => e.consecutiveGeneration == some n) .idle
  | succLoad {k : K} : Op i g (.succLoad k) g (.succCas k (g.consecutiveState k))
  | succRetry {k : K} {current} : Op i g (.succCas k current) g (.succLoad k)
  | retired {k : K} : Op i g (.succCas k (g.consecutiveState k)) (g.retire k (g.generation k))
      (.succContains k (g.generation k))
  | contains {k : K} {n} : Op i g (.succContains k n) g (.succRemove k n)
  | containsNone {k : K} {n} : g.unhealthy k = none → Op i g (.succContains k n) g .idle
  | succRemoved {k : K} {n} : g.locked k = none →
      Op i g (.succRemove k n) (g.removeIf k fun e => e.consecutiveGeneration == some n) .idle
  | scanClock : Op i g .scanClock g (.scan g.clock [])
  | recoverEnd {now} : Op i g (.recover now []) g .idle
  | recoverSkip {now p rest} : Op i g (.recover now (p :: rest)) g (.recover now rest)
  | recoverLock {k : K} {now snapshotted rest n e} : g.locked k = none → g.unhealthy k = some e →
      e.consecutiveGeneration = some n →
      Op i g (.recover now ((k, snapshotted) :: rest)) (g.lock k i) (.retireLoad now k n rest)
  | windowRemoved {k : K} {now snapshotted rest} {p : PassiveEjection → Bool} : g.locked k = none →
      (∀ e, p e = true → e.consecutiveGeneration = none) →
      Op i g (.recover now ((k, snapshotted) :: rest)) (g.removeIf k p) (.recover now rest)
  | timerPast {k : K} {now n rest} : g.generation k ≠ n →
      Op i g (.retireLoad now k n rest) g (.recoverRemove now k n rest)
  | timerLoad {k : K} {now rest} : Op i g (.retireLoad now k (g.generation k) rest) g
      (.retireCas now k (g.generation k) (g.consecutiveState k) rest)
  | timerRetry {k : K} {now n current rest} :
      Op i g (.retireCas now k n current rest) g (.retireLoad now k n rest)
  | timerRetired {k : K} {now n rest} : Op i g (.retireCas now k n (g.consecutiveState k) rest)
      (g.retire k n) (.recoverRemove now k n rest)
  | recovered {k : K} {now n rest} : Op i g (.recoverRemove now k n rest)
      ((g.setEntry k none).unlock k) (.recover now rest)

theorem exec_op (h : exec i spurious g pc = some (g', pc')) : Op i g pc g' pc' := by
  cases pc with
  | idle | scan now pending => cases h
  | failLoad k cfg => cases h; exact .failLoad
  | failCas k cfg current =>
    simp only [exec] at h
    by_cases hc : g.consecutiveState k = current ∧ spurious = false
    · rw [if_pos hc] at h; cases h
      rw [← hc.1]; exact .failed
    · rw [if_neg hc] at h; cases h
      exact .failRetry
  | publishedGet k cfg n =>
    simp only [exec] at h
    split_ifs at h with hl hp <;> cases h
    · exact .isPublished hp
    · exact .notPublished
  | publishClock k cfg n => cases h; exact .clock rfl
  | publishEntry k n e =>
    simp only [exec] at h
    split_ifs at h with hl hp <;> cases h
    · exact .entryPublished hp
    · exact .entryLocked (not_not.1 hl) (Bool.eq_false_iff.2 hp)
  | publishLoad k n e =>
    simp only [exec] at h
    split_ifs at h with hne <;> cases h
    · exact .loadPast hne
    · exact .loadLive
  | publishInsert k n e => cases h; exact .inserted
  | publishVerify k n =>
    simp only [exec] at h
    split_ifs at h with hne <;> cases h
    · exact .verifyPast hne
    · exact .verifyLive (not_not.1 hne)
  | retract k n =>
    simp only [exec] at h
    split_ifs at h with hl; cases h
    exact .retracted (not_not.1 hl)
  | succLoad k => cases h; exact .succLoad
  | succCas k current =>
    simp only [exec] at h
    split_ifs at h with hc <;> cases h
    · rw [← hc.1]; exact .retired
    · exact .succRetry
  | succContains k n =>
    simp only [exec] at h
    split_ifs at h with hl hs <;> cases h
    · exact .contains
    · exact .containsNone (not_isSome_iff_eq_none.1 hs)
  | succRemove k n =>
    simp only [exec] at h
    split_ifs at h with hl; cases h
    exact .succRemoved (not_not.1 hl)
  | scanClock => cases h; exact .scanClock
  | recover now pending =>
    cases pending with
    | nil => cases h; exact .recoverEnd
    | cons p rest =>
      obtain ⟨k, snapshotted⟩ := p
      simp only [exec] at h
      split_ifs at h with hl
      split at h
      · split at h
        · next current hcr =>
          split_ifs at h with hd <;> cases h
          · simp only [Bool.and_eq_true, beq_iff_eq] at hd
            exact .recoverLock (not_not.1 hl) hcr hd.2
          · exact .recoverSkip
        · cases h; exact .recoverSkip
      · cases h
        refine .windowRemoved (not_not.1 hl) fun e he => ?_
        simp only [Bool.and_eq_true, isNone_iff_eq_none] at he
        exact he.2
  | retireLoad now k n rest =>
    simp only [exec] at h
    split_ifs at h with hne <;> cases h
    · exact .timerPast hne
    · rw [← not_not.1 hne]; exact .timerLoad
  | retireCas now k n current rest =>
    simp only [exec] at h
    split_ifs at h with hc <;> cases h
    · rw [← hc.1]; exact .timerRetired
    · exact .timerRetry
  | recoverRemove now k n rest => cases h; exact .recovered

/-- The operation is not the exchange that wraps the generation. -/
def NoWrapAt (g : Shared K) : Pc K → Prop
  | .succCas k _ | .retireCas _ k _ _ _ => g.generation k < consecutiveGenMax
  | _ => True

theorem SharedOk.retire (hg : SharedOk T g) (hw : g.generation k < consecutiveGenMax)
    (hl : Later i g (g.retire k (g.generation k))) :
    SharedOk T (g.retire k (g.generation k)) := by
  refine ⟨fun k' => ?_, fun k' e he => ?_⟩
  · rw [generation_retire hw, update_apply]
    split_ifs
    · exact hw
    · exact hg.generation_le k'
  · obtain ⟨n, hn, hr⟩ := hg.entry k' e he
    exact ⟨n, hn, hr.later hl⟩

theorem lt_generation_retire (hw : g.generation k < consecutiveGenMax) :
    g.generation k < (g.retire k (g.generation k)).generation k := by
  rw [generation_retire hw, update_self]
  exact Nat.lt_succ_self _

section
variable (hg : SharedOk T g) (hpc : PcOk T i g pc) (hw : NoWrapAt g pc)
include hg hpc hw

theorem Op.later (h : Op i g pc g' pc') : Later i g g' := by
  cases h with
  | failed => exact later_fail (hg.generation_le _)
  | retired => exact later_retire hw
  | timerRetired =>
    obtain ⟨-, rfl⟩ := hpc
    exact later_retire hw
  | entryLocked hl _ | recoverLock hl _ _ =>
    exact later_of_entry rfl (.inl hl) (fun _ hne => update_of_ne hne _ _) fun _ _ => rfl
  | loadPast _ =>
    exact later_of_entry rfl (.inr hpc.2.2.1) (fun _ hne => update_of_ne hne _ _) fun _ _ => rfl
  | inserted =>
    exact later_of_entry rfl (.inr hpc.2.2.1) (fun _ hne => update_of_ne hne _ _)
      fun _ hne => update_of_ne hne _ _
  | retracted hl | succRemoved hl | windowRemoved hl _ =>
    exact later_of_entry rfl (.inl hl) (fun _ _ => rfl) fun _ hne => update_of_ne hne _ _
  | recovered =>
    exact later_of_entry rfl (.inr hpc.1.1) (fun _ hne => update_of_ne hne _ _)
      fun _ hne => update_of_ne hne _ _
  | _ => exact .refl

theorem Op.sharedOk (h : Op i g pc g' pc') : SharedOk T g' := by
  have hl := h.later hg hpc hw
  cases h with
  | @failed k cfg =>
    refine ⟨fun k' => ?_, fun k' e he => ?_⟩
    · rw [generation_fail (hg.generation_le k)]; exact hg.generation_le k'
    · obtain ⟨n, hn, hr⟩ := hg.entry k' e he
      exact ⟨n, hn, hr.later hl⟩
  | retired => exact hg.retire hw hl
  | timerRetired =>
    obtain ⟨-, rfl⟩ := hpc
    exact hg.retire hw hl
  | entryLocked _ _ | recoverLock _ _ _ | loadPast _ => exact hg.of_entry rfl fun _ _ => .inl
  | @inserted k n e =>
    refine hg.of_entry rfl fun k' e' he' => ?_
    rcases update_eq_some he' with ⟨rfl, h⟩ | ⟨-, h⟩
    · cases h; exact .inr ⟨n, hpc.2.1, hpc.1⟩
    · exact .inl h
  | retracted _ | succRemoved _ | windowRemoved _ _ =>
    refine hg.of_entry rfl fun k' e' he' => .inl ?_
    rcases update_eq_some he' with ⟨rfl, h⟩ | ⟨-, h⟩
    · exact (filter_eq_some_iff.1 h).1
    · exact h
  | recovered =>
    refine hg.of_entry rfl fun k' e' he' => .inl ?_
    rcases update_eq_some he' with ⟨-, he'⟩ | ⟨-, he'⟩
    · cases he'
    · exact he'
  | _ => exact hg

/-- What a thread knows at its next program point. -/
theorem Op.pcOk (h : Op i g pc g' pc') : PcOk T i g' pc' := by
  cases h with
  | failLoad | failRetry | notPublished | loadLive | contains => exact hpc
  | timerRetry => exact hpc.1
  | @failed k cfg =>
    split_ifs with ht
    · show Reached T _ k _
      unfold Reached
      rw [generation_fail (hg.generation_le k), streak_fail (hg.generation_le k), update_self]
      exact ⟨le_rfl, fun _ => hpc ▸ ht⟩
    · trivial
  | clock he => exact ⟨hpc, he⟩
  | entryLocked _ hp => exact ⟨hpc.1, hpc.2, update_self _ _ _, hp⟩
  | inserted => exact hpc.1.1
  | verifyPast hne => exact lt_of_le_of_ne hpc (Ne.symm hne)
  | retired => exact lt_generation_retire hw
  | recoverLock _ he hn => exact ⟨update_self _ _ _, _, he, hn⟩
  | timerPast hne =>
    obtain ⟨hlc, e, he, hn⟩ := hpc
    obtain ⟨m, hm, hr⟩ := hg.entry _ e he
    cases some.inj (hn.symm.trans hm)
    exact ⟨⟨hlc, e, he, hn⟩, lt_of_le_of_ne hr.1 (Ne.symm hne)⟩
  | timerLoad => exact ⟨hpc, rfl⟩
  | timerRetired =>
    obtain ⟨hold, rfl⟩ := hpc
    exact ⟨hold, lt_generation_retire hw⟩
  | _ => trivial

end

/-! ## Ejections of past generations -/

/-- The map holds an ejection of a past generation: `d` is a key with that generation. -/
def Stale (d : K × ℕ) (g : Shared K) : Prop :=
  d.2 < g.generation d.1 ∧
    ∃ e, g.unhealthy d.1 = some e ∧ e.consecutiveGeneration = some d.2

/-- The thread will remove an ejection of this generation if it finds one. -/
def Cleans (d : K × ℕ) : Pc K → Prop
  | .publishVerify k n | .retract k n | .succContains k n | .succRemove k n
  | .recoverRemove _ k n _ => d = (k, n)
  | _ => False

variable {d : K × ℕ} {p : PassiveEjection → Bool}

theorem Stale.of_removeIf (h : Stale d (g.removeIf k p)) :
    Stale d g ∧ (d.1 = k → ∀ e, g.unhealthy k = some e → p e = false) := by
  obtain ⟨hlt, e, he, hd⟩ := h
  rcases update_eq_some he with ⟨hk, he⟩ | ⟨hk, he⟩
  · obtain ⟨he', hp⟩ := filter_eq_some_iff.1 he
    refine ⟨⟨hlt, e, hk ▸ he', hd⟩, fun _ e' h' => ?_⟩
    rw [he'] at h'; cases h'
    simpa using hp
  · exact ⟨⟨hlt, e, he, hd⟩, fun hk' => absurd hk' hk⟩

/-- Removing the ejection of a generation leaves none of that generation. -/
theorem Stale.of_remove {n : ℕ}
    (h : Stale d (g.removeIf k fun e => e.consecutiveGeneration == some n)) :
    Stale d g ∧ d ≠ (k, n) := by
  obtain ⟨hd, hp⟩ := h.of_removeIf
  refine ⟨hd, ?_⟩
  rintro rfl
  obtain ⟨-, e, he, hn⟩ := hd
  have := hp rfl e he
  simp [hn] at this

theorem Stale.of_retire (hw : g.generation k < consecutiveGenMax)
    (h : Stale d (g.retire k (g.generation k))) : d = (k, g.generation k) ∨ Stale d g := by
  obtain ⟨hlt, e, he, hd⟩ := h
  rw [generation_retire hw, update_apply] at hlt
  split_ifs at hlt with hk
  · rcases Nat.lt_succ_iff_lt_or_eq.1 hlt with hlt | heq
    · exact .inr ⟨hk ▸ hlt, e, he, hd⟩
    · exact .inl (Prod.ext hk heq)
  · exact .inr ⟨hlt, e, he, hd⟩

/-- An ejection of a past generation that a step leaves was there before, or the thread is going to
    remove it. -/
theorem Op.stale (h : Op i g pc g' pc') (hg : SharedOk T g) (hpc : PcOk T i g pc)
    (hw : NoWrapAt g pc) (hd : Stale d g') : Cleans d pc' ∨ Stale d g ∧ ¬ Cleans d pc := by
  cases h with
  | @failed k cfg =>
    unfold Stale at hd
    rw [generation_fail (hg.generation_le k)] at hd
    exact .inr ⟨hd, id⟩
  | @inserted k n e =>
    obtain ⟨hlt, e', he', hn⟩ := hd
    rcases update_eq_some he' with ⟨hk, he'⟩ | ⟨-, he'⟩
    · cases he'
      exact .inl (Prod.ext hk (some.inj (hn.symm.trans hpc.2.1)))
    · exact .inr ⟨⟨hlt, e', he', hn⟩, id⟩
  | @verifyPast k n _ | @contains k n => exact (em (d = (k, n))).imp id fun hne => ⟨hd, hne⟩
  | verifyLive hlv =>
    refine .inr ⟨hd, ?_⟩
    rintro rfl
    exact hd.1.ne' hlv
  | retracted _ | succRemoved _ => exact .inr hd.of_remove
  | containsNone hnn =>
    refine .inr ⟨hd, ?_⟩
    rintro rfl
    obtain ⟨-, e, he, -⟩ := hd
    rw [hnn] at he
    cases he
  | retired => exact (hd.of_retire hw).imp id fun h => ⟨h, id⟩
  | timerRetired =>
    obtain ⟨-, rfl⟩ := hpc
    exact (hd.of_retire hw).imp id fun h => ⟨h, id⟩
  | windowRemoved _ _ => exact .inr ⟨hd.of_removeIf.1, id⟩
  | @recovered k now n rest =>
    obtain ⟨hlt, e, he, hn⟩ := hd
    rcases update_eq_some he with ⟨-, he⟩ | ⟨hk, he⟩
    · cases he
    exact .inr ⟨⟨hlt, e, he, hn⟩, fun h => hk (congrArg Prod.fst h)⟩
  | _ => exact .inr ⟨hd, id⟩

/-! ## Streaks without their ejection -/

/-- The live generation reached the threshold, and its ejection is not in the map. -/
def Unpublished (T : ℕ) (d : K × ℕ) (g : Shared K) : Prop :=
  d.2 = g.generation d.1 ∧ T ≤ g.streak d.1 ∧ g.published d.1 d.2 = false

/-- The thread is about to publish an ejection of this generation. -/
def Publishes (d : K × ℕ) : Pc K → Prop
  | .publishedGet k _ n | .publishClock k _ n | .publishEntry k n _ | .publishLoad k n _
  | .publishInsert k n _ => d = (k, n)
  | _ => False

/-- Removing an ejection of a past generation takes nothing from the live one. -/
theorem Unpublished.of_removeIf
    (hp : ∀ e n, p e = true → e.consecutiveGeneration = some n → n < g.generation k)
    (h : Unpublished T d (g.removeIf k p)) : Unpublished T d g := by
  obtain ⟨hgn, hT, hpb⟩ := h
  refine ⟨hgn, hT, published_eq_false_iff.2 fun e he m hm => ?_⟩
  by_cases hpe : d.1 = k ∧ p e = true
  · obtain ⟨hk, hpe⟩ := hpe
    rw [show d.2 = g.generation k from hk ▸ hgn]
    exact hp e m hpe hm
  · -- the entry is still there
    refine published_eq_false_iff.1 hpb e ?_ m hm
    change update g.unhealthy k _ d.1 = some e
    rw [update_apply]
    split_ifs with hk
    · exact filter_eq_some_iff.2 ⟨hk ▸ he, by simpa using fun h => hpe ⟨hk, h⟩⟩
    · exact he

theorem Unpublished.of_retire (hT : 1 ≤ T) (hw : g.generation k < consecutiveGenMax)
    (h : Unpublished T d (g.retire k (g.generation k))) : Unpublished T d g := by
  obtain ⟨hgn, hle, hp⟩ := h
  rw [generation_retire hw, update_apply] at hgn
  rw [streak_retire hw, update_apply] at hle
  split_ifs at hgn hle with hk
  · omega
  · exact ⟨hgn, hle, hp⟩

/-- A streak that a step leaves without its ejection had none before, or the thread is going to
    publish it. -/
theorem Op.unpublished (hT : 1 ≤ T) (h : Op i g pc g' pc') (hg : SharedOk T g)
    (hpc : PcOk T i g pc) (hw : NoWrapAt g pc) (hd : Unpublished T d g') :
    Publishes d pc' ∨ Unpublished T d g ∧ ¬ Publishes d pc := by
  cases h with
  | @failed k cfg =>
    obtain ⟨hgn, hle, hpb⟩ := hd
    rw [generation_fail (hg.generation_le k)] at hgn
    rw [streak_fail (hg.generation_le k), update_apply] at hle
    split_ifs at hle with hk
    · obtain rfl : cfg.unhealthyThreshold = T := hpc
      rw [if_pos hle]
      exact .inl (Prod.ext hk (hk ▸ hgn))
    · exact .inr ⟨⟨hgn, hle, hpb⟩, id⟩
  | isPublished hp | entryPublished hp =>
    refine .inr ⟨hd, ?_⟩
    rintro rfl
    rw [hd.2.2] at hp
    cases hp
  | @notPublished k _ n | @clock k _ n _ _ | @entryLocked k n _ _ _ | @loadLive k n _ =>
    exact (em (d = (k, n))).imp id fun hne => ⟨hd, hne⟩
  | loadPast hne =>
    refine .inr ⟨hd, ?_⟩
    rintro rfl
    exact hne hd.1.symm
  | @inserted k n e =>
    obtain ⟨hgn, hle, hpb⟩ := hd
    have hpb' := published_eq_false_iff.1 hpb
    by_cases hk : d.1 = k
    · -- the inserted ejection is older than the live generation
      have hlt : n < d.2 :=
        hpb' e (by rw [hk]; exact update_self _ _ _) n hpc.2.1
      refine .inr ⟨⟨hgn, hle, published_eq_false_iff.2 fun e' he' m hm => ?_⟩, ?_⟩
      · exact (published_eq_false_iff.1 hpc.2.2.2 e' (hk ▸ he') m hm).trans hlt
      · rintro rfl; exact lt_irrefl _ hlt
    · refine .inr ⟨⟨hgn, hle, published_eq_false_iff.2 fun e' he' => ?_⟩, ?_⟩
      · exact hpb' e' ((update_of_ne hk _ _).trans he')
      · rintro rfl; exact hk rfl
  | @retracted k n _ | @succRemoved k n _ =>
    refine .inr ⟨hd.of_removeIf fun e m hp hm => ?_, id⟩
    obtain rfl : m = n := some.inj (hm.symm.trans (beq_iff_eq.1 hp))
    exact hpc
  | retired => exact .inr ⟨hd.of_retire hT hw, id⟩
  | timerRetired =>
    obtain ⟨-, rfl⟩ := hpc
    exact .inr ⟨hd.of_retire hT hw, id⟩
  | windowRemoved _ hp =>
    -- every ejection has a generation, so the scan removes none of these
    refine .inr ⟨hd.of_removeIf fun e m he hm => ?_, id⟩
    rw [hp e he] at hm
    cases hm
  | @recovered k now n rest =>
    obtain ⟨⟨-, e, he, hn⟩, hlt⟩ := hpc
    obtain ⟨hgn, hle, hpb⟩ := hd
    refine .inr ⟨⟨hgn, hle, published_eq_false_iff.2 fun e' he' m hm => ?_⟩, id⟩
    by_cases hk : d.1 = k
    · rw [hk, he] at he'; cases he'
      rw [hn] at hm; cases hm
      rw [hgn]; exact hk ▸ hlt
    · exact published_eq_false_iff.1 hpb e' ((update_of_ne hk _ _).trans he') m hm
  | _ => exact .inr ⟨hd, id⟩

/-! ## Runs -/

/-- The reports of a run use the threshold `T`. -/
def Threshold (T : ℕ) : Act K → Prop
  | .run _ (.report _ _ _ (some cfg)) => cfg.unhealthyThreshold = T
  | _ => True

/-- The step does not wrap a generation. -/
def NoWrap (s : Sys K) : Act K → Prop
  | .run i (.go _) => NoWrapAt s.shared (s.thread i)
  | _ => True

instance : ∀ a : Act K, Decidable (Threshold T a)
  | .run _ (.report _ _ _ (some cfg)) => inferInstanceAs (Decidable (cfg.unhealthyThreshold = T))
  | .run _ (.report _ _ _ none) | .run _ .startScan | .run _ (.visit _) | .run _ .collected
  | .run _ (.go _) | .env _ => isTrue trivial

instance : ∀ pc : Pc K, Decidable (NoWrapAt g pc) := fun pc => by
  unfold NoWrapAt
  split <;> infer_instance

instance (s : Sys K) : ∀ a : Act K, Decidable (NoWrap s a)
  | .run i (.go _) => inferInstanceAs (Decidable (NoWrapAt s.shared (s.thread i)))
  | .run _ (.report _ _ _ _) | .run _ .startScan | .run _ (.visit _) | .run _ .collected
  | .env _ => isTrue trivial

/-- What is asked of the steps of a run. -/
def Admissible (T : ℕ) (s : Sys K) (a : Act K) : Prop := Threshold T a ∧ NoWrap s a

instance (s : Sys K) (a : Act K) : Decidable (Admissible T s a) := inferInstanceAs (Decidable (_ ∧ _))

/-- What a step of a thread is: an operation, or the start of a report or scan, or a move of the
    scan's iterator. -/
theorem checker_step {c : Choice K} (h : checker.step i g pc c = some (g', pc')) :
    (∃ spurious, c = .go spurious ∧ exec i spurious g pc = some (g', pc')) ∨
      g' = g ∧ (pc = .idle ∨ ∃ now pending, pc = .scan now pending) ∧
        ((∃ k status err cfg, c = .report k status err cfg ∧ pc' = startReport k status err cfg) ∨
          pc' = .scanClock ∨ (∃ now pending, pc' = .scan now pending) ∨
          ∃ now pending, pc' = .recover now pending) := by
  cases c with
  | go spurious => exact .inl ⟨spurious, rfl, h⟩
  | report k status err cfg =>
    cases pc <;> cases h
    exact .inr ⟨rfl, .inl rfl, .inl ⟨_, _, _, _, rfl, rfl⟩⟩
  | startScan =>
    cases pc <;> cases h
    exact .inr ⟨rfl, .inl rfl, .inr (.inl rfl)⟩
  | visit k =>
    simp only [checker] at h
    split at h
    · cases h
      exact .inr ⟨rfl, .inr ⟨_, _, rfl⟩, .inr (.inr (.inl ⟨_, _, rfl⟩))⟩
    · cases h
  | collected =>
    cases pc <;> cases h
    exact .inr ⟨rfl, .inr ⟨_, _, rfl⟩, .inr (.inr (.inr ⟨_, _, rfl⟩))⟩

variable {s : Sys K}

theorem checker_holds (hr : Reach Sys.step (Admissible T) Sys.init s) :
    Pool.Holds (SharedOk T) (PcOk T) s := by
  have hgn : (unpackConsecutiveState 0).1 ≤ consecutiveGenMax := by decide
  refine Pool.inv hr ⟨⟨fun _ => hgn, nofun⟩, fun _ => trivial⟩ ?_ ?_
  · intro x i c g' pc' _ hok hI hP hst
    rcases checker_step hst with ⟨sp, rfl, hx⟩ | ⟨rfl, -, hpc'⟩
    · have hop := exec_op hx
      have hl := hop.later hI hP hok.2
      exact ⟨hop.sharedOk hI hP hok.2, hop.pcOk hI hP hok.2, fun j m hj hm => hm.later hj hl⟩
    · refine ⟨hI, ?_, fun _ _ _ => id⟩
      rcases hpc' with ⟨k, status, err, cfg, rfl, rfl⟩ | rfl | ⟨_, _, rfl⟩ | ⟨_, _, rfl⟩
      · exact pcOk_startReport fun c hc => by subst hc; exact hok.1
      all_goals trivial
  · intro x e g' _ hI he
    have hl : ∀ i, Later i x.shared g' := fun i => by
      cases e <;> cases he <;> exact ⟨fun _ => le_rfl, fun _ _ => le_rfl, fun _ _ _ h => ⟨h, rfl⟩⟩
    refine ⟨?_, fun j pc hm => hm.later (Nat.succ_ne_self j).symm (hl (j + 1))⟩
    cases e <;> cases he <;> exact ⟨hI.generation_le, hI.entry⟩

theorem stale_owed (hr : Reach Sys.step (Admissible T) Sys.init s) :
    ∀ d, Stale d s.shared → ∃ i, Cleans d (s.thread i) := by
  refine Pool.owed hr (fun d hd => ?_) ?_ ?_
  · obtain ⟨-, e, he, -⟩ := hd; cases he
  · intro x i c g' pc' hx hok hst d hd
    have hI := checker_holds hx
    rcases checker_step hst with ⟨sp, rfl, he⟩ | ⟨rfl, hpc, -⟩
    · exact (exec_op he).stale hI.shared (hI.thread i) hok.2 hd
    · exact .inr ⟨hd, by rcases hpc with h | ⟨_, _, h⟩ <;> rw [h] <;> exact id⟩
  · intro g e g' hen d hd
    cases e <;> cases hen <;> exact hd

theorem unpublished_owed (hT : 1 ≤ T)
    (hr : Reach Sys.step (Admissible T) Sys.init s) :
    ∀ d, Unpublished T d s.shared → ∃ i, Publishes d (s.thread i) := by
  have h0 : (unpackConsecutiveState 0).2 = 0 := by decide
  refine Pool.owed hr (fun d hd => ?_) ?_ ?_
  · have : T ≤ (unpackConsecutiveState 0).2 := hd.2.1
    omega
  · intro x i c g' pc' hx hok hst d hd
    have hI := checker_holds hx
    rcases checker_step hst with ⟨sp, rfl, he⟩ | ⟨rfl, hpc, -⟩
    · exact (exec_op he).unpublished hT hI.shared (hI.thread i) hok.2 hd
    · exact .inr ⟨hd, by rcases hpc with h | ⟨_, _, h⟩ <;> rw [h] <;> exact id⟩
  · intro g e g' hen d hd
    cases e <;> cases hen <;> exact hd

/-! ## Reports and exchanges -/

/-- What a target is credited with. -/
inductive Credit (K : Type*) where
  | failure (k : K)
  | success (k : K)
  | recovery (k : K)
  deriving DecidableEq, Repr

/-- What a response is, by the arguments of its report: nothing without a policy, or if it failed and
    failures do not count. -/
def reported (k : K) (statusCode : ℕ) (connectionError : Bool) :
    Option PassiveHealthCheck → Option (Credit K)
  | none => none
  | some cfg =>
    if connectionError || cfg.unhealthyStatusCodes.contains statusCode then
      if cfg.consecutive5xxEjectionDisabled then none else some (.failure k)
    else some (.success k)

/-- The key of the word that an operation exchanges, if it finds the word it expects. -/
def exchanged (spurious : Bool) (g : Shared K) : Pc K → Option K
  | .failCas k _ current | .succCas k current | .retireCas _ k _ current _ =>
    if g.consecutiveState k = current ∧ spurious = false then some k else none
  | _ => none

/-- What an observer knows: the report that each thread is in, all reports, and the exchanges, the
    last one first.  An exchange is credited to the report in which it happens, or to the timer. -/
structure Log (K : Type*) where
  report : ℕ → Option (Credit K)
  reports : List (Credit K)
  exchanges : List (Credit K)

def Log.init : Log K := ⟨fun _ => none, [], []⟩

def Log.note (log : Log K) (s : Sys K) : Act K → Log K
  | .run i (.report k statusCode connectionError cfg) =>
    let credit := reported k statusCode connectionError cfg
    { log with report := update log.report i credit, reports := credit.toList ++ log.reports }
  | .run i .startScan => { log with report := update log.report i none }
  | .run i (.go spurious) =>
    { log with exchanges := ((exchanged spurious s.shared (s.thread i)).map fun k =>
        (log.report i).getD (.recovery k)).toList ++ log.exchanges }
  | _ => log

/-- The failures of a target since its last success or timer recovery. -/
def failuresSince (k : K) : List (Credit K) → ℕ
  | [] => 0
  | .failure k' :: credits => if k' = k then failuresSince k credits + 1 else failuresSince k credits
  | .success k' :: credits | .recovery k' :: credits =>
    if k' = k then 0 else failuresSince k credits

/-- What a report has yet to exchange. -/
def Pc.owes : Pc K → Option (Credit K)
  | .failLoad k _ | .failCas k _ _ => some (.failure k)
  | .succLoad k | .succCas k _ => some (.success k)
  | _ => none

def Pc.scans : Pc K → Bool
  | .scanClock | .scan .. | .recover .. | .retireLoad .. | .retireCas .. | .recoverRemove .. => true
  | _ => false

omit [DecidableEq K] in
theorem owes_startReport (k : K) (statusCode : ℕ) (connectionError : Bool)
    (cfg : Option PassiveHealthCheck) :
    (startReport k statusCode connectionError cfg).owes =
        reported k statusCode connectionError cfg ∧
      (startReport k statusCode connectionError cfg).scans = false := by
  cases cfg with
  | none => exact ⟨rfl, rfl⟩
  | some cfg =>
    simp only [startReport, reported]
    cases connectionError || cfg.unhealthyStatusCodes.contains statusCode <;>
      cases cfg.consecutive5xxEjectionDisabled <;> exact ⟨rfl, rfl⟩

/-- An operation that exchanges a word is a failure, a success or a recovery, and then nothing is
    owed; any other leaves the words and what is owed. -/
theorem exec_exchanged (h : exec i spurious g pc = some (g', pc')) :
    (pc'.scans = true → pc.scans = true) ∧
    (exchanged spurious g pc = none ∧ g'.consecutiveState = g.consecutiveState ∧
        pc'.owes = pc.owes ∨
      ∃ k, exchanged spurious g pc = some k ∧ pc'.owes = none ∧
        ((∃ cfg, pc = .failCas k cfg (g.consecutiveState k)) ∧
            g' = g.fail k (g.failedStreak k) ∨
          pc = .succCas k (g.consecutiveState k) ∧ g' = g.retire k (g.generation k) ∨
          ∃ now n rest, pc = .retireCas now k n (g.consecutiveState k) rest ∧
            g' = g.retire k n)) := by
  cases pc with
  | failCas k cfg current =>
    simp only [exec] at h
    split_ifs at h with hc ht <;> cases h
    · exact ⟨nofun, .inr ⟨k, if_pos hc, rfl, .inl ⟨⟨cfg, by rw [hc.1]⟩, rfl⟩⟩⟩
    · exact ⟨nofun, .inr ⟨k, if_pos hc, rfl, .inl ⟨⟨cfg, by rw [hc.1]⟩, rfl⟩⟩⟩
    · exact ⟨nofun, .inl ⟨if_neg hc, rfl, rfl⟩⟩
  | succCas k current =>
    simp only [exec] at h
    split_ifs at h with hc <;> cases h
    · exact ⟨nofun, .inr ⟨k, if_pos hc, rfl, .inr (.inl ⟨by rw [hc.1], rfl⟩)⟩⟩
    · exact ⟨nofun, .inl ⟨if_neg hc, rfl, rfl⟩⟩
  | retireCas now k n current rest =>
    simp only [exec] at h
    split_ifs at h with hc <;> cases h
    · exact ⟨fun _ => rfl, .inr ⟨k, if_pos hc, rfl, .inr (.inr ⟨now, n, rest, by rw [hc.1], rfl⟩)⟩⟩
    · exact ⟨fun _ => rfl, .inl ⟨if_neg hc, rfl, rfl⟩⟩
  | _ =>
    cases exec_op h <;>
      exact ⟨by first | exact id | exact fun _ => rfl, .inl ⟨rfl, rfl, rfl⟩⟩

/-- What is known with the log. -/
structure LogOk (x : Sys K × Log K) : Prop where
  streak : ∀ k, x.1.shared.streak k = min (failuresSince k x.2.exchanges) consecutiveStreakMax
  owes : ∀ i c, (x.1.thread i).owes = some c → x.2.report i = some c
  scans : ∀ i, (x.1.thread i).scans = true → x.2.report i = none
  counted : ∀ c, (∀ k, c ≠ .recovery k) → ∃ m, x.1.Counts (fun pc => pc.owes = some c) m ∧
    x.2.exchanges.count c + m = x.2.reports.count c

omit [DecidableEq K] in
theorem streak_eq_of_state (h : g'.consecutiveState = g.consecutiveState) (k : K) :
    g'.streak k = g.streak k := by
  rw [streak, h]
  rfl

variable {s' : Sys K} {x : Sys K × Log K}

/-- A step of thread `i`, by what it changes. -/
theorem LogOk.of_run {log : Log K} (h : LogOk x) (ht : s'.thread = update x.1.thread i pc')
    (hrep : ∀ j ≠ i, log.report j = x.2.report j)
    (howes : ∀ c, pc'.owes = some c → log.report i = some c)
    (hscans : pc'.scans = true → log.report i = none)
    (hstreak : ∀ k, s'.shared.streak k = min (failuresSince k log.exchanges) consecutiveStreakMax)
    (hcount : ∀ c, (∀ k, c ≠ .recovery k) →
      log.exchanges.count c + (decide (pc'.owes = some c)).toNat + x.2.reports.count c =
        x.2.exchanges.count c + (decide ((x.1.thread i).owes = some c)).toNat +
          log.reports.count c) : LogOk (s', log) := by
  refine ⟨hstreak, fun j c => ?_, fun j => ?_, fun c hc => ?_⟩
  · simp only [ht, update_apply]
    split_ifs with hj
    · exact hj ▸ howes c
    · exact hrep j hj ▸ h.owes j c
  · simp only [ht, update_apply]
    split_ifs with hj
    · exact hj ▸ hscans
    · exact hrep j hj ▸ h.scans j
  · obtain ⟨m, hm, heq⟩ := h.counted c hc
    obtain ⟨m', hm', hup⟩ := hm.update ht
    have := hcount c hc
    exact ⟨m', hm', by dsimp only at hup ⊢; omega⟩

theorem toNat_count_cons (c c' : Credit K) (l : List (Credit K)) :
    (c' :: l).count c = l.count c + (decide (some c' = some c)).toNat := by
  rw [List.count_cons]
  by_cases h : c' = c <;> simp [h]

/-- What an exchange does to the streaks, and to the count of failures. -/
theorem streak_credit (h : LogOk x) (hg : SharedOk T x.1.shared) {c : Credit K}
    (hc : c = .failure k ∧ g' = x.1.shared.fail k (x.1.shared.failedStreak k) ∨
      (c = .success k ∨ c = .recovery k) ∧ x.1.shared.generation k < consecutiveGenMax ∧
        g' = x.1.shared.retire k (x.1.shared.generation k)) (k' : K) :
    g'.streak k' = min (failuresSince k' (c :: x.2.exchanges)) consecutiveStreakMax := by
  have hs := h.streak k'
  have hmax : consecutiveStreakMax < u32Max := by decide
  rcases hc with ⟨rfl, rfl⟩ | ⟨hc, hw, rfl⟩
  · rw [streak_fail (hg.generation_le k), update_apply, failuresSince]
    by_cases hk : k' = k
    · subst hk
      rw [if_pos rfl, if_pos rfl, failedStreak]
      omega
    · rw [if_neg hk, if_neg (Ne.symm hk), hs]
  · have hf : failuresSince k' (c :: x.2.exchanges) =
        if k = k' then 0 else failuresSince k' x.2.exchanges := by
      rcases hc with rfl | rfl <;> rfl
    rw [streak_retire hw, update_apply, hf]
    by_cases hk : k' = k
    · rw [if_pos hk, if_pos hk.symm, Nat.zero_min]
    · rw [if_neg hk, if_neg (Ne.symm hk), hs]

/-- An exchange of thread `i`, credited with `c`. -/
theorem LogOk.credit {c : Credit K} (h : LogOk x) (ht : s'.thread = update x.1.thread i pc')
    (hk : exchanged spurious x.1.shared (x.1.thread i) = some k) (ho : pc'.owes = none)
    (hsc : pc'.scans = true → x.2.report i = none) (hc : (x.2.report i).getD (.recovery k) = c)
    (hs : ∀ k', s'.shared.streak k' =
      min (failuresSince k' (c :: x.2.exchanges)) consecutiveStreakMax)
    (ho' : (x.1.thread i).owes = some c ∨ (x.1.thread i).owes = none ∧ c = .recovery k) :
    LogOk (s', x.2.note x.1 (.run i (.go spurious))) := by
  have hnote : x.2.note x.1 (.run i (.go spurious)) =
      { x.2 with exchanges := c :: x.2.exchanges } := by simp [Log.note, hk, hc]
  rw [hnote]
  refine h.of_run ht (fun _ _ => rfl) (fun c hc => ?_) hsc hs fun c' hc' => ?_
  · rw [ho] at hc
    cases hc
  · rw [toNat_count_cons, ho]
    rcases ho' with ho' | ⟨ho', rfl⟩
    · rw [ho']
      rfl
    · rw [ho', decide_eq_false fun heq => hc' k (some.inj heq).symm]
      rfl

theorem LogOk.go (h : LogOk x) (hI : Pool.Holds (SharedOk T) (PcOk T) x.1)
    (hw : NoWrapAt x.1.shared (x.1.thread i)) (ht : s'.thread = update x.1.thread i pc')
    (hs : exec i spurious x.1.shared (x.1.thread i) = some (s'.shared, pc')) :
    LogOk (s', x.2.note x.1 (.run i (.go spurious))) := by
  obtain ⟨hsc, hex⟩ := exec_exchanged hs
  replace hsc : pc'.scans = true → x.2.report i = none := fun hc => h.scans i (hsc hc)
  rcases hex with ⟨hn, hst, ho⟩ | ⟨k, hk, ho, hcase⟩
  · have hnote : x.2.note x.1 (.run i (.go spurious)) = x.2 := by simp [Log.note, hn]
    rw [hnote]
    refine h.of_run ht (fun _ _ => rfl) (fun c hc => h.owes i c (ho ▸ hc)) hsc
      (fun k => (streak_eq_of_state hst k).trans (h.streak k)) fun c hc => ?_
    rw [ho]
  · have hpk := hI.thread i
    rcases hcase with ⟨⟨cfg, hpc⟩, hg⟩ | ⟨hpc, hg⟩ | ⟨now, n, rest, hpc, hg⟩
    · have hr : x.2.report i = some (.failure k) := h.owes i _ (hpc ▸ rfl)
      exact h.credit ht hk ho hsc (by rw [hr]; rfl) (streak_credit h hI.shared (.inl ⟨rfl, hg⟩))
        (.inl (hpc ▸ rfl))
    · have hr : x.2.report i = some (.success k) := h.owes i _ (hpc ▸ rfl)
      rw [hpc] at hw
      exact h.credit ht hk ho hsc (by rw [hr]; rfl)
        (streak_credit h hI.shared (.inr ⟨.inl rfl, hw, hg⟩)) (.inl (hpc ▸ rfl))
    · rw [hpc] at hw hpk
      obtain rfl : x.1.shared.generation k = n := hpk.2
      exact h.credit ht hk ho hsc (by rw [h.scans i (hpc ▸ rfl)]; rfl)
        (streak_credit h hI.shared (.inr ⟨.inr rfl, hw, hg⟩)) (.inr ⟨hpc ▸ rfl, rfl⟩)

theorem LogOk.step {a : Act K} (h : LogOk x) (hI : Pool.Holds (SharedOk T) (PcOk T) x.1)
    (hw : NoWrap x.1 a) (hst : x.1.step a = some s') : LogOk (s', x.2.note x.1 a) := by
  obtain ⟨g', threads⟩ := s'
  rcases Pool.step_some hst with ⟨i, c, pc', rfl, hs, ht⟩ | ⟨e, rfl, he, ht⟩
  · generalize hpc : x.1.thread i = pc at hs
    dsimp only at hs
    cases c with
    | go spurious =>
      subst hpc
      exact h.go hI hw ht hs
    | report k statusCode connectionError cfg =>
      cases pc <;> cases hs
      obtain ⟨ho, hsc⟩ := owes_startReport k statusCode connectionError cfg
      refine h.of_run ht (fun j hj => update_of_ne hj _ _) (fun c hc => ?_) (fun hc => ?_) h.streak
        fun c hc => ?_
      · exact (update_self ..).trans (ho.symm.trans hc)
      · rw [hsc] at hc
        cases hc
      · rw [ho, hpc]
        simp only [Log.note]
        cases reported k statusCode connectionError cfg with
        | none => rfl
        | some c' =>
          rw [toList_some, List.singleton_append, toNat_count_cons]
          simp only [Pc.owes, reduceCtorEq, decide_false, Bool.toNat_false]
          omega
    | startScan =>
      cases pc <;> cases hs
      refine h.of_run ht (fun j hj => update_of_ne hj _ _) nofun (fun _ => update_self ..) h.streak
        fun c hc => ?_
      rw [hpc]
      rfl
    | visit k =>
      simp only [checker] at hs
      split at hs
      · cases hs
        refine h.of_run ht (fun _ _ => rfl) nofun (fun _ => h.scans i (hpc ▸ rfl)) h.streak
          fun c hc => ?_
        rw [hpc]
        rfl
      · cases hs
    | collected =>
      cases pc <;> cases hs
      refine h.of_run ht (fun _ _ => rfl) nofun (fun _ => h.scans i (hpc ▸ rfl)) h.streak
        fun c hc => ?_
      rw [hpc]
      rfl
  · cases e <;> cases he <;> cases ht <;> exact ⟨h.streak, h.owes, h.scans, h.counted⟩

theorem logOk (hr : Reach (observed Sys.step Log.note)
    (fun x a => Admissible T x.1 a) (Sys.init, .init) x) : LogOk x := by
  have h0 : (unpackConsecutiveState 0).2 = 0 := by decide
  refine hr.inv ⟨fun k => h0, nofun, fun _ _ => rfl, fun c _ => ?_⟩ fun x a y hx h hok hst => ?_
  · exact ⟨0, Pool.counts_zero fun _ => rfl, rfl⟩
  · obtain ⟨s, hs, rfl⟩ := map_eq_some_iff.1 hst
    exact h.step (checker_holds hx.of_observed) hok.2 hs

/-- **Ejection follows the streak.**  In every run of reports with threshold `T` and of timer scans,
    in which no generation wraps, whenever nothing is in progress: each report has made one exchange;
    a target is in the unhealthy map iff the failures since its last success or timer recovery, in
    the order of their exchanges, are at least `T`; and then its ejection carries the live
    generation. -/
theorem quiescent_ejected_iff (hT : 1 ≤ T) (hT' : T < 2 ^ 24) {s : Sys K} {log : Log K}
    (hr : Reach (observed Sys.step Log.note) (fun x a => Admissible T x.1 a)
      (Sys.init, .init) (s, log))
    (hidle : ∀ i, s.thread i = .idle) (k : K) :
    (log.exchanges.count (.failure k) = log.reports.count (.failure k) ∧
      log.exchanges.count (.success k) = log.reports.count (.success k)) ∧
    ((s.shared.unhealthy k).isSome ↔ T ≤ failuresSince k log.exchanges) ∧
      ∀ e, s.shared.unhealthy k = some e →
        e.consecutiveGeneration = some (s.shared.generation k) := by
  have hlog := logOk hr
  have hcount {c : Credit K} (hc : ∀ k, c ≠ .recovery k) :
      log.exchanges.count c = log.reports.count c := by
    obtain ⟨m, ⟨ts, hts, rfl⟩, heq⟩ := hlog.counted c hc
    have : ts = ∅ := Finset.eq_empty_of_forall_notMem fun i hi => by
      simpa [hidle i, Pc.owes] using (hts i).1 hi
    simpa [this] using heq
  replace hr := hr.of_observed
  have hI := (checker_holds hr).shared
  have hs : s.shared.streak k = min (failuresSince k log.exchanges) consecutiveStreakMax :=
    hlog.streak k
  have hmax : consecutiveStreakMax = 2 ^ 24 - 1 := rfl
  -- nobody is left to remove an ejection, so none is of a past generation
  have hlv : ∀ e, s.shared.unhealthy k = some e →
      e.consecutiveGeneration = some (s.shared.generation k) ∧ T ≤ s.shared.streak k := by
    intro e he
    obtain ⟨n, hn, hle, hrc⟩ := hI.entry k e he
    have heq : n = s.shared.generation k := by
      by_contra hne
      obtain ⟨i, hi⟩ := stale_owed hr (k, n) ⟨lt_of_le_of_ne hle hne, e, he, hn⟩
      rw [hidle i] at hi; exact hi
    exact ⟨heq ▸ hn, hrc heq⟩
  refine ⟨⟨hcount nofun, hcount nofun⟩, ⟨fun h => ?_, fun h => ?_⟩, fun e he => (hlv e he).1⟩
  · obtain ⟨e, he⟩ := isSome_iff_exists.1 h
    have := (hlv e he).2
    omega
  · -- nobody is left to publish, so the ejection of the live generation is there
    by_contra hnn
    rw [Bool.not_eq_true, isSome_eq_false_iff, isNone_iff_eq_none] at hnn
    obtain ⟨i, hi⟩ := unpublished_owed hT hr (k, s.shared.generation k)
      ⟨rfl, by show T ≤ s.shared.streak k; omega, published_eq_false_iff.2 fun e he => by
        rw [hnn] at he; cases he⟩
    rw [hidle i] at hi; exact hi

end

/-- Ejects at the second failure, for ten seconds. -/
def twoFailures : PassiveHealthCheck := ⟨[503], 2, 10, false⟩

/-- A failure, a success, and two failures. -/
def failAgain : List (Act Unit) :=
  .run 0 (.report () 503 false (some twoFailures)) :: List.replicate 2 (.run 0 (.go false)) ++
    .run 0 (.report () 200 false (some twoFailures)) :: List.replicate 3 (.run 0 (.go false)) ++
    .run 0 (.report () 503 false (some twoFailures)) :: List.replicate 2 (.run 0 (.go false)) ++
    .run 1 (.report () 503 false (some twoFailures)) :: List.replicate 8 (.run 1 (.go false))

theorem failAgain_isSome :
    (Lib.exec (guarded (fun x a => Admissible 2 x.1 a) (observed Sys.step Log.note))
      (Sys.init, .init) failAgain).isSome := by
  decide +kernel

/-- The state after it, with the log. -/
def failedAgain : Sys Unit × Log Unit :=
  (Lib.exec (guarded (fun x a => Admissible 2 x.1 a) (observed Sys.step Log.note))
    (Sys.init, .init) failAgain).get failAgain_isSome

theorem failedAgain_idle (i : ℕ) : failedAgain.1.thread i = .idle := by
  match i with
  | 0 => decide +kernel
  | 1 => decide +kernel
  | i + 2 =>
    have hx := exec_of_observed (some_get failAgain_isSome).symm
    refine Pool.thread_exec hx fun a ha c h => ?_
    subst h
    simp [failAgain] at ha

theorem quiescent_ejected_iff_failAgain :
    failedAgain.2.reports = [.failure (), .failure (), .success (), .failure ()] ∧
      failedAgain.2.exchanges.count (.success ()) = 1 ∧
      (failedAgain.1.shared.unhealthy ()).isSome ∧ failedAgain.1.shared.generation () = 1 := by
  obtain ⟨⟨-, hs⟩, hu, -⟩ := quiescent_ejected_iff (by decide) (by decide)
    (reach_guarded failAgain_isSome) failedAgain_idle ()
  exact ⟨by decide +kernel, hs.trans (by decide +kernel), hu.2 (by decide +kernel), by decide +kernel⟩

end Ferrum.Health
