/-
  The probes of a HALF_OPEN cycle.

  The in-flight count is shared by all cycles, and a release carries no generation: a probe that
  outlives its cycle gives back a slot of a later one (`straggler`), and the breaker then admits
  one probe too many.  While no such release succeeds, the count is the number of unsettled
  probes of the cycle, so the limit holds.
-/
import Ferrum.Breaker.Word

namespace Ferrum.Breaker

open Lib Finset

/-! ## Callers -/

/-- A caller that got `Ok(true)` settles with the flag set, every other caller without; nobody
    settles twice. -/
def Settles (s : Sys) : Act → Prop
  | .run i (.call c) => (c.isHalfOpenProbe = true ↔ i ∈ s.shared.hist.unsettled)
  | _ => True

instance : ∀ s a, Decidable (Settles s a)
  | s, .run i (.call c) =>
    inferInstanceAs (Decidable (c.isHalfOpenProbe = true ↔ i ∈ s.shared.hist.unsettled))
  | _, .run _ (.go _) => isTrue trivial
  | _, .env _ => isTrue trivial

/-- The step is not the release of a slot by a probe of an earlier cycle. -/
def ReleasesCurrent (s : Sys) : Act → Prop
  | .run i (.go false) =>
    match (s.thread i).pc with
    | .relCas prev _ =>
      s.shared.breaker.packed = prev → i ∈ s.shared.hist.unsettled → i ∈ s.shared.hist.inCycle
    | _ => True
  | _ => True

instance : ∀ s a, Decidable (ReleasesCurrent s a) := fun s a => by
  unfold ReleasesCurrent
  split
  · split <;> infer_instance
  · infer_instance

/-- Whether the caller has a probe to settle, where the call depends on it. -/
def Pc.probe : Pc → Option Bool
  | .ceLoad | .ceNow _ | .ceLast _ _ | .ceCas _ _ | .slotLoad | .slotCas _ => some false
  | .rsLoad probe | .rfLoad probe | .rfClock _ probe | .rfTick _ _ _ probe | .rfEpoch _ _ _ probe =>
    if probe then some true else none
  | .relLoad _ | .relCas _ _ => some true
  | _ => none

theorem probe_start {cfg : CircuitBreakerConfig} {c : Call} {v : Bool}
    (h : (c.start cfg).probe = some v) : c.isHalfOpenProbe = v := by
  rcases c.start_cases cfg with ⟨hs, hp⟩ | hs | hs | ⟨hs, hp⟩ | hs <;> rw [hs] at h
  · cases h; exact hp
  · simp only [Pc.probe] at h
    split_ifs at h with hp
    cases h; exact hp
  · simp only [Pc.probe] at h
    split_ifs at h with hp
    cases h; exact hp
  · cases h; exact hp
  · cases h

theorem AfterRelease.probe_pc (k : AfterRelease) : k.pc.probe = none := by cases k <;> rfl

section
variable {cfg : CircuitBreakerConfig} {clock wall : ℕ} {spurious : Bool} {b b' : CircuitBreaker}
  {pc pc' : Pc} {e : Event}

/-- A call goes on depending on its caller's probe only through quiet operations. -/
theorem exec_probe (h : exec cfg clock wall spurious b pc = (b', pc', e)) {v : Bool}
    (hv : pc'.probe = some v) : pc.probe = some v ∧ e = .quiet := by
  cases pc with
  | relLoad k | relCas p k =>
    simp only [exec] at h
    split_ifs at h <;> cases h <;> first | exact ⟨hv, rfl⟩ | (rw [k.probe_pc] at hv; cases hv)
  | rsLoad probe | rfEpoch s t ep probe | rfLoad probe | rfClock p probe | rfTick s t ep probe =>
    cases probe <;>
      simp only [exec, Bool.false_eq_true, and_false, and_true, if_true, if_false] at h <;>
      (try split_ifs at h) <;> cases h <;> first | exact ⟨hv, rfl⟩ | cases hv
  | _ =>
    simp only [exec] at h
    first
    | (cases h; first | exact ⟨hv, rfl⟩ | cases hv | (split_ifs at hv <;> cases hv))
    | (split_ifs at h <;> cases h <;> first | exact ⟨hv, rfl⟩ | cases hv)

/-- A probe settles without an exchange only where no slot is taken. -/
theorem exec_settled (h : exec cfg clock wall spurious b pc = (b', pc', .settled))
    (hw : WordOk cfg b.packed) : packedCount b.packed = 0 := by
  cases pc with
  | reopenLoad tick =>
    simp only [exec] at h
    split_ifs at h with hs <;> cases h
    exact hw.idle (by rw [hs]; decide)
  | relLoad k | relCas p k =>
    simp only [exec] at h
    split_ifs at h <;> cases h
    assumption
  | _ =>
    simp only [exec] at h
    first
    | cases h
    | (split_ifs at h <;> cases h)

theorem exec_released {w : ℕ} {k : AfterRelease}
    (h : exec cfg clock wall spurious b (.relCas w k) = (b', pc', .released)) :
    spurious = false := by
  simp only [exec] at h
  split_ifs at h with hw <;> cases h
  exact hw.2

end

/-! ## The count is the number of probes of the cycle -/

/-- The history agrees with the word. -/
structure CycleOk (cfg : CircuitBreakerConfig) (g : Shared) : Prop where
  unsettled : g.hist.inCycle ⊆ g.hist.unsettled
  card_le : g.hist.inCycle.card ≤ cfg.maxProbes
  count : packedState g.breaker.packed = stateHalfOpen →
    packedCount g.breaker.packed = g.hist.inCycle.card

/-- What a call takes for granted about its caller's probe. -/
def ProbeOk (i : ℕ) (g : Shared) (t : Thread) : Prop :=
  ∀ v, t.pc.probe = some v → (v = true ↔ i ∈ g.hist.unsettled)

/-- A step of a thread is about no other thread's probe. -/
theorem mem_unsettled_record {i j : ℕ} (h : History) (e : Event) (hj : j ≠ i) :
    j ∈ (h.record i e).unsettled ↔ j ∈ h.unsettled := by
  cases e <;> simp [History.record, hj]

theorem ProbeOk.exec {cfg : CircuitBreakerConfig} {i : ℕ} {g g' : Shared} {t t' : Thread}
    {spurious : Bool} (h : t.exec cfg i g spurious = (g', t')) (ht : ProbeOk i g t) :
    ProbeOk i g' t' := by
  obtain ⟨b, pc', e, hx, rfl, rfl⟩ := Thread.exec_eq h
  intro v hv
  obtain ⟨hpc, rfl⟩ := exec_probe hx hv
  exact ht v hpc

section
variable {cfg : CircuitBreakerConfig} {i : ℕ} {g g' : Shared} {t t' : Thread} {spurious : Bool}

/-- The caller's probe, if any, is settled. -/
theorem CycleOk.erase (hg : CycleOk cfg g) (hu : g'.hist.unsettled = g.hist.unsettled.erase i)
    (hc : g'.hist.inCycle = g.hist.inCycle.erase i)
    (hcn : packedState g'.breaker.packed = stateHalfOpen →
      packedCount g'.breaker.packed = (g.hist.inCycle.erase i).card) : CycleOk cfg g' where
  unsettled := by rw [hu, hc]; exact erase_subset_erase i hg.unsettled
  card_le := by rw [hc]; exact (card_erase_le).trans hg.card_le
  count := by rw [hc]; exact hcn

theorem packedState_zero_ne {gen s : ℕ} (hs : s < stateHalfOpen) :
    packedState (packFull gen s 0) ≠ stateHalfOpen := by
  rw [packedState_packFull (hs.trans (by decide))]; exact hs.ne

theorem CycleOk.exec (h : t.exec cfg i g spurious = (g', t')) (hpc : PcOk cfg t.pc)
    (hw : WordOk cfg g.breaker.packed) (hp : ProbeOk i g t)
    (hr : ∀ w k, t.pc = .relCas w k → g.breaker.packed = w → spurious = false →
      i ∈ g.hist.unsettled → i ∈ g.hist.inCycle) (hg : CycleOk cfg g) : CycleOk cfg g' := by
  obtain ⟨b, pc', e, hx, rfl, -⟩ := Thread.exec_eq h
  have hst := exec_word hx
  clear h
  obtain ⟨pc, cas⟩ := t
  obtain ⟨⟨w, _, _, _, _⟩, clock, wall, hist⟩ := g
  obtain ⟨w', _, _, _, _⟩ := b
  simp only at hpc hw hr hx hst
  cases hst with
  | keep he =>
    cases e with
    | quiet => exact ⟨hg.unsettled, hg.card_le, hg.count⟩
    | settled =>
      refine hg.erase rfl rfl fun hs => ?_
      -- no slot is taken, so there is no probe of this cycle
      have h0 := exec_settled hx hw
      have hem : hist.inCycle = ∅ := card_eq_zero.1 ((hg.count hs).symm.trans h0)
      show packedCount w = (hist.inCycle.erase i).card
      rw [h0, hem]; rfl
    | _ => cases he
  | halfOpened =>
    refine ⟨?_, ?_, fun _ => ?_⟩
    · exact singleton_subset_iff.2 (mem_insert_self _ _)
    · exact (card_singleton i).le.trans (one_le_maxProbes cfg)
    · show packedCount _ = card {i}
      rw [packedCount_packFull (by decide), card_singleton]; rfl
  | admitted =>
    have hn : i ∉ hist.inCycle := fun hi => by
      have := (hp false rfl).2 (hg.unsettled hi)
      cases this
    have ha := admission_slot hpc.1 hpc.2
    have hc : packedCount w + 1 = (insert i hist.inCycle).card := by
      rw [card_insert_of_notMem hn, hg.count hpc.1]
    refine ⟨insert_subset_insert i hg.unsettled, ?_, fun _ => ha.count.trans hc⟩
    exact hc.symm.le.trans hpc.2
  | closed =>
    exact ⟨hg.unsettled, hg.card_le, fun hs => absurd hs (packedState_zero_ne (by decide))⟩
  | opened =>
    exact hg.erase rfl rfl fun hs => absurd hs (packedState_zero_ne (by decide))
  | reopened =>
    exact hg.erase rfl rfl fun hs => absurd hs (packedState_zero_ne (by decide))
  | rolledBack =>
    exact ⟨hg.unsettled, hg.card_le, fun hs => absurd hs (packedState_zero_ne (by decide))⟩
  | @released _ k =>
    refine hg.erase rfl rfl fun hs => ?_
    have hlt := packedState_lt w
    have hmax := maxProbes_lt cfg
    have hle := hw.count_le
    rw [packedState_packFull hlt] at hs
    -- the caller holds a probe of this cycle, so the slot it gives back is its own
    have hi : i ∈ hist.inCycle :=
      hr w k rfl rfl (exec_released hx) ((hp true rfl).1 rfl)
    show packedCount (packFull _ _ _) = (hist.inCycle.erase i).card
    rw [packedCount_packFull hlt, Nat.mod_eq_of_lt (by omega), card_erase_of_mem hi]
    exact congrArg (· - 1) (hg.count hs)

end

/-- **The limit of concurrent probes.**  In every run in which callers settle as asked and no probe
    of an earlier cycle gives back a slot, the unsettled probes of the current HALF_OPEN cycle
    never exceed the limit. -/
theorem cycle_probes_le (cfg : CircuitBreakerConfig) (s : Sys)
    (h : Reach (Sys.step cfg) (fun s a => Settles s a ∧ ReleasesCurrent s a) Sys.init s) :
    s.shared.hist.inCycle.card ≤ max 1 (min cfg.halfOpenMaxRequests (2 ^ 30 - 1)) := by
  have hi : Pool.Holds (CycleOk cfg) ProbeOk s := by
    refine Pool.inv h ⟨⟨empty_subset _, Nat.zero_le _, fun hs => ?_⟩, fun i v hv => ?_⟩ ?_ ?_
    · rfl
    · cases hv
    · intro x i c g' l' hx hok hI hP hst
      have hwr := word_holds hx
      rcases breaker_step hst with ⟨call, r, rfl, -, rfl, rfl⟩ | ⟨spurious, rfl, he⟩
      · refine ⟨hI, fun v hv => ?_, fun _ _ _ => id⟩
        rw [← probe_start hv]
        exact hok.1
      · refine ⟨hI.exec he (hwr.thread i).1 hwr.shared hP ?_, hP.exec he, ?_⟩
        · intro w k hpc hw hsp
          have := hok.2
          subst hsp
          simp only [ReleasesCurrent, hpc] at this
          exact this hw
        · intro j m hj hm v hv
          obtain ⟨b, pc', e, -, rfl, -⟩ := Thread.exec_eq he
          rw [hm v hv, mem_unsettled_record _ _ hj]
    · intro x e g' _ hI hen
      obtain ⟨hb, hh, -⟩ := breaker_env hen
      refine ⟨⟨hh ▸ hI.unsettled, hh ▸ hI.card_le, ?_⟩, fun j m hm v hv => ?_⟩
      · rw [hb, hh]; exact hI.count
      · rw [hh]; exact hm v hv
  exact hi.shared.card_le

/-! ## Stragglers -/

/-- Opens at the first failure, half-opens after a second, admits one probe at a time. -/
def oneProbe : CircuitBreakerConfig := ⟨1, 1, 1, [500], 1, true⟩

/-- A call of thread `i` that takes `n` operations. -/
def Call.whole (c : Call) (i n : ℕ) : List Act :=
  .run i (.call c) :: List.replicate n (.run i (.go false))

/-- The probe of thread 2 outlives its cycle: thread 0, admitted before the breaker opened, fails
    late and reopens it.  Thread 2 then gives back the slot of thread 3, and thread 4 is admitted
    besides thread 3. -/
def straggler : List Act :=
  Call.canExecute.whole 0 1 ++ Call.canExecute.whole 1 1 ++
    (Call.recordFailure 500 false false).whole 1 9 ++ [.env (.advance 1000)] ++
    Call.canExecute.whole 2 5 ++ (Call.recordFailure 500 false false).whole 0 7 ++
    [.env (.advance 1000)] ++ Call.canExecute.whole 3 5 ++ (Call.recordNeutral true).whole 2 2 ++
    Call.canExecute.whole 4 3

theorem straggler_isSome :
    (Lib.exec (guarded Settles (Sys.step oneProbe)) Sys.init straggler).isSome := by
  decide +kernel

/-- Settling as asked is not enough. -/
theorem straggler_exceeds :
    ∃ s, Reach (Sys.step oneProbe) Settles Sys.init s ∧
      (s.thread 3).pc = .done (.ok true) ∧ (s.thread 4).pc = .done (.ok true) ∧
      s.shared.hist.inCycle = {3, 4} ∧
      max 1 (min oneProbe.halfOpenMaxRequests (2 ^ 30 - 1)) < s.shared.hist.inCycle.card :=
  ⟨_, reach_guarded straggler_isSome, by decide +kernel, by decide +kernel, by decide +kernel,
    by decide +kernel⟩

/-- Thread 2 settles within its cycle, and thread 3 is admitted after it. -/
def inTurn : List Act :=
  (Call.recordFailure 500 false false).whole 1 9 ++ [.env (.advance 1000)] ++
    Call.canExecute.whole 2 5 ++ (Call.recordNeutral true).whole 2 2 ++ Call.canExecute.whole 3 3

theorem inTurn_isSome :
    (Lib.exec (guarded (fun s a => Settles s a ∧ ReleasesCurrent s a) (Sys.step oneProbe))
      Sys.init inTurn).isSome := by
  decide +kernel

theorem cycle_probes_le_inTurn :
    ∃ s, Reach (Sys.step oneProbe) (fun s a => Settles s a ∧ ReleasesCurrent s a) Sys.init s ∧
      s.shared.hist.inCycle = {3} ∧ s.shared.hist.inCycle.card ≤ 1 :=
  ⟨_, reach_guarded inTurn_isSome, by decide +kernel,
    cycle_probes_le oneProbe _ (reach_guarded inTurn_isSome)⟩

end Ferrum.Breaker
