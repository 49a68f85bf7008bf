/-
  The recovery timeout of an OPEN breaker.

  The failure tick is a word of its own, stored before the exchange that publishes OPEN, and also
  by calls that then open nothing.  A store delayed past the OPEN of a later failure rewinds the
  tick, and the breaker half-opens too early (`lateStore`).  While no store rewinds the tick and
  the generation does not wrap, every OPEN lasts for the timeout.
-/
import Ferrum.Breaker.Probes

namespace Ferrum.Breaker

open Lib

/-- The step does not rewind the failure tick, and is not the OPEN that wraps the generation. -/
def TicksAdvance (s : Sys) : Act → Prop
  | .run i (.go _) =>
    match (s.thread i).pc with
    | .rfTick _ tick _ _ => s.shared.breaker.lastFailureTickMs ≤ tick
    | .rfCas _ _ | .reopenCas _ _ => s.shared.hist.opens + 1 < 2 ^ 32
    | _ => True
  | _ => True

instance : ∀ s a, Decidable (TicksAdvance s a) := fun ⟨shared, thread⟩ a => by
  unfold TicksAdvance
  split
  · split <;> infer_instance
  · infer_instance

/-! ## Ticks on their way -/

def AfterRelease.tick : AfterRelease → Option ℕ
  | .failureClosed tick => some tick
  | _ => none

/-- The tick a failing call has stored. -/
def Pc.stored : Pc → Option ℕ
  | .rfEpoch _ tick _ _ | .rfAdd tick | .rfCheck tick | .rfGen tick | .rfCas _ tick
  | .reopenReset tick | .reopenLoad tick | .reopenCas _ tick => some tick
  | .relLoad k | .relCas _ k => k.tick
  | _ => none

theorem AfterRelease.stored_pc (k : AfterRelease) : k.pc.stored = k.tick := by cases k <;> rfl

section
variable {cfg : CircuitBreakerConfig} {clock wall : ℕ} {spurious : Bool} {b b' : CircuitBreaker}
  {pc pc' : Pc} {e : Event}

section
variable (h : exec cfg clock wall spurious b pc = (b', pc', e))
include h

/-- Only the store at `rfTick` changes the failure tick. -/
theorem exec_tick :
    b'.lastFailureTickMs = b.lastFailureTickMs ∨
      ∃ state tick epoch probe, pc = .rfTick state tick epoch probe ∧ b'.lastFailureTickMs = tick ∧
        b'.packed = b.packed ∧ e = .quiet := by
  cases pc with
  | rfTick state tick epoch probe => cases h; exact Or.inr ⟨_, _, _, _, rfl, rfl, rfl, rfl⟩
  | _ =>
    simp only [exec] at h
    first
    | (cases h; exact Or.inl rfl)
    | (split_ifs at h <;> cases h <;> exact Or.inl rfl)

theorem exec_stored {tick : ℕ} (ht : pc'.stored = some tick) :
    pc.stored = some tick ∧ b'.lastFailureTickMs = b.lastFailureTickMs ∨
      b'.lastFailureTickMs = tick := by
  cases pc with
  | rfTick state t epoch probe => cases h; cases ht; exact Or.inr rfl
  | relLoad k | relCas p k =>
    simp only [exec] at h
    split_ifs at h <;> cases h <;>
      first | exact Or.inl ⟨ht, rfl⟩ | exact Or.inl ⟨k.stored_pc.symm.trans ht, rfl⟩
  | _ =>
    simp only [exec] at h
    first
    | (cases h; (try split_ifs at ht) <;> first | exact Or.inl ⟨ht, rfl⟩ | cases ht)
    | (split_ifs at h <;> cases h <;> first | exact Or.inl ⟨ht, rfl⟩ | cases ht)

/-- The way to a transition: load, clock, tick. -/
theorem exec_wait :
    match pc' with
    | .rfTick _ tick _ _ => tick = clock
    | .ceNow p => p = b.packed ∧ e = .quiet
    | .ceLast p now => pc = .ceNow p ∧ now = clock ∧ e = .quiet
    | .ceCas p now => pc = .ceLast p now ∧ cfg.timeoutMs ≤ now - b.lastFailureTickMs ∧ e = .quiet
    | _ => True := by
  cases pc with
  | done r => cases h; trivial
  | ceLast p now =>
    simp only [exec] at h
    split_ifs at h with hd <;> cases h
    · exact ⟨rfl, hd, rfl⟩
    · trivial
  | ceNow p => cases h; exact ⟨rfl, rfl, rfl⟩
  | ceLoad =>
    simp only [exec] at h
    split_ifs at h <;> cases h <;> trivial
  | rfClock p probe =>
    simp only [exec] at h
    split_ifs at h <;> cases h <;> trivial
  | relLoad k | relCas p k =>
    simp only [exec] at h
    cases k <;> split_ifs at h <;> cases h <;> trivial
  | _ =>
    simp only [exec] at h
    (try split_ifs at h) <;> cases h <;> trivial

end

/-- OPEN is published with the tick its call stored. -/
theorem exec_opened {tick : ℕ} (h : exec cfg clock wall spurious b pc = (b', pc', .opened tick)) :
    pc.stored = some tick ∧ ((∃ g, pc = .rfCas g tick) ∨ ∃ p, pc = .reopenCas p tick) := by
  have hw := exec_word h
  generalize b.packed = w, b'.packed = w', he : Event.opened tick = e at hw
  cases hw with
  | keep hc => subst he; cases hc
  | opened => cases he; exact ⟨rfl, Or.inl ⟨_, rfl⟩⟩
  | reopened => cases he; exact ⟨rfl, Or.inr ⟨_, rfl⟩⟩
  | _ => cases he

end

/-! ## The invariant -/

/-- The tick of the last OPEN is not ahead of the stored one, nor that of the clock; and every
    transition to HALF_OPEN waited for the timeout. -/
structure TimeOk (cfg : CircuitBreakerConfig) (g : Shared) : Prop where
  generation : packedGeneration g.breaker.packed = g.hist.opens
  openTick : g.hist.openTick ≤ g.breaker.lastFailureTickMs
  stored : g.breaker.lastFailureTickMs ≤ g.clock
  waited : ∀ p ∈ g.hist.halfOpens, p.1 + cfg.timeoutMs ≤ p.2

/-- What a call knows: its tick was read from the clock and stored; and, as long as the OPEN it
    read is the last one, the clock it read is past that OPEN, then past its timeout. -/
structure WaitOk (cfg : CircuitBreakerConfig) (g : Shared) (pc : Pc) : Prop where
  stored : ∀ tick, pc.stored = some tick → tick ≤ g.breaker.lastFailureTickMs
  read : ∀ state tick epoch probe, pc = .rfTick state tick epoch probe → tick ≤ g.clock
  loaded : ∀ p, pc = .ceNow p → packedGeneration p ≤ g.hist.opens
  now : ∀ p now, pc = .ceLast p now → packedGeneration p ≤ g.hist.opens ∧
    (packedGeneration p = g.hist.opens → g.hist.openTick ≤ now)
  due : ∀ p now, pc = .ceCas p now → packedGeneration p ≤ g.hist.opens ∧
    (packedGeneration p = g.hist.opens → g.hist.openTick + cfg.timeoutMs ≤ now)

/-- Clock, tick and generation only advance, and the tick of an OPEN stays. -/
structure Later (g g' : Shared) : Prop where
  clock : g.clock ≤ g'.clock
  stored : g.breaker.lastFailureTickMs ≤ g'.breaker.lastFailureTickMs
  opens : g.hist.opens ≤ g'.hist.opens
  openTick : g'.hist.opens = g.hist.opens → g'.hist.openTick = g.hist.openTick

section
variable {cfg : CircuitBreakerConfig} {i : ℕ} {g g' : Shared} {t t' : Thread} {spurious : Bool}
  {pc : Pc}

/-- What a call knows stays true while others go on. -/
theorem WaitOk.later (h : WaitOk cfg g pc) (hl : Later g g') : WaitOk cfg g' pc where
  stored tick ht := (h.stored tick ht).trans hl.stored
  read s tick ep pr hp := (h.read s tick ep pr hp).trans hl.clock
  loaded p hp := (h.loaded p hp).trans hl.opens
  now p now hp := by
    obtain ⟨hle, hn⟩ := h.now p now hp
    refine ⟨hle.trans hl.opens, fun he => ?_⟩
    have hs : g'.hist.opens = g.hist.opens := le_antisymm (he ▸ hle) hl.opens
    rw [hl.openTick hs]
    exact hn (he.trans hs)
  due p now hp := by
    obtain ⟨hle, hn⟩ := h.due p now hp
    refine ⟨hle.trans hl.opens, fun he => ?_⟩
    have hs : g'.hist.opens = g.hist.opens := le_antisymm (he ▸ hle) hl.opens
    rw [hl.openTick hs]
    exact hn (he.trans hs)

theorem record_opens {h : History} {e : Event} (he : ∀ tick, e ≠ .opened tick) :
    (h.record i e).opens = h.opens ∧ (h.record i e).openTick = h.openTick := by
  cases e with
  | opened tick => exact absurd rfl (he tick)
  | _ => exact ⟨rfl, rfl⟩

theorem mem_halfOpens_record {h : History} {e : Event} {p : ℕ × ℕ}
    (hp : p ∈ (h.record i e).halfOpens) :
    p ∈ h.halfOpens ∨ ∃ now, e = .halfOpened now ∧ p = (h.openTick, now) := by
  cases e with
  | halfOpened now =>
    rcases List.mem_cons.1 hp with rfl | hp
    · exact Or.inr ⟨now, rfl, rfl⟩
    · exact Or.inl hp
  | _ => exact Or.inl hp

/-- The exchange to HALF_OPEN is that of `can_execute`, on the generation it read. -/
theorem exec_halfOpened {clock wall now : ℕ} {b b' : CircuitBreaker} {pc pc' : Pc}
    (h : exec cfg clock wall spurious b pc = (b', pc', .halfOpened now)) :
    ∃ p, pc = .ceCas p now ∧ packedGeneration b.packed = packedGeneration p := by
  have hw := exec_word h
  generalize b.packed = w, b'.packed = w', he : Event.halfOpened now = e at hw
  cases hw with
  | keep hc => subst he; cases hc
  | @halfOpened p =>
    cases he
    refine ⟨p, rfl, ?_⟩
    rw [packedGeneration_packFull (by decide), Nat.mod_eq_of_lt (packedGeneration_lt p)]
  | _ => cases he

theorem later_exec (h : t.exec cfg i g spurious = (g', t'))
    (hm : ∀ s tick ep pr, t.pc = .rfTick s tick ep pr → g.breaker.lastFailureTickMs ≤ tick) :
    Later g g' := by
  obtain ⟨b, pc', e, hx, rfl, -⟩ := Thread.exec_eq h
  have hs : g.breaker.lastFailureTickMs ≤ b.lastFailureTickMs := by
    rcases exec_tick hx with ht | ⟨s, tick, ep, pr, hpc, ht, -⟩
    · exact ht.symm.le
    · exact ht ▸ hm s tick ep pr hpc
  by_cases he : ∃ tick, e = .opened tick
  · obtain ⟨tick, rfl⟩ := he
    exact ⟨le_rfl, hs, Nat.le_succ _, fun h => absurd h (Nat.succ_ne_self _)⟩
  · push Not at he
    obtain ⟨ho, ht⟩ := record_opens (i := i) (h := g.hist) he
    exact ⟨le_rfl, hs, ho.symm.le, fun _ => ht⟩

theorem TimeOk.exec (h : t.exec cfg i g spurious = (g', t')) (hl : Later g g')
    (hwr : ∀ tick, (∃ gen, t.pc = .rfCas gen tick) ∨ (∃ p, t.pc = .reopenCas p tick) →
      g.hist.opens + 1 < 2 ^ 32)
    (hw : WaitOk cfg g t.pc) (hg : TimeOk cfg g) : TimeOk cfg g' := by
  obtain ⟨b, pc', e, hx, rfl, -⟩ := Thread.exec_eq h
  have hgn := (exec_word hx).generation
  refine ⟨?_, ?_, ?_, ?_⟩
  · rcases hgn with ⟨hgn, he⟩ | ⟨-, hgn, tick, rfl⟩
    · exact hgn.trans (hg.generation.trans (record_opens he).1.symm)
    · -- the new OPEN has the next generation, as the counter does not wrap
      have hlt := hwr tick (exec_opened hx).2
      show packedGeneration b.packed = g.hist.opens + 1
      rw [hgn, hg.generation, wrappingAdd, Nat.mod_eq_of_lt hlt]
  · rcases hgn with ⟨-, he⟩ | ⟨-, -, tick, rfl⟩
    · exact (record_opens he).2.le.trans (hg.openTick.trans hl.stored)
    · exact (hw.stored tick (exec_opened hx).1).trans hl.stored
  · rcases exec_tick hx with ht | ⟨s, tick, ep, pr, hpc, ht, -⟩
    · exact ht.le.trans hg.stored
    · exact ht.le.trans (hw.read s tick ep pr hpc)
  · intro p hp
    rcases mem_halfOpens_record hp with hp | ⟨now, rfl, rfl⟩
    · exact hg.waited p hp
    · obtain ⟨p, hpc, hpg⟩ := exec_halfOpened hx
      exact (hw.due p now hpc).2 (hpg.symm.trans hg.generation)

theorem WaitOk.exec (h : t.exec cfg i g spurious = (g', t')) (hl : Later g g')
    (hg : TimeOk cfg g) (hw : WaitOk cfg g t.pc) : WaitOk cfg g' t'.pc := by
  obtain ⟨b, pc', e, hx, rfl, rfl⟩ := Thread.exec_eq h
  have hwt := exec_wait hx
  refine ⟨fun tick ht => ?_, ?_, ?_, ?_, ?_⟩
  · rcases exec_stored hx ht with ⟨ht, -⟩ | ht
    · exact (hw.stored tick ht).trans hl.stored
    · exact ht.symm.le
  · rintro s tick ep pr rfl
    exact hwt.le
  · rintro p rfl
    obtain ⟨rfl, rfl⟩ := hwt
    exact hg.generation.le
  · rintro p now rfl
    obtain ⟨hpc, rfl, rfl⟩ := hwt
    exact ⟨hw.loaded p hpc, fun _ => hg.openTick.trans hg.stored⟩
  · rintro p now rfl
    obtain ⟨hpc, hd, rfl⟩ := hwt
    obtain ⟨hle, hn⟩ := hw.now p now hpc
    refine ⟨hle, fun he => ?_⟩
    have h1 := hn he
    have h2 := hg.openTick
    show g.hist.openTick + cfg.timeoutMs ≤ now
    omega

theorem waitOk_start (cfg : CircuitBreakerConfig) (g : Shared) (c : Call) :
    WaitOk cfg g (c.start cfg) := by
  rcases c.start_cases cfg with ⟨h, -⟩ | h | h | ⟨h, -⟩ | h <;> rw [h] <;>
    exact ⟨nofun, nofun, nofun, nofun, nofun⟩

end

/-- The invariant holds in every run that advances the ticks. -/
theorem time_holds {cfg : CircuitBreakerConfig} {s : Sys}
    (h : Reach (Sys.step cfg) TicksAdvance Sys.init s) :
    Pool.Holds (TimeOk cfg) (fun _ g t => WaitOk cfg g t.pc) s := by
  refine Pool.inv h ⟨⟨rfl, le_rfl, le_rfl, nofun⟩, fun _ => ?_⟩ ?_ ?_
  · exact ⟨nofun, nofun, nofun, nofun, nofun⟩
  · intro x i c g' l' _ hok hI hP hst
    rcases breaker_step hst with ⟨call, r, rfl, -, rfl, rfl⟩ | ⟨spurious, rfl, he⟩
    · exact ⟨hI, waitOk_start cfg _ call, fun _ _ _ => id⟩
    · have hl : Later x.shared g' := by
        refine later_exec he fun s tick ep pr hpc => ?_
        simpa only [TicksAdvance, hpc] using hok
      refine ⟨hI.exec he hl ?_ hP, hP.exec he hl hI, fun _ _ _ hm => hm.later hl⟩
      rintro tick (⟨gen, hpc⟩ | ⟨p, hpc⟩) <;> simpa only [TicksAdvance, hpc] using hok
  · intro x e g' _ hI hen
    obtain ⟨hb, hh, hc⟩ := breaker_env hen
    have hl : Later x.shared g' := ⟨hc, by rw [hb], by rw [hh], fun _ => by rw [hh]⟩
    refine ⟨⟨?_, ?_, ?_, ?_⟩, fun _ _ hm => hm.later hl⟩
    · rw [hb, hh]; exact hI.generation
    · rw [hb, hh]; exact hI.openTick
    · rw [hb]; exact hI.stored.trans hc
    · rw [hh]; exact hI.waited

/-- **The recovery timeout.**  In every run in which no failure rewinds the stored tick and the
    generation does not wrap, a breaker opened by a failure with tick `t` moves to HALF_OPEN only
    at a tick of `t + timeout_seconds * 1000` or later. -/
theorem recovery_timeout_kept (cfg : CircuitBreakerConfig)
    (hfit : cfg.timeoutSeconds * 1000 ≤ CircuitBreakerConfig.u64Max) (s : Sys)
    (h : Reach (Sys.step cfg) TicksAdvance Sys.init s) :
    ∀ p ∈ s.shared.hist.halfOpens, p.1 + cfg.timeoutSeconds * 1000 ≤ p.2 := by
  intro p hp
  have hw := (time_holds h).shared.waited p hp
  rwa [CircuitBreakerConfig.timeoutMs, min_eq_left hfit] at hw

/-- A failure and, a second later, the transition to HALF_OPEN. -/
def openAndRecover : List Act :=
  .env (.advance 100) :: (Call.recordFailure 500 false false).whole 0 9 ++
    .env (.advance 1000) :: Call.canExecute.whole 1 5

theorem openAndRecover_isSome :
    (Lib.exec (guarded TicksAdvance (Sys.step oneProbe)) Sys.init openAndRecover).isSome := by
  decide +kernel

theorem recovery_timeout_kept_openAndRecover :
    ∃ s, Reach (Sys.step oneProbe) TicksAdvance Sys.init s ∧ s.shared.hist.halfOpens = [(100, 1100)] ∧
      ∀ p ∈ s.shared.hist.halfOpens, p.1 + 1 * 1000 ≤ p.2 :=
  ⟨_, reach_guarded openAndRecover_isSome, by decide +kernel,
    recovery_timeout_kept oneProbe (by decide) _ (reach_guarded openAndRecover_isSome)⟩

/-- Thread 0 reads the tick 100 and stalls; thread 1 opens the breaker at 200; thread 0 then stores
    its tick, and thread 2 moves the breaker to HALF_OPEN at 1100. -/
def lateStore : List Act :=
  .env (.advance 100) :: (Call.recordFailure 500 false false).whole 0 2 ++
    .env (.advance 100) :: (Call.recordFailure 500 false false).whole 1 9 ++
    .run 0 (.go false) :: .env (.advance 900) :: Call.canExecute.whole 2 5

theorem lateStore_isSome : (Lib.exec (Sys.step oneProbe) Sys.init lateStore).isSome := by
  decide +kernel

/-- A store that rewinds the tick shortens the timeout. -/
theorem lateStore_shortens :
    ∃ s, Reach (Sys.step oneProbe) anyStep Sys.init s ∧ s.shared.hist.opens = 1 ∧
      (200, 1100) ∈ s.shared.hist.halfOpens ∧ 1100 < 200 + oneProbe.timeoutSeconds * 1000 :=
  ⟨_, reach_get lateStore_isSome, by decide +kernel, by decide +kernel, by decide⟩

end Ferrum.Breaker
