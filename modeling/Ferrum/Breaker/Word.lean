/-
  The packed word over every interleaving.

  `exec_word` says once what an operation can do to the word; every invariant about the word is
  derived from it.
-/
import Ferrum.Breaker.Model

namespace Ferrum.Breaker

open Lib

/-! ## What an operation does to the word -/

/-- The exchanges of the word, by the program point that makes them. -/
inductive WordStep : Pc → Event → ℕ → ℕ → Prop
  | keep {pc : Pc} {e : Event} {w : ℕ} : e.isCas = false → WordStep pc e w w
  | halfOpened {p now : ℕ} : WordStep (.ceCas p now) (.halfOpened now)
      (packFull (packedGeneration p) stateOpen 0) (packFull (packedGeneration p) stateHalfOpen 1)
  | admitted {w : ℕ} : WordStep (.slotCas w) .admitted w
      (packFull (packedGeneration w) stateHalfOpen (packedCount w + 1))
  | closed {w : ℕ} : WordStep (.closeCas w) .closed w (packFull (packedGeneration w) stateClosed 0)
  | opened {g tick : ℕ} : WordStep (.rfCas g tick) (.opened tick) (packFull g stateClosed 0)
      (packFull (wrappingAdd g 1) stateOpen 0)
  | reopened {w tick : ℕ} : WordStep (.reopenCas w tick) (.opened tick) w
      (packFull (wrappingAdd (packedGeneration w) 1) stateOpen 0)
  | rolledBack {g : ℕ} : WordStep (.rfRollback g) .rolledBack
      (packFull (wrappingAdd g 1) stateOpen 0) (packFull (wrappingAdd g 1) stateClosed 0)
  | released {w : ℕ} {k : AfterRelease} : WordStep (.relCas w k) .released w
      (packFull (packedGeneration w) (packedState w) (packedCount w - 1))

section
variable {cfg : CircuitBreakerConfig} {clock wall : ℕ} {spurious : Bool} {b b' : CircuitBreaker}
  {pc pc' : Pc} {e : Event}

theorem exec_word (h : exec cfg clock wall spurious b pc = (b', pc', e)) :
    WordStep pc e b.packed b'.packed := by
  cases pc with
  | ceCas p now =>
    simp only [exec] at h
    split_ifs at h with hw <;> cases h
    · rw [hw]; exact .halfOpened
    all_goals exact .keep rfl
  | slotCas p =>
    simp only [exec] at h
    split_ifs at h with hw <;> cases h
    · rw [hw.1]; exact .admitted
    · exact .keep rfl
  | closeCas p =>
    simp only [exec] at h
    split_ifs at h with hw <;> cases h
    · rw [hw.1]; exact .closed
    · exact .keep rfl
  | rfCas g tick =>
    simp only [exec] at h
    split_ifs at h with hw <;> cases h
    · rw [hw]; exact .opened
    · exact .keep rfl
  | rfRollback g =>
    simp only [exec] at h
    split_ifs at h with hw <;> cases h
    · rw [hw]; exact .rolledBack
    · exact .keep rfl
  | reopenCas p tick =>
    simp only [exec] at h
    split_ifs at h with hw <;> cases h
    · rw [hw.1]; exact .reopened
    · exact .keep rfl
  | relCas p k =>
    simp only [exec] at h
    split_ifs at h with hw <;> cases h
    · rw [hw.1]; exact .released
    all_goals exact .keep rfl
  | ceLoad | slotLoad | rsLoad | rfClock | ceLast | reopenLoad | relLoad =>
    simp only [exec] at h
    split_ifs at h <;> cases h <;> exact .keep rfl
  | _ =>
    simp only [exec] at h
    cases h
    exact .keep rfl

end

/-! ## The word invariant -/

/-- A word the breaker may hold: one of the three states, and slots taken only in HALF_OPEN and
    within the limit. -/
structure WordOk (cfg : CircuitBreakerConfig) (w : ℕ) : Prop where
  state : packedState w ≤ stateHalfOpen
  count_le : packedCount w ≤ cfg.maxProbes
  idle : packedState w ≠ stateHalfOpen → packedCount w = 0

/-- What a call knows about the word it read before an exchange. -/
def PcOk (cfg : CircuitBreakerConfig) : Pc → Prop
  | .slotCas p => packedState p = stateHalfOpen ∧ packedCount p < cfg.maxProbes
  | .closeCas p => packedState p = stateHalfOpen
  | .relCas p _ => packedCount p ≠ 0
  | _ => True

section
variable {cfg : CircuitBreakerConfig} {pc pc' : Pc} {e : Event} {w w' : ℕ}

theorem maxProbes_lt (cfg : CircuitBreakerConfig) : cfg.maxProbes < 2 ^ 30 := by
  unfold CircuitBreakerConfig.maxProbes
  rw [countMask_eq]
  omega

theorem one_le_maxProbes (cfg : CircuitBreakerConfig) : 1 ≤ cfg.maxProbes := le_max_left _ _

theorem wordOk_packFull_zero {g s : ℕ} (hs : s ≤ stateHalfOpen) : WordOk cfg (packFull g s 0) := by
  have hs' : s < 4 := lt_of_le_of_lt hs (by decide)
  have hc : packedCount (packFull g s 0) = 0 := by rw [packedCount_packFull hs', Nat.zero_mod]
  exact ⟨by rwa [packedState_packFull hs'], by rw [hc]; exact Nat.zero_le _, fun _ => hc⟩

theorem wordOk_packFull_halfOpen {g c : ℕ} (hc : c ≤ cfg.maxProbes) :
    WordOk cfg (packFull g stateHalfOpen c) := by
  have hlt := maxProbes_lt cfg
  have hs : packedState (packFull g stateHalfOpen c) = stateHalfOpen :=
    packedState_packFull (by decide)
  refine ⟨hs.le, ?_, fun h => absurd hs h⟩
  rw [packedCount_packFull (by decide), Nat.mod_eq_of_lt (by omega)]
  exact hc

theorem WordStep.wordOk (h : WordStep pc e w w') (hpc : PcOk cfg pc) (hw : WordOk cfg w) :
    WordOk cfg w' := by
  cases h with
  | keep _ => exact hw
  | halfOpened => exact wordOk_packFull_halfOpen (one_le_maxProbes cfg)
  | admitted => exact wordOk_packFull_halfOpen hpc.2
  | closed => exact wordOk_packFull_zero (by decide)
  | opened => exact wordOk_packFull_zero (by decide)
  | reopened => exact wordOk_packFull_zero (by decide)
  | rolledBack => exact wordOk_packFull_zero (by decide)
  | released =>
    by_cases hs : packedState w = stateHalfOpen
    · rw [hs]
      exact wordOk_packFull_halfOpen ((Nat.sub_le _ _).trans hw.count_le)
    · rw [hw.idle hs]
      exact wordOk_packFull_zero hw.state

theorem packedGeneration_lt (w : ℕ) : packedGeneration w < 2 ^ 32 := by
  rw [packedGeneration_eq]; exact Nat.mod_lt _ (by decide)

theorem packedState_lt (w : ℕ) : packedState w < 4 := by
  rw [packedState_eq]; omega

@[simp] theorem wrappingAdd_mod (g : ℕ) : wrappingAdd g 1 % 2 ^ 32 = wrappingAdd g 1 :=
  Nat.mod_mod _ _

/-- The generation after a step: unchanged unless OPEN was published. -/
theorem WordStep.generation (h : WordStep pc e w w') :
    packedGeneration w' = packedGeneration w ∧ (∀ tick, e ≠ .opened tick) ∨
      packedState w' = stateOpen ∧ packedGeneration w' = wrappingAdd (packedGeneration w) 1 ∧
        ∃ tick, e = .opened tick := by
  have hm : ∀ v, packedGeneration v % 2 ^ 32 = packedGeneration v := fun v =>
    Nat.mod_eq_of_lt (packedGeneration_lt v)
  have hs := packedState_lt w
  cases h with
  | keep he => exact Or.inl ⟨rfl, by rintro tick rfl; cases he⟩
  | halfOpened =>
    refine Or.inl ⟨?_, nofun⟩
    rw [packedGeneration_packFull (by decide), packedGeneration_packFull (by decide)]
  | admitted => exact Or.inl ⟨by rw [packedGeneration_packFull (by decide), hm], nofun⟩
  | closed => exact Or.inl ⟨by rw [packedGeneration_packFull (by decide), hm], nofun⟩
  | opened =>
    refine Or.inr ⟨packedState_packFull (by decide), ?_, _, rfl⟩
    rw [packedGeneration_packFull (by decide), packedGeneration_packFull (by decide), wrappingAdd_mod]
    simp only [wrappingAdd, Nat.mod_add_mod]
  | reopened =>
    refine Or.inr ⟨packedState_packFull (by decide), ?_, _, rfl⟩
    rw [packedGeneration_packFull (by decide), wrappingAdd_mod]
  | rolledBack =>
    refine Or.inl ⟨?_, nofun⟩
    rw [packedGeneration_packFull (by decide), packedGeneration_packFull (by decide)]
  | released => exact Or.inl ⟨by rw [packedGeneration_packFull hs, hm], nofun⟩

end

section
variable {cfg : CircuitBreakerConfig} {clock wall : ℕ} {spurious : Bool} {b b' : CircuitBreaker}
  {pc pc' : Pc} {e : Event}

/-- What a call knows is known from its last load on. -/
theorem exec_pcOk (h : exec cfg clock wall spurious b pc = (b', pc', e)) : PcOk cfg pc' := by
  have hk : ∀ k : AfterRelease, PcOk cfg k.pc := by rintro (_ | _ | _ | _) <;> trivial
  cases pc with
  | slotLoad =>
    simp only [exec] at h
    split_ifs at h with hs hc <;> cases h
    · trivial
    · exact ⟨hs, by omega⟩
    all_goals trivial
  | closeLoad =>
    simp only [exec] at h
    cases h
    split_ifs with hs
    · trivial
    · exact not_not.1 hs
  | relLoad k =>
    simp only [exec] at h
    split_ifs at h with hc <;> cases h
    · exact hk k
    · exact hc
  | relCas p k =>
    simp only [exec] at h
    split_ifs at h with hw hc <;> cases h
    · exact hk k
    · exact hk k
    · exact hc
  | _ =>
    simp only [exec] at h
    first
    | (cases h; trivial)
    | (split_ifs at h <;> cases h <;> trivial)

end

/-! ## Admissions -/

/-- The exchange `w → w'` took one slot in HALF_OPEN, the first one if it left OPEN. -/
structure Admission (w w' : ℕ) : Prop where
  state : packedState w' = stateHalfOpen
  generation : packedGeneration w' = packedGeneration w
  count : packedCount w' = packedCount w + 1
  before : packedState w = stateHalfOpen ∨ packedState w = stateOpen ∧ packedCount w = 0

theorem admission_halfOpened (g : ℕ) :
    Admission (packFull g stateOpen 0) (packFull g stateHalfOpen 1) where
  state := packedState_packFull (by decide)
  generation := by rw [packedGeneration_packFull (by decide), packedGeneration_packFull (by decide)]
  count := by
    rw [packedCount_packFull (by decide), packedCount_packFull (by decide)]; decide
  before := Or.inr ⟨packedState_packFull (by decide), by
    rw [packedCount_packFull (by decide), Nat.zero_mod]⟩

theorem admission_slot {cfg : CircuitBreakerConfig} {w : ℕ} (hs : packedState w = stateHalfOpen)
    (hc : packedCount w < cfg.maxProbes) :
    Admission w (packFull (packedGeneration w) stateHalfOpen (packedCount w + 1)) where
  state := packedState_packFull (by decide)
  generation := by
    rw [packedGeneration_packFull (by decide), Nat.mod_eq_of_lt (packedGeneration_lt w)]
  count := by
    have := maxProbes_lt cfg
    rw [packedCount_packFull (by decide), Nat.mod_eq_of_lt (by omega)]
  before := Or.inl hs

/-- The exchanges of a `can_execute`: none before it is admitted, one once it is. -/
def CasOk (t : Thread) : Prop :=
  match t.pc with
  | .ceLoad | .ceNow _ | .ceLast _ _ | .ceCas _ _ | .slotLoad | .slotCas _ => t.cas = []
  | .ceReset | .done (.ok true) => ∃ w w', t.cas = [(w, w')] ∧ Admission w w'
  | _ => True

section
variable {cfg : CircuitBreakerConfig} {i : ℕ} {g g' : Shared} {t t' : Thread} {spurious : Bool}

/-- The step of a thread, from the operation at its program point. -/
theorem Thread.exec_eq (h : t.exec cfg i g spurious = (g', t')) :
    ∃ b pc e, Breaker.exec cfg g.clock g.wall spurious g.breaker t.pc = (b, pc, e) ∧
      g' = { g with breaker := b, hist := g.hist.record i e } ∧
      t' = ⟨pc, if e.isCas then t.cas ++ [(g.breaker.packed, b.packed)] else t.cas⟩ := by
  simp only [Thread.exec, Prod.mk.injEq] at h
  exact ⟨_, _, _, rfl, h.1.symm, h.2.symm⟩

theorem CasOk.exec (h : t.exec cfg i g spurious = (g', t')) (ht : CasOk t) (hpc : PcOk cfg t.pc) :
    CasOk t' := by
  obtain ⟨b, pc', e, hx, -, rfl⟩ := Thread.exec_eq h
  clear h
  obtain ⟨pc, cas⟩ := t
  have hk : ∀ (k : AfterRelease) (cas : List (ℕ × ℕ)), CasOk ⟨k.pc, cas⟩ := by
    rintro (_ | _ | _ | _) _ <;> trivial
  cases pc with
  | done r => cases hx; cases r <;> exact ht
  | ceCas p now =>
    obtain rfl : cas = [] := ht
    simp only [Breaker.exec] at hx
    split_ifs at hx with hw <;> cases hx
    · exact ⟨_, _, rfl, hw ▸ admission_halfOpened _⟩
    all_goals first | rfl | trivial
  | slotCas p =>
    obtain rfl : cas = [] := ht
    simp only [Breaker.exec] at hx
    split_ifs at hx with hw <;> cases hx
    · obtain ⟨rfl, -⟩ := hw
      exact ⟨_, _, rfl, admission_slot hpc.1 hpc.2⟩
    · rfl
  | ceReset => cases hx; exact ht
  | ceLoad | ceLast p now | slotLoad =>
    obtain rfl : cas = [] := ht
    simp only [Breaker.exec] at hx
    split_ifs at hx <;> cases hx <;> first | rfl | trivial
  | ceNow p => cases hx; exact ht
  | relLoad k | relCas p k =>
    simp only [Breaker.exec] at hx
    split_ifs at hx <;> cases hx <;> first | exact hk _ _ | trivial
  | _ =>
    simp only [Breaker.exec] at hx
    first
    | (cases hx; trivial)
    | (split_ifs at hx <;> cases hx <;> trivial)

end

/-! ## Runs -/

/-- What a step of a thread is: the start of a call, or an operation of the call it is in. -/
theorem breaker_step {cfg : CircuitBreakerConfig} {i : ℕ} {g g' : Shared} {t t' : Thread} {c : Choice}
    (h : (breaker cfg).step i g t c = some (g', t')) :
    (∃ call r, c = .call call ∧ t.pc = .done r ∧ g' = g ∧ t' = ⟨call.start cfg, []⟩) ∨
      ∃ spurious, c = .go spurious ∧ t.exec cfg i g spurious = (g', t') := by
  cases c with
  | call call =>
    simp only [breaker] at h
    split at h
    · next r hr => cases h; exact Or.inl ⟨call, r, rfl, hr, rfl, rfl⟩
    · cases h
  | go spurious =>
    simp only [breaker] at h
    split at h
    · cases h
    · exact Or.inr ⟨spurious, rfl, Option.some.inj h⟩

theorem breaker_env {cfg : CircuitBreakerConfig} {g g' : Shared} {e : ClockAct}
    (h : (breaker cfg).env g e = some g') :
    g'.breaker = g.breaker ∧ g'.hist = g.hist ∧ g.clock ≤ g'.clock := by
  cases e with
  | advance ms => cases h; exact ⟨rfl, rfl, Nat.le_add_right _ _⟩
  | setWall epochMs => cases h; exact ⟨rfl, rfl, le_rfl⟩

theorem casOk_start (cfg : CircuitBreakerConfig) (c : Call) : CasOk ⟨c.start cfg, []⟩ := by
  rcases c.start_cases cfg with ⟨h, -⟩ | h | h | ⟨h, -⟩ | h <;> rw [h] <;> trivial

theorem pcOk_start (cfg : CircuitBreakerConfig) (c : Call) : PcOk cfg (c.start cfg) := by
  rcases c.start_cases cfg with ⟨h, -⟩ | h | h | ⟨h, -⟩ | h <;> rw [h] <;> trivial

/-- The word is well formed, and every call knows what it should, in every state reached. -/
theorem word_holds {cfg : CircuitBreakerConfig} {ok : Sys → Act → Prop} {s : Sys}
    (h : Reach (Sys.step cfg) ok Sys.init s) :
    Pool.Holds (fun g => WordOk cfg g.breaker.packed) (fun _ _ t => PcOk cfg t.pc ∧ CasOk t) s := by
  refine Pool.inv h ⟨wordOk_packFull_zero (by decide), fun _ => ⟨trivial, trivial⟩⟩ ?_ ?_
  · intro x i c g' l' _ _ hI hP hst
    rcases breaker_step hst with ⟨call, r, -, -, rfl, rfl⟩ | ⟨spurious, -, hx⟩
    · exact ⟨hI, ⟨pcOk_start cfg call, casOk_start cfg call⟩, fun _ _ _ => id⟩
    · have hc := hP.2.exec hx hP.1
      obtain ⟨b, pc', e, hb, rfl, rfl⟩ := Thread.exec_eq hx
      exact ⟨(exec_word hb).wordOk hP.1 hI, ⟨exec_pcOk hb, hc⟩, fun _ _ _ => id⟩
  · intro x e g' _ hI he
    obtain ⟨hb, -⟩ := breaker_env he
    exact ⟨hb ▸ hI, fun _ _ => id⟩

/-- What one step of the system does to the generation. -/
theorem step_generation {cfg : CircuitBreakerConfig} {s s' : Sys} {a : Act}
    (h : Sys.step cfg s a = some s') :
    packedGeneration s'.shared.breaker.packed = packedGeneration s.shared.breaker.packed ∨
      packedState s'.shared.breaker.packed = stateOpen ∧
        packedGeneration s'.shared.breaker.packed =
          wrappingAdd (packedGeneration s.shared.breaker.packed) 1 := by
  rcases Pool.step_some h with ⟨i, c, l', -, hst, -⟩ | ⟨e, -, hst, -⟩
  · rcases breaker_step hst with ⟨call, r, -, -, hg, -⟩ | ⟨spurious, -, hx⟩
    · rw [hg]; exact Or.inl rfl
    · obtain ⟨b, pc', e, hb, hg, -⟩ := Thread.exec_eq hx
      rw [hg]
      rcases (exec_word hb).generation with ⟨hgn, -⟩ | ⟨hs, hgn, -⟩
      · exact Or.inl hgn
      · exact Or.inr ⟨hs, hgn⟩
  · rw [(breaker_env hst).1]; exact Or.inl rfl

/-- **The packed word.**  In every state reached by any interleaving of any calls, the word
    decodes to one of the three states, slots are taken only in HALF_OPEN and within the limit;
    the next step changes the generation only if it publishes OPEN, by one; and a `can_execute`
    that returned `Ok(true)` made one successful exchange, which took one slot in HALF_OPEN. -/
theorem packed_word_coherent (cfg : CircuitBreakerConfig) (s : Sys)
    (h : Reach (Sys.step cfg) anyStep Sys.init s) :
    let w := s.shared.breaker.packed
    (packedState w = stateClosed ∨ packedState w = stateOpen ∨ packedState w = stateHalfOpen) ∧
    (packedState w ≠ stateHalfOpen → packedCount w = 0) ∧
    packedCount w ≤ max 1 (min cfg.halfOpenMaxRequests (2 ^ 30 - 1)) ∧
    (∀ a s', Sys.step cfg s a = some s' →
      packedGeneration s'.shared.breaker.packed ≠ packedGeneration w →
      packedState s'.shared.breaker.packed = stateOpen ∧
        packedGeneration s'.shared.breaker.packed = (packedGeneration w + 1) % 2 ^ 32) ∧
    ∀ i, (s.thread i).pc = .done (.ok true) →
      ∃ old new, (s.thread i).cas = [(old, new)] ∧ packedState new = stateHalfOpen ∧
        packedGeneration new = packedGeneration old ∧ packedCount new = packedCount old + 1 ∧
        (packedState old = stateHalfOpen ∨ packedState old = stateOpen ∧ packedCount old = 0) := by
  have hs := word_holds h
  have hw := hs.shared
  refine ⟨?_, hw.idle, hw.count_le, ?_, ?_⟩
  · have := hw.state
    unfold stateHalfOpen at this
    unfold stateClosed stateOpen stateHalfOpen
    omega
  · intro a s' hst hne
    rcases step_generation hst with hgn | hgn
    · exact absurd hgn hne
    · exact hgn
  · intro i hi
    have hc := (hs.thread i).2
    unfold CasOk at hc
    rw [hi] at hc
    obtain ⟨old, new, hlg, ha⟩ := hc
    exact ⟨old, new, hlg, ha.state, ha.generation, ha.count, ha.before⟩

/-- Opens at the first failure, half-opens at once, admits one probe. -/
def eagerConfig : CircuitBreakerConfig := ⟨1, 1, 0, [500], 1, true⟩

/-- Thread 0 fails, thread 1 is admitted as the first probe. -/
def firstProbe : List Act :=
  .run 0 (.call (.recordFailure 500 false false)) :: List.replicate 9 (.run 0 (.go false)) ++
    .run 1 (.call .canExecute) :: List.replicate 5 (.run 1 (.go false))

theorem firstProbe_isSome : (Lib.exec (Sys.step eagerConfig) Sys.init firstProbe).isSome := by
  decide +kernel

theorem packed_word_coherent_firstProbe :
    ∃ s, Lib.exec (Sys.step eagerConfig) Sys.init firstProbe = some s ∧
      (s.thread 1).pc = .done (.ok true) ∧ packedCount s.shared.breaker.packed = 1 ∧
      ∃ old new, (s.thread 1).cas = [(old, new)] ∧ packedCount new = packedCount old + 1 := by
  have hpc : (((Lib.exec (Sys.step eagerConfig) Sys.init firstProbe).get
      firstProbe_isSome).thread 1).pc = .done (.ok true) := by decide +kernel
  obtain ⟨-, -, -, -, ha⟩ := packed_word_coherent eagerConfig _ (reach_get firstProbe_isSome)
  obtain ⟨old, new, hlg, -, -, hc, -⟩ := ha 1 hpc
  exact ⟨_, (Option.some_get firstProbe_isSome).symm, hpc, by decide +kernel, old, new, hlg, hc⟩

end Ferrum.Breaker
