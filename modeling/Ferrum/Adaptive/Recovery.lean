/-
  How an adaptive limit recovers from a fault.

  A request takes a permit of its target if fewer are in flight than the limit.  Its outcome moves the
  limit: a fault starts a new epoch and decreases it, and a success increases it if the epoch is
  still the one in which the request was admitted.  The success checks this before it exchanges the
  limit, so a fault may come in between.

  * `targetStep`: one atomic operation of an admission, of the recording of an outcome, or of a drop.
    Without reloads the checks of generations always pass, and are left out.
  * `raise_after_fault`: whoever raises the limit has loaded it and then checked the epoch; which
    faults came before the check.
  * `in_flight_exact`: the permits are counted, and the limit keeps its bounds.
-/
import Ferrum.Lib.Threads

namespace Ferrum.Adaptive

open Lib

/-! ## The target -/

/-- The two floating-point computations are functions of the integer that they start from. -/
structure AdaptiveConcurrencyConfig where
  minLimit : ℕ
  maxLimit : ℕ
  minSamples : ℕ
  increaseStep : ℕ
  shadowMode : Bool
  targetLatency : ℕ → ℕ
  decrease : ℕ → ℕ

def u64Max : ℕ := 2 ^ 64 - 1

def saturatingAdd (n m : ℕ) : ℕ := min (n + m) u64Max

def saturatingMul (n m : ℕ) : ℕ := min (n * m) u64Max

/-- `fetch_add(1)` on a word of 64 bits. -/
def fetchAdd (n : ℕ) : ℕ := (n + 1) % 2 ^ 64

/-- `fetch_sub(1)`, which wraps around below zero. -/
def fetchSub (n : ℕ) : ℕ := (u64Max + n) % 2 ^ 64

/-- What the limiter knows about a target.  With it goes what is observed about the calls of
    `invalidate_recovery_cohort_and_decrease`. -/
structure AdaptiveConcurrencyState where
  inFlight : ℕ
  limit : ℕ
  feedbackEpoch : ℕ
  baselineLatencyUs : ℕ
  latencyEwmaUs : ℕ
  samples : ℕ
  rejections : ℕ
  /-- The epochs that the calls have published, and those of the calls that have returned. -/
  published : List ℕ
  returned : List ℕ
  deriving DecidableEq, Repr

def AdaptiveConcurrencyState.new (initialLimit : ℕ) : AdaptiveConcurrencyState :=
  ⟨0, initialLimit, 1, 0, 0, 0, 0, [], []⟩

structure Permit where
  feedbackEpoch : ℕ
  recorded : Bool
  deriving DecidableEq, Repr

/-- What `record` reads of an outcome; the two predicates are those of its error class. -/
structure Outcome where
  clientSideNoBackendSignal : Bool := false
  connectionError : Bool := false
  responseStatus : ℕ
  postWireBackendFailure : Bool := false
  backendElapsedMicros : ℕ
  allowIncrease : Bool := true
  deriving DecidableEq, Repr

/-- Where `record` is. -/
inductive Feedback where
  -- invalidate_recovery_cohort_and_decrease, with the epoch that it has published
  | loadLimit
  | nextEpoch (before : ℕ)
  | decreaseLoad (before epoch : ℕ)
  | decreaseCas (before epoch current : ℕ)
  -- record_success_latency
  | minLoad
  | minCas (current : ℕ)
  | ewmaLoad
  | ewmaCas (current : ℕ)
  | sample (ewma : ℕ)
  | baseline (ewma : ℕ)
  | readLimit (ewma target : ℕ)
  | readInFlight (ewma target limit : ℕ)
  -- increase_limit_for_epoch
  | increaseLoad
  | increaseEpoch (current : ℕ)
  | increaseCas (current : ℕ)
  deriving DecidableEq, Repr

inductive Pc where
  | idle
  | loadInFlight
  | admitLimit (current : ℕ)
  | increment (current : ℕ)
  | countRejection
  | loadEpoch
  | permit (p : Permit)
  | feedback (p : Permit) (o : Outcome) (f : Feedback)
  deriving DecidableEq, Repr

/-- A thread makes a call, or goes on with it.  A weak exchange may fail without reason. -/
inductive Choice where
  | tryAcquire
  | record (o : Outcome)
  | drop
  | go (spurious : Bool)
  deriving DecidableEq, Repr

/-! ## Operations -/

section
variable (config : AdaptiveConcurrencyConfig)

/-- `max(min_limit).min(max_limit)`. -/
def clamp (limit : ℕ) : ℕ := min (max limit config.minLimit) config.maxLimit

def decreased (before current : ℕ) : ℕ := clamp config (config.decrease (min current before))

def increased (current : ℕ) : ℕ := clamp config (saturatingAdd current config.increaseStep)

def latencyUs (o : Outcome) : ℕ := max (o.backendElapsedMicros % 2 ^ 64) 1

def ewma (current sample : ℕ) : ℕ :=
  if current = 0 then sample
  else saturatingAdd (saturatingMul current 8) (saturatingMul sample 2) / 10

def record (p : Permit) (o : Outcome) : Pc :=
  if p.recorded then .permit p
  else if o.clientSideNoBackendSignal then .permit { p with recorded := true }
  else .feedback { p with recorded := true } o
    (if o.connectionError || 500 ≤ o.responseStatus || o.postWireBackendFailure then .loadLimit
      else .minLoad)

/-- The loop of `decrease_limit`, with the limit that it has read. -/
def decreaseNext (g : AdaptiveConcurrencyState) (p : Permit) (o : Outcome)
    (before epoch current : ℕ) : AdaptiveConcurrencyState × Pc :=
  if decreased config before current ≥ current then
    ({ g with returned := epoch :: g.returned }, .permit p)
  else (g, .feedback p o (.decreaseCas before epoch current))

def minNext (o : Outcome) (current : ℕ) : Feedback :=
  if current ≠ 0 ∧ current ≤ latencyUs o then .ewmaLoad else .minCas current

def feedbackStep (g : AdaptiveConcurrencyState) (p : Permit) (o : Outcome) :
    Feedback → AdaptiveConcurrencyState × Pc
  | .loadLimit => (g, .feedback p o (.nextEpoch g.limit))
  | .nextEpoch before =>
    let epoch := fetchAdd g.feedbackEpoch
    ({ g with feedbackEpoch := epoch, published := epoch :: g.published },
      .feedback p o (.decreaseLoad before epoch))
  | .decreaseLoad before epoch => decreaseNext config g p o before epoch g.limit
  | .decreaseCas before epoch current =>
    if g.limit = current then
      ({ g with limit := decreased config before current, returned := epoch :: g.returned },
        .permit p)
    else decreaseNext config g p o before epoch g.limit
  | .minLoad => (g, .feedback p o (minNext o g.baselineLatencyUs))
  | .minCas current =>
    if g.baselineLatencyUs = current then
      ({ g with baselineLatencyUs := latencyUs o }, .feedback p o .ewmaLoad)
    else (g, .feedback p o (minNext o g.baselineLatencyUs))
  | .ewmaLoad => (g, .feedback p o (.ewmaCas g.latencyEwmaUs))
  | .ewmaCas current =>
    if g.latencyEwmaUs = current then
      ({ g with latencyEwmaUs := ewma current (latencyUs o) },
        .feedback p o (.sample (ewma current (latencyUs o))))
    else (g, .feedback p o (.ewmaCas g.latencyEwmaUs))
  | .sample ewma =>
    ({ g with samples := fetchAdd g.samples },
      if fetchAdd g.samples < config.minSamples then .permit p else .feedback p o (.baseline ewma))
  | .baseline ewma =>
    (g, if g.baselineLatencyUs = 0 then .permit p
      else .feedback p o (.readLimit ewma (config.targetLatency g.baselineLatencyUs)))
  | .readLimit ewma target => (g, .feedback p o (.readInFlight ewma target g.limit))
  | .readInFlight ewma target limit =>
    (g, if ewma > target then .feedback p o .loadLimit
      else if o.allowIncrease && limit ≤ g.inFlight then .feedback p o .increaseLoad
      else .permit p)
  | .increaseLoad => (g, .feedback p o (.increaseEpoch g.limit))
  | .increaseEpoch current =>
    (g, if g.feedbackEpoch ≠ p.feedbackEpoch then .permit p
      else if config.maxLimit ≤ current then .permit p
      else if increased config current = current then .permit p
      else .feedback p o (.increaseCas current))
  | .increaseCas current =>
    if g.limit = current then ({ g with limit := increased config current }, .permit p)
    else (g, .feedback p o (.increaseEpoch g.limit))

def targetStep (g : AdaptiveConcurrencyState) :
    Pc → Choice → Option (AdaptiveConcurrencyState × Pc)
  | .idle, .tryAcquire => some (g, .loadInFlight)
  | .loadInFlight, .go _ => some (g, .admitLimit g.inFlight)
  | .admitLimit current, .go _ =>
    some (g, if current ≥ clamp config g.limit ∧ config.shadowMode = false then .countRejection
      else .increment current)
  | .increment current, .go spurious =>
    if g.inFlight = current ∧ spurious = false then
      some ({ g with inFlight := saturatingAdd current 1 }, .loadEpoch)
    else some (g, .loadInFlight)
  | .countRejection, .go _ => some ({ g with rejections := fetchAdd g.rejections }, .idle)
  | .loadEpoch, .go _ => some (g, .permit ⟨g.feedbackEpoch, false⟩)
  | .permit p, .record o => some (g, record p o)
  | .permit _, .drop => some ({ g with inFlight := fetchSub g.inFlight }, .idle)
  | .feedback p o f, .go _ => some (feedbackStep config g p o f)
  | _, _ => none

/-- The requests of any number of threads to one target. -/
def target : Program AdaptiveConcurrencyState Pc Choice Empty where
  step _ g pc c := targetStep config g pc c
  env _ e := e.elim

end

abbrev Sys := Pool AdaptiveConcurrencyState Pc

def Sys.init (initialLimit : ℕ) : Sys := ⟨.new initialLimit, fun _ => .idle⟩

/-- No epoch wraps. -/
def NoWrap (s : Sys) (_ : PoolAct Choice Empty) : Prop := s.shared.feedbackEpoch + 1 < 2 ^ 64

instance (s : Sys) (a : PoolAct Choice Empty) : Decidable (NoWrap s a) :=
  inferInstanceAs (Decidable (_ < _))

/-! ## Epochs -/

variable {config : AdaptiveConcurrencyConfig} {g g' : AdaptiveConcurrencyState} {pc pc' : Pc}

structure StateOk (g : AdaptiveConcurrencyState) : Prop where
  published_le : ∀ e ∈ g.published, e ≤ g.feedbackEpoch
  returned : ∀ e ∈ g.returned, e ∈ g.published

def PcOk (config : AdaptiveConcurrencyConfig) (g : AdaptiveConcurrencyState) : Pc → Prop
  | .feedback _ _ (.decreaseLoad _ epoch) => epoch ∈ g.published
  | .feedback _ _ (.decreaseCas before epoch current) =>
    epoch ∈ g.published ∧ decreased config before current < current
  | _ => True

/-- The steps of others: an epoch that they publish is a new one. -/
structure Later (g g' : AdaptiveConcurrencyState) : Prop where
  epoch_le : g.feedbackEpoch ≤ g'.feedbackEpoch
  kept : ∀ e ∈ g.published, e ∈ g'.published
  fresh : ∀ e ∈ g'.published, e ∈ g.published ∨ g.feedbackEpoch < e

theorem Later.of_eq (hep : g'.feedbackEpoch = g.feedbackEpoch)
    (hp : g'.published = g.published) : Later g g' :=
  ⟨hep.ge, fun _ he => hp ▸ he, fun _ he => .inl (hp ▸ he)⟩

theorem PcOk.later (h : PcOk config g pc) (hl : Later g g') : PcOk config g' pc := by
  cases pc with
  | feedback p o f =>
    cases f with
    | decreaseLoad before epoch => exact hl.kept _ h
    | decreaseCas before epoch current => exact ⟨hl.kept _ h.1, h.2⟩
    | _ => trivial
  | _ => trivial

/-- What one step keeps, and what the thread knows after it. -/
structure StepOk (config : AdaptiveConcurrencyConfig) (g g' : AdaptiveConcurrencyState) (pc' : Pc) :
    Prop where
  later : Later g g'
  state : StateOk g'
  pc : PcOk config g' pc'

theorem StateOk.of_eq (h : StateOk g) (he : g'.feedbackEpoch = g.feedbackEpoch)
    (hp : g'.published = g.published) (hr : g'.returned = g.returned)
    (hpc : PcOk config g' pc') : StepOk config g g' pc' :=
  ⟨.of_eq he hp,
    ⟨by rw [he, hp]; exact h.published_le, by rw [hp, hr]; exact h.returned⟩,
    hpc⟩

variable {epoch initialLimit : ℕ} {o : Outcome} {p : Permit} {c : Choice}

theorem StateOk.return (h : StateOk g) {limit : ℕ} (he : epoch ∈ g.published) (p : Permit) :
    StepOk config g { g with limit := limit, returned := epoch :: g.returned } (.permit p) :=
  ⟨.of_eq rfl rfl, ⟨h.published_le, List.forall_mem_cons.2 ⟨he, h.returned⟩⟩, trivial⟩

theorem decreaseNext_ok (h : StateOk g) (he : epoch ∈ g.published) {before current : ℕ}
    (hst : decreaseNext config g p o before epoch current = (g', pc')) :
    StepOk config g g' pc' := by
  rw [decreaseNext] at hst
  split_ifs at hst with hlw <;> cases hst
  · exact h.return he p
  · exact h.of_eq rfl rfl rfl ⟨he, Nat.lt_of_not_le hlw⟩

theorem feedbackStep_ok (h : StateOk g) (hw : g.feedbackEpoch + 1 < 2 ^ 64) {f : Feedback}
    (hpc : PcOk config g (.feedback p o f)) (hst : feedbackStep config g p o f = (g', pc')) :
    StepOk config g g' pc' := by
  cases f with
  | nextEpoch before =>
    have hn : fetchAdd g.feedbackEpoch = g.feedbackEpoch + 1 := Nat.mod_eq_of_lt hw
    simp only [feedbackStep, hn] at hst
    cases hst
    refine ⟨⟨Nat.le_succ _, fun e he => List.mem_cons_of_mem _ he, fun e he => ?_⟩,
      ⟨fun e he => ?_, fun e he => List.mem_cons_of_mem _ (h.returned e he)⟩, List.mem_cons_self⟩
    · rcases List.mem_cons.1 he with rfl | he
      · exact .inr (Nat.lt_succ_self _)
      · exact .inl he
    · rcases List.mem_cons.1 he with rfl | he
      · exact le_rfl
      · exact (h.published_le e he).trans (Nat.le_succ _)
  | decreaseLoad before epoch => exact decreaseNext_ok h hpc hst
  | decreaseCas before epoch current =>
    rw [feedbackStep] at hst
    split_ifs at hst
    · cases hst
      exact h.return hpc.1 p
    · exact decreaseNext_ok h hpc.1 hst
  | loadLimit | ewmaLoad | readLimit ewma target | increaseLoad =>
    cases hst
    exact h.of_eq rfl rfl rfl trivial
  | _ =>
    simp only [feedbackStep, minNext] at hst
    split_ifs at hst <;> cases hst <;> exact h.of_eq rfl rfl rfl trivial

/-- The thread is not in `record`, or has just started it. -/
def Pc.starting : Pc → Prop
  | .feedback _ _ f => f = .loadLimit ∨ f = .minLoad
  | _ => True

theorem PcOk.of_starting (h : pc.starting) : PcOk config g pc := by
  cases pc with
  | feedback p o f => rcases h with rfl | rfl <;> trivial
  | _ => trivial

/-- A step is an operation of `record`, or leaves the limit and the epochs. -/
theorem targetStep_cases (hst : targetStep config g pc c = some (g', pc')) :
    (∃ p o f spurious, pc = .feedback p o f ∧ c = .go spurious ∧
      feedbackStep config g p o f = (g', pc')) ∨
    g'.limit = g.limit ∧ g'.feedbackEpoch = g.feedbackEpoch ∧ g'.published = g.published ∧
      g'.returned = g.returned ∧ pc'.starting := by
  cases pc with
  | feedback p o f =>
    cases c with
    | go spurious => exact .inl ⟨p, o, f, spurious, rfl, rfl, Option.some.inj hst⟩
    | _ => cases hst
  | permit p =>
    cases c <;> cases hst <;> refine .inr ⟨rfl, rfl, rfl, rfl, ?_⟩
    · rw [record]
      split_ifs
      · trivial
      · trivial
      · exact .inl rfl
      · exact .inr rfl
    · trivial
  | admitLimit current =>
    cases c <;> cases hst
    exact .inr ⟨rfl, rfl, rfl, rfl, by split_ifs <;> trivial⟩
  | increment current =>
    cases c with
    | go spurious =>
      simp only [targetStep] at hst
      split_ifs at hst <;> cases hst <;> exact .inr ⟨rfl, rfl, rfl, rfl, trivial⟩
    | _ => cases hst
  | _ =>
    cases c <;> cases hst
    exact .inr ⟨rfl, rfl, rfl, rfl, trivial⟩

theorem targetStep_ok (h : StateOk g) (hw : g.feedbackEpoch + 1 < 2 ^ 64) (hpc : PcOk config g pc)
    (hst : targetStep config g pc c = some (g', pc')) : StepOk config g g' pc' := by
  rcases targetStep_cases hst with ⟨p, o, f, spurious, rfl, rfl, hfs⟩ | ⟨-, he, hp, hr, hs⟩
  · exact feedbackStep_ok h hw hpc hfs
  · exact h.of_eq he hp hr (.of_starting hs)

theorem target_holds {s : Sys}
    (hr : Reach (Pool.step (target config)) NoWrap (Sys.init initialLimit) s) :
    Pool.Holds StateOk (fun _ => PcOk config) s := by
  refine Pool.inv hr ⟨⟨by simp [Sys.init, AdaptiveConcurrencyState.new],
    by simp [Sys.init, AdaptiveConcurrencyState.new]⟩, fun _ => trivial⟩ ?_ ?_
  · intro x i c g' pc' _ hw hs hpc hst
    have hok := targetStep_ok hs hw hpc hst
    exact ⟨hok.state, hok.pc, fun j m _ hm => hm.later hok.later⟩
  · intro x e
    exact e.elim

/-- Only an exchange of `increase_limit_for_epoch` raises the limit. -/
theorem raise_step (hpc : PcOk config g pc) (hst : targetStep config g pc c = some (g', pc'))
    (hr : g.limit < g'.limit) :
    ∃ spurious p o current, c = .go spurious ∧ pc = .feedback p o (.increaseCas current) ∧
      g.limit = current ∧ g'.limit = increased config current := by
  have hn {p o before epoch current g' pc'}
      (h : decreaseNext config g p o before epoch current = (g', pc')) : g'.limit = g.limit := by
    rw [decreaseNext] at h
    split_ifs at h <;> cases h <;> rfl
  rcases targetStep_cases hst with ⟨p, o, f, spurious, rfl, rfl, hfs⟩ | ⟨hlm, -⟩
  · cases f with
    | increaseCas current =>
      rw [feedbackStep] at hfs
      split_ifs at hfs with hlm <;> cases hfs
      · exact ⟨spurious, p, o, current, rfl, rfl, hlm, rfl⟩
      · exact absurd hr (Nat.lt_irrefl _)
    | decreaseLoad before epoch => exact absurd hr (hn hfs).not_gt
    | decreaseCas before epoch current =>
      rw [feedbackStep] at hfs
      split_ifs at hfs with hlm
      · cases hfs
        exact absurd hr (hlm ▸ hpc.2.not_gt)
      · exact absurd hr (hn hfs).not_gt
    | _ =>
      simp only [feedbackStep] at hfs
      try split_ifs at hfs
      all_goals cases hfs; exact absurd hr (Nat.lt_irrefl _)
  · exact absurd hr hlm.not_gt

/-! ## The past of an exchange -/

/-- The last thing that thread `i` did was to load the limit, in the state `loaded`. -/
inductive Loaded (i : ℕ) (p : Permit) (o : Outcome) (loaded : Sys) : List Sys → Prop
  | load {past : List Sys} :
    (loaded.thread i = .feedback p o .increaseLoad ∨
      ∃ current, loaded.thread i = .feedback p o (.increaseCas current)) →
    Loaded i p o loaded (loaded :: past)
  | wait {x : Sys} {past : List Sys} :
    x.thread i = .feedback p o (.increaseEpoch loaded.shared.limit) → Loaded i p o loaded past →
    Loaded i p o loaded (x :: past)

/-- The last thing that it did was to find the epoch of its permit, in the state `checked`, and the
    one before was to load the limit. -/
inductive Checked (i : ℕ) (p : Permit) (o : Outcome) (loaded checked : Sys) : List Sys → Prop
  | check {past : List Sys} :
    checked.thread i = .feedback p o (.increaseEpoch loaded.shared.limit) →
    checked.shared.feedbackEpoch = p.feedbackEpoch → Loaded i p o loaded past →
    Checked i p o loaded checked (checked :: past)
  | wait {x : Sys} {past : List Sys} :
    x.thread i = .feedback p o (.increaseCas loaded.shared.limit) →
    Checked i p o loaded checked past → Checked i p o loaded checked (x :: past)

/-- The epochs of the permit and up to it were published when it was checked. -/
structure Seen (g : AdaptiveConcurrencyState) (epoch : ℕ) (seen : List ℕ) : Prop where
  epoch_le : epoch ≤ g.feedbackEpoch
  seen_le : ∀ e ∈ seen, e ≤ epoch
  seen_of_le : ∀ e ∈ g.published, e ≤ epoch → e ∈ seen

theorem Seen.later {seen : List ℕ} (h : Seen g epoch seen) (hl : Later g g') :
    Seen g' epoch seen := by
  refine ⟨h.epoch_le.trans hl.epoch_le, h.seen_le, fun e he hle => ?_⟩
  rcases hl.fresh e he with he | hlt
  · exact h.seen_of_le e he hle
  · exact absurd (hle.trans h.epoch_le) (Nat.not_le.2 hlt)

/-- How a thread came to where it is. -/
def Came (i : ℕ) (g : AdaptiveConcurrencyState) (past : List Sys) : Pc → Prop
  | .feedback p o (.increaseEpoch current) => ∃ loaded, Loaded i p o loaded past ∧
    loaded.shared.limit = current ∧ loaded.shared.published ⊆ g.published
  | .feedback p o (.increaseCas current) => ∃ loaded checked, Checked i p o loaded checked past ∧
    loaded.shared.limit = current ∧ loaded.shared.published ⊆ checked.shared.published ∧
    Seen g p.feedbackEpoch checked.shared.published
  | _ => True

section
variable {i : ℕ} {x : Sys} {past : List Sys}

theorem Came.wait (h : Came i x.shared past (x.thread i)) (hl : Later x.shared g') :
    Came i g' (x :: past) (x.thread i) := by
  cases hpc : x.thread i with
  | feedback p o f =>
    rw [hpc] at h
    cases f with
    | increaseEpoch current =>
      obtain ⟨loaded, hld, rfl, hp⟩ := h
      exact ⟨loaded, .wait hpc hld, rfl, fun e he => hl.kept e (hp he)⟩
    | increaseCas current =>
      obtain ⟨loaded, checked, hc, rfl, hp, hs⟩ := h
      exact ⟨loaded, checked, .wait hpc hc, rfl, hp, hs.later hl⟩
    | _ => trivial
  | _ => trivial

theorem Came.step {c : Choice} (h : Came i x.shared past (x.thread i)) (hok : StateOk x.shared)
    (hl : Later x.shared g') (hst : targetStep config x.shared (x.thread i) c = some (g', pc')) :
    Came i g' (x :: past) pc' := by
  rcases targetStep_cases hst with ⟨p, o, f, spurious, hpc, rfl, hfs⟩ | ⟨-, -, -, -, hs⟩
  · rw [hpc] at h
    cases f with
    | increaseLoad =>
      cases hfs
      exact ⟨x, .load (.inl hpc), rfl, fun e => hl.kept e⟩
    | increaseCas current =>
      rw [feedbackStep] at hfs
      split_ifs at hfs <;> cases hfs
      · trivial
      · exact ⟨x, .load (.inr ⟨current, hpc⟩), rfl, fun e => hl.kept e⟩
    | increaseEpoch current =>
      simp only [feedbackStep] at hfs
      split_ifs at hfs with hep <;> cases hfs
      · trivial
      · trivial
      · trivial
      · rw [not_not] at hep
        obtain ⟨loaded, hld, rfl, hp⟩ := h
        exact ⟨loaded, x, .check hpc hep hld, rfl, hp, hep.ge,
          fun e he => hep ▸ hok.published_le e he, fun e he _ => he⟩
    | loadLimit | nextEpoch before | ewmaLoad | readLimit ewma target =>
      cases hfs
      trivial
    | _ =>
      simp only [feedbackStep, decreaseNext, minNext] at hfs
      (repeat' split_ifs at hfs) <;> cases hfs <;> trivial
  · cases pc' with
    | feedback p o f => rcases hs with rfl | rfl <;> trivial
    | _ => trivial

end

theorem came {x : Sys × List Sys}
    (hr : Reach (trail (Pool.step (target config))) (fun x a => NoWrap x.1 a)
      (Sys.init initialLimit, []) x) (i : ℕ) : Came i x.1.shared x.2 (x.1.thread i) := by
  refine hr.inv (I := fun x => ∀ i, Came i x.1.shared x.2 (x.1.thread i)) ?_ ?_ i
  · exact fun _ => trivial
  intro x a y hx hc hw hst j
  obtain ⟨s, hs, rfl⟩ := Option.map_eq_some_iff.1 hst
  have hok := target_holds hx.of_observed
  rcases Pool.step_some hs with ⟨i, c, l', -, hst, ht⟩ | ⟨e, -, -, -⟩
  · have hl := (targetStep_ok hok.shared hw (hok.thread i) hst).later
    show Came j s.shared (x.1 :: x.2) (s.thread j)
    rw [ht, Function.update_apply]
    split_ifs with hj
    · exact hj ▸ (hc i).step hok.shared hl hst
    · exact (hc j).wait hl
  · exact e.elim

/-- **Who raises the limit.**  It is a thread that has loaded the limit and then found the epoch of
    its permit.  Of the faults that were recorded, those that came before the check are exactly those
    with an epoch up to that of the permit; so the limit of a stale permit was loaded before the
    fault, too. -/
theorem raise_after_fault (config : AdaptiveConcurrencyConfig) (initialLimit : ℕ) {s s' : Sys}
    {past : List Sys} {a : PoolAct Choice Empty}
    (hr : Reach (trail (Pool.step (target config))) (fun x a => NoWrap x.1 a)
      (Sys.init initialLimit, []) (s, past))
    (hstep : s.step (target config) a = some s') (hraise : s.shared.limit < s'.shared.limit) :
    ∃ i spurious p o loaded checked, a = .run i (.go spurious) ∧
      s.thread i = .feedback p o (.increaseCas s.shared.limit) ∧
      s'.shared.limit = increased config s.shared.limit ∧
      loaded.shared.limit = s.shared.limit ∧ Checked i p o loaded checked past ∧
      ∀ e, e ∈ s.shared.returned ∨ e ∈ s.shared.published →
        (e ≤ p.feedbackEpoch ↔ e ∈ checked.shared.published) ∧
          (e ∈ loaded.shared.published → e ∈ checked.shared.published) := by
  have hok := target_holds hr.of_observed
  rcases Pool.step_some hstep with ⟨i, c, l', rfl, hst, -⟩ | ⟨e, -, -, -⟩
  · obtain ⟨spurious, p, o, current, rfl, hpc, rfl, hlm⟩ := raise_step (hok.thread i) hst hraise
    have hc := came hr i
    rw [hpc] at hc
    obtain ⟨loaded, checked, hc, hld, hp, hs⟩ := hc
    refine ⟨i, spurious, p, o, loaded, checked, rfl, hpc, hlm, hld, hc, fun e he => ⟨?_, @hp e⟩⟩
    exact ⟨hs.seen_of_le e (he.elim (hok.shared.returned e) id), hs.seen_le e⟩
  · exact e.elim

/-! ## A stale success -/

/-- Decreases are by half, and not below two. -/
def halving : AdaptiveConcurrencyConfig := ⟨2, 10, 1, 1, false, (2 * ·), (· / 2)⟩

/-- Two requests are admitted.  The first one succeeds, and checks the epoch; then the second one
    fails, and finds the limit at its minimum. -/
def staleRun : List (PoolAct Choice Empty) :=
  .run 0 .tryAcquire :: List.replicate 4 (.run 0 (.go false)) ++
    .run 1 .tryAcquire :: List.replicate 4 (.run 1 (.go false)) ++
    .run 0 (.record ⟨false, false, 200, false, 5, true⟩) :: List.replicate 10 (.run 0 (.go false)) ++
    .run 1 (.record ⟨false, true, 0, false, 5, true⟩) :: List.replicate 3 (.run 1 (.go false))

theorem staleRun_isSome :
    (exec (guarded (fun x a => NoWrap x.1 a) (trail (Pool.step (target halving)))) (Sys.init 2, [])
      staleRun).isSome := by
  decide +kernel

/-- The state after the run, with its past. -/
def staleState : Sys × List Sys :=
  (exec (guarded (fun x a => NoWrap x.1 a) (trail (Pool.step (target halving)))) (Sys.init 2, [])
    staleRun).get staleRun_isSome

theorem staleState_step : (staleState.1.step (target halving) (.run 0 (.go false))).isSome := by
  decide +kernel

/-- **A stale success raises the limit** after the backoff: its permit is of epoch 1, and the call
    that published epoch 2 has returned. -/
theorem stale_success_raises : ∃ s s' o,
    Reach (Pool.step (target halving)) NoWrap (Sys.init 2) s ∧
      s.step (target halving) (.run 0 (.go false)) = some s' ∧
      s.thread 0 = .feedback ⟨1, true⟩ o (.increaseCas 2) ∧ 2 ∈ s.shared.returned ∧
      s.shared.limit = 2 ∧ s'.shared.limit = 3 :=
  ⟨staleState.1, _, ⟨false, false, 200, false, 5, true⟩, (reach_guarded staleRun_isSome).of_observed,
    (Option.some_get staleState_step).symm, by decide +kernel, by decide +kernel, by decide +kernel,
    by decide +kernel⟩

theorem raise_after_fault_unseen : ∃ i spurious p o loaded checked,
    (.run 0 (.go false) : PoolAct Choice Empty) = .run i (.go spurious) ∧
      Checked i p o loaded checked staleState.2 ∧
      ∀ e ∈ staleState.1.shared.returned, e ≤ p.feedbackEpoch ↔ e ∈ checked.shared.published := by
  obtain ⟨i, spurious, p, o, loaded, checked, ha, -, -, -, hc, he⟩ :=
    raise_after_fault halving 2 (reach_guarded staleRun_isSome)
      (Option.some_get staleState_step).symm (by decide +kernel)
  exact ⟨i, spurious, p, o, loaded, checked, ha, hc, fun e hm => (he e (.inl hm)).1⟩

/-! ## Permits -/

/-- The thread is counted in flight. -/
def Pc.admitted : Pc → Bool
  | .loadEpoch | .permit _ | .feedback .. => true
  | _ => false

section
variable (config g pc)

/-- The limit has allowed an increment. -/
def Pc.Allowed : Pc → Prop
  | .increment current => config.shadowMode = false → current < config.maxLimit
  | _ => True

/-- The permits are counted, and the limit has its bounds. -/
structure Exact (s : Sys) : Prop where
  counts : s.Counts Pc.admitted s.shared.inFlight
  inFlight_le : config.shadowMode = false → s.shared.inFlight ≤ config.maxLimit
  limit : config.minLimit ≤ s.shared.limit ∧ s.shared.limit ≤ config.maxLimit
  allowed : ∀ i, (s.thread i).Allowed config

/-- What a step of a thread does to the target. -/
structure Moves (r : AdaptiveConcurrencyState × Pc) : Prop where
  inFlight : r.1.inFlight = g.inFlight + r.2.admitted.toNat - pc.admitted.toNat
  le : r.1.inFlight ≤ g.inFlight ∨ (config.shadowMode = false → r.1.inFlight ≤ config.maxLimit)
  limit : r.1.limit = g.limit ∨ ∃ limit, r.1.limit = clamp config limit
  allowed : r.2.Allowed config

end

theorem feedbackStep_moves (p : Permit) (o : Outcome) (f : Feedback) :
    Moves config g (.feedback p o f) (feedbackStep config g p o f) := by
  cases f <;> simp only [feedbackStep, decreaseNext] <;> (repeat' split) <;>
    exact ⟨rfl, .inl le_rfl, by first | exact .inl rfl | exact .inr ⟨_, rfl⟩, trivial⟩

theorem fetchSub_eq {n : ℕ} (hp : 0 < n) (hn : n < u64Max) : fetchSub n = n - 1 := by
  simp only [fetchSub, u64Max] at hn ⊢
  omega

theorem targetStep_moves (hf : g.inFlight < u64Max) (hn : pc.admitted = true → 0 < g.inFlight)
    (hp : pc.Allowed config) (h : targetStep config g pc c = some (g', pc')) :
    Moves config g pc (g', pc') := by
  cases c with
  | tryAcquire => cases pc <;> cases h; exact ⟨rfl, .inl le_rfl, .inl rfl, trivial⟩
  | drop =>
    cases pc <;> cases h
    have hs := fetchSub_eq (hn rfl) hf
    exact ⟨hs, .inl (hs.trans_le (Nat.sub_le _ _)), .inl rfl, trivial⟩
  | record o =>
    cases pc <;> cases h
    dsimp only [record]
    split_ifs <;> exact ⟨rfl, .inl le_rfl, .inl rfl, trivial⟩
  | go spurious =>
    cases pc with
    | feedback p o f => exact Option.some.inj h ▸ feedbackStep_moves p o f
    | admitLimit current =>
      cases h
      split_ifs with hc
      · exact ⟨rfl, .inl le_rfl, .inl rfl, trivial⟩
      · refine ⟨rfl, .inl le_rfl, .inl rfl, fun hs => ?_⟩
        exact (Nat.lt_of_not_le fun hle => hc ⟨hle, hs⟩).trans_le (Nat.min_le_right _ _)
    | increment current =>
      simp only [targetStep] at h
      split_ifs at h with hc <;> cases h
      · obtain ⟨rfl, -⟩ := hc
        have ha : saturatingAdd g.inFlight 1 = g.inFlight + 1 := Nat.min_eq_left hf
        exact ⟨ha, .inr fun hs => ha.trans_le (hp hs), .inl rfl, trivial⟩
      · exact ⟨rfl, .inl le_rfl, .inl rfl, trivial⟩
    | _ => cases h <;> exact ⟨rfl, .inl le_rfl, .inl rfl, trivial⟩

/-- **So it is in every state reached**, as long as the count does not saturate. -/
theorem in_flight_exact {limit : ℕ} {s : Sys}
    (hi : config.minLimit ≤ limit ∧ limit ≤ config.maxLimit)
    (hr : Reach (Pool.step (target config)) (fun s _ => s.shared.inFlight < u64Max)
      (Sys.init limit) s) : Exact config s := by
  refine hr.inv ⟨Pool.counts_zero fun _ => rfl, fun _ => Nat.zero_le _, hi, fun _ => trivial⟩
    fun x a y _ hx hok hst => ?_
  rcases Pool.step_some hst with ⟨i, c, l', -, hst, ht⟩ | ⟨e, -, -, -⟩
  · obtain ⟨m, hc, hm⟩ := hx.counts.update ht
    have hp (ha : (x.thread i).admitted = true) : 0 < x.shared.inFlight := by
      refine Nat.pos_of_ne_zero fun h0 => ?_
      have hz : x.Counts Pc.admitted 0 := h0 ▸ hx.counts
      rw [hz.eq_false i] at ha
      cases ha
    have hmv := targetStep_moves hok hp (hx.allowed i) hst
    have hy : y.shared.inFlight = m := by rw [hmv.inFlight, ← hm, Nat.add_sub_cancel]
    refine ⟨hy ▸ hc, fun hs => ?_, ?_, fun j => ?_⟩
    · exact hmv.le.elim (fun h => h.trans (hx.inFlight_le hs)) fun h => h hs
    · rcases hmv.limit with h | ⟨limit, h⟩ <;> rw [h]
      · exact hx.limit
      · exact ⟨le_min (le_max_right _ _) (hi.1.trans hi.2), Nat.min_le_right _ _⟩
    · rw [ht, Function.update_apply]
      split_ifs
      · exact hmv.allowed
      · exact hx.allowed j
  · exact e.elim

theorem in_flight_exact_stale : Exact halving ((exec (guarded (fun s _ => s.shared.inFlight < u64Max)
    (Pool.step (target halving))) (Sys.init 2) staleRun).get (by decide +kernel)) :=
  in_flight_exact ⟨le_rfl, by decide⟩ (reach_guarded _)

end Ferrum.Adaptive
