/-
  The local limiter: windows of one or more specifications for every key.

  A request is checked against all windows before any of them counts it.  Idle keys are forgotten by
  a prune.  Short windows are token buckets, whose floating-point arithmetic is a parameter.

  * `checkHttpWindows`, `checkLocal`, `LocalLimiter.checkAt`, `LocalLimiter.pruneStaleAt`.
  * `View`: the windows of a key count its admissions since its state was made.
  * `decisionAt`: what sliding windows decide, by these admissions.
-/
import Ferrum.Lib.HashMap
import Ferrum.RateLimit.Window

namespace Ferrum.RateLimit

open Lib List

/-! ## Windows -/

structure RateLimitWindowSpec where
  limit : UInt64
  duration : ℕ
  deriving DecidableEq, Repr

inductive LocalWindowAlgorithm where
  | tokenBucket | slidingAggregate
  deriving DecidableEq, Repr

def localTokenBucketMaxWindowSeconds : ℕ := 5

def localWindowAlgorithm (duration : ℕ) : LocalWindowAlgorithm :=
  if asSecs duration ≤ localTokenBucketMaxWindowSeconds then .tokenBucket else .slidingAggregate

structure RateLimitOutcome where
  allowed : Bool
  remaining : Option ℕ := none
  limit : Option ℕ := none
  windowSeconds : Option ℕ := none
  deriving DecidableEq, Repr

/-- Token buckets, with `now` the instant a new bucket reads from the clock. -/
structure TokenBuckets (B : Type*) where
  fromWindow : (limit : UInt64) → (duration now : ℕ) → B
  wouldAllow : B → (now weight : ℕ) → Bool × B
  consume : B → (weight : ℕ) → B
  remaining : B → ℕ
  isActive : B → (now : ℕ) → Bool

inductive HttpWindowState (B : Type*) where
  | sliding (window : SlidingWindow)
  | bucket (bucket : B)

variable {B : Type*} (tb : TokenBuckets B)

namespace HttpWindowState

def wouldAllow (now : ℕ) : HttpWindowState B → Bool × HttpWindowState B
  | .sliding w => let (allowed, w) := w.wouldAllow now; (allowed, .sliding w)
  | .bucket b => let (allowed, b) := tb.wouldAllow b now 1; (allowed, .bucket b)

def count (now : ℕ) : HttpWindowState B → HttpWindowState B
  | .sliding w => .sliding (w.increment now)
  | .bucket b => .bucket (tb.consume b 1)

def remaining : HttpWindowState B → ℕ
  | .sliding w => w.remaining
  | .bucket b => tb.remaining b

def isActive (now : ℕ) : HttpWindowState B → Bool
  | .sliding w => w.hasRecentActivity now
  | .bucket b => tb.isActive b now

end HttpWindowState

def newHttpWindowStates (now : ℕ) (specs : List RateLimitWindowSpec) : List (HttpWindowState B) :=
  specs.map fun spec =>
    match localWindowAlgorithm spec.duration with
    | .tokenBucket => .bucket (tb.fromWindow spec.limit spec.duration now)
    | .slidingAggregate => .sliding (.new spec.limit spec.duration)

/-- The first pass, up to the window that denies. -/
def firstPass (now : ℕ) : List (HttpWindowState B) → Option ℕ × List (HttpWindowState B)
  | [] => (none, [])
  | window :: windows =>
    let (allowed, window) := window.wouldAllow tb now
    if allowed then
      let (denied, windows) := firstPass now windows
      (denied.map (· + 1), window :: windows)
    else (some 0, window :: windows)

/-- The least that remains, with the limit and the seconds of the first such window. -/
def tightest (remaining : List (RateLimitWindowSpec × ℕ)) : Option (ℕ × ℕ × ℕ) :=
  remaining.foldl (fun tightest (spec, remaining) =>
    if tightest.any fun current => current.1 ≤ remaining then tightest
    else some (remaining, spec.limit.toNat, asSecs spec.duration)) none

/-- An outcome, with the window that denies. -/
structure Decision where
  outcome : RateLimitOutcome
  deniedBy : Option ℕ := none
  deriving DecidableEq, Repr

def denyBy (specs : List RateLimitWindowSpec) (idx : ℕ) : Decision :=
  { outcome := specs[idx]?.elim { allowed := false } fun spec =>
      { allowed := false, limit := spec.limit.toNat, windowSeconds := asSecs spec.duration }
    deniedBy := idx }

def allowWith (specs : List RateLimitWindowSpec) (remaining : List ℕ) : Decision :=
  { outcome := (tightest (specs.zip remaining)).elim { allowed := true }
      fun (remaining, limit, windowSeconds) =>
        { allowed := true, remaining := remaining, limit := limit, windowSeconds := windowSeconds } }

def checkHttpWindows (specs : List RateLimitWindowSpec) (state : List (HttpWindowState B))
    (now : ℕ) : Decision × List (HttpWindowState B) :=
  match firstPass tb now state with
  | (some idx, state) => (denyBy specs idx, state)
  | (none, state) =>
    let state := state.map (·.count tb now)
    (allowWith specs (state.map (·.remaining tb)), state)

structure DynamicHttpRateLimitState (B : Type*) where
  specs : List RateLimitWindowSpec
  windows : List (HttpWindowState B)

def newState : DynamicHttpRateLimitState B := ⟨[], []⟩

/-- Specifications that are the same pointer are the same; others are compared by value. -/
def checkLocal (state : DynamicHttpRateLimitState B) (op : List RateLimitWindowSpec)
    (now instantNow : ℕ) : Decision × DynamicHttpRateLimitState B :=
  let windows := if state.specs ≠ op then newHttpWindowStates tb instantNow op else state.windows
  let (decision, windows) := checkHttpWindows tb op windows now
  (decision, ⟨op, windows⟩)

def isStateActive (state : DynamicHttpRateLimitState B) (now : ℕ) : Bool :=
  state.windows.any (·.isActive tb now)

/-! ## The limiter -/

structure LocalLimiter (K B : Type*) where
  state : HMap K (DynamicHttpRateLimitState B)
  entryCount : ℕ

def usizeMax : ℕ := 2 ^ 64 - 1

variable {K : Type*} [DecidableEq K]

namespace LocalLimiter

def new : LocalLimiter K B := ⟨HMap.empty, 0⟩

def checkAtWithCapacity (limiter : LocalLimiter K B) (key : K) (op : List RateLimitWindowSpec)
    (now instantNow maxEntries : ℕ) : Option Decision × LocalLimiter K B :=
  match limiter.state.get key with
  | some state =>
    let (decision, state) := checkLocal tb state op now instantNow
    (some decision, { limiter with state := limiter.state.insert key state })
  | none =>
    if limiter.entryCount < maxEntries then
      let (decision, state) := checkLocal tb newState op now instantNow
      (some decision, ⟨limiter.state.insert key state, limiter.entryCount + 1⟩)
    else (none, limiter)

def checkAt (limiter : LocalLimiter K B) (key : K) (op : List RateLimitWindowSpec)
    (now instantNow : ℕ) : Decision × LocalLimiter K B :=
  let (decision, limiter) := limiter.checkAtWithCapacity tb key op now instantNow usizeMax
  (decision.getD { outcome := { allowed := false } }, limiter)

def pruneStaleAt (limiter : LocalLimiter K B) (now : ℕ) : LocalLimiter K B :=
  let state := limiter.state.retain fun _ state => isStateActive tb state now
  ⟨state, limiter.entryCount - (limiter.state.len - state.len)⟩

end LocalLimiter

/-- A call: a check, with the instant that new token buckets read, or a prune. -/
inductive Act (K : Type*) where
  | check (key : K) (now instantNow : ℕ)
  | prune (now : ℕ)
  deriving DecidableEq, Repr

def Act.now : Act K → ℕ
  | .check _ now _ => now
  | .prune now => now

inductive Event (K : Type*) where
  | checked (key : K) (now : ℕ) (decision : Decision)
  | pruned
  deriving DecidableEq, Repr

namespace LocalLimiter
variable (specs : List RateLimitWindowSpec)

def step (limiter : LocalLimiter K B) : Act K → Event K × LocalLimiter K B
  | .check key now instantNow =>
    let (decision, limiter) := limiter.checkAt tb key specs now instantNow
    (.checked key now decision, limiter)
  | .prune now => (.pruned, limiter.pruneStaleAt tb now)

/-- What a sequence of calls returns. -/
def events (limiter : LocalLimiter K B) : List (Act K) → List (Event K)
  | [] => []
  | act :: acts => (limiter.step tb specs act).1 :: events (limiter.step tb specs act).2 acts

def final (limiter : LocalLimiter K B) (acts : List (Act K)) : LocalLimiter K B :=
  acts.foldl (fun limiter act => (limiter.step tb specs act).2) limiter

end LocalLimiter

/-- When the key was admitted. -/
def admitted (key : K) (events : List (Event K)) : List ℕ :=
  events.filterMap fun
    | .checked key' now decision => if key' = key ∧ decision.outcome.allowed then some now else none
    | .pruned => none

/-! ## What the windows of a key count -/

def RateLimitWindowSpec.Sliding (spec : RateLimitWindowSpec) : Prop :=
  localWindowAlgorithm spec.duration = .slidingAggregate

theorem RateLimitWindowSpec.Sliding.duration_pos {spec : RateLimitWindowSpec} (h : spec.Sliding) :
    0 < spec.duration := by
  rw [Sliding, localWindowAlgorithm] at h
  split_ifs at h with hs
  refine Nat.pos_of_ne_zero fun hz => hs ?_
  rw [hz]
  decide

/-- The window is one of its specification, and counts the admissions `recent`. -/
def WindowOk (latest : ℕ) (recent : List ℕ) (spec : RateLimitWindowSpec) :
    HttpWindowState B → Prop
  | .sliding w =>
    spec.Sliding ∧ w.limit = spec.limit ∧ w.windowDuration = spec.duration ∧ Tracks w latest recent
  | .bucket _ => ¬ spec.Sliding

/-- The state of a key, if there is one, counts the admissions `recent`. -/
def View (specs : List RateLimitWindowSpec) (latest : ℕ) (recent : List ℕ) :
    Option (DynamicHttpRateLimitState B) → Prop
  | none => recent = []
  | some state => state.specs = specs ∧ List.Forall₂ (WindowOk latest recent) specs state.windows

/-- Does the window of the specification deny at `now`? -/
def RateLimitWindowSpec.denies (spec : RateLimitWindowSpec) (recent : List ℕ) (now : ℕ) : Bool :=
  spec.limit.toNat ≤ live spec.duration recent now

/-- What sliding windows decide. -/
def decisionAt (specs : List RateLimitWindowSpec) (recent : List ℕ) (now : ℕ) : Decision :=
  match specs.findIdx? (·.denies recent now) with
  | some idx => denyBy specs idx
  | none => allowWith specs (specs.map fun spec =>
      spec.limit.toNat - (live spec.duration recent now + 1))

section
variable {specs : List RateLimitWindowSpec} {latest now instantNow : ℕ} {recent : List ℕ}
variable {windows : List (HttpWindowState B)}

variable {spec : RateLimitWindowSpec} {window : HttpWindowState B}
  {state : Option (DynamicHttpRateLimitState B)}

theorem WindowOk.mono (h : WindowOk latest recent spec window) (hn : latest ≤ now) :
    WindowOk now recent spec window := by
  cases window with
  | sliding w =>
    obtain ⟨hs, hlm, hd, ht⟩ := h
    exact ⟨hs, hlm, hd, ht.mono hn⟩
  | bucket b => exact h

theorem View.mono (h : View specs latest recent state) (hn : latest ≤ now) :
    View specs now recent state := by
  cases state with
  | none => exact h
  | some state => exact ⟨h.1, h.2.imp fun _ _ hok => hok.mono hn⟩

theorem windowOk_new : List.Forall₂ (WindowOk latest []) specs
    (newHttpWindowStates tb instantNow specs) := by
  induction specs with
  | nil => exact .nil
  | cons spec specs ih =>
    refine .cons ?_ ih
    simp only
    split
    · next ha =>
      intro hs
      rw [RateLimitWindowSpec.Sliding, ha] at hs
      cases hs
    · next ha => exact ⟨ha, rfl, rfl, tracks_new ..⟩

/-- One window: it denies if its limit is reached by what it counts. -/
theorem WindowOk.wouldAllow (h : WindowOk latest recent spec window) (hn : latest ≤ now) :
    WindowOk now recent spec (window.wouldAllow tb now).2 ∧
      (spec.Sliding → (window.wouldAllow tb now).1 = !spec.denies recent now) := by
  cases window with
  | sliding w =>
    obtain ⟨hs, hlm, hd, ht⟩ := h
    obtain ⟨ht', htt, hd', hlm'⟩ := ht.advance hn
    refine ⟨⟨hs, hlm'.trans hlm, hd'.trans hd, ht'⟩, fun _ => ?_⟩
    show decide ((w.advance now).total < (w.advance now).limit.toNat) = _
    rw [htt, hlm', hlm, hd, RateLimitWindowSpec.denies, ← decide_not, decide_eq_decide]
    exact Nat.not_le.symm
  | bucket b => exact ⟨h, fun hs => absurd hs h⟩

theorem WindowOk.count (h : WindowOk now recent spec window)
    (hr : spec.Sliding → spec.denies recent now = false) :
    WindowOk now (now :: recent) spec (window.count tb now) ∧
      (spec.Sliding → (window.count tb now).remaining tb =
        spec.limit.toNat - (live spec.duration recent now + 1)) := by
  cases window with
  | sliding w =>
    obtain ⟨hs, hlm, hd, ht⟩ := h
    have hlt : live spec.duration recent now < spec.limit.toNat := by
      simpa [RateLimitWindowSpec.denies] using hr hs
    have hmax : spec.limit.toNat ≤ u64Max := Nat.le_of_lt_succ spec.limit.toNat_lt
    obtain ⟨ht', htt, hd', hlm'⟩ :=
      ht.increment le_rfl (by rw [hd]; omega)
    refine ⟨⟨hs, hlm'.trans hlm, hd'.trans hd, ht'⟩, fun _ => ?_⟩
    show (w.increment now).limit.toNat - (w.increment now).total = _
    rw [htt, hlm', hlm, hd]
  | bucket b => exact ⟨h, fun hs => absurd hs h⟩

/-- The first pass keeps what the windows count, and denies by a window that is full. -/
theorem firstPass_ok (h : List.Forall₂ (WindowOk latest recent) specs windows)
    (hn : latest ≤ now) :
    List.Forall₂ (WindowOk now recent) specs (firstPass tb now windows).2 ∧
      (∀ idx spec, (firstPass tb now windows).1 = some idx → specs[idx]? = some spec →
        spec.Sliding → spec.denies recent now = true) ∧
      ((firstPass tb now windows).1 = none →
        ∀ spec ∈ specs, spec.Sliding → spec.denies recent now = false) ∧
      ((∀ spec ∈ specs, spec.Sliding) →
        (firstPass tb now windows).1 = specs.findIdx? (·.denies recent now)) := by
  induction h with
  | nil => simp [firstPass]
  | @cons spec window specs windows hw hr ih =>
    obtain ⟨ihok, ihdenied, ihnone, ihidx⟩ := ih
    obtain ⟨hok, hal⟩ := hw.wouldAllow tb hn
    cases ha : (window.wouldAllow tb now).1 with
    | false =>
      simp only [firstPass, ha, Bool.false_eq_true, if_false]
      refine ⟨.cons hok (hr.imp fun _ _ hok => hok.mono hn), ?_, nofun, ?_⟩
      · rintro idx spec' hi hsp hs
        cases hi
        cases hsp
        simpa [ha] using hal hs
      · intro hall
        have hd : spec.denies recent now = true := by
          simpa [ha] using hal (hall spec (mem_cons_self ..))
        rw [findIdx?_cons, hd]
        rfl
    | true =>
      simp only [firstPass, ha, if_true]
      refine ⟨.cons hok ihok, ?_, ?_, ?_⟩
      · rintro idx spec' hi hsp hs
        obtain ⟨idx', hi', rfl⟩ := Option.map_eq_some_iff.1 hi
        exact ihdenied idx' spec' hi' hsp hs
      · intro hno spec' hm hs
        rcases mem_cons.1 hm with rfl | hm
        · simpa [ha] using hal hs
        · exact ihnone (Option.map_eq_none_iff.1 hno) spec' hm hs
      · intro hall
        have hd : spec.denies recent now = false := by
          simpa [ha] using hal (hall spec (mem_cons_self ..))
        rw [findIdx?_cons, hd, ihidx fun spec' h => hall spec' (mem_cons_of_mem _ h)]
        rfl

theorem secondPass_ok (h : List.Forall₂ (WindowOk now recent) specs windows)
    (hrm : ∀ spec ∈ specs, spec.Sliding → spec.denies recent now = false) :
    List.Forall₂ (WindowOk now (now :: recent)) specs (windows.map (·.count tb now)) ∧
      ((∀ spec ∈ specs, spec.Sliding) →
        (windows.map (·.count tb now)).map (·.remaining tb) = specs.map fun spec =>
          spec.limit.toNat - (live spec.duration recent now + 1)) := by
  induction h with
  | nil => exact ⟨.nil, fun _ => rfl⟩
  | @cons spec window specs windows hw _ ih =>
    obtain ⟨ihok, ihremaining⟩ := ih fun spec' h => hrm spec' (mem_cons_of_mem _ h)
    obtain ⟨hok, hr⟩ := hw.count tb (hrm spec (mem_cons_self ..))
    refine ⟨.cons hok ihok, fun ha => ?_⟩
    rw [map_cons, map_cons, map_cons, hr (ha spec (mem_cons_self ..)),
      ihremaining fun spec' h => ha spec' (mem_cons_of_mem _ h)]

def Decision.after (decision : Decision) (now : ℕ) (recent : List ℕ) : List ℕ :=
  if decision.outcome.allowed then now :: recent else recent

/-- A decision that the admissions `recent` justify. -/
structure Justified (specs : List RateLimitWindowSpec) (recent : List ℕ) (now : ℕ)
    (decision : Decision) : Prop where
  denied : ∀ idx spec, decision.deniedBy = some idx → specs[idx]? = some spec → spec.Sliding →
    spec.denies recent now = true
  allowed : decision.outcome.allowed = true →
    ∀ spec ∈ specs, spec.Sliding → spec.denies recent now = false

theorem allowed_denyBy (idx : ℕ) : (denyBy specs idx).outcome.allowed = false := by
  rw [denyBy]
  cases specs[idx]? <;> rfl

theorem allowed_allowWith (remaining : List ℕ) :
    (allowWith specs remaining).outcome.allowed = true := by
  rw [allowWith]
  cases tightest (specs.zip remaining) <;> rfl

/-- **A check of the windows** is decided by what they count, and counts a request it allows. -/
theorem checkHttpWindows_ok (h : List.Forall₂ (WindowOk latest recent) specs windows)
    (hnw : latest ≤ now) :
    List.Forall₂ (WindowOk now ((checkHttpWindows tb specs windows now).1.after now recent)) specs
        (checkHttpWindows tb specs windows now).2 ∧
      Justified specs recent now (checkHttpWindows tb specs windows now).1 ∧
      ((∀ spec ∈ specs, spec.Sliding) →
        (checkHttpWindows tb specs windows now).1 = decisionAt specs recent now) := by
  obtain ⟨hok, hd, hn, hi⟩ := firstPass_ok tb h hnw
  rw [checkHttpWindows]
  generalize firstPass tb now windows = pass at hok hd hn hi
  obtain ⟨denied, windows'⟩ := pass
  cases denied with
  | some idx =>
    refine ⟨?_, ⟨?_, fun ha => ?_⟩, fun hal => ?_⟩
    · rw [Decision.after, allowed_denyBy]
      exact hok
    · rintro idx' spec hi'
      cases hi'
      exact hd idx spec rfl
    · rw [allowed_denyBy] at ha
      cases ha
    · rw [decisionAt, ← hi hal]
  | none =>
    obtain ⟨hok', hr⟩ := secondPass_ok tb hok (hn rfl)
    refine ⟨?_, ⟨fun idx spec hno => ?_, fun _ => hn rfl⟩, fun hal => ?_⟩
    · rw [Decision.after, allowed_allowWith]
      exact hok'
    · cases hno
    · rw [decisionAt, ← hi hal]
      exact congrArg (allowWith specs) (hr hal)

/-- **A check of a key.** -/
theorem checkLocal_ok (instantNow : ℕ) (h : View specs latest recent state) (hn : latest ≤ now) :
    let result := checkLocal tb (state.getD newState) specs now instantNow
    View specs now (result.1.after now recent) (some result.2) ∧
      Justified specs recent now result.1 ∧
      ((∀ spec ∈ specs, spec.Sliding) → result.1 = decisionAt specs recent now) := by
  have hw : List.Forall₂ (WindowOk latest recent) specs
      (if (state.getD newState).specs ≠ specs then newHttpWindowStates tb instantNow specs
        else (state.getD newState).windows) := by
    cases state with
    | some state =>
      rw [Option.getD_some, if_neg (not_not.2 h.1)]
      exact h.2
    | none =>
      have he : recent = [] := h
      subst he
      split_ifs with hs
      · exact windowOk_new tb
      · have hnl : specs = [] := (not_not.1 hs).symm
        subst hnl
        exact .nil
  obtain ⟨hok, hjs, hd⟩ := checkHttpWindows_ok tb hw hn
  exact ⟨⟨rfl, hok⟩, hjs, hd⟩

end

end Ferrum.RateLimit
