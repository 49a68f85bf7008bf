/-
  Passive health checks in windowed mode.

  The times of a target's recent failures are kept in a ring.  A failure is recorded there, and
  ejects the target if enough failures are in the window before it; a success or the timer recovers
  an ejected target, and clears the ring.

  * `record_tracks`: the ring counts the failures in the window.
  * `windowed_ejection`: which failure ejects a target.
-/
import Ferrum.Health.Passive
import Ferrum.Lib.Ring
import Mathlib.Data.List.DropRight

namespace Ferrum.Health

open Lib List

def maxRecentFailuresPerTarget : ℕ := 1000

theorem maxRecentFailures_eq : maxRecentFailuresPerTarget = 999 + 1 := rfl

/-! ## The ring -/

structure RecentFailureRing where
  slots : List ℕ
  head : ℕ
  len : ℕ

namespace RecentFailureRing

def new : RecentFailureRing := ⟨[], 0, 0⟩

def ensureSlots (r : RecentFailureRing) : RecentFailureRing :=
  if r.slots ≠ [] then r else { r with slots := List.replicate maxRecentFailuresPerTarget 0 }

/-- The oldest time; `none` if its index is out of bounds. -/
def front (r : RecentFailureRing) : Option ℕ := r.slots[r.head]?

def popFront (r : RecentFailureRing) : RecentFailureRing :=
  { r with
    head := if r.head + 1 = r.slots.length then 0 else r.head + 1
    len := r.len - 1 }

/-- The loop of `expire_before`, with the number of times that are left. -/
def expireLoop (windowStart : ℕ) : ℕ → RecentFailureRing → Option RecentFailureRing
  | 0, r => some r
  | n + 1, r => do
    if (← r.front) < windowStart then expireLoop windowStart n r.popFront else some r

def expireBefore (r : RecentFailureRing) (windowStart : ℕ) : Option RecentFailureRing :=
  expireLoop windowStart r.len r

def pushBack (r : RecentFailureRing) (ts : ℕ) : Option RecentFailureRing :=
  let cap := r.slots.length
  let idx := r.head + r.len
  let idx := if idx ≥ cap then idx - cap else idx
  if idx < cap then some { r with slots := r.slots.set idx ts, len := r.len + 1 } else none

def record (r : RecentFailureRing) (nowMs windowStart : ℕ) : Option (ℕ × RecentFailureRing) := do
  let r ← r.ensureSlots.expireBefore windowStart
  let r := if r.len = maxRecentFailuresPerTarget then r.popFront else r
  let r ← r.pushBack nowMs
  return (r.len, r)

def clear (r : RecentFailureRing) : RecentFailureRing := { r with head := 0, len := 0 }

/-- The ring has its slots, and holds these times. -/
structure Holds (r : RecentFailureRing) (times : List ℕ) : Prop where
  slots : r.slots.length = maxRecentFailuresPerTarget
  head_lt : r.head < maxRecentFailuresPerTarget
  len : r.len = times.length
  le : times.length ≤ maxRecentFailuresPerTarget
  queued : Queued (fun i => r.slots[i]?.getD 0) maxRecentFailuresPerTarget r.head times

variable {r : RecentFailureRing} {times : List ℕ} {t : ℕ}

theorem Holds.popFront (h : Holds r (t :: times)) : r.front = some t ∧ Holds r.popFront times := by
  obtain ⟨hf, hr⟩ := h.queued.pop
  have hlt : r.head < r.slots.length := h.slots ▸ h.head_lt
  have hln := h.len
  have hle := h.le
  rw [length_cons] at hln hle
  rw [Nat.mod_eq_of_lt h.head_lt, getElem?_eq_getElem hlt] at hf
  refine ⟨(getElem?_eq_getElem hlt).trans (congrArg some hf), h.slots, ?_, ?_, by omega, ?_⟩
  · have := h.head_lt
    simp only [RecentFailureRing.popFront, h.slots]
    split_ifs <;> omega
  · simp only [RecentFailureRing.popFront, hln]
    omega
  · intro i w hw
    have hs := hr i w hw
    simp only [RecentFailureRing.popFront, h.slots]
    split_ifs with hwr
    · rw [hwr, Nat.add_mod_left] at hs
      rw [Nat.zero_add]
      exact hs
    · exact hs

theorem Holds.expireBefore (h : Holds r times) (windowStart : ℕ) :
    ∃ r', r.expireBefore windowStart = some r' ∧ Holds r' (times.dropWhile (· < windowStart)) := by
  rw [RecentFailureRing.expireBefore, h.len]
  induction times generalizing r with
  | nil => exact ⟨r, rfl, h⟩
  | cons t times ih =>
    obtain ⟨hf, hp⟩ := h.popFront
    rw [length_cons, expireLoop, hf, dropWhile_cons]
    simp only [decide_eq_true_eq]
    split_ifs with hold
    · obtain ⟨r', hlp, hh⟩ := ih hp
      exact ⟨r', by simp [hold, hlp], hh⟩
    · exact ⟨r, by simp [hold], h⟩

theorem Holds.pushBack (h : Holds r times) (hr : times.length < maxRecentFailuresPerTarget)
    (ts : ℕ) : ∃ r', r.pushBack ts = some r' ∧ Holds r' (times ++ [ts]) := by
  have hh := h.head_lt
  have hi : (if r.head + r.len ≥ r.slots.length then r.head + r.len - r.slots.length
      else r.head + r.len) = (r.head + times.length) % maxRecentFailuresPerTarget := by
    rw [h.slots, h.len]
    split_ifs with hw
    · rw [Nat.mod_eq_sub_mod hw, Nat.mod_eq_of_lt (by omega)]
    · rw [Nat.mod_eq_of_lt (by omega)]
  have hlt := Nat.mod_lt (r.head + times.length) (Nat.zero_lt_of_lt hr)
  simp only [RecentFailureRing.pushBack, hi]
  rw [if_pos (h.slots ▸ hlt)]
  refine ⟨_, rfl, by simpa using h.slots, hh, by simp [h.len],
    by rw [length_append]; exact hr, ?_⟩
  refine h.queued.push hr ?_ fun slot hne => ?_
  · simp [h.slots, hlt]
  · simp [getElem?_set_ne (Ne.symm hne)]

end RecentFailureRing

open RecentFailureRing

/-! ## What the ring counts -/

section
variable (window : ℕ)

/-- The failures that are in the window at `now`. -/
def recent (now : ℕ) (times : List ℕ) : List ℕ := times.filter (now - window ≤ ·)

/-- The ring holds as many of the failures in the window as it has room for. -/
structure Tracks (latest : ℕ) (r : RecentFailureRing) (times : List ℕ) : Prop where
  sorted : times.Pairwise (· ≤ ·)
  le : ∀ t ∈ times, t ≤ latest
  holds : r.ensureSlots.Holds ((recent window latest times).rtake maxRecentFailuresPerTarget)

variable {window} {latest now : ℕ} {r : RecentFailureRing} {times : List ℕ}

/-- In a sorted list, what is in the window comes last. -/
theorem dropWhile_rtake {start : ℕ} {l : List ℕ} (hl : l.Pairwise (· ≤ ·)) (n : ℕ) :
    (l.rtake n).dropWhile (· < start) = (l.filter (start ≤ ·)).rtake n := by
  induction l with
  | nil => simp
  | cons a l ih =>
    obtain ⟨ha, hl⟩ := pairwise_cons.1 hl
    by_cases hold : a < start
    · rw [filter_cons_of_neg (by simpa using hold), ← ih hl]
      by_cases hn : n ≤ l.length
      · rw [rtake, length_cons, Nat.succ_sub hn, drop_succ_cons]
        rfl
      · rw [rtake, rtake, length_cons, Nat.sub_eq_zero_of_le (by omega),
          Nat.sub_eq_zero_of_le (by omega), drop_zero, drop_zero,
          dropWhile_cons_of_pos (by simpa using hold)]
    · have hal : ∀ t ∈ a :: l, start ≤ t := by
        refine forall_mem_cons.2 ⟨Nat.le_of_not_lt hold, fun t ht => ?_⟩
        exact (Nat.le_of_not_lt hold).trans (ha t ht)
      rw [filter_eq_self.2 fun t ht => decide_eq_true (hal t ht)]
      refine dropWhile_eq_self_iff.2 fun hpos => ?_
      have := hal _ (mem_of_mem_drop (getElem_mem hpos))
      simpa using this

theorem RecentFailureRing.Holds.makeRoom {l : List ℕ} (h : r.Holds (l.rtake maxRecentFailuresPerTarget)) :
    (if r.len = maxRecentFailuresPerTarget then r.popFront else r).Holds
      (l.rtake (maxRecentFailuresPerTarget - 1)) := by
  have hmax := maxRecentFailures_eq
  have hln := h.len
  rw [rtake, length_drop] at hln
  rw [rtake] at h ⊢
  split_ifs with hf
  · rw [← getElem_cons_drop (by omega)] at h
    convert h.popFront.2 using 2
    omega
  · convert h using 2
    omega

/-- **A failure is recorded.** -/
theorem record_tracks (h : Tracks window latest r times) (hnw : latest ≤ now) :
    ∃ r', r.record now (now - window) =
        some (min maxRecentFailuresPerTarget (recent window now (times ++ [now])).length, r') ∧
      Tracks window now r' (times ++ [now]) := by
  have hmax := maxRecentFailures_eq
  have hr : recent window now (times ++ [now]) = recent window now times ++ [now] := by
    simp [recent]
  obtain ⟨r₁, he, hold⟩ := h.holds.expireBefore (now - window)
  rw [recent, dropWhile_rtake (h.sorted.filter _), filter_filter] at hold
  have hf : times.filter (fun t => decide (now - window ≤ t) && decide (latest - window ≤ t)) =
      recent window now times := filter_congr fun t _ => by
    rw [Bool.eq_iff_iff, Bool.and_eq_true, decide_eq_true_eq, decide_eq_true_eq]
    omega
  rw [hf] at hold
  have hrm := hold.makeRoom
  obtain ⟨r₂, hp, hn⟩ := hrm.pushBack (by rw [rtake, length_drop]; omega) now
  have hln := hn.len
  rw [← rtake_concat_succ, ← hr] at hn
  have hs : r₂.ensureSlots = r₂ := if_pos fun hnl => by
    have := hn.slots
    rw [hnl] at this
    cases this
  refine ⟨r₂, ?_, ?_, fun t ht => ?_, hs.symm ▸ hn⟩
  · rw [record, he]
    simp only [Option.bind_eq_bind, Option.bind_some, hp, hln, hr]
    rw [length_append, length_append, rtake, length_drop]
    simp only [length_singleton, Option.pure_def, Option.some.injEq, Prod.mk.injEq, and_true]
    omega
  · rw [pairwise_append]
    exact ⟨h.sorted, pairwise_singleton _ _, fun t ht u hu => by
      rw [mem_singleton.1 hu]
      exact (h.le t ht).trans hnw⟩
  · rcases mem_append.1 ht with ht | ht
    · exact (h.le t ht).trans hnw
    · exact (mem_singleton.1 ht).le

theorem tracks_nil (h : r.ensureSlots.slots.length = maxRecentFailuresPerTarget) :
    Tracks window now r.clear [] := by
  have hs : r.clear.ensureSlots = r.ensureSlots.clear := by
    unfold ensureSlots clear
    split_ifs <;> rfl
  refine ⟨.nil, nofun, ?_⟩
  rw [hs, recent, filter_nil, rtake_nil]
  exact ⟨h, by rw [maxRecentFailures_eq]; exact Nat.zero_lt_succ _, rfl, Nat.zero_le _, .nil⟩

theorem tracks_new : Tracks window now .new [] := by
  refine tracks_nil (r := .new) ?_
  have hs : new.slots = [] := rfl
  rw [ensureSlots, if_neg (not_not.2 hs)]
  exact length_replicate

theorem Tracks.clear (h : Tracks window latest r times) : Tracks window now r.clear [] :=
  tracks_nil h.holds.slots

end

inductive RingCall where
  | record (now : ℕ)
  | clear

/-- What the calls return; `none` if an index is out of bounds. -/
def ringCalls (window : ℕ) : RecentFailureRing → List RingCall → Option (List ℕ)
  | _, [] => some []
  | r, .record now :: calls => do
    let (count, r) ← r.record now (now - window)
    return count :: (← ringCalls window r calls)
  | r, .clear :: calls => ringCalls window r.clear calls

/-- What they should return, with the records since the last `clear`. -/
def ringCounts (window : ℕ) : List ℕ → List RingCall → List ℕ
  | _, [] => []
  | times, .record now :: calls =>
    min maxRecentFailuresPerTarget (recent window now (times ++ [now])).length ::
      ringCounts window (times ++ [now]) calls
  | _, .clear :: calls => ringCounts window [] calls

/-- The clock does not go back. -/
def RingCall.Timely (latest : ℕ) : List RingCall → Prop
  | [] => True
  | .record now :: calls => latest ≤ now ∧ RingCall.Timely now calls
  | .clear :: calls => RingCall.Timely latest calls

theorem ringCalls_eq {window latest : ℕ} {r : RecentFailureRing} {times : List ℕ}
    {calls : List RingCall} (h : Tracks window latest r times) (ht : RingCall.Timely latest calls) :
    ringCalls window r calls = some (ringCounts window times calls) := by
  induction calls generalizing latest r times with
  | nil => rfl
  | cons call calls ih =>
    cases call with
    | record now =>
      obtain ⟨r', hr, htr⟩ := record_tracks h ht.1
      simp [ringCalls, ringCounts, hr, ih htr ht.2]
    | clear => exact ih h.clear ht

/-! ## Reports -/

structure WindowedHealthCheck extends PassiveHealthCheck where
  unhealthyWindowSeconds : ℕ

/-- What is known about a target. -/
structure TargetHealth where
  consecutiveFailures : ℕ
  consecutiveSuccesses : ℕ
  recentFailures : RecentFailureRing
  unhealthy : Option PassiveEjection

def TargetHealth.new : TargetHealth := ⟨0, 0, .new, none⟩

/-- A report with its two clocks, or a scan of the timer. -/
inductive HealthEvent where
  | report (statusCode : ℕ) (connectionError : Bool) (tickMs wallMs : ℕ)
  | recover (tickMs : ℕ)

section
variable (cfg : WindowedHealthCheck)

def windowMs : ℕ := min (cfg.unhealthyWindowSeconds * 1000) u64Max

/-- A failure is recorded, and ejects the target if there are enough in the window. -/
def TargetHealth.fail (s : TargetHealth) (tickMs wallMs : ℕ) : Option TargetHealth := do
  let (count, ring) ← s.recentFailures.record tickMs (tickMs - windowMs cfg)
  let ejects := cfg.unhealthyThreshold ≤ count % 2 ^ 32 ∧ s.unhealthy = none
  return {
    consecutiveFailures := (s.consecutiveFailures + 1) % 2 ^ 32
    consecutiveSuccesses := 0
    recentFailures := ring
    unhealthy := if ejects then some (.fromPolicy cfg.healthyAfterSeconds tickMs wallMs none)
      else s.unhealthy }

def TargetHealth.succeed (s : TargetHealth) : TargetHealth :=
  let s := { s with
    consecutiveFailures := 0, consecutiveSuccesses := (s.consecutiveSuccesses + 1) % 2 ^ 32 }
  if s.unhealthy.isSome ∧ 1 ≤ s.consecutiveSuccesses then
    { s with unhealthy := none, recentFailures := s.recentFailures.clear }
  else s

/-- `recover_due_passive_ejections` for this target: what it snapshots, and what it removes. -/
def TargetHealth.recover (s : TargetHealth) (now : ℕ) : TargetHealth :=
  match s.unhealthy.filter (·.due now) with
  | none => s
  | some ejection =>
    if s.unhealthy.any fun current => current.due now &&
        current.recoverAtTickMs == ejection.recoverAtTickMs && current.consecutiveGeneration.isNone
    then ⟨0, 0, s.recentFailures.clear, none⟩ else s

/-- Does the policy count the response as a failure? -/
def HealthEvent.fails : HealthEvent → Bool
  | .report statusCode connectionError _ _ => !cfg.consecutive5xxEjectionDisabled &&
      (connectionError || cfg.unhealthyStatusCodes.contains statusCode)
  | .recover _ => false

def HealthEvent.tick : HealthEvent → ℕ
  | .report _ _ tickMs _ | .recover tickMs => tickMs

/-- One event, for a target with the policy. -/
def TargetHealth.step (s : TargetHealth) : HealthEvent → Option TargetHealth
  | .report statusCode connectionError tickMs wallMs =>
    let failed := connectionError || cfg.unhealthyStatusCodes.contains statusCode
    if cfg.consecutive5xxEjectionDisabled && failed then some s
    else if failed then s.fail cfg tickMs wallMs
    else some s.succeed
  | .recover tickMs => some (s.recover tickMs)

/-- The target after some events, the last one first, and its failures since the last recovery. -/
def healthRun : List HealthEvent → Option (TargetHealth × List ℕ)
  | [] => some (.new, [])
  | e :: earlier => do
    let (s, times) ← healthRun earlier
    let s' ← s.step cfg e
    return (s', if s.unhealthy.isSome && s'.unhealthy.isNone then []
      else if e.fails cfg then times ++ [e.tick] else times)

end

/-- At the last of these failures, there are `threshold` of them in the window. -/
def Reaches (window threshold : ℕ) (times : List ℕ) : Prop :=
  ∃ now, times.getLast? = some now ∧ threshold ≤ (recent window now times).length

/-- One of these failures was the first to reach the threshold. -/
def HasReached (window threshold : ℕ) (times : List ℕ) : Prop :=
  ∃ first, first <+: times ∧ Reaches window threshold first

theorem reaches_concat {window threshold now : ℕ} {times : List ℕ} :
    Reaches window threshold (times ++ [now]) ↔
      threshold ≤ (recent window now (times ++ [now])).length := by
  simp [Reaches]

theorem hasReached_concat {window threshold now : ℕ} {times : List ℕ} :
    HasReached window threshold (times ++ [now]) ↔
      Reaches window threshold (times ++ [now]) ∨ HasReached window threshold times := by
  simp only [HasReached, prefix_concat_iff, or_and_right, exists_or, exists_eq_left]

theorem not_hasReached_nil {window threshold : ℕ} : ¬ HasReached window threshold [] := by
  rintro ⟨first, hf, now, hn, -⟩
  rw [prefix_nil.1 hf] at hn
  cases hn

/-- What the health check knows about a target, at the time `bound` or later. -/
structure HealthOk (cfg : WindowedHealthCheck) (bound : ℕ) (s : TargetHealth) (times : List ℕ) :
    Prop where
  tracks : ∃ latest ≤ bound, Tracks (windowMs cfg) latest s.recentFailures times
  ejected : s.unhealthy.isSome ↔ HasReached (windowMs cfg) cfg.unhealthyThreshold times
  windowed : ∀ e, s.unhealthy = some e → e.consecutiveGeneration = none

section
variable {cfg : WindowedHealthCheck} {bound tick : ℕ} {s : TargetHealth} {times : List ℕ}

theorem HealthOk.fail (h : HealthOk cfg bound s times) (htc : bound ≤ tick)
    (hcap : cfg.unhealthyThreshold ≤ maxRecentFailuresPerTarget) (wallMs : ℕ) :
    ∃ s', s.fail cfg tick wallMs = some s' ∧ HealthOk cfg tick s' (times ++ [tick]) ∧
      (s.unhealthy.isSome → s'.unhealthy.isSome) := by
  obtain ⟨latest, hls, ht⟩ := h.tracks
  obtain ⟨r, hrr, ht'⟩ := record_tracks ht (hls.trans htc)
  have hc : cfg.unhealthyThreshold ≤ min maxRecentFailuresPerTarget
      (recent (windowMs cfg) tick (times ++ [tick])).length % 2 ^ 32 ↔
      Reaches (windowMs cfg) cfg.unhealthyThreshold (times ++ [tick]) := by
    have hmax := maxRecentFailures_eq
    rw [reaches_concat]
    omega
  rw [TargetHealth.fail, hrr]
  refine ⟨_, rfl, ⟨⟨tick, le_rfl, ht'⟩, ?_, ?_⟩, ?_⟩
  all_goals
    dsimp only
    split_ifs with he
  · exact iff_of_true rfl (hasReached_concat.2 (.inl (hc.1 he.1)))
  · rw [hasReached_concat, ← h.ejected]
    refine ⟨.inr, fun hr => hr.elim (fun hrc => ?_) id⟩
    rw [Option.isSome_iff_ne_none]
    exact fun hn => he ⟨hc.2 hrc, hn⟩
  · rintro e ⟨⟩
    rfl
  · exact h.windowed
  · exact fun _ => rfl
  · exact id

/-- What a success or the timer does: nothing to the ejection and the ring, or it clears both. -/
def Recovers (s s' : TargetHealth) : Prop :=
  s'.unhealthy = s.unhealthy ∧ s'.recentFailures = s.recentFailures ∨
    s.unhealthy.isSome ∧ s'.unhealthy = none ∧ s'.recentFailures = s.recentFailures.clear

theorem HealthOk.recovers {s' : TargetHealth} (h : HealthOk cfg bound s times) (htc : bound ≤ tick)
    (hs' : Recovers s s') :
    HealthOk cfg tick s' (if s.unhealthy.isSome && s'.unhealthy.isNone then [] else times) := by
  obtain ⟨latest, hls, ht⟩ := h.tracks
  rcases hs' with ⟨hu, hr⟩ | ⟨hsm, hn, hr⟩
  · have hsa : (s.unhealthy.isSome && s'.unhealthy.isNone) = false := by
      rw [hu]
      cases s.unhealthy <;> rfl
    rw [hsa]
    refine ⟨⟨latest, hls.trans htc, hr ▸ ht⟩, ?_, ?_⟩
    · rw [hu]
      exact h.ejected
    · rw [hu]
      exact h.windowed
  · rw [hsm, hn]
    refine ⟨⟨tick, le_rfl, hr ▸ ht.clear⟩, ?_, ?_⟩
    · rw [hn]
      exact iff_of_false Bool.false_ne_true not_hasReached_nil
    · rw [hn]
      exact nofun

theorem recovers_succeed (s : TargetHealth) : Recovers s s.succeed := by
  unfold TargetHealth.succeed
  dsimp only
  split_ifs with h
  · exact .inr ⟨h.1, rfl, rfl⟩
  · exact .inl ⟨rfl, rfl⟩

theorem recovers_recover (s : TargetHealth) (now : ℕ) : Recovers s (s.recover now) := by
  unfold TargetHealth.recover
  split
  · exact .inl ⟨rfl, rfl⟩
  · split_ifs with h
    · exact .inr ⟨Option.isSome_of_any h, rfl, rfl⟩
    · exact .inl ⟨rfl, rfl⟩

theorem step_cases (cfg : WindowedHealthCheck) (s : TargetHealth) (e : HealthEvent) :
    (e.fails cfg = true ∧ ∃ wallMs, s.step cfg e = s.fail cfg e.tick wallMs) ∨
      e.fails cfg = false ∧ ∃ s', s.step cfg e = some s' ∧ Recovers s s' := by
  cases e with
  | recover now => exact .inr ⟨rfl, _, rfl, recovers_recover s now⟩
  | report statusCode connectionError tickMs wallMs =>
    rw [TargetHealth.step, HealthEvent.fails]
    cases connectionError || cfg.unhealthyStatusCodes.contains statusCode with
    | false =>
      rw [Bool.and_false, Bool.and_false]
      exact .inr ⟨rfl, _, rfl, recovers_succeed s⟩
    | true =>
      cases cfg.consecutive5xxEjectionDisabled with
      | false => exact .inl ⟨rfl, wallMs, rfl⟩
      | true => exact .inr ⟨rfl, s, rfl, .inl ⟨rfl, rfl⟩⟩

/-- **One event.** -/
theorem HealthOk.step (h : HealthOk cfg bound s times) {e : HealthEvent} (ht : bound ≤ e.tick)
    (hcap : cfg.unhealthyThreshold ≤ maxRecentFailuresPerTarget) :
    ∃ s', s.step cfg e = some s' ∧
      HealthOk cfg e.tick s' (if s.unhealthy.isSome && s'.unhealthy.isNone then []
        else if e.fails cfg then times ++ [e.tick] else times) := by
  rcases step_cases cfg s e with ⟨hf, wallMs, hs⟩ | ⟨hf, s', hs, hr⟩
  · obtain ⟨s', hfl, hok, hk⟩ := h.fail ht hcap wallMs
    have hsm : (s.unhealthy.isSome && s'.unhealthy.isNone) = false := by
      cases hso : s.unhealthy.isSome with
      | false => rfl
      | true => simpa using hk hso
    refine ⟨s', hs.trans hfl, ?_⟩
    rw [hsm, hf]
    exact hok
  · refine ⟨s', hs, ?_⟩
    rw [hf]
    exact h.recovers ht hr

theorem healthRun_ok (hcap : cfg.unhealthyThreshold ≤ maxRecentFailuresPerTarget)
    {events : List HealthEvent} (ht : (events.map HealthEvent.tick).Pairwise (· ≥ ·))
    (hb : ∀ e ∈ events, e.tick ≤ bound) :
    ∃ s times, healthRun cfg events = some (s, times) ∧ HealthOk cfg bound s times := by
  induction events generalizing bound with
  | nil =>
    refine ⟨.new, [], rfl, ⟨0, Nat.zero_le _, tracks_new⟩, ?_, nofun⟩
    exact iff_of_false Bool.false_ne_true not_hasReached_nil
  | cons e earlier ih =>
    rw [map_cons, pairwise_cons, forall_mem_map] at ht
    obtain ⟨s, times, hr, hok⟩ := ih ht.2 ht.1
    obtain ⟨s', hs, hok'⟩ := hok.step le_rfl hcap
    refine ⟨s', _, by simp only [healthRun, hr, hs, Option.bind_eq_bind, Option.bind_some]; rfl, ?_⟩
    obtain ⟨⟨latest, hls, htr⟩, he, hw⟩ := hok'
    exact ⟨⟨latest, hls.trans (hb e mem_cons_self), htr⟩, he, hw⟩

end

/-- **The ring counts the failures in the window, and ejects a target** exactly at the first failure
    since its last recovery that finds enough of them there. -/
theorem windowed_ejection (window : ℕ) (calls : List RingCall) (hcalls : RingCall.Timely 0 calls)
    (cfg : WindowedHealthCheck) (hcap : cfg.unhealthyThreshold ≤ maxRecentFailuresPerTarget)
    (e : HealthEvent) (earlier : List HealthEvent)
    (htimely : ((e :: earlier).map HealthEvent.tick).Pairwise (· ≥ ·)) :
    ringCalls window .new calls = some (ringCounts window [] calls) ∧
      ∃ s times s', healthRun cfg earlier = some (s, times) ∧ s.step cfg e = some s' ∧
        (s.unhealthy = none ∧ s'.unhealthy ≠ none ↔ e.fails cfg = true ∧
          Reaches (windowMs cfg) cfg.unhealthyThreshold (times ++ [e.tick]) ∧
          ∀ first, first <+: times → ¬ Reaches (windowMs cfg) cfg.unhealthyThreshold first) := by
  refine ⟨ringCalls_eq tracks_new hcalls, ?_⟩
  rw [map_cons, pairwise_cons, forall_mem_map] at htimely
  obtain ⟨s, times, hr, hok⟩ := healthRun_ok hcap htimely.2 htimely.1
  obtain ⟨s', hs, hok'⟩ := hok.step le_rfl hcap
  refine ⟨s, times, s', hr, hs, ?_⟩
  have hn : s.unhealthy = none ↔
      ∀ first, first <+: times → ¬ Reaches (windowMs cfg) cfg.unhealthyThreshold first := by
    rw [← Option.not_isSome_iff_eq_none, hok.ejected, HasReached]
    simp only [not_exists, not_and]
  rw [← hn, and_comm (a := Reaches _ _ _), ← and_assoc, and_comm (a := e.fails cfg = true), and_assoc]
  refine and_congr_right fun hh => ?_
  have he := hok'.ejected
  rw [hh] at he
  have hb := hok.ejected
  rw [hh] at hb
  have hb : ¬ HasReached (windowMs cfg) cfg.unhealthyThreshold times := fun h =>
    Bool.false_ne_true (hb.2 h)
  rw [← Option.isSome_iff_ne_none, he]
  cases e.fails cfg with
  | false => simpa using hb
  | true => simpa [hasReached_concat] using fun h => absurd h hb

/-- Two failures in ten seconds, four seconds apart; in the ring, one that leaves the window and one
    after a recovery. -/
theorem windowed_ejection_second : let cfg : WindowedHealthCheck := ⟨⟨[503], 2, 10, false⟩, 10⟩
    ringCalls 10000 .new [.record 1000, .record 5000, .record 12000, .clear, .record 13000] =
        some [1, 2, 2, 1] ∧
      ∃ s times s', healthRun cfg [.report 503 false 1000 0] = some (s, times) ∧
        s.step cfg (.report 503 false 5000 0) = some s' ∧
        (s.unhealthy = none ∧ s'.unhealthy ≠ none ↔
          HealthEvent.fails cfg (.report 503 false 5000 0) ∧
          Reaches (windowMs cfg) 2 (times ++ [5000]) ∧
          ∀ first, first <+: times → ¬ Reaches (windowMs cfg) 2 first) :=
  windowed_ejection 10000 _ (by simp [RingCall.Timely]) _ (by decide) _ _ (by decide)

end Ferrum.Health
