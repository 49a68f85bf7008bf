/-
  The sliding window of the local rate limiter.

  A window of 63 intervals is counted in a ring of 64 buckets, so that a bucket is reused only when
  all of it is out of the window.  Times are nanoseconds: instants since the clock began, durations.

  * `SlidingWindow.advance`, `increment`, `hasRecentActivity`.
  * `Tracks`: the ring counts the admissions since the first one.
  * `live_of_near`, `near_of_live`: what is counted at an instant, by its distance.
-/
import Ferrum.Lib.Tally
import Mathlib.Tactic.Linarith

namespace Ferrum.RateLimit

open Lib

/-! ## Durations -/

def u64Max : ℕ := 2 ^ 64 - 1
def u128Max : ℕ := 2 ^ 128 - 1
def nanosPerSec : ℕ := 1000000000

def durationMax : ℕ := u64Max * nanosPerSec + 999999999

def asSecs (duration : ℕ) : ℕ := duration / nanosPerSec

def checkedDurationSince (now earlier : ℕ) : Option ℕ :=
  if earlier ≤ now then some (now - earlier) else none

abbrev slidingWindowBucketCount : ℕ := 64
abbrev slidingWindowIntervalsPerWindow : ℕ := slidingWindowBucketCount - 1

def absoluteSlidingBucket (elapsed window : ℕ) : ℕ :=
  let windowNanos := max window 1
  let indexed := min (elapsed * slidingWindowIntervalsPerWindow) u128Max / windowNanos
  min indexed u64Max

def slidingWindowRetention (window : ℕ) : ℕ :=
  let retentionNanos := (min (window * slidingWindowBucketCount) u128Max +
    (slidingWindowIntervalsPerWindow - 1)) / slidingWindowIntervalsPerWindow
  if retentionNanos / nanosPerSec ≤ u64Max then retentionNanos else durationMax

/-! ## The window -/

structure SlidingWindow where
  buckets : Vector ℕ slidingWindowBucketCount
  currentBucket : ℕ
  epoch : Option ℕ
  total : ℕ
  lastActivity : Option ℕ
  windowDuration : ℕ
  limit : UInt64
  deriving DecidableEq, Repr

namespace SlidingWindow

def new (limit : UInt64) (windowDuration : ℕ) : SlidingWindow :=
  ⟨.replicate _ 0, 0, none, 0, none, windowDuration, limit⟩

theorem slot_lt (bucket : ℕ) : bucket % slidingWindowBucketCount < slidingWindowBucketCount :=
  Nat.mod_lt _ (by decide)

/-- The loop of `advance`: the buckets after `bucket` are taken over, one by one. -/
def expire (bucket : ℕ) (buckets : Vector ℕ slidingWindowBucketCount) (total : ℕ) :
    ℕ → Vector ℕ slidingWindowBucketCount × ℕ
  | 0 => (buckets, total)
  | steps + 1 =>
    let bucket := min (bucket + 1) u64Max
    have hs := slot_lt bucket
    expire bucket (buckets.set (bucket % slidingWindowBucketCount) 0 hs)
      (total - buckets[bucket % slidingWindowBucketCount]) steps

def advance (w : SlidingWindow) (now : ℕ) : SlidingWindow :=
  match w.epoch.bind (checkedDurationSince now) with
  | none => w
  | some elapsed =>
    let newBucket := absoluteSlidingBucket elapsed w.windowDuration
    if newBucket ≤ w.currentBucket then w
    else
      let steps := newBucket - w.currentBucket
      let (buckets, total) :=
        if slidingWindowBucketCount ≤ steps then (.replicate _ 0, 0)
        else expire w.currentBucket w.buckets w.total steps
      { w with buckets := buckets, total := total, currentBucket := newBucket }

/-- Would the window allow a request, and the window advanced. -/
def wouldAllow (w : SlidingWindow) (now : ℕ) : Bool × SlidingWindow :=
  let w := w.advance now
  (decide (w.total < w.limit.toNat), w)

def noteActivity (w : SlidingWindow) (now : ℕ) : SlidingWindow :=
  if w.lastActivity.any (now < ·) then w else { w with lastActivity := some now }

def increment (w : SlidingWindow) (now : ℕ) : SlidingWindow :=
  let w := if w.epoch.isNone then { w with epoch := some now, currentBucket := 0 } else w
  let w := w.advance now
  have hs := slot_lt w.currentBucket
  let slot := w.currentBucket % slidingWindowBucketCount
  noteActivity { w with
    buckets := w.buckets.set slot (min (w.buckets[slot] + 1) u64Max) hs
    total := min (w.total + 1) u64Max } now

def remaining (w : SlidingWindow) : ℕ := w.limit.toNat - w.total

def hasRecentActivity (w : SlidingWindow) (now : ℕ) : Bool :=
  match w.lastActivity with
  | none => false
  | some last =>
    match checkedDurationSince now last with
    | some elapsed => elapsed < slidingWindowRetention w.windowDuration
    | none => true

end SlidingWindow

open SlidingWindow

/-! ## What the window counts -/

/-- The bucket of the instant `t`, by the admissions so far, the last one first. -/
def bucketAt (window : ℕ) (recent : List ℕ) (t : ℕ) : ℕ :=
  absoluteSlidingBucket (t - recent.getLast?.getD 0) window

/-- How many admissions are counted at `now`. -/
def live (window : ℕ) (recent : List ℕ) (now : ℕ) : ℕ :=
  recent.countP fun t => bucketAt window recent now < bucketAt window recent t + 64

/-- The window has counted the admissions `recent`, the last one first, none after `latest`. -/
structure Tracks (w : SlidingWindow) (latest : ℕ) (recent : List ℕ) : Prop where
  epoch : w.epoch = recent.getLast?
  activity : w.lastActivity = recent.head?
  tally : Tally w.buckets w.currentBucket w.total (recent.map (bucketAt w.windowDuration recent))
  current_le : w.currentBucket ≤ bucketAt w.windowDuration recent latest
  sorted : (latest :: recent).Pairwise fun t t' => t' ≤ t

variable {elapsed window : ℕ}

theorem absoluteSlidingBucket_mono {elapsed' : ℕ} (h : elapsed ≤ elapsed') :
    absoluteSlidingBucket elapsed window ≤ absoluteSlidingBucket elapsed' window := by
  have hm : elapsed * slidingWindowIntervalsPerWindow ≤
      elapsed' * slidingWindowIntervalsPerWindow := Nat.mul_le_mul_right _ h
  exact min_le_min_right _ (Nat.div_le_div_right (min_le_min_right _ hm))

theorem absoluteSlidingBucket_le : absoluteSlidingBucket elapsed window ≤ u64Max := min_le_right _ _

theorem bucketAt_mono {t t' : ℕ} {recent : List ℕ} (h : t ≤ t') :
    bucketAt window recent t ≤ bucketAt window recent t' :=
  absoluteSlidingBucket_mono (Nat.sub_le_sub_right h _)

section
variable {w : SlidingWindow} {latest now : ℕ} {recent : List ℕ}

theorem tracks_new (limit : UInt64) (window latest : ℕ) : Tracks (.new limit window) latest [] :=
  ⟨rfl, rfl, .empty, Nat.zero_le _, List.pairwise_singleton _ _⟩

theorem expire_tally {bucket total : ℕ} (steps : ℕ) {buckets : Vector ℕ slidingWindowBucketCount}
    {xs : List ℕ} (h : Tally buckets bucket total xs) (hf : bucket + steps ≤ u64Max) :
    Tally (expire bucket buckets total steps).1 (bucket + steps)
      (expire bucket buckets total steps).2 xs := by
  induction steps generalizing bucket buckets total with
  | zero => exact h
  | succ steps ih =>
    have hb : min (bucket + 1) u64Max = bucket + 1 := min_eq_left (by omega)
    simp only [expire, hb]
    rw [show bucket + (steps + 1) = bucket + 1 + steps by omega]
    exact ih (h.tick (slot_lt _)) (by omega)

/-- The window advanced, once there is an admission. -/
theorem Tracks.advance_cons (h : Tracks w latest recent) (hn : latest ≤ now)
    (hne : recent ≠ []) :
    ∃ buckets total, w.advance now =
        { w with
          buckets := buckets, total := total
          currentBucket := bucketAt w.windowDuration recent now } ∧
      Tally buckets (bucketAt w.windowDuration recent now) total
        (recent.map (bucketAt w.windowDuration recent)) := by
  obtain ⟨first, hf⟩ := Option.isSome_iff_exists.1 (List.getLast?_isSome.2 hne)
  have hle : first ≤ now := by
    have hm : first ∈ recent := List.mem_of_getLast? hf
    exact ((List.pairwise_cons.1 h.sorted).1 first hm).trans hn
  have hb : absoluteSlidingBucket (now - first) w.windowDuration =
      bucketAt w.windowDuration recent now := by
    rw [bucketAt, hf]
    rfl
  have hc : w.currentBucket ≤ bucketAt w.windowDuration recent now :=
    h.current_le.trans (bucketAt_mono hn)
  have hmax : bucketAt w.windowDuration recent now ≤ u64Max := absoluteSlidingBucket_le
  have he : w.epoch.bind (checkedDurationSince now) = some (now - first) := by
    rw [h.epoch, hf, Option.bind_some, checkedDurationSince, if_pos hle]
  simp only [SlidingWindow.advance, he, hb]
  have ht := h.tally
  generalize bucketAt w.windowDuration recent now = newBucket at hc hmax ⊢
  split_ifs with hno hfr
  · have heq : newBucket = w.currentBucket := le_antisymm hno hc
    subst heq
    exact ⟨w.buckets, w.total, rfl, ht⟩
  · exact ⟨_, _, rfl, ht.clear (by omega)⟩
  · refine ⟨_, _, rfl, ?_⟩
    have hup := expire_tally (newBucket - w.currentBucket) ht (by omega)
    rwa [Nat.add_sub_cancel' hc] at hup

theorem Tracks.advance_nil (h : Tracks w latest []) : w.advance now = w := by
  rw [SlidingWindow.advance, h.epoch]
  rfl

/-- **The window advanced** still counts the admissions, and its total is what counts now. -/
theorem Tracks.advance (h : Tracks w latest recent) (hn : latest ≤ now) :
    Tracks (w.advance now) now recent ∧
      (w.advance now).total = live w.windowDuration recent now ∧
      (w.advance now).windowDuration = w.windowDuration ∧ (w.advance now).limit = w.limit := by
  have hs : (now :: recent).Pairwise fun t t' => t' ≤ t := by
    obtain ⟨hle, hr⟩ := List.pairwise_cons.1 h.sorted
    exact List.pairwise_cons.2 ⟨fun t ht => (hle t ht).trans hn, hr⟩
  by_cases hne : recent = []
  · subst hne
    rw [h.advance_nil]
    exact ⟨⟨h.epoch, h.activity, h.tally, h.current_le.trans (bucketAt_mono hn), hs⟩,
      h.tally.total, rfl, rfl⟩
  · obtain ⟨buckets, total, heq, htl⟩ := h.advance_cons hn hne
    rw [heq]
    refine ⟨⟨h.epoch, h.activity, htl, le_rfl, hs⟩, ?_, rfl, rfl⟩
    show total = _
    rw [htl.total, List.countP_map]
    rfl

variable {t window : ℕ}

theorem bucketAt_cons (hne : recent ≠ []) :
    bucketAt window (now :: recent) t = bucketAt window recent t := by
  rw [bucketAt, bucketAt, List.getLast?_cons_of_ne_nil hne]

/-- The window of `increment` before it counts: the first admission sets its epoch. -/
theorem Tracks.start (h : Tracks w latest recent) (hn : latest ≤ now) :
    ∃ buckets total, SlidingWindow.advance
        (if w.epoch.isNone then { w with epoch := some now, currentBucket := 0 } else w) now =
        { w with
          epoch := (now :: recent).getLast?
          buckets := buckets, total := total
          currentBucket := bucketAt w.windowDuration (now :: recent) now } ∧
      total = live w.windowDuration recent now ∧
      Tally buckets (bucketAt w.windowDuration (now :: recent) now) total
        (recent.map (bucketAt w.windowDuration (now :: recent))) := by
  by_cases hne : recent = []
  · subst hne
    have hz : bucketAt w.windowDuration [now] now = 0 := by
      simp [bucketAt, absoluteSlidingBucket]
    refine ⟨w.buckets, w.total, ?_, h.tally.total, ?_⟩
    · have he : w.epoch = none := h.epoch
      simp [he, hz, SlidingWindow.advance, checkedDurationSince, absoluteSlidingBucket]
    · exact ⟨fun _ hx => (nomatch hx), h.tally.slot, h.tally.total⟩
  · obtain ⟨buckets, total, heq, ht⟩ := h.advance_cons hn hne
    refine ⟨buckets, total, ?_, ?_, ?_⟩
    · have he : w.epoch.isNone = false := by
        rw [h.epoch]
        simpa using hne
      rw [he, if_neg Bool.false_ne_true, heq, bucketAt_cons hne,
        List.getLast?_cons_of_ne_nil hne, h.epoch]
    · rw [ht.total, List.countP_map]
      rfl
    · rw [bucketAt_cons hne, show bucketAt w.windowDuration (now :: recent) =
        bucketAt w.windowDuration recent from funext fun t => bucketAt_cons hne]
      exact ht

/-- **One more admission** is counted. -/
theorem Tracks.increment (h : Tracks w latest recent) (hn : latest ≤ now)
    (hr : live w.windowDuration recent now < u64Max) :
    Tracks (w.increment now) now (now :: recent) ∧
      (w.increment now).total = live w.windowDuration recent now + 1 ∧
      (w.increment now).windowDuration = w.windowDuration ∧ (w.increment now).limit = w.limit := by
  obtain ⟨hle, hrc⟩ := List.pairwise_cons.1 h.sorted
  have hsr : (now :: now :: recent).Pairwise fun t t' => t' ≤ t :=
    List.pairwise_cons.2 ⟨fun t ht => by
      rcases List.mem_cons.1 ht with rfl | ht
      · exact le_rfl
      · exact (hle t ht).trans hn,
      List.pairwise_cons.2 ⟨fun t ht => (hle t ht).trans hn, hrc⟩⟩
  obtain ⟨buckets, total, heq, htt, htl⟩ := h.start hn
  rw [← htt] at hr ⊢
  have hs := SlidingWindow.slot_lt (bucketAt w.windowDuration (now :: recent) now)
  -- nothing saturates, and the activity moves up
  have hsl := htl.slot_le hs
  have ha : w.lastActivity.any (now < ·) = false := by
    rw [h.activity]
    cases recent with
    | nil => rfl
    | cons t recent =>
      have := (hle t (List.mem_cons_self ..)).trans hn
      simpa using this
  have hi : w.increment now = { w with
      epoch := (now :: recent).getLast?
      currentBucket := bucketAt w.windowDuration (now :: recent) now
      buckets := buckets.set (bucketAt w.windowDuration (now :: recent) now % _)
        (buckets[bucketAt w.windowDuration (now :: recent) now % slidingWindowBucketCount] + 1) hs
      total := total + 1
      lastActivity := some now } := by
    simp only [SlidingWindow.increment, heq, SlidingWindow.noteActivity, ha,
      Bool.false_eq_true, if_false]
    rw [min_eq_left (by omega), min_eq_left (by omega)]
  rw [hi]
  exact ⟨⟨rfl, rfl, htl.add hs, le_rfl, hsr⟩, rfl, rfl, rfl⟩

/-! ## Distances -/

/-- Bucket indices of the window fit in their word. -/
def Fits (window : ℕ) (t : ℕ) : Prop := t * 63 ≤ u128Max ∧ t * 63 / window ≤ u64Max

theorem bucketAt_eq (hw : 0 < window) (hf : Fits window (t - recent.getLast?.getD 0)) :
    bucketAt window recent t = (t - recent.getLast?.getD 0) * 63 / window := by
  rw [bucketAt, absoluteSlidingBucket]
  simp only [show slidingWindowIntervalsPerWindow = 63 from rfl]
  rw [max_eq_left hw, min_eq_left hf.1, min_eq_left hf.2]

/-- An admission within the window is counted. -/
theorem live_of_near (hw : 0 < window) (hnw : Fits window (now - recent.getLast?.getD 0))
    (ht : Fits window (t - recent.getLast?.getD 0)) (hn : now ≤ t + window) :
    bucketAt window recent now < bucketAt window recent t + 64 := by
  rw [bucketAt_eq hw hnw, bucketAt_eq hw ht]
  generalize recent.getLast?.getD 0 = first
  have hle : (now - first) * 63 ≤ (t - first) * 63 + 63 * window := by omega
  have hd := Nat.div_le_div_right (c := window) hle
  rw [Nat.add_mul_div_right _ _ hw] at hd
  omega

/-- An admission that is counted is at most one bucket older than the window. -/
theorem near_of_live (hw : 0 < window) (hn : Fits window (now - recent.getLast?.getD 0))
    (ht : Fits window (t - recent.getLast?.getD 0)) (hf : recent.getLast?.getD 0 ≤ t)
    (hlv : bucketAt window recent now < bucketAt window recent t + 64) :
    63 * now < 63 * t + 64 * window := by
  rw [bucketAt_eq hw hn, bucketAt_eq hw ht] at hlv
  generalize recent.getLast?.getD 0 = first at *
  have hu : (now - first) * 63 < ((t - first) * 63 / window + 64) * window :=
    (Nat.div_lt_iff_lt_mul hw).1 hlv
  have hlw : (t - first) * 63 / window * window ≤ (t - first) * 63 := Nat.div_mul_le_self _ _
  rw [Nat.add_mul] at hu
  omega

/-- Instants are below this: their seconds are in `i64`. -/
def instantEnd : ℕ := 2 ^ 63 * nanosPerSec

/-- After the retention, an admission is out of reach. -/
theorem expired_of_retention {elapsed : ℕ} (he : elapsed < instantEnd)
    (h : slidingWindowRetention window ≤ elapsed) : 64 * window ≤ 63 * elapsed := by
  have hmax : instantEnd ≤ durationMax := by decide
  have hw : 63 * instantEnd ≤ u128Max := by decide
  simp only [slidingWindowRetention] at h
  split_ifs at h
  · -- the product does not reach the end of its word
    have hd := Nat.lt_mul_div_succ (min (window * slidingWindowBucketCount) u128Max +
      (slidingWindowIntervalsPerWindow - 1)) (show 0 < slidingWindowIntervalsPerWindow by decide)
    simp only [slidingWindowBucketCount, slidingWindowIntervalsPerWindow] at h hd
    omega
  · omega

/-- A window without recent activity has only admissions out of its reach. -/
theorem expired_of_inactive {last : ℕ} (hls : w.lastActivity = some last) (hle : last ≤ now)
    (he : now < instantEnd) (h : w.hasRecentActivity now = false) :
    63 * last + 64 * w.windowDuration ≤ 63 * now := by
  have hs : checkedDurationSince now last = some (now - last) := if_pos hle
  simp only [hasRecentActivity, hls, hs, decide_eq_false_iff_not, Nat.not_lt] at h
  have := expired_of_retention (show now - last < instantEnd by omega) h
  omega

theorem Tracks.mono (h : Tracks w latest recent) (hn : latest ≤ now) : Tracks w now recent := by
  obtain ⟨hle, hr⟩ := List.pairwise_cons.1 h.sorted
  exact ⟨h.epoch, h.activity, h.tally, h.current_le.trans (bucketAt_mono hn),
    List.pairwise_cons.2 ⟨fun t ht => (hle t ht).trans hn, hr⟩⟩

end

end Ferrum.RateLimit
