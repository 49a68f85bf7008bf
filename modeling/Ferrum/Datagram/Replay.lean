/-
  The replay guard of a datagram listener.

  * `admitIntoWindow`, `DatagramReplayGuard.admitFreshness`, `reclaimIdle`: the code's decisions.
  * `Listener`: a guard together with the history of its admissions.
  * `Listener.Inv`: the windows record exactly the admitted sequences, and every admitted
    record is still remembered or too old for the horizon; kept by every call.
-/
import Ferrum.Lib.HashMap
import Ferrum.Lib.Window
import Ferrum.Datagram.Freshness

namespace Ferrum.Datagram

open Lib List

/-! ## The guard -/

def freshnessHorizonMs : ℕ := 30000
def replayWindowBits : ℕ := 64
def maxReplaySenders : ℕ := 1024
def replayEntryIdleMs : ℕ := 4 * freshnessHorizonMs
def replayReclaimMinIntervalMs : ℕ := 250
def u64Max : ℕ := 2 ^ 64 - 1

/-- `a.abs_diff(b)`. -/
def absDiff (a b : ℕ) : ℕ := (a - b) + (b - a)

/-- Per-sender sliding replay window. -/
structure SenderReplayState where
  epoch : ℕ
  highest : ℕ
  /-- Bit `i` stands for the sequence `highest - 1 - i`. -/
  window : BitVec replayWindowBits
  lastSeenMs : ℕ

/-- A record seeded at `f`. -/
def seeded (f : DatagramFreshness) (nowMs : ℕ) : SenderReplayState :=
  { epoch := f.epoch, highest := f.sequence, window := 0#_, lastSeenMs := nowMs }

/-- Decide and mark one sequence against a sender's window; a refusal leaves it as it was. -/
def admitIntoWindow (state : SenderReplayState) (f : DatagramFreshness) (nowMs : ℕ) :
    Except DatagramMetadataError SenderReplayState :=
  if f.epoch < state.epoch then .error .replayEpochStale
  else if state.epoch < f.epoch then
    -- sender restart or key rotation: reseed at this sequence
    .ok (seeded f nowMs)
  else if f.sequence = state.highest then .error .replayDuplicate
  else if state.highest < f.sequence then
    let advance := f.sequence - state.highest
    let shifted := if replayWindowBits ≤ advance then 0#_ else state.window <<< advance
    let previousHighest := if advance ≤ replayWindowBits then 1#_ <<< (advance - 1) else 0#_
    .ok { state with
      window := shifted ||| previousHighest, highest := f.sequence, lastSeenMs := nowMs }
  else
    let behind := state.highest - f.sequence
    if replayWindowBits < behind then .error .replayStale
    else
      let bit := 1#_ <<< (behind - 1)
      if state.window &&& bit ≠ 0#_ then .error .replayDuplicate
      else .ok { state with window := state.window ||| bit, lastSeenMs := nowMs }

/-- Bounded replay state of one listener. -/
structure DatagramReplayGuard where
  senders : HMap ℕ SenderReplayState
  maxSenders : ℕ
  lastReclaimMs : ℕ

namespace DatagramReplayGuard

/-- A new guard for at most `maxSenders` senders. -/
def ofMax (maxSenders : ℕ) : DatagramReplayGuard := ⟨.empty, maxSenders, 0⟩

/-- A listener's guard. -/
def new : DatagramReplayGuard := ofMax maxReplaySenders

def trackedSenders (g : DatagramReplayGuard) : ℕ := g.senders.len

/-- Drop the records idle for too long, at most once per interval. -/
def reclaimIdle (g : DatagramReplayGuard) (nowMs : ℕ) : DatagramReplayGuard :=
  if nowMs - g.lastReclaimMs < replayReclaimMinIntervalMs then g
  else
    { g with
      lastReclaimMs := nowMs
      senders := g.senders.retain fun _ state =>
        decide (nowMs - state.lastSeenMs ≤ replayEntryIdleMs) }

/-- The decision for a sender with the record `state`, under its shard guard. -/
def admitEstablished (g : DatagramReplayGuard) (state : SenderReplayState)
    (f : DatagramFreshness) (nowMs : ℕ) :
    DatagramReplayGuard × Except DatagramMetadataError Unit :=
  match admitIntoWindow state f nowMs with
  | .error e => (g, .error e)
  | .ok state' => ({ g with senders := g.senders.insert f.senderId state' }, .ok ())

/-- `entry(sender_id)`: mark in the record that is there, or insert a seeded one. -/
def admitEntry (g : DatagramReplayGuard) (f : DatagramFreshness) (nowMs : ℕ) :
    DatagramReplayGuard × Except DatagramMetadataError Unit :=
  match g.senders.get f.senderId with
  | some state => g.admitEstablished state f nowMs
  | none =>
    ({ g with senders := g.senders.insert f.senderId (seeded f nowMs) }, .ok ())

/-- The part of `admitFreshness` under the admission lock. -/
def admitFirstSeen (g : DatagramReplayGuard) (f : DatagramFreshness) (nowMs : ℕ) :
    DatagramReplayGuard × Except DatagramMetadataError Unit :=
  match g.senders.get f.senderId with
  | some state => g.admitEstablished state f nowMs
  | none =>
    if g.maxSenders ≤ g.senders.len then
      let g' := g.reclaimIdle nowMs
      if g'.maxSenders ≤ g'.senders.len then (g', .error .replayStateCapacity)
      else g'.admitEntry f nowMs
    else g.admitEntry f nowMs

/-- Check and mark one authenticated freshness record. -/
def admitFreshness (g : DatagramReplayGuard) (f : DatagramFreshness) (nowMs : ℕ) :
    DatagramReplayGuard × Except DatagramMetadataError Unit :=
  if freshnessHorizonMs < absDiff nowMs f.timestampMs then (g, .error .freshnessOutsideHorizon)
  else if f.sequence = u64Max then (g, .error .replaySequenceExhausted)
  else match g.senders.get f.senderId with
    | some state => g.admitEstablished state f nowMs
    | none => g.admitFirstSeen f nowMs

end DatagramReplayGuard

open DatagramReplayGuard

/-! ## One record -/

/-- The record `r` at time `now` represents the sequences `seen`. -/
structure RecordOk (r : SenderReplayState) (seen : List ℕ) (now : ℕ) : Prop where
  records : Records r.window r.highest {q | q ∈ seen}
  highest_mem : r.highest ∈ seen
  le_highest : ∀ q ∈ seen, q ≤ r.highest
  lastSeen_le : r.lastSeenMs ≤ now

/-- The sequences a record stands for after it admitted `f`. -/
def seenAfter (r : SenderReplayState) (seen : List ℕ) (f : DatagramFreshness) : List ℕ :=
  if r.epoch < f.epoch then [f.sequence] else f.sequence :: seen

theorem RecordOk.seeded (f : DatagramFreshness) (now : ℕ) :
    RecordOk (seeded f now) [f.sequence] now where
  records := by simpa [Datagram.seeded] using Records.fresh f.sequence
  highest_mem := mem_singleton.2 rfl
  le_highest q hq := (mem_singleton.1 hq).le
  lastSeen_le := le_rfl

theorem RecordOk.mono {r : SenderReplayState} {seen : List ℕ} {t now : ℕ} (h : RecordOk r seen t)
    (ht : t ≤ now) : RecordOk r seen now :=
  { h with lastSeen_le := h.lastSeen_le.trans ht }

/-- What a record admits. -/
def Admissible (r : SenderReplayState) (seen : List ℕ) (f : DatagramFreshness) : Prop :=
  r.epoch < f.epoch ∨
    f.epoch = r.epoch ∧ f.sequence ∉ seen ∧ (r.highest : ℤ) - 65 < f.sequence

section
variable {r r' : SenderReplayState} {seen : List ℕ} {f : DatagramFreshness} {t now : ℕ}

/-- The bit below the highest sequence stands for its sequence. -/
theorem RecordOk.bit_iff (h : RecordOk r seen t) (hlt : f.sequence < r.highest)
    (hb : r.highest - f.sequence ≤ replayWindowBits) :
    r.window &&& 1#_ <<< (r.highest - f.sequence - 1) ≠ 0#_ ↔ f.sequence ∈ seen := by
  rw [and_one_shiftLeft_ne_zero (by omega), h.records _ (by omega) (by omega)]
  have : r.highest - 1 - (r.highest - f.sequence - 1) = f.sequence := by omega
  rw [this]; rfl

/-- What `admitIntoWindow` does, by epoch and by place in the window. -/
inductive WindowCase (r : SenderReplayState) (seen : List ℕ) (f : DatagramFreshness) (now : ℕ) :
    Except DatagramMetadataError SenderReplayState → Prop
  | epochStale : f.epoch < r.epoch → WindowCase r seen f now (.error .replayEpochStale)
  | reseed : r.epoch < f.epoch → WindowCase r seen f now (.ok (seeded f now))
  | duplicate : f.epoch = r.epoch → f.sequence ∈ seen →
      WindowCase r seen f now (.error .replayDuplicate)
  | stale : f.epoch = r.epoch → f.sequence + replayWindowBits < r.highest →
      WindowCase r seen f now (.error .replayStale)
  | ahead : f.epoch = r.epoch → r.highest < f.sequence →
      WindowCase r seen f now (.ok { r with
        window := advance r.window (f.sequence - r.highest)
        highest := f.sequence, lastSeenMs := now })
  | behind : f.epoch = r.epoch → f.sequence < r.highest →
      r.highest ≤ f.sequence + replayWindowBits → f.sequence ∉ seen →
      WindowCase r seen f now (.ok { r with
        window := r.window ||| 1#_ <<< (r.highest - f.sequence - 1), lastSeenMs := now })

theorem admitIntoWindow_case (h : RecordOk r seen t) :
    WindowCase r seen f now (admitIntoWindow r f now) := by
  unfold admitIntoWindow
  rcases Nat.lt_trichotomy f.epoch r.epoch with he | he | he
  · rw [if_pos he]; exact .epochStale he
  · rw [if_neg (by omega), if_neg (by omega)]
    rcases Nat.lt_trichotomy f.sequence r.highest with hs | hs | hs
    · rw [if_neg (by omega), if_neg (by omega)]
      by_cases hb : replayWindowBits < r.highest - f.sequence
      · rw [if_pos hb]; exact .stale he (by omega)
      · rw [if_neg hb]
        have hbt := h.bit_iff hs (by omega)
        by_cases hin : f.sequence ∈ seen
        · simp only [if_pos (hbt.2 hin)]; exact .duplicate he hin
        · simp only [if_neg (mt hbt.1 hin)]; exact .behind he hs (by omega) hin
    · rw [if_pos hs]; exact .duplicate he (hs ▸ h.highest_mem)
    · rw [if_neg (by omega), if_pos hs]; exact .ahead he hs
  · rw [if_neg (by omega), if_pos he]; exact .reseed he

/-- `admitIntoWindow` admits exactly the admissible records. -/
theorem admitIntoWindow_isOk_iff (h : RecordOk r seen t) :
    (∃ r', admitIntoWindow r f now = .ok r') ↔ Admissible r seen f := by
  have hc : WindowCase r seen f now _ := admitIntoWindow_case h
  generalize admitIntoWindow r f now = res at hc
  have refused : ∀ e : DatagramMetadataError, ¬ ∃ r' : SenderReplayState, Except.error e = Except.ok r' := by
    rintro e ⟨_, h⟩; cases h
  unfold Admissible
  cases hc with
  | epochStale he => exact iff_of_false (refused _) (by omega)
  | reseed he => exact iff_of_true ⟨_, rfl⟩ (Or.inl he)
  | duplicate he hin =>
    refine iff_of_false (refused _) ?_
    rintro (h' | ⟨-, h', -⟩)
    · omega
    · exact h' hin
  | stale he hs => unfold replayWindowBits at hs; exact iff_of_false (refused _) (by omega)
  | ahead he hs =>
    refine iff_of_true ⟨_, rfl⟩ (Or.inr ⟨he, fun hq => ?_, by omega⟩)
    have := h.le_highest _ hq
    omega
  | behind he hs hb hin =>
    unfold replayWindowBits at hb
    exact iff_of_true ⟨_, rfl⟩ (Or.inr ⟨he, hin, by omega⟩)

/-- The record after an admission represents the sequences seen after it. -/
theorem RecordOk.admitInto (h : RecordOk r seen t) (ha : admitIntoWindow r f now = .ok r') :
    RecordOk r' (seenAfter r seen f) now ∧ r.epoch ≤ r'.epoch ∧ r'.epoch = f.epoch ∧
      r'.lastSeenMs = now := by
  have hc : WindowCase r seen f now _ := admitIntoWindow_case h
  rw [ha] at hc
  unfold seenAfter
  cases hc with
  | reseed he => rw [if_pos he]; exact ⟨.seeded f now, he.le, rfl, rfl⟩
  | ahead he hs =>
    rw [if_neg (by omega)]
    have had := h.records.advance h.le_highest h.highest_mem (Nat.sub_pos_of_lt hs)
    rw [Nat.add_sub_cancel' hs.le] at had
    refine ⟨⟨?_, mem_cons_self, ?_, le_rfl⟩, le_rfl, he.symm, rfl⟩
    · simpa [Set.insert_def] using had
    · intro q hq
      rcases mem_cons.1 hq with rfl | hq
      · exact le_rfl
      · exact (h.le_highest q hq).trans hs.le
  | behind he hs hb hin =>
    rw [if_neg (by omega)]
    have hm := h.records.mark (Nat.sub_pos_of_lt hs) (Nat.sub_le _ _)
    rw [Nat.sub_sub_self hs.le] at hm
    refine ⟨⟨?_, mem_cons_of_mem _ h.highest_mem, ?_, le_rfl⟩, le_rfl, he.symm, rfl⟩
    · simpa [Set.insert_def] using hm
    · intro q hq
      rcases mem_cons.1 hq with rfl | hq
      · exact hs.le
      · exact h.le_highest q hq

end

/-! ## One call -/

namespace DatagramReplayGuard

/-- What `admitFreshness` does. -/
inductive AdmitCase (g : DatagramReplayGuard) (f : DatagramFreshness) (now : ℕ) :
    DatagramReplayGuard × Except DatagramMetadataError Unit → Prop
  | horizon : freshnessHorizonMs < absDiff now f.timestampMs →
      AdmitCase g f now (g, .error .freshnessOutsideHorizon)
  | exhausted : f.sequence = u64Max → AdmitCase g f now (g, .error .replaySequenceExhausted)
  | refused {r : SenderReplayState} {e : DatagramMetadataError} :
      g.senders.get f.senderId = some r → admitIntoWindow r f now = .error e →
      AdmitCase g f now (g, .error e)
  | marked {r r' : SenderReplayState} : absDiff now f.timestampMs ≤ freshnessHorizonMs →
      f.sequence ≠ u64Max → g.senders.get f.senderId = some r →
      admitIntoWindow r f now = .ok r' →
      AdmitCase g f now ({ g with senders := g.senders.insert f.senderId r' }, .ok ())
  | full : g.senders.get f.senderId = none →
      AdmitCase g f now (g.reclaimIdle now, .error .replayStateCapacity)
  | seeded {g' : DatagramReplayGuard} : absDiff now f.timestampMs ≤ freshnessHorizonMs →
      f.sequence ≠ u64Max → g.senders.get f.senderId = none → g' = g ∨ g' = g.reclaimIdle now →
      g'.senders.get f.senderId = none → g'.senders.len < g'.maxSenders →
      AdmitCase g f now
        ({ g' with senders := g'.senders.insert f.senderId (Datagram.seeded f now) }, .ok ())

variable {g : DatagramReplayGuard} {f : DatagramFreshness} {now : ℕ}

variable {s : ℕ}

/-- A sweep keeps a subset of the records, and drops only idle ones. -/
theorem get_reclaimIdle {r : SenderReplayState} (h : (g.reclaimIdle now).senders.get s = some r) :
    g.senders.get s = some r := by
  unfold reclaimIdle at h
  split_ifs at h
  · exact h
  · rw [HMap.get_retain, Option.filter_eq_some_iff] at h; exact h.1

theorem get_reclaimIdle_of_recent {r : SenderReplayState} (h : g.senders.get s = some r)
    (hr : now ≤ r.lastSeenMs + replayEntryIdleMs) : (g.reclaimIdle now).senders.get s = some r := by
  unfold reclaimIdle
  split_ifs
  · exact h
  · rw [HMap.get_retain, h, Option.filter_some, if_pos (decide_eq_true (by omega))]

theorem len_reclaimIdle_le : (g.reclaimIdle now).senders.len ≤ g.senders.len := by
  unfold reclaimIdle
  split_ifs
  · exact le_rfl
  · exact HMap.len_retain_le

@[simp] theorem maxSenders_reclaimIdle : (g.reclaimIdle now).maxSenders = g.maxSenders := by
  unfold reclaimIdle; split_ifs <;> rfl

theorem admit_case : AdmitCase g f now (g.admitFreshness f now) := by
  unfold admitFreshness
  by_cases hh : freshnessHorizonMs < absDiff now f.timestampMs
  · rw [if_pos hh]; exact .horizon hh
  by_cases hm : f.sequence = u64Max
  · rw [if_neg hh, if_pos hm]; exact .exhausted hm
  rw [if_neg hh, if_neg hm]
  have hin : absDiff now f.timestampMs ≤ freshnessHorizonMs := by omega
  rcases hg : g.senders.get f.senderId with _ | r
  · simp only [admitFirstSeen, hg]
    have entry : ∀ g' : DatagramReplayGuard, g' = g ∨ g' = g.reclaimIdle now →
        g'.senders.len < g'.maxSenders → AdmitCase g f now (g'.admitEntry f now) := by
      intro g' hg' hln
      have hn : g'.senders.get f.senderId = none := by
        rcases hg' with rfl | rfl
        · exact hg
        · rcases h : (g.reclaimIdle now).senders.get f.senderId with _ | r
          · rfl
          · rw [get_reclaimIdle h] at hg; cases hg
      simp only [admitEntry, hn]
      exact .seeded hin hm hg hg' hn hln
    by_cases hf : g.maxSenders ≤ g.senders.len
    · rw [if_pos hf]
      by_cases hf' : (g.reclaimIdle now).maxSenders ≤ (g.reclaimIdle now).senders.len
      · rw [if_pos hf']; exact .full hg
      · rw [if_neg hf']; exact entry _ (Or.inr rfl) (by omega)
    · rw [if_neg hf]; exact entry _ (Or.inl rfl) (by omega)
  · simp only [admitEstablished]
    rcases ha : admitIntoWindow r f now with e | r'
    · exact .refused hg ha
    · exact .marked hin hm hg ha

end DatagramReplayGuard

/-! ## Runs -/

/-- A guard and the history of its admissions: `seen s` are the sequences sender `s` had
    admitted since its record was seeded or reseeded, `log` everything ever admitted. -/
structure Listener where
  guard : DatagramReplayGuard
  seen : ℕ → List ℕ
  log : List DatagramFreshness

namespace Listener

def start (maxSenders : ℕ) : Listener := ⟨.ofMax maxSenders, fun _ => [], []⟩

/-- The sequences of the sender of `f` since its record was seeded or reseeded, once `f` is
    admitted. -/
def seenWith (L : Listener) (f : DatagramFreshness) : List ℕ :=
  match L.guard.senders.get f.senderId with
  | none => [f.sequence]
  | some r => seenAfter r (L.seen f.senderId) f

/-- One call `admit(f, now)` of the guard. -/
def call (L : Listener) (c : DatagramFreshness × ℕ) : Listener :=
  match L.guard.admitFreshness c.1 c.2 with
  | (g, .error _) => { L with guard := g }
  | (g, .ok _) =>
    { guard := g
      seen := Function.update L.seen c.1.senderId (L.seenWith c.1)
      log := c.1 :: L.log }

def run (L : Listener) (calls : List (DatagramFreshness × ℕ)) : Listener := calls.foldl call L

/-- `f` cannot be admitted again at `now` or later: it is too old, or its sender's record
    refuses it and outlives it. -/
def Remembered (L : Listener) (now : ℕ) (f : DatagramFreshness) : Prop :=
  f.timestampMs + freshnessHorizonMs < now ∨
    ∃ r, L.guard.senders.get f.senderId = some r ∧
      f.timestampMs ≤ r.lastSeenMs + freshnessHorizonMs ∧
      (f.epoch < r.epoch ∨ f.epoch = r.epoch ∧ f.sequence ∈ L.seen f.senderId)

/-- The invariant, at a time when all calls were made at `now` or before. -/
structure Inv (L : Listener) (now : ℕ) : Prop where
  len_le : L.guard.senders.len ≤ L.guard.maxSenders
  record : ∀ s r, L.guard.senders.get s = some r → RecordOk r (L.seen s) now
  remembered : ∀ f ∈ L.log, L.Remembered now f
  nodup : L.log.Nodup

theorem inv_start (maxSenders : ℕ) : (start maxSenders).Inv 0 where
  len_le := Nat.zero_le _
  record s r h := by
    have : (HMap.empty : HMap ℕ SenderReplayState).get s = some r := h
    rw [HMap.get_empty] at this; cases this
  remembered f hf := absurd hf not_mem_nil
  nodup := nodup_nil

variable {L : Listener} {f : DatagramFreshness} {t now : ℕ} {g : DatagramReplayGuard}

/-- A guard with fewer records, all recent ones kept, remembers as well: the records dropped
    are idle for so long that whatever they refused is outside the horizon. -/
theorem Remembered.reclaim (h : L.Remembered t f) (ht : t ≤ now) :
    { L with guard := L.guard.reclaimIdle now }.Remembered now f := by
  rcases h with hold | ⟨r, hr, hts, hrf⟩
  · exact Or.inl (by omega)
  by_cases hi : now ≤ r.lastSeenMs + replayEntryIdleMs
  · exact Or.inr ⟨r, get_reclaimIdle_of_recent hr hi, hts, hrf⟩
  · left
    have hk : replayEntryIdleMs = 4 * freshnessHorizonMs := rfl
    omega

theorem Inv.mono (h : L.Inv t) (ht : t ≤ now) : L.Inv now where
  len_le := h.len_le
  record s r hr := (h.record s r hr).mono ht
  remembered f hf := (h.remembered f hf).imp (fun h => by omega) id
  nodup := h.nodup

theorem Inv.reclaim (h : L.Inv t) (ht : t ≤ now) :
    { L with guard := L.guard.reclaimIdle now }.Inv now where
  len_le := by
    have := h.len_le
    simp only [maxSenders_reclaimIdle]
    exact len_reclaimIdle_le.trans this
  record s r hr := (h.record s r (get_reclaimIdle hr)).mono ht
  remembered f hf := (h.remembered f hf).reclaim ht
  nodup := h.nodup

/-- What is remembered is not admitted again. -/
theorem Remembered.not_admissible (h : L.Remembered t f) (ht : t ≤ now)
    (hin : absDiff now f.timestampMs ≤ freshnessHorizonMs) :
    ∃ r, L.guard.senders.get f.senderId = some r ∧ ¬ Admissible r (L.seen f.senderId) f := by
  rcases h with hold | ⟨r, hr, -, hrf⟩
  · unfold absDiff at hin; omega
  · refine ⟨r, hr, ?_⟩
    rintro (he | ⟨he, hs, -⟩)
    · omega
    · rcases hrf with he' | ⟨-, hs'⟩
      · omega
      · exact hs hs'

/-- Writing a record for the sender of `f` that refuses `f` and all it refused before. -/
theorem Inv.admitted (h : L.Inv t) (ht : t ≤ now)
    (hin : absDiff now f.timestampMs ≤ freshnessHorizonMs)
    {r' : SenderReplayState} {seen' : List ℕ} (hok : RecordOk r' seen' now)
    (hln : (L.guard.senders.insert f.senderId r').len ≤ L.guard.maxSenders)
    (hn : f ∉ L.log) (hls : r'.lastSeenMs = now) (hep : f.epoch = r'.epoch)
    (hsq : f.sequence ∈ seen')
    (hk : ∀ r, L.guard.senders.get f.senderId = some r → r.epoch ≤ r'.epoch ∧
      (r.epoch = r'.epoch → ∀ q ∈ L.seen f.senderId, q ∈ seen')) :
    Inv { guard := { L.guard with senders := L.guard.senders.insert f.senderId r' }
          seen := Function.update L.seen f.senderId seen'
          log := f :: L.log } now where
  len_le := hln
  record s r hr := by
    by_cases hs : s = f.senderId
    · subst hs
      simp only [HMap.get_insert, Option.some.injEq] at hr
      subst hr
      simpa using hok
    · simp only [HMap.get_insert_ne hs] at hr
      simpa [Function.update_of_ne hs] using (h.record s r hr).mono ht
  remembered f₀ hf₀ := by
    rcases mem_cons.1 hf₀ with rfl | hf₀
    · refine Or.inr ⟨r', HMap.get_insert, ?_, Or.inr ⟨hep, by simpa using hsq⟩⟩
      unfold absDiff at hin; omega
    · rcases h.remembered f₀ hf₀ with hold | ⟨r, hr, hts, hrf⟩
      · exact Or.inl (by omega)
      · by_cases hs : f₀.senderId = f.senderId
        · rw [hs] at hr hrf
          obtain ⟨hle, hsb⟩ := hk r hr
          have hla := (h.record _ r hr).lastSeen_le
          refine Or.inr ⟨r', by simp only [hs, HMap.get_insert], by omega, ?_⟩
          simp only [hs, Function.update_self]
          rcases hrf with he | ⟨he, hq⟩
          · exact Or.inl (by omega)
          · rcases Nat.lt_or_eq_of_le hle with hlt | heq
            · exact Or.inl (by omega)
            · exact Or.inr ⟨by omega, hsb heq _ hq⟩
        · refine Or.inr ⟨r, by simp only [HMap.get_insert_ne hs]; exact hr, hts, ?_⟩
          simpa only [Function.update_of_ne hs] using hrf
  nodup := nodup_cons.2 ⟨hn, h.nodup⟩

theorem Inv.call (h : L.Inv t) (ht : t ≤ now) : (L.call (f, now)).Inv now := by
  have hc : DatagramReplayGuard.AdmitCase L.guard f now _ := admit_case
  unfold Listener.call
  generalize L.guard.admitFreshness f now = res at hc
  cases hc with
  | horizon _ => exact h.mono ht
  | exhausted _ => exact h.mono ht
  | refused _ _ => exact h.mono ht
  | full _ => exact h.reclaim ht
  | marked hin hm hg ha =>
    obtain ⟨hok, hle, hep, hls⟩ := (h.record _ _ hg).admitInto ha
    simp only [seenWith, hg]
    refine h.admitted ht hin hok ((HMap.len_insert_some hg).trans_le h.len_le) ?_ hls hep.symm ?_ ?_
    · intro hmm
      obtain ⟨r, hr, hna⟩ := (h.remembered f hmm).not_admissible ht hin
      rw [hg, Option.some.injEq] at hr; subst hr
      exact hna ((admitIntoWindow_isOk_iff (h.record _ _ hg)).1 ⟨_, ha⟩)
    · unfold seenAfter; split_ifs <;> exact mem_cons_self
    · intro r hr
      rw [hg, Option.some.injEq] at hr; subst hr
      refine ⟨hle, fun he q hq => ?_⟩
      rw [seenAfter, if_neg (by omega)]
      exact mem_cons_of_mem _ hq
  | @seeded g' hin hm hg hg' hn hln =>
    have h' : { L with guard := g' }.Inv now := by
      rcases hg' with rfl | rfl
      · exact h.mono ht
      · exact h.reclaim ht
    simp only [seenWith, hg]
    refine h'.admitted le_rfl hin (.seeded f now) ?_ ?_ rfl rfl (mem_singleton.2 rfl) ?_
    · rw [HMap.len_insert_none hn]; exact hln
    · intro hmm
      obtain ⟨r, hr, -⟩ := (h.remembered f hmm).not_admissible ht hin
      rw [hg] at hr; cases hr
    · intro r hr
      simp only [hn] at hr; cases hr

variable {calls : List (DatagramFreshness × ℕ)}

/-- A run with non-decreasing times keeps the invariant. -/
theorem Inv.run (h : L.Inv t) (hm : (t :: calls.map Prod.snd).IsChain (· ≤ ·)) :
    ∃ now, (L.run calls).Inv now := by
  induction calls generalizing L t with
  | nil => exact ⟨t, h⟩
  | cons c calls ih =>
    rw [map_cons, isChain_cons_cons] at hm
    exact ih (h.call hm.1) hm.2

/-- The number of senders a guard may track never changes. -/
theorem maxSenders_call (c : DatagramFreshness × ℕ) :
    (L.call c).guard.maxSenders = L.guard.maxSenders := by
  have hc : DatagramReplayGuard.AdmitCase L.guard c.1 c.2 _ := admit_case
  unfold Listener.call
  generalize L.guard.admitFreshness c.1 c.2 = res at hc
  cases hc with
  | horizon _ => rfl
  | exhausted _ => rfl
  | refused _ _ => rfl
  | full _ => exact maxSenders_reclaimIdle
  | marked _ _ _ _ => rfl
  | seeded _ _ _ hg' _ _ =>
    rcases hg' with rfl | rfl
    · rfl
    · exact maxSenders_reclaimIdle

theorem maxSenders_run (calls : List (DatagramFreshness × ℕ)) :
    (L.run calls).guard.maxSenders = L.guard.maxSenders := by
  induction calls generalizing L with
  | nil => rfl
  | cons c calls ih => exact ih.trans (maxSenders_call c)

theorem log_run {f : DatagramFreshness} (hf : f ∈ (L.run calls).log) :
    f ∈ L.log ∨ f ∈ calls.map Prod.fst := by
  induction calls generalizing L with
  | nil => exact Or.inl hf
  | cons c calls ih =>
    rcases ih (L := L.call c) hf with h | h
    · unfold call at h
      split at h
      · exact Or.inl h
      · rcases mem_cons.1 h with rfl | h
        · exact Or.inr mem_cons_self
        · exact Or.inl h
    · exact Or.inr (mem_cons_of_mem _ h)

/-- The runs of a fresh listener keep the invariant. -/
theorem inv_run_start {maxSenders : ℕ} (hm : (calls.map Prod.snd).IsChain (· ≤ ·)) :
    ∃ now, ((start maxSenders).run calls).Inv now := by
  refine (inv_start maxSenders).run ?_
  rcases calls with _ | ⟨c, calls⟩
  · exact .singleton 0
  · exact .cons_cons (Nat.zero_le _) hm

/-- What a sender with a live record admits. -/
theorem Inv.admit_iff (h : L.Inv t) {r : SenderReplayState}
    (hr : L.guard.senders.get f.senderId = some r) :
    (L.guard.admitFreshness f now).2 = .ok () ↔ absDiff now f.timestampMs ≤ freshnessHorizonMs ∧
      f.sequence ≠ u64Max ∧ Admissible r (L.seen f.senderId) f := by
  rw [← admitIntoWindow_isOk_iff (h.record _ r hr)]
  have hc : DatagramReplayGuard.AdmitCase L.guard f now _ := admit_case
  generalize L.guard.admitFreshness f now = res at hc
  cases hc with
  | horizon hh => exact iff_of_false (by rintro ⟨⟩) (by omega)
  | exhausted hm => exact iff_of_false (by rintro ⟨⟩) (fun h => h.2.1 hm)
  | refused hg ha =>
    rw [hr, Option.some.injEq] at hg; subst hg
    refine iff_of_false (by rintro ⟨⟩) ?_
    rintro ⟨-, -, r', hr'⟩
    rw [ha] at hr'; cases hr'
  | full hg => rw [hr] at hg; cases hg
  | marked hin hm hg ha =>
    rw [hr, Option.some.injEq] at hg; subst hg
    exact iff_of_true rfl ⟨hin, hm, _, ha⟩
  | seeded _ _ hg _ _ _ => rw [hr] at hg; cases hg

end Listener

/-- The identity of a presentation, without its timestamp. -/
def DatagramFreshness.triple (f : DatagramFreshness) : ℕ × ℕ × ℕ := (f.senderId, f.epoch, f.sequence)

/-- **The replay guard.**  In every run with non-decreasing times, a triple always presented
    with one timestamp is admitted at most once, the tracked senders stay within the bound, and
    a sender with a live record admits exactly the fresh records in or ahead of its window. -/
theorem replay_guard_admits (maxSenders : ℕ) (calls : List (DatagramFreshness × ℕ))
    (hmono : (calls.map Prod.snd).IsChain (· ≤ ·)) :
    let L := (Listener.start maxSenders).run calls
    (∀ k ts, (∀ c ∈ calls, c.1.triple = k → c.1.timestampMs = ts) →
      L.log.countP (fun f => f.triple = k) ≤ 1) ∧
    L.guard.trackedSenders ≤ maxSenders ∧
    ∀ f now r, L.guard.senders.get f.senderId = some r →
      ((L.guard.admitFreshness f now).2 = .ok () ↔
        absDiff now f.timestampMs ≤ freshnessHorizonMs ∧ f.sequence ≠ u64Max ∧
        (r.epoch < f.epoch ∨
          f.epoch = r.epoch ∧ f.sequence ∉ L.seen f.senderId ∧
            (r.highest : ℤ) - 65 < f.sequence)) := by
  intro L
  obtain ⟨now, h⟩ : ∃ now, L.Inv now := Listener.inv_run_start hmono
  refine ⟨?_, ?_, fun f now r hr => h.admit_iff hr⟩
  · intro k ts hts
    -- admitted records are pairwise different, and one timestamp makes equal triples equal records
    have same : ∀ f ∈ L.log, f.triple = k → f.timestampMs = ts := by
      intro f hf hk
      rcases Listener.log_run hf with hf | hf
      · exact absurd hf not_mem_nil
      · obtain ⟨c, hc, rfl⟩ := mem_map.1 hf
        exact hts c hc hk
    rw [countP_eq_length_filter]
    have hnd : (L.log.filter fun f => f.triple = k).Nodup := h.nodup.filter _
    rcases hl : L.log.filter fun f => f.triple = k with _ | ⟨f, _ | ⟨f', l⟩⟩
    · rw [hl]; exact Nat.zero_le _
    · rw [hl]; exact le_rfl
    · have hm : ∀ x ∈ f :: f' :: l, x.triple = k ∧ x.timestampMs = ts := by
        intro x hx
        rw [← hl, mem_filter, decide_eq_true_eq] at hx
        exact ⟨hx.2, same x hx.1 hx.2⟩
      obtain ⟨h1, h1'⟩ := hm f (by simp)
      obtain ⟨h2, h2'⟩ := hm f' (by simp)
      rw [hl, nodup_cons] at hnd
      refine absurd ?_ hnd.1
      have : f = f' := by
        have := h1.trans h2.symm
        simp only [DatagramFreshness.triple, Prod.mk.injEq] at this
        exact DatagramFreshness.ext this.1 this.2.1 this.2.2 (h1'.trans h2'.symm)
      exact this ▸ mem_cons_self
  · have := h.len_le
    rwa [Listener.maxSenders_run] at this

/-- A duplicate, a jump past the window and a straggler, at one time. -/
theorem replay_guard_admits_schedule : let f q : DatagramFreshness := ⟨7, 1, q, 1000⟩
    let calls := [(f 5, 1000), (f 5, 1000), (f 69, 1001), (f 5, 1001), (f 6, 1002)]
    ((Listener.start 1).run calls).log.map (·.sequence) = [6, 69, 5] ∧
      ((Listener.start 1).run calls).log.countP (fun x => x.triple = (7, 1, 5)) ≤ 1 :=
  ⟨by decide, (replay_guard_admits 1 _ (by decide)).1 (7, 1, 5) 1000 (by decide)⟩

end Ferrum.Datagram
