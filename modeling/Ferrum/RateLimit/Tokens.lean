/-
  The window of token usage behind the AI rate limiter.

  A request reserves an estimate before it is sent and corrects it when the usage is known.  Entries
  expire at the front, are corrected by the identifier of their reservation wherever they are, and
  are released without one from the back; the sum of all is kept beside them.  Instants are
  nanoseconds since the earliest one the clock can represent, and come in any order.

  * `AiTokenRateAlgorithm.checkLocal`: one operation on a window.
  * `Balanced`: the sum is that of the entries, which are in the order of time and of identifiers.
  * `Balanced.currentUsage`, `Balanced.recordUsage`, `Balanced.adjustUsage`: what operations do to
    the entries.
  * `token_window_accounting`: sums, admissions and corrections after every history.
-/
import Ferrum.Lib.Runs
import Ferrum.RateLimit.Limiter
import Mathlib.Algebra.Order.BigOperators.Group.List

namespace Ferrum.RateLimit

open Lib List

/-! ## The window -/

/-- A charge, made at an instant. -/
structure TokenEntry where
  instant : ℕ
  id : ℕ
  tokens : ℕ
  deriving DecidableEq, Repr

/-- The entries from the oldest, and their sum. -/
structure TokenUsageWindow where
  entries : List TokenEntry
  windowDuration : ℕ
  limit : ℕ
  total : ℕ
  lastActivity : Option ℕ
  nextReservationId : ℕ
  deriving DecidableEq, Repr

open TokenUsageWindow

/-- An outcome with what the operations on tokens report besides. -/
structure TokenOutcome extends RateLimitOutcome where
  usage : Option ℕ := none
  reservationId : Option ℕ := none
  deriving DecidableEq, Repr

def saturatingAdd (a b : ℕ) : ℕ := min (a + b) u64Max

def checkedSub (now duration : ℕ) : Option ℕ :=
  if duration ≤ now then some (now - duration) else none

namespace TokenUsageWindow

def new (limit windowDuration : ℕ) : TokenUsageWindow := ⟨[], windowDuration, limit, 0, none, 1⟩

/-- The loop of `currentUsage`, over the entries and the sum. -/
def expire (cutoff : ℕ) : List TokenEntry → ℕ → List TokenEntry × ℕ
  | [], total => ([], total)
  | e :: es, total =>
    if e.instant < cutoff then expire cutoff es (total - e.tokens) else (e :: es, total)

def currentUsage (w : TokenUsageWindow) (now : ℕ) : ℕ × TokenUsageWindow :=
  match checkedSub now w.windowDuration with
  | none => (w.total, w)
  | some cutoff =>
    let (entries, total) := expire cutoff w.entries w.total
    (total, { w with entries, total })

def allocateId (w : TokenUsageWindow) : ℕ × TokenUsageWindow :=
  (w.nextReservationId, { w with
    nextReservationId := if w.nextReservationId < u64Max then w.nextReservationId + 1 else 1 })

/-- Reverse-ordered instants are moved forward to the last one. -/
def recordUsage (w : TokenUsageWindow) (now tokens : ℕ) : ℕ × TokenUsageWindow :=
  let (id, w) := w.allocateId
  let instant := match w.lastActivity with
    | some last => if now < last then last else now
    | none => now
  (id, { w with
    lastActivity := some instant
    entries := w.entries ++ [⟨instant, id, tokens⟩]
    total := saturatingAdd w.total tokens })

def reserve (w : TokenUsageWindow) (now tokens : ℕ) : TokenOutcome × TokenUsageWindow :=
  let (usage, w) := w.currentUsage now
  let reservedUsage := saturatingAdd usage tokens
  if w.limit < reservedUsage then
    ({ allowed := false, limit := some w.limit, windowSeconds := some (asSecs w.windowDuration)
       usage := some usage, remaining := some (w.limit - usage) }, w)
  else
    let (reservationId, w) := w.recordUsage now tokens
    ({ allowed := true, limit := some w.limit, windowSeconds := some (asSecs w.windowDuration)
       usage := some reservedUsage, remaining := some (w.limit - reservedUsage)
       reservationId := some reservationId }, w)

/-- The tokens of an entry after a correction. -/
def correctTokens (tokens : ℕ) (delta : ℤ) : ℕ :=
  if 0 ≤ delta then saturatingAdd tokens delta.toNat else tokens - delta.natAbs

/-- Correct the first entry with this identifier: its tokens before and after, and the entries. -/
def correctEntry (id : ℕ) (delta : ℤ) : List TokenEntry → Option (ℕ × ℕ × List TokenEntry)
  | [] => none
  | e :: es =>
    if e.id = id then
      let newTokens := correctTokens e.tokens delta
      some (e.tokens, newTokens, { e with tokens := newTokens } :: es)
    else (correctEntry id delta es).map fun (previous, newTokens, es) =>
      (previous, newTokens, e :: es)

/-- The loop that releases from the back, over the entries from the newest and the sum. -/
def releaseBack : List TokenEntry → ℕ → ℕ → List TokenEntry × ℕ
  | es, 0, total => (es, total)
  | [], _ + 1, _ => ([], 0)
  | e :: es, remainingRelease + 1, total =>
    if remainingRelease + 1 < e.tokens then
      ({ e with tokens := e.tokens - (remainingRelease + 1) } :: es,
        total - (remainingRelease + 1))
    else releaseBack es (remainingRelease + 1 - e.tokens) (total - e.tokens)

def adjustUsage (w : TokenUsageWindow) (now : ℕ) (reservationId : Option ℕ) (delta : ℤ) :
    TokenUsageWindow :=
  let w := (w.currentUsage now).2
  if delta = 0 then w
  else
    match reservationId.filter (· ≠ 0) with
    | some id =>
      match correctEntry id delta w.entries with
      | some (previous, newTokens, entries) =>
        { w with
          entries := if newTokens = 0 then entries.filter (·.id ≠ id) else entries
          total := if previous ≤ newTokens then saturatingAdd w.total (newTokens - previous)
            else w.total - (previous - newTokens) }
      | none => if 0 < delta then (w.recordUsage now delta.toNat).2 else w
    | none =>
      if 0 < delta then (w.recordUsage now delta.toNat).2
      else
        let (entries, total) := releaseBack w.entries.reverse delta.natAbs w.total
        { w with entries := entries.reverse, total }

def remaining (w : TokenUsageWindow) (now : ℕ) : ℕ × TokenUsageWindow :=
  let (usage, w) := w.currentUsage now
  (w.limit - usage, w)

end TokenUsageWindow

/-! ## Operations -/

/-- Where a reservation was made; `inMemory` is the local window. -/
inductive ReservationBackend where
  | inMemory | redis | unknown
  deriving DecidableEq, Repr

inductive AiRateLimitOp where
  | checkBudget
  | reserve (tokens : ℕ)
  | adjustUsage (reservationId : Option ℕ) (reservationBackend : ReservationBackend)
      (actualTokens : ℕ) (delta : ℤ)
  deriving DecidableEq, Repr

structure AiTokenRateAlgorithm where
  tokenLimit : ℕ
  windowSeconds : ℕ
  deriving DecidableEq, Repr

namespace AiTokenRateAlgorithm

def new (tokenLimit windowSeconds : ℕ) : AiTokenRateAlgorithm := ⟨tokenLimit, max windowSeconds 1⟩

def newState (alg : AiTokenRateAlgorithm) : TokenUsageWindow :=
  .new alg.tokenLimit (max alg.windowSeconds 1 * nanosPerSec)

def checkLocal (alg : AiTokenRateAlgorithm) (w : TokenUsageWindow) (op : AiRateLimitOp) (now : ℕ) :
    TokenOutcome × TokenUsageWindow :=
  match op with
  | .checkBudget =>
    let (usage, w) := w.currentUsage now
    let (remaining, w) := w.remaining now
    ({ allowed := !decide (alg.tokenLimit ≤ usage), limit := some alg.tokenLimit
       windowSeconds := some alg.windowSeconds, usage := some usage
       remaining := some remaining }, w)
  | .reserve tokens => w.reserve now tokens
  | .adjustUsage reservationId reservationBackend actualTokens delta =>
    let w := if reservationBackend = .redis then
        -- charged elsewhere: the whole usage is new here
        if 0 < actualTokens then (w.recordUsage now actualTokens).2 else (w.currentUsage now).2
      else w.adjustUsage now reservationId delta
    let (usage, w) := w.currentUsage now
    let (remaining, w) := w.remaining now
    ({ allowed := true, limit := some alg.tokenLimit, windowSeconds := some alg.windowSeconds
       usage := some usage, remaining := some remaining }, w)

end AiTokenRateAlgorithm

open AiTokenRateAlgorithm

/-! ## Balance -/

def tokenSum (es : List TokenEntry) : ℕ := (es.map TokenEntry.tokens).sum

@[simp] theorem tokenSum_nil : tokenSum [] = 0 := rfl

@[simp] theorem tokenSum_cons (e : TokenEntry) (es : List TokenEntry) :
    tokenSum (e :: es) = e.tokens + tokenSum es := rfl

@[simp] theorem tokenSum_append (es es' : List TokenEntry) :
    tokenSum (es ++ es') = tokenSum es + tokenSum es' := by
  simp [tokenSum]

@[simp] theorem tokenSum_reverse (es : List TokenEntry) : tokenSum es.reverse = tokenSum es := by
  simp [tokenSum]

namespace TokenUsageWindow

/-- The entries that are not older than the window. -/
def live (w : TokenUsageWindow) (now : ℕ) : List TokenEntry :=
  w.entries.filter fun e => now ≤ e.instant + w.windowDuration

/-- The window without what is older. -/
def expired (w : TokenUsageWindow) (now : ℕ) : TokenUsageWindow :=
  { w with entries := w.live now, total := tokenSum (w.live now) }

section
variable (w : TokenUsageWindow) (now : ℕ)

@[simp] theorem expired_entries : (w.expired now).entries = w.live now := rfl
@[simp] theorem expired_total : (w.expired now).total = tokenSum (w.live now) := rfl
@[simp] theorem expired_limit : (w.expired now).limit = w.limit := rfl
@[simp] theorem expired_nextReservationId :
    (w.expired now).nextReservationId = w.nextReservationId := rfl

end

/-- The sum is that of the entries; instants and identifiers are in order. -/
structure Balanced (w : TokenUsageWindow) : Prop where
  total : w.total = tokenSum w.entries
  sorted : w.entries.Pairwise fun e e' => e.instant ≤ e'.instant
  last : ∀ e ∈ w.entries, ∃ last, w.lastActivity = some last ∧ e.instant ≤ last
  ids : w.entries.Pairwise fun e e' => e.id < e'.id
  fresh : ∀ e ∈ w.entries, e.id < w.nextReservationId

variable {w : TokenUsageWindow} {now : ℕ}

theorem Balanced.new (limit windowDuration : ℕ) : (new limit windowDuration).Balanced :=
  ⟨rfl, .nil, fun _ h => (nomatch h), .nil, fun _ h => (nomatch h)⟩

/-- The entries without their tokens. -/
def stamps (es : List TokenEntry) : List (ℕ × ℕ) := es.map fun e => (e.instant, e.id)

variable {es : List TokenEntry} {tokens id : ℕ} {delta : ℤ} {e : TokenEntry}
  {reservationId : Option ℕ}

/-- With fewer entries or other tokens, and their sum, a window is still in balance. -/
theorem Balanced.of_stamps (h : w.Balanced) (hes : (stamps es).Sublist (stamps w.entries)) :
    Balanced { w with entries := es, total := tokenSum es } := by
  have hm : ∀ e ∈ es, ∃ e' ∈ w.entries, e'.instant = e.instant ∧ e'.id = e.id := by
    intro e he
    obtain ⟨e', he', heq⟩ := mem_map.1 (hes.subset (mem_map_of_mem he))
    exact ⟨e', he', Prod.mk.inj heq⟩
  refine ⟨rfl, ?_, fun e he => ?_, ?_, fun e he => ?_⟩
  · have hs : (stamps w.entries).Pairwise fun p q => p.1 ≤ q.1 :=
      pairwise_map.2 h.sorted
    have hes' : (stamps es).Pairwise fun p q => p.1 ≤ q.1 := hs.sublist hes
    rw [stamps, pairwise_map] at hes'
    exact hes'
  · obtain ⟨e', he', hi, -⟩ := hm e he
    exact hi ▸ h.last e' he'
  · have his : (stamps w.entries).Pairwise fun p q => p.2 < q.2 := pairwise_map.2 h.ids
    have hes' : (stamps es).Pairwise fun p q => p.2 < q.2 := his.sublist hes
    rw [stamps, pairwise_map] at hes'
    exact hes'
  · obtain ⟨e', he', -, hid⟩ := hm e he
    exact hid ▸ h.fresh e' he'

/-- In the order of time what expires is at the front. -/
theorem expire_eq {cutoff : ℕ} (hes : es.Pairwise fun e e' => e.instant ≤ e'.instant) :
    expire cutoff es (tokenSum es) =
      (es.filter (cutoff ≤ ·.instant), tokenSum (es.filter (cutoff ≤ ·.instant))) := by
  induction es with
  | nil => rfl
  | cons e es ih =>
    rw [pairwise_cons] at hes
    unfold expire
    split_ifs with hlt
    · rw [tokenSum_cons, Nat.add_sub_cancel_left, ih hes.2, filter_cons_of_neg (by simpa)]
    · have ha : ∀ e' ∈ e :: es, decide (cutoff ≤ e'.instant) = true := by
        intro e' he'
        rw [decide_eq_true_eq]
        rcases mem_cons.1 he' with rfl | he'
        · omega
        · have := hes.1 e' he'
          omega
      rw [filter_eq_self.2 ha]

/-- **Usage**: the entries that are not older than the window, and their sum. -/
theorem Balanced.currentUsage (h : w.Balanced) (now : ℕ) :
    w.currentUsage now = (tokenSum (w.live now), w.expired now) := by
  unfold TokenUsageWindow.currentUsage checkedSub
  by_cases hle : w.windowDuration ≤ now
  · have hc : (fun e : TokenEntry => decide (now - w.windowDuration ≤ e.instant)) =
        fun e => decide (now ≤ e.instant + w.windowDuration) := by
      funext e
      rw [decide_eq_decide]
      omega
    simp only [if_pos hle, h.total, expire_eq h.sorted, hc]
    rfl
  · have hlv : w.live now = w.entries := by
      refine filter_eq_self.2 fun e _ => ?_
      rw [decide_eq_true_eq]
      omega
    rw [if_neg hle, expired, hlv, ← h.total]

/-- Where nothing expires, nothing changes. -/
theorem Balanced.currentUsage_of_live (h : w.Balanced) (hlv : w.live now = w.entries) :
    w.currentUsage now = (w.total, w) := by
  rw [h.currentUsage, expired, hlv, ← h.total]

theorem live_expired : (w.expired now).live now = (w.expired now).entries :=
  filter_eq_self.2 fun _ he => (mem_filter.1 he).2

theorem Balanced.expired (h : w.Balanced) (now : ℕ) : (w.expired now).Balanced :=
  h.of_stamps (filter_sublist.map _)

/-! ## Charges -/

/-- The instant of a charge: not before the last one. -/
def chargeInstant (w : TokenUsageWindow) (now : ℕ) : ℕ := max now (w.lastActivity.getD 0)

/-- **A charge** is added at the back. -/
theorem recordUsage_eq (hid : w.nextReservationId < u64Max) (hs : w.total + tokens ≤ u64Max) :
    w.recordUsage now tokens = (w.nextReservationId, { w with
      nextReservationId := w.nextReservationId + 1
      lastActivity := some (w.chargeInstant now)
      entries := w.entries ++ [⟨w.chargeInstant now, w.nextReservationId, tokens⟩]
      total := w.total + tokens }) := by
  have hi : (match w.lastActivity with
      | some last => if now < last then last else now
      | none => now) = w.chargeInstant now := by
    unfold chargeInstant
    cases w.lastActivity with
    | none => simp
    | some last =>
      dsimp only [Option.getD]
      split_ifs <;> omega
  simp only [recordUsage, allocateId, saturatingAdd, hi, if_pos hid, Nat.min_eq_left hs]

theorem Balanced.recordUsage (h : w.Balanced) (hid : w.nextReservationId < u64Max)
    (hs : w.total + tokens ≤ u64Max) : (w.recordUsage now tokens).2.Balanced := by
  have hls : ∀ e ∈ w.entries, e.instant ≤ w.chargeInstant now := by
    intro e he
    obtain ⟨last, hl, hle⟩ := h.last e he
    unfold chargeInstant
    rw [hl]
    exact hle.trans (Nat.le_max_right _ _)
  rw [recordUsage_eq hid hs]
  refine ⟨?_, ?_, ?_, ?_, ?_⟩
  · simp [h.total]
  · refine pairwise_append.2 ⟨h.sorted, pairwise_singleton _ _, ?_⟩
    intro e he e' he'
    rw [mem_singleton.1 he']
    exact hls e he
  · intro e he
    refine ⟨_, rfl, ?_⟩
    rcases mem_append.1 he with he | he
    · exact hls e he
    · rw [mem_singleton.1 he]
  · refine pairwise_append.2 ⟨h.ids, pairwise_singleton _ _, ?_⟩
    intro e he e' he'
    rw [mem_singleton.1 he']
    exact h.fresh e he
  · exact forall_mem_append.2 ⟨fun e he => (h.fresh e he).trans (Nat.lt_succ_self _),
      forall_mem_singleton.2 (Nat.lt_succ_self _)⟩

/-! ## Corrections -/

/-- An entry after a correction of the reservation `id`; it is gone when nothing is left of it. -/
def corrected (id : ℕ) (delta : ℤ) (e : TokenEntry) : Option TokenEntry :=
  if e.id = id ∧ delta ≠ 0 then
    if (e.tokens + delta).toNat = 0 then none
    else some { e with tokens := (e.tokens + delta).toNat }
  else some e

theorem correctTokens_eq (h : tokens + delta.toNat ≤ u64Max) :
    correctTokens tokens delta = (tokens + delta).toNat := by
  unfold correctTokens saturatingAdd
  split_ifs with hpos
  · rw [Nat.min_eq_left h]
    omega
  · omega

theorem filterMap_corrected (delta : ℤ) (h : ∀ e ∈ es, e.id ≠ id) :
    es.filterMap (corrected id delta) = es := by
  have hs : ∀ e ∈ es, corrected id delta e = some e := fun e he =>
    if_neg fun hid => h e he hid.1
  rw [filterMap_congr hs, filterMap_some]

theorem corrected_zero (id : ℕ) (es : List TokenEntry) : es.filterMap (corrected id 0) = es := by
  have hs : ∀ e ∈ es, corrected id 0 e = some e := fun e _ => if_neg fun h => h.2 rfl
  rw [filterMap_congr hs, filterMap_some]

theorem stamps_corrected (id : ℕ) (delta : ℤ) (es : List TokenEntry) :
    (stamps (es.filterMap (corrected id delta))).Sublist (stamps es) := by
  induction es with
  | nil => exact .slnil
  | cons e es ih =>
    rw [filterMap_cons]
    unfold corrected
    split_ifs
    · exact ih.cons _
    · exact ih.cons_cons _
    · exact ih.cons_cons _

theorem correctEntry_none (delta : ℤ) (h : ∀ e ∈ es, e.id ≠ id) :
    correctEntry id delta es = none := by
  induction es with
  | nil => rfl
  | cons e es ih =>
    unfold correctEntry
    rw [if_neg (h e (mem_cons_self ..)), ih fun e' he' => h e' (mem_cons_of_mem e he')]
    rfl

theorem correctEntry_append (delta : ℤ) {xs : List TokenEntry} (ys : List TokenEntry)
    (hxs : ∀ x ∈ xs, x.id ≠ id) (hid : e.id = id) :
    correctEntry id delta (xs ++ e :: ys) = some (e.tokens, correctTokens e.tokens delta,
      xs ++ { e with tokens := correctTokens e.tokens delta } :: ys) := by
  induction xs with
  | nil =>
    rw [nil_append, correctEntry, if_pos hid]
    rfl
  | cons x xs ih =>
    rw [cons_append, correctEntry, if_neg (hxs x (mem_cons_self ..)),
      ih fun x' hx' => hxs x' (mem_cons_of_mem x hx')]
    rfl

/-- Around an entry no other one has its identifier. -/
theorem split_id (hi : es.Pairwise fun e e' => e.id < e'.id) (he : e ∈ es) (hid : e.id = id) :
    ∃ xs ys, es = xs ++ e :: ys ∧ (∀ x ∈ xs, x.id ≠ id) ∧ ∀ y ∈ ys, y.id ≠ id := by
  obtain ⟨xs, ys, rfl⟩ := append_of_mem he
  rw [pairwise_append, pairwise_cons] at hi
  obtain ⟨-, ⟨hys, -⟩, hxs⟩ := hi
  refine ⟨xs, ys, rfl, fun x hx => ?_, fun y hy => ?_⟩
  · have := hxs x hx e (mem_cons_self ..)
    omega
  · have := hys y hy
    omega

/-- What a correction finds and makes of the entries. -/
theorem correctEntry_spec (hi : es.Pairwise fun e e' => e.id < e'.id) (he : e ∈ es)
    (hid : e.id = id) (hd : delta ≠ 0) (hft : e.tokens + delta.toNat ≤ u64Max) :
    ∃ es', correctEntry id delta es = some (e.tokens, (e.tokens + delta).toNat, es') ∧
      (if (e.tokens + delta).toNat = 0 then es'.filter (·.id ≠ id) else es') =
        es.filterMap (corrected id delta) ∧
      tokenSum (es.filterMap (corrected id delta)) + e.tokens =
        tokenSum es + (e.tokens + delta).toNat := by
  obtain ⟨xs, ys, rfl, hxs, hys⟩ := split_id hi he hid
  have hf := correctEntry_append delta ys hxs hid
  rw [correctTokens_eq hft] at hf
  have hm : (xs ++ e :: ys).filterMap (corrected id delta) =
      xs ++ ((corrected id delta e).toList ++ ys) := by
    rw [filterMap_append, filterMap_cons, filterMap_corrected delta hxs,
      filterMap_corrected delta hys]
    cases corrected id delta e <;> rfl
  have hk (l : List TokenEntry) (hl : ∀ x ∈ l, x.id ≠ id) : l.filter (·.id ≠ id) = l :=
    filter_eq_self.2 fun x hx => decide_eq_true (hl x hx)
  refine ⟨_, hf, ?_⟩
  rw [hm]
  by_cases hz : (e.tokens + delta).toNat = 0
  · have hgn : corrected id delta e = none := by
      unfold corrected
      rw [if_pos ⟨hid, hd⟩, if_pos hz]
    rw [if_pos hz, hgn, filter_append, filter_cons_of_neg (by simp [hid]), hk xs hxs, hk ys hys]
    refine ⟨rfl, ?_⟩
    simp only [Option.toList_none, nil_append, tokenSum_append, tokenSum_cons]
    omega
  · have hs : corrected id delta e = some { e with tokens := (e.tokens + delta).toNat } := by
      unfold corrected
      rw [if_pos ⟨hid, hd⟩, if_neg hz]
    rw [if_neg hz, hs]
    refine ⟨rfl, ?_⟩
    simp only [Option.toList_some, singleton_append, tokenSum_append, tokenSum_cons]
    omega

theorem corrected_total {total previous : ℕ} (newTokens : ℕ) (hle : previous ≤ total)
    (hf : total + newTokens ≤ u64Max + previous) :
    (if previous ≤ newTokens then saturatingAdd total (newTokens - previous)
      else total - (previous - newTokens)) + previous = total + newTokens := by
  unfold saturatingAdd
  split_ifs
  · rw [Nat.min_eq_left (by omega)]
    omega
  · omega

theorem tokenSum_live_le (h : w.Balanced) (now : ℕ) : tokenSum (w.live now) ≤ w.total := by
  rw [h.total]
  exact (filter_sublist.map _).sum_le_sum fun _ _ => Nat.zero_le _

theorem tokens_le_sum (he : e ∈ es) : e.tokens ≤ tokenSum es :=
  single_le_sum (fun _ _ => Nat.zero_le _) _ (mem_map_of_mem he)

/-- **A correction** of a reservation that is there changes its entry only. -/
theorem Balanced.adjustUsage_mem (h : w.Balanced) (hid : id ≠ 0)
    (hs : w.total + delta.toNat ≤ u64Max) (he : e ∈ w.live now) (hed : e.id = id) :
    w.adjustUsage now (some id) delta = { w with
      entries := (w.live now).filterMap (corrected id delta)
      total := tokenSum ((w.live now).filterMap (corrected id delta)) } := by
  unfold adjustUsage
  rw [h.currentUsage]
  by_cases hd : delta = 0
  · simp only [hd, if_true, corrected_zero]
    rfl
  have hlv := tokenSum_live_le h now
  have ht := tokens_le_sum he
  have hi : (w.live now).Pairwise fun e e' => e.id < e'.id := (h.expired now).ids
  obtain ⟨es, hfn, hes, hn⟩ := correctEntry_spec hi he hed hd (by omega)
  have htt := corrected_total (e.tokens + delta).toNat ht (by omega)
  have hf : (some id).filter (· ≠ 0) = some id := by simp [hid]
  simp only [if_neg hd, hf, expired_entries, expired_total, hfn, hes]
  rw [Nat.add_right_cancel (htt.trans hn.symm)]
  rfl

/-- **A correction** of a reservation that is gone: what was used in excess is charged. -/
theorem Balanced.adjustUsage_gone (h : w.Balanced) (hid : id ≠ 0) (delta : ℤ)
    (hgn : ∀ e ∈ w.live now, e.id ≠ id) :
    w.adjustUsage now (some id) delta =
      if 0 < delta then ((w.currentUsage now).2.recordUsage now delta.toNat).2
      else (w.currentUsage now).2 := by
  unfold adjustUsage
  have hf : (some id).filter (· ≠ 0) = some id := by simp [hid]
  rw [h.currentUsage]
  by_cases hd : delta = 0
  · simp [hd]
  · simp only [if_neg hd, hf, expired_entries, correctEntry_none delta hgn]

/-! ## Anonymous releases -/

theorem releaseBack_spec (es : List TokenEntry) (r : ℕ) :
    (releaseBack es r (tokenSum es)).2 = tokenSum (releaseBack es r (tokenSum es)).1 ∧
      (stamps (releaseBack es r (tokenSum es)).1).Sublist (stamps es) := by
  induction es generalizing r with
  | nil => cases r <;> exact ⟨rfl, .slnil⟩
  | cons e es ih =>
    cases r with
    | zero => exact ⟨rfl, List.Sublist.refl _⟩
    | succ r =>
      unfold releaseBack
      split_ifs with hlt
      · refine ⟨?_, List.Sublist.refl _⟩
        simp only [tokenSum_cons]
        omega
      · rw [tokenSum_cons, Nat.add_sub_cancel_left]
        exact ⟨(ih _).1, (ih _).2.cons _⟩

/-- A correction without a reservation keeps the balance. -/
theorem Balanced.adjustUsage_anonymous (h : w.Balanced) (hf : w.nextReservationId < u64Max)
    (hsm : w.total + delta.toNat ≤ u64Max) (hid : reservationId.filter (· ≠ 0) = none) :
    (w.adjustUsage now reservationId delta).Balanced := by
  have hlv := tokenSum_live_le h now
  unfold adjustUsage
  rw [h.currentUsage]
  simp only [hid, expired_entries, expired_total]
  split_ifs
  · exact h.expired now
  · exact (h.expired now).recordUsage hf (by show tokenSum (w.live now) + _ ≤ _; omega)
  · obtain ⟨ht, hs⟩ := releaseBack_spec (w.live now).reverse delta.natAbs
    rw [tokenSum_reverse] at ht hs
    generalize releaseBack (w.live now).reverse delta.natAbs (tokenSum (w.live now)) = r
      at ht hs
    have hr : (stamps r.1.reverse).Sublist (stamps (w.live now)) := by
      simpa [stamps, map_reverse] using hs.reverse
    have hb := (h.expired now).of_stamps hr
    rw [tokenSum_reverse, ← ht] at hb
    exact hb

/-! ## Whole operations -/

/-- Same limit and same window. -/
def SameBudget (w w' : TokenUsageWindow) : Prop :=
  w'.limit = w.limit ∧ w'.windowDuration = w.windowDuration

theorem sameBudget_currentUsage (w : TokenUsageWindow) (now : ℕ) :
    SameBudget w (w.currentUsage now).2 := by
  unfold currentUsage
  split
  · exact ⟨rfl, rfl⟩
  · exact ⟨rfl, rfl⟩

theorem SameBudget.trans {w w' w'' : TokenUsageWindow} (h : SameBudget w w')
    (h' : SameBudget w' w'') : SameBudget w w'' :=
  ⟨h'.1.trans h.1, h'.2.trans h.2⟩

theorem sameBudget_adjustUsage : SameBudget w (w.adjustUsage now reservationId delta) := by
  refine (sameBudget_currentUsage w now).trans ?_
  unfold adjustUsage
  generalize (w.currentUsage now).2 = w
  dsimp only
  split_ifs
  · exact ⟨rfl, rfl⟩
  · split
    · split
      · exact ⟨rfl, rfl⟩
      · exact ⟨rfl, rfl⟩
    · exact ⟨rfl, rfl⟩
  · split
    · split
      · exact ⟨rfl, rfl⟩
      · exact ⟨rfl, rfl⟩
    · exact ⟨rfl, rfl⟩

/-- The usage that is reported after an operation expires nothing more. -/
theorem Balanced.remaining (h : w.Balanced) :
    ((w.currentUsage now).2.remaining now).2 = (w.currentUsage now).2 := by
  rw [h.currentUsage]
  unfold TokenUsageWindow.remaining
  rw [(h.expired now).currentUsage_of_live live_expired]

end TokenUsageWindow

/-- What an operation may add to the sum. -/
def AiRateLimitOp.charge : AiRateLimitOp → ℕ
  | .checkBudget => 0
  | .reserve tokens => tokens
  | .adjustUsage _ reservationBackend actualTokens delta =>
    if reservationBackend = .redis then actualTokens else delta.toNat

/-- Neither the sum nor the identifiers overflow. -/
def NoOverflow (w : TokenUsageWindow) (op : AiRateLimitOp) : Prop :=
  w.nextReservationId < u64Max ∧ w.total + op.charge ≤ u64Max

instance (w : TokenUsageWindow) (op : AiRateLimitOp) : Decidable (NoOverflow w op) :=
  inferInstanceAs (Decidable (_ ∧ _))

namespace AiTokenRateAlgorithm
variable {alg : AiTokenRateAlgorithm} {w : TokenUsageWindow} {now : ℕ}

open TokenUsageWindow

/-- The window after an adjustment, before usage is reported. -/
def adjusted (w : TokenUsageWindow) (reservationId : Option ℕ)
    (reservationBackend : ReservationBackend) (actualTokens : ℕ) (delta : ℤ) (now : ℕ) :
    TokenUsageWindow :=
  if reservationBackend = .redis then
    if 0 < actualTokens then (w.recordUsage now actualTokens).2 else (w.currentUsage now).2
  else w.adjustUsage now reservationId delta

variable {actualTokens id : ℕ} {delta : ℤ}

theorem adjusted_balanced (now : ℕ) {reservationId : Option ℕ}
    {reservationBackend : ReservationBackend} (h : w.Balanced)
    (hf : NoOverflow w (.adjustUsage reservationId reservationBackend actualTokens delta)) :
    (adjusted w reservationId reservationBackend actualTokens delta now).Balanced := by
  obtain ⟨hid, hs⟩ := hf
  simp only [AiRateLimitOp.charge] at hs
  unfold adjusted
  split_ifs with hrd hpos
  · rw [if_pos hrd] at hs
    exact h.recordUsage hid hs
  · rw [h.currentUsage]
    exact h.expired now
  · rw [if_neg hrd] at hs
    cases hr : reservationId.filter (· ≠ 0) with
    | none => exact h.adjustUsage_anonymous hid hs hr
    | some id =>
      obtain ⟨rfl, hne⟩ := Option.filter_eq_some_iff.1 hr
      have hne : id ≠ 0 := by simpa using hne
      by_cases hm : ∃ e ∈ w.live now, e.id = id
      · obtain ⟨e, he, hed⟩ := hm
        rw [h.adjustUsage_mem hne hs he hed]
        exact (h.expired now).of_stamps (stamps_corrected id delta (w.live now))
      · have hgn : ∀ e ∈ w.live now, e.id ≠ id := fun e he hed => hm ⟨e, he, hed⟩
        rw [h.adjustUsage_gone hne delta hgn, h.currentUsage]
        have hlv := tokenSum_live_le h now
        split_ifs
        · exact (h.expired now).recordUsage hid (by show tokenSum (w.live now) + _ ≤ _; omega)
        · exact h.expired now

/-- **One operation** keeps the balance. -/
theorem checkLocal_balanced (alg : AiTokenRateAlgorithm) {op : AiRateLimitOp} (h : w.Balanced)
    (hf : NoOverflow w op) : (alg.checkLocal w op now).2.Balanced := by
  cases op with
  | checkBudget =>
    show ((w.currentUsage now).2.remaining now).2.Balanced
    rw [h.remaining, h.currentUsage]
    exact h.expired now
  | reserve tokens =>
    show (w.reserve now tokens).2.Balanced
    unfold reserve
    rw [h.currentUsage]
    dsimp only
    have hlv := tokenSum_live_le h now
    have hs : w.total + tokens ≤ u64Max := hf.2
    split_ifs
    · exact h.expired now
    · exact (h.expired now).recordUsage hf.1
        (by show tokenSum (w.live now) + _ ≤ _; omega)
  | adjustUsage reservationId reservationBackend actualTokens delta =>
    show (((adjusted w reservationId reservationBackend actualTokens delta now).currentUsage
      now).2.remaining now).2.Balanced
    have ha := adjusted_balanced now h hf
    rw [ha.remaining, ha.currentUsage]
    exact ha.expired now

theorem checkLocal_sameBudget (alg : AiTokenRateAlgorithm) (op : AiRateLimitOp) :
    SameBudget w (alg.checkLocal w op now).2 := by
  have hr (w : TokenUsageWindow) :
      SameBudget w ((w.currentUsage now).2.remaining now).2 :=
    (sameBudget_currentUsage w now).trans (sameBudget_currentUsage _ now)
  cases op with
  | checkBudget => exact hr w
  | reserve tokens =>
    refine (sameBudget_currentUsage w now).trans ?_
    show SameBudget _ (w.reserve now tokens).2
    unfold reserve
    dsimp only
    split_ifs
    · exact ⟨rfl, rfl⟩
    · exact ⟨rfl, rfl⟩
  | adjustUsage reservationId reservationBackend actualTokens delta =>
    refine SameBudget.trans ?_
      (hr (adjusted w reservationId reservationBackend actualTokens delta now))
    unfold adjusted
    split_ifs
    · exact ⟨rfl, rfl⟩
    · exact sameBudget_currentUsage w now
    · exact sameBudget_adjustUsage

/-- The next state in a history of operations, each at its instant. -/
def step (alg : AiTokenRateAlgorithm) (w : TokenUsageWindow) (a : ℕ × AiRateLimitOp) :
    Option TokenUsageWindow :=
  some (alg.checkLocal w a.2 a.1).2

/-- What holds of a window after every history. -/
theorem balanced_of_reach
    (hr : Reach alg.step (fun w a => NoOverflow w a.2) alg.newState w) :
    w.Balanced ∧ SameBudget alg.newState w := by
  refine hr.inv (I := fun w => w.Balanced ∧ SameBudget alg.newState w)
    ⟨.new .., rfl, rfl⟩ ?_
  rintro x ⟨now, op⟩ y - ⟨hx, hs⟩ hf hst
  cases hst
  exact ⟨alg.checkLocal_balanced hx hf, hs.trans (alg.checkLocal_sameBudget op)⟩

/-- **Admission**: a reservation that fits is charged. -/
theorem checkLocal_reserve {tokens : ℕ} (h : w.Balanced) (hf : NoOverflow w (.reserve tokens)) :
    let r := alg.checkLocal w (.reserve tokens) now
    (r.1.allowed = true ↔ tokenSum (w.live now) + tokens ≤ w.limit) ∧
      r.2.entries = if r.1.allowed then
        w.live now ++ [⟨w.chargeInstant now, w.nextReservationId, tokens⟩] else w.live now := by
  have hlv := tokenSum_live_le h now
  have hs : w.total + tokens ≤ u64Max := hf.2
  have hs' : (w.expired now).total + tokens ≤ u64Max := by
    rw [expired_total]
    omega
  intro r
  have hr : w.reserve now tokens = r := rfl
  unfold reserve saturatingAdd at hr
  rw [h.currentUsage] at hr
  dsimp only at hr
  rw [Nat.min_eq_left (by omega), recordUsage_eq (w := w.expired now) hf.1 hs'] at hr
  clear_value r
  split_ifs at hr with ho <;> subst hr
  · exact ⟨by simpa using ho, rfl⟩
  · exact ⟨by simpa using ho, rfl⟩

/-- **A correction by its identifier**: what is left of the entry, or a charge for the excess. -/
theorem checkLocal_adjust (hid : id ≠ 0) {backend : ReservationBackend} (hbc : backend ≠ .redis)
    (h : w.Balanced) (hf : NoOverflow w (.adjustUsage (some id) backend actualTokens delta)) :
    (alg.checkLocal w (.adjustUsage (some id) backend actualTokens delta) now).2.entries =
      if (w.live now).any (·.id = id) then (w.live now).filterMap (corrected id delta)
      else if 0 < delta then
        w.live now ++ [⟨w.chargeInstant now, w.nextReservationId, delta.toNat⟩]
      else w.live now := by
  have hb := adjusted_balanced now h hf
  show (((adjusted w (some id) backend actualTokens delta now).currentUsage
    now).2.remaining now).2.entries = _
  rw [hb.remaining, hb.currentUsage]
  obtain ⟨hfr, hs⟩ := hf
  simp only [AiRateLimitOp.charge, if_neg hbc] at hs
  have hlv := tokenSum_live_le h now
  have hmem_live : ∀ e ∈ w.live now, now ≤ e.instant + w.windowDuration := fun e he =>
    of_decide_eq_true (mem_filter.1 he).2
  dsimp only
  unfold adjusted
  rw [if_neg hbc]
  by_cases hm : ∃ e ∈ w.live now, e.id = id
  · obtain ⟨e, he, hed⟩ := hm
    rw [if_pos (any_eq_true.2 ⟨e, he, decide_eq_true hed⟩), h.adjustUsage_mem hid hs he hed]
    refine filter_eq_self.2 fun x hx => decide_eq_true ?_
    obtain ⟨y, hy, hyx⟩ := mem_filterMap.1 hx
    have hi : x.instant = y.instant := by
      unfold corrected at hyx
      split_ifs at hyx <;> cases hyx <;> rfl
    have := hmem_live y hy
    dsimp only
    omega
  · have hgn : ∀ e ∈ w.live now, e.id ≠ id := fun e he hed => hm ⟨e, he, hed⟩
    rw [if_neg (by simpa using hgn), h.adjustUsage_gone hid delta hgn, h.currentUsage]
    split_ifs with hpos
    · have hs' : (w.expired now).total + delta.toNat ≤ u64Max := by
        rw [expired_total]
        omega
      rw [recordUsage_eq (w := w.expired now) hfr hs']
      refine filter_eq_self.2 fun x hx => decide_eq_true ?_
      exact forall_mem_append.2 ⟨hmem_live, forall_mem_singleton.2
        ((Nat.le_max_left _ _).trans (Nat.le_add_right _ _))⟩ x hx
    · exact live_expired

/-- Entries of other reservations are as they were. -/
theorem others_kept {es : List TokenEntry} {e : TokenEntry} (he : e.id ≠ id) :
    e ∈ es.filterMap (corrected id delta) ↔ e ∈ es := by
  rw [mem_filterMap]
  constructor
  · rintro ⟨x, hx, hxe⟩
    unfold corrected at hxe
    split_ifs at hxe with h
    · cases hxe
      exact absurd h.1 he
    · cases hxe
      exact hx
  · intro hm
    exact ⟨e, hm, if_neg fun h => he h.1⟩

end AiTokenRateAlgorithm

open TokenUsageWindow in
/-- **Accounting.**  After every history the sum is that of the entries, which are in the order of
    time; a reservation is admitted, and charged, iff it fits beside the entries in the window; and a
    correction by identifier leaves every other reservation in the window as it was. -/
theorem token_window_accounting {alg : AiTokenRateAlgorithm} {w : TokenUsageWindow}
    (hr : Reach alg.step (fun w a => NoOverflow w a.2) alg.newState w) :
    (w.total = tokenSum w.entries ∧
      w.entries.Pairwise fun e e' => e.instant ≤ e'.instant) ∧
    (∀ now tokens, NoOverflow w (.reserve tokens) →
      let live := w.entries.filter fun e =>
        now ≤ e.instant + max alg.windowSeconds 1 * nanosPerSec
      let r := alg.checkLocal w (.reserve tokens) now
      (r.1.allowed = true ↔ tokenSum live + tokens ≤ alg.tokenLimit) ∧
      r.2.entries = if r.1.allowed then
        live ++ [⟨w.chargeInstant now, w.nextReservationId, tokens⟩] else live) ∧
    ∀ now id backend actualTokens delta, id ≠ 0 → backend ≠ .redis →
      NoOverflow w (.adjustUsage (some id) backend actualTokens delta) →
      let live := w.entries.filter fun e =>
        now ≤ e.instant + max alg.windowSeconds 1 * nanosPerSec
      let w' := (alg.checkLocal w (.adjustUsage (some id) backend actualTokens delta) now).2
      ((∃ e ∈ live, e.id = id) → w'.entries = live.filterMap (corrected id delta)) ∧
      ((∀ e ∈ live, e.id ≠ id) → 0 < delta →
        w'.entries = live ++ [⟨w.chargeInstant now, w.nextReservationId, delta.toNat⟩]) ∧
      ((∀ e ∈ live, e.id ≠ id) → delta ≤ 0 → w'.entries = live) ∧
      ∀ e, e.id ≠ id → e.id < w.nextReservationId → (e ∈ w'.entries ↔ e ∈ live) := by
  obtain ⟨hb, hlm, hd⟩ := balanced_of_reach hr
  have hlm : w.limit = alg.tokenLimit := hlm
  have hd : w.windowDuration = max alg.windowSeconds 1 * nanosPerSec := hd
  rw [← hlm, ← hd]
  refine ⟨⟨hb.total, hb.sorted⟩, fun now tokens hf =>
    checkLocal_reserve hb hf, ?_⟩
  intro now id backend actualTokens delta hid hbc hf live w'
  have hen : w'.entries = _ :=
    checkLocal_adjust hid hbc hb hf
  change w'.entries = if live.any _ then live.filterMap _ else if 0 < delta then live ++ _ else live
    at hen
  by_cases hm : ∃ e ∈ live, e.id = id
  · rw [if_pos (by simpa using hm)] at hen
    have ht (hgn : ∀ e ∈ live, e.id ≠ id) : False :=
      let ⟨e, he, hed⟩ := hm
      hgn e he hed
    refine ⟨fun _ => hen, fun hgn => (ht hgn).elim, fun hgn => (ht hgn).elim,
      fun e hed _ => ?_⟩
    rw [hen]
    exact others_kept hed
  · rw [if_neg (by simpa using hm)] at hen
    refine ⟨fun h => absurd h hm, fun _ hpos => ?_, fun _ hng => ?_, fun e hed hold => ?_⟩
    · rw [hen, if_pos hpos]
    · rw [hen, if_neg (by omega)]
    · rw [hen]
      split_ifs
      · -- the charge has an identifier of its own
        have hn : e ≠ ⟨w.chargeInstant now, w.nextReservationId, delta.toNat⟩ := by
          rintro rfl
          exact absurd hold (Nat.lt_irrefl _)
        simp [hn]
      · rfl

/-- A reservation that is corrected upwards, and another one that is released. -/
def twoRequests : List (ℕ × AiRateLimitOp) :=
  [(70 * nanosPerSec, .reserve 40), (65 * nanosPerSec, .reserve 30),
    (71 * nanosPerSec, .adjustUsage (some 1) .inMemory 55 15),
    (72 * nanosPerSec, .adjustUsage (some 2) .inMemory 0 (-30))]

theorem twoRequests_isSome :
    (exec (guarded (fun w a => NoOverflow w a.2) (AiTokenRateAlgorithm.new 100 60).step)
      (AiTokenRateAlgorithm.new 100 60).newState twoRequests).isSome := by
  decide +kernel

/-- One entry is left, and a reservation of 45 tokens still fits. -/
theorem twoRequests_accounted :
    ∃ w : TokenUsageWindow, w.entries = [⟨70 * nanosPerSec, 1, 55⟩] ∧ w.total = tokenSum w.entries ∧
      (((AiTokenRateAlgorithm.new 100 60).checkLocal w (.reserve 45)
        (73 * nanosPerSec)).1.allowed = true) := by
  have ha := token_window_accounting (reach_guarded twoRequests_isSome)
  refine ⟨_, by decide +kernel, ha.1.1, ?_⟩
  exact (ha.2.1 (73 * nanosPerSec) 45 (by decide +kernel)).1.2 (by decide +kernel)

end Ferrum.RateLimit
