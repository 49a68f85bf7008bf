/-
  Where the scanner of an HTTP/1 connection is in a stream of requests.

  * `At`: the state of the scanner after `n` bytes of the stream.
  * `Next`: one byte, and the decision that is published at it.
  * `At.next`: a byte of the stream keeps the scanner at its position, and the decisions are those of
    the requests in their order.
  * `Next.observe`: a read takes its first byte in that way.
-/
import Ferrum.Framing.Heads
import Ferrum.Framing.Bodies

namespace Ferrum.Framing

open Lib HeadScanner H1StreamScanner

variable {max : ℕ}

/-- The state of the scanner after `n` bytes of the body. -/
def Request.BodyAt (r : Request max) (n : ℕ) (state : H1State) : Prop :=
  if r.head.hasTransferEncoding then
    ∃ c, state = .chunked c ∧ feed ChunkedScanner.feedByte {} (r.body.take n) = .more c
  else state = .fixedBody (r.body.length - n)

/-- The state of the scanner after `n` bytes of the requests. -/
def At : List (Request max) → ℕ → H1State → Prop
  | [], n, state => n = 0 ∧ state = .head { maxBytes := max }
  | r :: rs, n, state =>
    if n < r.head.bytes.length then
      ∃ h, state = .head h ∧
        feed feedByte { maxBytes := max } (r.head.bytes.take n) = .more h
    else if n < r.bytes.length then r.BodyAt (n - r.head.bytes.length) state
    else At rs (n - r.bytes.length) state

/-- One byte, and the decision that is published at it. -/
inductive Next (s : H1StreamScanner) (b : UInt8) : Option Bool → H1State → Prop
  | head {h h' : HeadScanner} : s.state = .head h → h.feedByte b = .more h' → Next s b none (.head h')
  | complete {h : HeadScanner} {conflict : Bool} {framing : BodyFraming} : s.state = .head h →
      h.feedByte b = .done ⟨conflict, framing⟩ → framing ≠ .invalid →
      Next s b (some conflict) (s.bodyState true framing)
  | fixed {remaining : ℕ} : s.state = .fixedBody (remaining + 1) →
      Next s b none (s.fixedState remaining)
  | chunk {c c' : ChunkedScanner} : s.state = .chunked c → c.feedByte b = .more c' →
      Next s b none (.chunked c')
  | chunksDone {c : ChunkedScanner} : s.state = .chunked c → c.feedByte b = .done () →
      Next s b none s.newHead

/-! ## The position in the stream -/

theorem RequestHead.bytes_pos (h : RequestHead) : 0 < h.bytes.length := by
  have : 0 < h.ending.bytes.length := by cases h.ending <;> decide
  rw [RequestHead.bytes, List.length_append]
  omega

theorem length_bytes (r : Request max) : r.bytes.length = r.head.bytes.length + r.body.length :=
  List.length_append

theorem at_zero (requests : List (Request max)) : At requests 0 (.head { maxBytes := max }) := by
  cases requests with
  | nil => exact ⟨rfl, rfl⟩
  | cons r rs =>
    rw [At, if_pos r.head.bytes_pos]
    exact ⟨_, rfl, rfl⟩

theorem headsWithin_zero (requests : List (Request max)) : headsWithin requests 0 = 0 := by
  cases requests with
  | nil => rfl
  | cons r rs => exact if_neg (Nat.not_le.2 r.head.bytes_pos)

theorem headsWithin_mono (requests : List (Request max)) {m n : ℕ} (h : m ≤ n) :
    headsWithin requests m ≤ headsWithin requests n := by
  induction requests generalizing m n with
  | nil => exact le_rfl
  | cons r rs ih =>
    rw [headsWithin, headsWithin]
    split_ifs with hm hn
    · exact Nat.add_le_add_right (ih (Nat.sub_le_sub_right h _)) 1
    · exact absurd (hm.trans h) hn
    · exact Nat.zero_le _
    · exact le_rfl

theorem headsWithin_le_length (requests : List (Request max)) (n : ℕ) :
    headsWithin requests n ≤ requests.length := by
  induction requests generalizing n with
  | nil => exact le_rfl
  | cons r rs ih =>
    rw [headsWithin]
    split_ifs
    · exact Nat.add_le_add_right (ih _) 1
    · exact Nat.zero_le _

variable {requests : List (Request max)} {observed : HeadObserved}

theorem At.not_disabled {n : ℕ} {state : H1State} (h : At requests n state) :
    state.isDisabled = false := by
  induction requests generalizing n with
  | nil =>
    obtain ⟨-, rfl⟩ := h
    rfl
  | cons r rs ih =>
    rw [At] at h
    split_ifs at h
    · obtain ⟨h, rfl, -⟩ := h
      rfl
    · rw [Request.BodyAt] at h
      split_ifs at h
      · obtain ⟨c, rfl, -⟩ := h
        rfl
      · rw [h]
        rfl
    · exact ih h

/-- What one byte of the stream does at position `n`. -/
def Advances (requests : List (Request max)) (n : ℕ) (s : H1StreamScanner) (b : UInt8) : Prop :=
  ∃ published state', Next s b published state' ∧ At requests (n + 1) state' ∧
    headsWithin requests (n + 1) = headsWithin requests n + published.toList.length ∧
    ∀ conflict ∈ published,
      requests[headsWithin requests n]?.map Request.conflict = some conflict

variable {r : Request max} {rs : List (Request max)} {n : ℕ} {s : H1StreamScanner} {b : UInt8}

theorem headsWithin_head (hn : n < r.head.bytes.length) : headsWithin (r :: rs) n = 0 :=
  if_neg (Nat.not_le.2 hn)

theorem headsWithin_body (hh : r.head.bytes.length ≤ n) (hn : n ≤ r.bytes.length) :
    headsWithin (r :: rs) n = 1 := by
  rw [headsWithin, if_pos hh, Nat.sub_eq_zero_of_le hn, headsWithin_zero]

theorem framingOf_valid (head : RequestHead) (length : ℕ) : framingOf head length ≠ .invalid := by
  rw [framingOf]
  split_ifs <;> exact nofun

theorem at_end : At (r :: rs) r.bytes.length (.head { maxBytes := max }) := by
  rw [At, if_neg (Nat.not_lt.2 (by rw [length_bytes]; omega)), if_neg (lt_irrefl _), Nat.sub_self]
  exact at_zero rs

theorem body_pos (he : r.head.hasTransferEncoding = true) : 0 < r.body.length := by
  have hf := r.framed
  rw [if_pos he] at hf
  obtain ⟨body, hb⟩ := hf
  have hd := ChunkedScanner.feed_chunkedBody body
  rw [hb] at hd
  by_contra hem
  rw [List.eq_nil_of_length_eq_zero (Nat.eq_zero_of_not_pos hem)] at hd
  cases hd

/-- After the head, the scanner is at the start of the body. -/
theorem at_body (hmax : s.maxHeadBytes = max) :
    At (r :: rs) r.head.bytes.length
      (s.bodyState true (framingOf r.head r.contentLength)) := by
  have hf := r.framed
  rw [framingOf]
  by_cases he : r.head.hasTransferEncoding = true
  · have hpos := body_pos he
    rw [At, if_neg (lt_irrefl _), if_pos (by rw [length_bytes]; omega), Nat.sub_self, Request.BodyAt,
      if_pos he, if_pos he]
    exact ⟨{}, rfl, rfl⟩
  · rw [if_neg he] at hf ⊢
    rcases Nat.eq_zero_or_pos r.body.length with hem | hpos
    · -- without a body, the next head starts
      have hln : r.head.bytes.length = r.bytes.length := by rw [length_bytes, hem]; rfl
      have hnw : s.bodyState true .none = .head { maxBytes := max } := hmax ▸ rfl
      have hn : (if r.head.hasContentLength then
          (if r.contentLength = 0 then BodyFraming.none else .fixed r.contentLength) else .none) =
          .none := by
        split_ifs at hf ⊢
        · rfl
        · omega
        · rfl
      rw [hn, hln, hnw]
      exact at_end
    · rw [At, if_neg (lt_irrefl _), if_pos (by rw [length_bytes]; omega), Nat.sub_self,
        Request.BodyAt, if_neg he, Nat.sub_zero]
      split_ifs at hf ⊢
      · omega
      · rw [hf]
        rfl
      · omega

theorem At.next_head (hmax : s.maxHeadBytes = max) (hat : At (r :: rs) n s.state)
    (hn : n < r.head.bytes.length) (hb : r.head.bytes[n]? = some b) : Advances (r :: rs) n s b := by
  rw [At, if_pos hn] at hat
  obtain ⟨h, hst, hf⟩ := hat
  rcases feed_take_done (feed_head r.headFits r.lengths) hf hb with
    ⟨hlt, h', hs, hf'⟩ | ⟨heq, hs⟩
  · refine ⟨none, _, .head hst hs, ?_, ?_, nofun⟩
    · rw [At, if_pos hlt]
      exact ⟨h', rfl, hf'⟩
    · rw [headsWithin_head hlt, headsWithin_head hn]
      rfl
  · refine ⟨_, _, .complete hst hs (framingOf_valid _ _), ?_, ?_, ?_⟩
    · rw [heq]
      exact at_body hmax
    · rw [headsWithin_head hn, headsWithin_body heq.ge (by rw [length_bytes]; omega)]
      rfl
    · rintro conflict ⟨⟩
      rw [headsWithin_head hn]
      rfl

theorem At.next_body (hmax : s.maxHeadBytes = max) (hat : At (r :: rs) n s.state)
    (hh : r.head.bytes.length ≤ n) (hn : n < r.bytes.length)
    (hb : r.body[n - r.head.bytes.length]? = some b) : Advances (r :: rs) n s b := by
  have hnw : s.newHead = .head { maxBytes := max } := by rw [newHead, hmax]
  have hhd : headsWithin (r :: rs) (n + 1) = headsWithin (r :: rs) n := by
    rw [headsWithin_body hh hn.le, headsWithin_body (hh.trans (Nat.le_succ n)) hn]
  have hln := length_bytes r
  rw [At, if_neg (Nat.not_lt.2 hh), if_pos hn, Request.BodyAt] at hat
  have hbd : n + 1 < r.bytes.length → ∀ state, r.BodyAt (n + 1 - r.head.bytes.length) state →
      At (r :: rs) (n + 1) state := by
    intro hlt state hs
    rwa [At, if_neg (by omega), if_pos hlt]
  have hen : n + 1 = r.bytes.length → At (r :: rs) (n + 1) s.newHead := by
    intro heq
    rw [heq, hnw]
    exact at_end
  by_cases he : r.head.hasTransferEncoding = true
  · have hf := r.framed
    rw [if_pos he] at hat hf
    obtain ⟨c, hs, hfd⟩ := hat
    obtain ⟨body, hbt⟩ := hf
    have hd := ChunkedScanner.feed_chunkedBody body
    rw [hbt] at hd
    rcases feed_take_done hd hfd hb with ⟨hlt, c', hst, hfd'⟩ | ⟨heq, hst⟩
    · refine ⟨none, _, .chunk hs hst, hbd (by omega) _ ?_, hhd, nofun⟩
      rw [Request.BodyAt, if_pos he]
      exact ⟨c', rfl, by rwa [Nat.sub_add_comm hh]⟩
    · exact ⟨none, _, .chunksDone hs hst, hen (by omega), hhd, nofun⟩
  · rw [if_neg he] at hat
    have hr : r.body.length - (n - r.head.bytes.length) =
        r.bytes.length - (n + 1) + 1 := by omega
    rw [hr] at hat
    refine ⟨none, _, .fixed hat, ?_, hhd, nofun⟩
    rw [fixedState]
    split_ifs with hz
    · exact hen (by omega)
    · refine hbd (by omega) _ ?_
      rw [Request.BodyAt, if_neg he]
      congr 1
      omega

/-- **A byte of the stream** keeps the scanner at its position. -/
theorem At.next (hmax : s.maxHeadBytes = max) (hat : At requests n s.state)
    (hb : (stream requests)[n]? = some b) : Advances requests n s b := by
  induction requests generalizing n with
  | nil => cases hb
  | cons r rs ih =>
    have hln := length_bytes r
    rw [stream, List.flatMap_cons] at hb
    rcases Nat.lt_or_ge n r.bytes.length with hn | hn
    · rw [List.getElem?_append_left hn] at hb
      rcases Nat.lt_or_ge n r.head.bytes.length with hh | hh
      · exact hat.next_head hmax hh (by rwa [Request.bytes, List.getElem?_append_left hh] at hb)
      · exact hat.next_body hmax hh hn
          (by rwa [Request.bytes, List.getElem?_append_right hh] at hb)
    · have hh : r.head.bytes.length ≤ n := by omega
      rw [List.getElem?_append_right hn] at hb
      rw [At, if_neg (Nat.not_lt.2 hh), if_neg (Nat.not_lt.2 hn)] at hat
      obtain ⟨published, state', hnx, hat', hcn, hc⟩ := ih hat hb
      have hs : n + 1 - r.bytes.length = n - r.bytes.length + 1 := by omega
      refine ⟨published, state', hnx, ?_, ?_, ?_⟩
      · rwa [At, if_neg (by omega), if_neg (by omega), hs]
      · rw [headsWithin, headsWithin, if_pos hh, if_pos (by omega), hs, hcn, Nat.add_right_comm]
      · rw [headsWithin, if_pos hh, List.getElem?_cons_succ]
        exact hc

/-! ## Reads -/

theorem fed_more {h : HeadScanner} (hf : fed observed = .more h) :
    observed.step = .continue_ ∧ observed.head = h := by
  rw [fed] at hf
  split at hf
  · next hs => exact ⟨hs, Fed.more.inj hf⟩
  · cases hf
  · cases hf

theorem fed_done {outcome : HeadOutcome} (hf : fed observed = .done outcome) :
    observed.step = .complete outcome := by
  rw [fed] at hf
  split at hf
  · cases hf
  · next hs => exact Fed.done.inj hf ▸ hs
  · cases hf

/-- **A read takes its first byte**; hints may be stored before. -/
theorem Next.observe {published : Option Bool} {state' : H1State} (hn : Next s b published state')
    (signals : H1FramingSignals) : ∃ hints : List UInt8,
      match published with
      | none => ∀ rest, s.observe (b :: rest) signals = { s with state := state' }.observe rest
          (hints.foldl H1FramingSignals.storeParseRejectHint signals)
      | some conflict =>
        ((hints.foldl H1FramingSignals.storeParseRejectHint signals).push conflict).2 = true →
        ∀ rest, s.observe (b :: rest) signals = { s with state := state' }.observe rest
          ((hints.foldl H1FramingSignals.storeParseRejectHint signals).push conflict).1 := by
  cases hn with
  | @head h h' hs hf =>
    obtain ⟨hst, rfl⟩ := fed_more hf
    exact ⟨(h.observe b).hints, fun _ => observe_head hs hst⟩
  | @complete h conflict framing hs hf hv =>
    exact ⟨(h.observe b).hints, fun hp _ =>
      observe_complete hs (fed_done hf) hv hp⟩
  | fixed hs => exact ⟨[], fun _ => observe_fixed hs⟩
  | chunk hs hf => exact ⟨[], fun _ => observe_chunk hs hf⟩
  | chunksDone hs hf => exact ⟨[], fun _ => observe_chunks_done hs hf⟩

end Ferrum.Framing
