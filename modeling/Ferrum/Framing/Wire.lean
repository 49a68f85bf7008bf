/-
  The scanner of a connection.

  * `H1StreamScanner.observe`: a read of an HTTP/1 connection; a head is scanned, its decision is
    published, and its body is skipped.
  * `WireScanner.observe`: a read, before and after it is known whether the connection is HTTP/1.
  * `observe_head`, `observe_complete`, `observe_fixed`, `observe_chunk`, `observe_chunks_done`: how
    the first byte of a read is taken, so that a read is one byte after the other.
-/
import Ferrum.Framing.Head
import Ferrum.Framing.Chunked

namespace Ferrum.Framing

open Lib List

/-! ## Requests on the wire -/

inductive H1State where
  | head (h : HeadScanner)
  | fixedBody (remaining : ℕ)
  | chunked (c : ChunkedScanner)
  | disabled

def H1State.isDisabled : H1State → Bool
  | .disabled => true
  | _ => false

/-- A fixed body may have no byte left to take. -/
def H1State.rank : H1State → ℕ
  | .fixedBody _ => 1
  | _ => 0

theorem H1State.rank_lt {state state' : H1State} {m n : ℕ} (h : m < n) :
    2 * m + state.rank < 2 * n + state'.rank := by
  have : state.rank ≤ 1 := by cases state <;> simp [H1State.rank]
  omega

theorem ChunkedScanner.observe_pos (c : ChunkedScanner) {bytes : Bytes} (hne : bytes ≠ []) :
    0 < (c.observe bytes).2.1 := by
  have hn : ∀ c : ChunkedScanner, (∀ remaining, c.state ≠ .data remaining) →
      ∀ b rest, 0 < (c.observe (b :: rest)).2.1 := by
    intro c hs b rest
    rw [observe_next hs]
    split
    · rw [ahead]
      exact Nat.add_pos_left Nat.one_pos _
    · exact Nat.one_pos
    · exact Nat.one_pos
  obtain ⟨b, rest, rfl⟩ := exists_cons_of_ne_nil hne
  by_cases hd : ∃ remaining, c.state = .data remaining
  · obtain ⟨remaining, hs⟩ := hd
    rw [observe_data hs hne]
    cases remaining with
    | zero =>
      rw [Nat.min_zero, ahead_zero]
      exact hn (c.skipData 0) (fun _ => nofun) b rest
    | succ remaining =>
      rw [ahead, length_cons, Nat.add_min_add_right]
      exact Nat.add_pos_left (Nat.succ_pos _) _
  · exact hn c (not_exists.1 hd) b rest

structure H1StreamScanner where
  state : H1State
  maxHeadBytes : ℕ

namespace H1StreamScanner

def newHead (s : H1StreamScanner) : H1State := .head { maxBytes := s.maxHeadBytes }

def new (maxHeadBytes : ℕ) : H1StreamScanner :=
  ⟨.head { maxBytes := maxHeadBytes }, maxHeadBytes⟩

/-- The state after a head, and whether its decision was published. -/
def bodyState (s : H1StreamScanner) (pushed : Bool) (framing : BodyFraming) : H1State :=
  if pushed then
    match framing with
    | .none => s.newHead
    | .fixed length => .fixedBody length
    | .chunked => .chunked {}
    | .invalid => .disabled
  else .disabled

/-- The state after some of a fixed body. -/
def fixedState (s : H1StreamScanner) (remaining : ℕ) : H1State :=
  if remaining = 0 then s.newHead else .fixedBody remaining

/-- The state after some of a chunked body. -/
def chunkedState (s : H1StreamScanner) (c : ChunkedScanner) : ChunkStep → H1State
  | .continue_ => .chunked c
  | .complete => s.newHead
  | .disable => .disabled

/-- Hyper rejects the head before it is dispatched. -/
def rejectedHead (outcome : HeadOutcome) (signals : H1FramingSignals) : Prop :=
  outcome.framing = .invalid ∧
    signals.parseRejectHint &&& ~~~parseHintPriorHead = parseHintConflictingContentLength

instance (outcome : HeadOutcome) (signals : H1FramingSignals) :
    Decidable (rejectedHead outcome signals) :=
  inferInstanceAs (Decidable (_ ∧ _))

/-- The scanner and the signals after a read, and whether the observation goes on. -/
def observe (s : H1StreamScanner) (bytes : Bytes) (signals : H1FramingSignals) :
    H1StreamScanner × H1FramingSignals × Bool :=
  match bytes with
  | [] => (s, signals, !s.state.isDisabled)
  | b :: rest =>
    match _hstate : s.state with
    | .head h =>
      let observed := h.observe b
      let signals := observed.hints.foldl H1FramingSignals.storeParseRejectHint signals
      match observed.step with
      | .continue_ => { s with state := .head observed.head }.observe rest signals
      | .complete outcome =>
        if rejectedHead outcome signals then
          ({ s with state := .disabled }, signals.disableObservation, true)
        else
          let pushed := signals.push outcome.conflict
          { s with state := s.bodyState pushed.2 outcome.framing }.observe rest pushed.1
      | .disable => { s with state := .disabled }.observe rest signals
    | .fixedBody remaining =>
      let consumed := min (b :: rest).length remaining
      { s with state := s.fixedState (remaining - consumed) }.observe
        ((b :: rest).drop consumed) signals
    | .chunked c =>
      let observed := c.observe (b :: rest)
      { s with state := s.chunkedState observed.1 observed.2.2 }.observe
        ((b :: rest).drop observed.2.1) signals
    | .disabled => (s, signals, false)
termination_by 2 * bytes.length + s.state.rank
decreasing_by
  · exact H1State.rank_lt (Nat.lt_succ_self _)
  · exact H1State.rank_lt (Nat.lt_succ_self _)
  · exact H1State.rank_lt (Nat.lt_succ_self _)
  · simp only [_hstate, H1State.rank, length_drop, length_cons, fixedState]
    split_ifs with h
    · simp only [newHead]; omega
    · simp only; omega
  · refine H1State.rank_lt ?_
    have := c.observe_pos (cons_ne_nil b rest)
    simp only [length_drop, length_cons]
    omega

/-! ## One byte after the other -/

variable {s : H1StreamScanner} {signals : H1FramingSignals} {b : UInt8} {rest : Bytes}

variable {h : HeadScanner} {remaining : ℕ} {c : ChunkedScanner}

theorem observe_head (hs : s.state = .head h) (hst : (h.observe b).step = .continue_) :
    s.observe (b :: rest) signals = { s with state := .head (h.observe b).head }.observe rest
      ((h.observe b).hints.foldl H1FramingSignals.storeParseRejectHint signals) := by
  obtain ⟨state, max⟩ := s
  cases hs
  rw [observe]
  simp only [hst]

theorem observe_complete {outcome : HeadOutcome} (hs : s.state = .head h)
    (hst : (h.observe b).step = .complete outcome) (hv : outcome.framing ≠ .invalid)
    (hp : (((h.observe b).hints.foldl H1FramingSignals.storeParseRejectHint signals).push
      outcome.conflict).2 = true) :
    s.observe (b :: rest) signals = { s with state := s.bodyState true outcome.framing }.observe rest
      (((h.observe b).hints.foldl H1FramingSignals.storeParseRejectHint signals).push
        outcome.conflict).1 := by
  obtain ⟨state, max⟩ := s
  cases hs
  rw [observe]
  simp only [hst]
  rw [if_neg fun h => hv h.1, hp]

theorem observe_fixedBody {bytes : Bytes} (hs : s.state = .fixedBody remaining) (hne : bytes ≠ []) :
    s.observe bytes signals =
      { s with state := s.fixedState (remaining - min bytes.length remaining) }.observe
        (bytes.drop (min bytes.length remaining)) signals := by
  obtain ⟨b, rest, rfl⟩ := exists_cons_of_ne_nil hne
  obtain ⟨state, max⟩ := s
  cases hs
  rw [observe]

theorem observe_fixed (hs : s.state = .fixedBody (remaining + 1)) :
    s.observe (b :: rest) signals =
      { s with state := s.fixedState remaining }.observe rest signals := by
  rw [observe_fixedBody hs (cons_ne_nil _ _), length_cons, Nat.add_min_add_right,
    Nat.add_sub_add_right, drop_succ_cons]
  rcases remaining.eq_zero_or_pos with rfl | hpos
  · simp
  · cases rest with
    | nil => simp
    | cons b' rest =>
      have hs' : s.fixedState remaining = .fixedBody remaining := if_neg (Nat.ne_of_gt hpos)
      rw [hs', observe_fixedBody (s := ⟨.fixedBody remaining, _⟩) rfl (cons_ne_nil _ _)]
      rfl

theorem observe_chunked (hs : s.state = .chunked c) (bytes : Bytes) :
    s.observe bytes signals =
      { s with state := s.chunkedState (c.observe bytes).1 (c.observe bytes).2.2 }.observe
        (bytes.drop (c.observe bytes).2.1) signals := by
  obtain ⟨state, max⟩ := s
  cases hs
  cases bytes with
  | nil =>
    have hn : c.observe [] = (c, 0, .continue_) := by rw [ChunkedScanner.observe]
    rw [hn]
    rfl
  | cons b rest => rw [observe]

theorem observe_chunk {c' : ChunkedScanner} (hs : s.state = .chunked c)
    (hf : c.feedByte b = .more c') :
    s.observe (b :: rest) signals = { s with state := .chunked c' }.observe rest signals := by
  rw [observe_chunked hs, observe_chunked (s := ⟨.chunked c', _⟩) rfl,
    (c.observe_cons b rest).1 c' hf, ChunkedScanner.ahead, Nat.add_comm, drop_succ_cons]
  rfl

theorem observe_chunks_done (hs : s.state = .chunked c) (hf : c.feedByte b = .done ()) :
    s.observe (b :: rest) signals = { s with state := s.newHead }.observe rest signals := by
  rw [observe_chunked hs, (c.observe_cons b rest).2 hf]
  rfl

end H1StreamScanner

/-! ## The protocol of a connection -/

def h2Preface : Bytes := lit "PRI * HTTP/2.0\r\n\r\nSM\r\n\r\n"

inductive Protocol where
  | detect | http1 | http2 | disabled
  deriving DecidableEq, Repr

/-- `preface` holds the bytes that were read while the protocol was not known. -/
structure WireScanner where
  protocol : Protocol := .detect
  preface : Bytes := []
  h1 : H1StreamScanner

namespace WireScanner

def new (maxHeadBytes : ℕ) : WireScanner := { h1 := .new maxHeadBytes }

def observeH1 (w : WireScanner) (bytes : Bytes) (signals : H1FramingSignals) :
    WireScanner × H1FramingSignals :=
  let (h1, signals, observed) := w.h1.observe bytes signals
  if observed then ({ w with h1 }, signals)
  else ({ w with h1, protocol := .disabled }, signals.markUnknown)

/-- A read while the protocol is not known. -/
def detect (w : WireScanner) (bytes : Bytes) (signals : H1FramingSignals) :
    WireScanner × H1FramingSignals :=
  match bytes with
  | [] => (w, signals)
  | b :: rest =>
    match h2Preface[w.preface.length]? with
    | none => ({ w with protocol := .disabled }, signals.markUnknown)
    | some expected =>
      let w := { w with preface := w.preface ++ [b] }
      if b ≠ expected then
        let (w, signals) := { w with protocol := .http1 }.observeH1 w.preface signals
        if w.protocol = .http1 then w.observeH1 rest signals else (w, signals)
      else if w.preface.length = h2Preface.length then ({ w with protocol := .http2 }, signals)
      else w.detect rest signals

def observe (w : WireScanner) (bytes : Bytes) (signals : H1FramingSignals) :
    WireScanner × H1FramingSignals :=
  match w.protocol with
  | .detect => w.detect bytes signals
  | .http1 => w.observeH1 bytes signals
  | .http2 | .disabled => (w, signals)

end WireScanner

end Ferrum.Framing
