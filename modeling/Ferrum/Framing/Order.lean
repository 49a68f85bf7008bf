/-
  The decisions of a connection come in the order of its requests.

  A connection is a run of reads and of requests that take their decision.  The reads are pieces of a
  stream of requests, and the decisions are taken when they are there, and before 1024 of them wait.

  * `Tracks`: the scanner is at its position, and the signals hold the decisions for the heads that
    are complete and not taken.
  * `Tracks.byte`, `Tracks.read`, `Tracks.drain`: how it is kept.
  * `Watches`: the same, while it is not yet known that the connection is HTTP/1.
  * `framing_decisions_in_order`: the decisions of a whole run.
-/
import Ferrum.Framing.Position

namespace Ferrum.Framing

open Lib List

/-! ## Connections -/

inductive ConnectionAct where
  | read (bytes : Bytes)
  | nextConflict

structure Connection where
  scanner : WireScanner
  signals : H1FramingSignals

namespace Connection

def new (maxHeadBytes : ℕ) : Connection := ⟨.new maxHeadBytes, {}⟩

def step (c : Connection) : ConnectionAct → Connection × Option H1FramingResult
  | .read bytes =>
    let (scanner, signals) := c.scanner.observe bytes c.signals
    (⟨scanner, signals⟩, none)
  | .nextConflict =>
    let (signals, result) := c.signals.nextConflict
    ({ c with signals }, some result)

/-- The results of the requests that took their decision. -/
def results : Connection → List ConnectionAct → List H1FramingResult
  | _, [] => []
  | c, act :: acts => (c.step act).2.toList ++ results (c.step act).1 acts

end Connection

def readBytes : List ConnectionAct → Bytes
  | [] => []
  | .read bytes :: acts => bytes ++ readBytes acts
  | .nextConflict :: acts => readBytes acts

/-- The number of decisions that are taken. -/
def drains : List ConnectionAct → ℕ
  | [] => 0
  | .read _ :: acts => drains acts
  | .nextConflict :: acts => drains acts + 1

variable {max : ℕ}

/-- After `n` bytes and `drained` decisions, a read does not let more than 1024 decisions wait, and a
    decision is taken only after its head was read. -/
def Paced (requests : List (Request max)) : ℕ → ℕ → List ConnectionAct → Prop
  | _, _, [] => True
  | n, drained, .read bytes :: acts =>
    headsWithin requests (n + bytes.length) ≤ drained + signalCapacity ∧
      Paced requests (n + bytes.length) drained acts
  | n, drained, .nextConflict :: acts =>
    drained < headsWithin requests n ∧ Paced requests n (drained + 1) acts

/-- The request line of the HTTP/2 preface. -/
def h2RequestLine : Bytes := lit "PRI * HTTP/2.0\r\n"

/-! ## HTTP/1 connections -/

/-- The scanner is after `n` bytes of the requests, and `drained` decisions were taken. -/
structure Tracks (requests : List (Request max)) (n drained : ℕ) (s : H1StreamScanner)
    (signals : H1FramingSignals) : Prop where
  maxHeadBytes : s.maxHeadBytes = max
  position : At requests n s.state
  drained_le : drained ≤ headsWithin requests n
  holds : signals.Holds
    (((requests.take (headsWithin requests n)).drop drained).map Request.conflict)
  produced : signals.produced = headsWithin requests n

theorem tracks_new (requests : List (Request max)) : Tracks requests 0 0 (.new max) {} := by
  refine ⟨rfl, at_zero requests, Nat.zero_le _, ?_, (headsWithin_zero requests).symm⟩
  rw [headsWithin_zero]
  exact holds_new

variable {requests : List (Request max)} {n drained : ℕ} {s : H1StreamScanner}
  {signals : H1FramingSignals}

theorem length_waiting :
    (((requests.take (headsWithin requests n)).drop drained).map Request.conflict).length =
      headsWithin requests n - drained := by
  rw [length_map, length_drop, length_take, Nat.min_eq_left (headsWithin_le_length requests n)]

theorem waiting_succ {conflict : Bool} {k : ℕ} (hk : k ≤ requests.length) (hd : drained ≤ k)
    (hc : requests[k]?.map Request.conflict = some conflict) :
    ((requests.take (k + 1)).drop drained).map Request.conflict =
      ((requests.take k).drop drained).map Request.conflict ++ [conflict] := by
  obtain ⟨r, hr, rfl⟩ := Option.map_eq_some_iff.1 hc
  have hln : drained ≤ (requests.take k).length := by
    rw [length_take, Nat.min_eq_left hk]
    exact hd
  rw [take_add_one, hr, drop_append_of_le_length hln, map_append]
  rfl

theorem Tracks.byte {b : UInt8} (h : Tracks requests n drained s signals)
    (hcn : requests.length < 2 ^ 64) (hb : (stream requests)[n]? = some b)
    (hr : headsWithin requests (n + 1) ≤ drained + signalCapacity) :
    ∃ s' signals', Tracks requests (n + 1) drained s' signals' ∧
      ∀ rest, s.observe (b :: rest) signals = s'.observe rest signals' := by
  obtain ⟨published, state', hn, hat, hh, hc⟩ := h.position.next h.maxHeadBytes hb
  obtain ⟨hints, ho⟩ := hn.observe signals
  obtain ⟨hhl, hp⟩ := h.holds.storeHints hints
  rw [h.produced] at hp
  cases published with
  | none =>
    have hh : headsWithin requests (n + 1) = headsWithin requests n := hh
    refine ⟨{ s with state := state' }, _, ⟨h.maxHeadBytes, hat, ?_, ?_, ?_⟩, ho⟩
    · rw [hh]
      exact h.drained_le
    · rw [hh]
      exact hhl
    · rw [hh]
      exact hp
  | some conflict =>
    have hh : headsWithin requests (n + 1) = headsWithin requests n + 1 := hh
    have hle := headsWithin_le_length requests (n + 1)
    have hd := h.drained_le
    obtain ⟨hps, hhl', hp', -⟩ := hhl.push conflict
      (by rw [length_waiting]; omega) (by rw [hp]; omega)
    refine ⟨{ s with state := state' }, _, ⟨h.maxHeadBytes, hat, by omega, ?_, ?_⟩,
      ho hps⟩
    · rwa [hh, waiting_succ (headsWithin_le_length requests n) hd (hc conflict rfl)]
    · rw [hp', hp, hh]

variable {bytes : Bytes} {c : Connection}

theorem Tracks.read (h : Tracks requests n drained s signals) (hc : requests.length < 2 ^ 64)
    (hbt : bytes <+: (stream requests).drop n)
    (hr : headsWithin requests (n + bytes.length) ≤ drained + signalCapacity) :
    ∃ s' signals', s.observe bytes signals = (s', signals', true) ∧
      Tracks requests (n + bytes.length) drained s' signals' := by
  induction bytes generalizing n s signals with
  | nil =>
    refine ⟨s, signals, ?_, h⟩
    rw [H1StreamScanner.observe, h.position.not_disabled]
    rfl
  | cons b bytes ih =>
    rw [length_cons, ← Nat.add_assoc, Nat.add_right_comm] at hr ⊢
    obtain ⟨rest, hrs⟩ := hbt
    have hb : (stream requests)[n]? = some b := by
      rw [← head?_drop, ← hrs]
      rfl
    have hd : bytes <+: (stream requests).drop (n + 1) := by
      rw [← tail_drop, ← hrs]
      exact prefix_append _ _
    obtain ⟨s', signals', h', ho⟩ := h.byte hc hb
      ((headsWithin_mono requests (Nat.le_add_right _ _)).trans hr)
    obtain ⟨t, signals'', hrd, ht⟩ := ih h' hd hr
    exact ⟨t, signals'', (ho bytes).trans hrd, ht⟩

theorem Tracks.drain (h : Tracks requests n drained s signals) (hc : requests.length < 2 ^ 64)
    (hrd : drained < headsWithin requests n) :
    ∃ r, requests[drained]? = some r ∧ signals.nextConflict.2 = r.verdict ∧
      Tracks requests n (drained + 1) s signals.nextConflict.1 := by
  have hle := headsWithin_le_length requests n
  have hlt : drained < requests.length := by omega
  have hw : ((requests.take (headsWithin requests n)).drop drained).map Request.conflict =
      (requests[drained]).conflict ::
        ((requests.take (headsWithin requests n)).drop (drained + 1)).map Request.conflict := by
    rw [drop_eq_getElem_cons (by rw [length_take]; omega), getElem_take, map_cons]
  have hh := h.holds
  rw [hw] at hh
  obtain ⟨hr, hh', hp⟩ := hh.nextConflict (by rw [h.produced]; omega)
  exact ⟨requests[drained], getElem?_eq_getElem hlt, hr,
    ⟨h.maxHeadBytes, h.position, hrd, hh', hp.trans h.produced⟩⟩

/-! ## The protocol of the connection -/

theorem RequestHead.lf_mem (h : RequestHead) : byte '\n' ∈ h.bytes := by
  refine mem_append_right _ ?_
  cases h.ending with
  | lf => exact mem_cons_self
  | crlf => exact mem_cons_of_mem _ mem_cons_self

/-- A head does not end before the request line of the preface does. -/
theorem head_not_in_preface (h : RequestHead) (hn : n < h2RequestLine.length) :
    ¬ h.bytes <+: h2Preface.take n := by
  intro hb
  have hlf : byte '\n' ∉ h2Preface.take (h2RequestLine.length - 1) := by decide +kernel
  exact hlf ((take_subset_take_left _ (Nat.le_sub_one_of_lt hn)) (hb.subset h.lf_mem))

theorem take_preface : h2Preface.take h2RequestLine.length = h2RequestLine := by decide +kernel

theorem length_take_preface (hn : n ≤ h2RequestLine.length) : (h2Preface.take n).length = n := by
  rw [length_take, Nat.min_eq_left]
  exact hn.trans (by decide +kernel)

theorem headsWithin_preface (hn : n < h2RequestLine.length)
    (hb : h2Preface.take n <+: stream requests) : headsWithin requests n = 0 := by
  cases requests with
  | nil => rfl
  | cons r rs =>
    refine headsWithin_head (Nat.lt_of_not_le fun hle => head_not_in_preface r.head hn ?_)
    refine prefix_of_prefix_length_le ?_ hb ((length_take_preface hn.le).symm ▸ hle)
    rw [stream, flatMap_cons, Request.bytes, append_assoc]
    exact prefix_append _ _

theorem stream_not_preface (h : ∀ r ∈ requests, ¬ h2RequestLine <+: r.bytes) :
    ¬ h2RequestLine <+: stream requests := by
  intro hb
  cases requests with
  | nil => exact absurd (prefix_nil.1 hb) (by decide +kernel)
  | cons r rs =>
    have hr : r.bytes <+: stream (r :: rs) := prefix_append _ _
    rcases Nat.lt_or_ge r.bytes.length h2RequestLine.length with hlt | hge
    · -- the head is too short to end within the request line of the preface
      have ht : h2Preface.take r.bytes.length <+: stream (r :: rs) :=
        (take_prefix_take_left hlt.le).trans (by rwa [take_preface])
      have hh := headsWithin_preface hlt ht
      rw [headsWithin_body (by rw [length_bytes]; omega) le_rfl] at hh
      cases hh
    · exact h r mem_cons_self (prefix_of_prefix_length_le hb hr hge)

/-- As `Tracks`, before and after it is known that the connection is HTTP/1. -/
inductive Watches (requests : List (Request max)) (n drained : ℕ) : Connection → Prop
  | detect : n < h2RequestLine.length → h2Preface.take n <+: stream requests → drained = 0 →
      Watches requests n drained ⟨{ preface := h2Preface.take n, h1 := .new max }, {}⟩
  | http1 {w : WireScanner} {signals : H1FramingSignals} : w.protocol = .http1 →
      Tracks requests n drained w.h1 signals → Watches requests n drained ⟨w, signals⟩

theorem observeH1_watches {w : WireScanner} (hp : w.protocol = .http1)
    (h : Tracks requests n drained w.h1 signals) (hc : requests.length < 2 ^ 64)
    (hb : bytes <+: (stream requests).drop n)
    (hr : headsWithin requests (n + bytes.length) ≤ drained + signalCapacity) :
    (w.observeH1 bytes signals).1.protocol = .http1 ∧
      Tracks requests (n + bytes.length) drained (w.observeH1 bytes signals).1.h1
        (w.observeH1 bytes signals).2 := by
  obtain ⟨s', signals', ho, h'⟩ := h.read hc hb hr
  rw [WireScanner.observeH1, ho]
  exact ⟨hp, h'⟩

theorem detect_watches (hln : ¬ h2RequestLine <+: stream requests) (hc : requests.length < 2 ^ 64)
    (hn : n < h2RequestLine.length) (hbt : h2Preface.take n ++ bytes <+: stream requests)
    (hr : headsWithin requests (n + bytes.length) ≤ signalCapacity) :
    Watches requests (n + bytes.length) 0
      ⟨(WireScanner.detect { preface := h2Preface.take n, h1 := .new max } bytes {}).1,
        (WireScanner.detect { preface := h2Preface.take n, h1 := .new max } bytes {}).2⟩ := by
  induction bytes generalizing n with
  | nil =>
    rw [append_nil] at hbt
    exact .detect hn hbt rfl
  | cons b bytes ih =>
    have hlt : n < h2Preface.length := hn.trans (by decide +kernel)
    have hget : h2Preface[(h2Preface.take n).length]? = some h2Preface[n] := by
      rw [length_take_preface hn.le, getElem?_eq_getElem hlt]
    have hlen : (h2Preface.take n ++ [b]).length = n + 1 := by
      rw [length_append, length_take_preface hn.le]
      rfl
    rw [append_cons] at hbt
    rw [length_cons, ← Nat.add_assoc, Nat.add_right_comm] at hr ⊢
    rw [WireScanner.detect]
    simp only [hget]
    by_cases hb : b = h2Preface[n]
    · have htk : h2Preface.take n ++ [b] = h2Preface.take (n + 1) := by
        rw [hb, take_succ_eq_append_getElem hlt]
      have hn' : n + 1 < h2RequestLine.length := by
        refine lt_of_le_of_ne hn fun heq => hln ?_
        rw [← take_preface, ← heq, ← htk]
        exact (prefix_append _ _).trans hbt
      have hs : ¬ (h2Preface.take n ++ [b]).length = h2Preface.length := by
        rw [hlen]
        exact Nat.ne_of_lt (hn'.trans (by decide +kernel))
      rw [if_neg (not_not.2 hb), if_neg hs, htk]
      rw [htk] at hbt
      exact ih hn' hbt hr
    · have hbg : h2Preface.take n ++ [b] <+: (stream requests).drop 0 :=
        (prefix_append _ _).trans hbt
      have hrs : bytes <+: (stream requests).drop (n + 1) := by
        obtain ⟨rest, hrs⟩ := hbt
        rw [← hrs, append_assoc, ← hlen, drop_left]
        exact prefix_append _ _
      rw [if_pos hb]
      obtain ⟨hp, ht⟩ := observeH1_watches
        (w := { protocol := .http1, preface := h2Preface.take n ++ [b], h1 := .new max }) rfl
        (tracks_new requests) hc hbg (by
          rw [hlen, Nat.zero_add, Nat.zero_add]
          exact (headsWithin_mono requests (Nat.le_add_right _ _)).trans hr)
      rw [hlen, Nat.zero_add] at ht
      obtain ⟨hp', ht'⟩ := observeH1_watches hp ht hc hrs
        (by rwa [Nat.zero_add])
      rw [if_pos hp]
      exact .http1 hp' ht'

theorem Watches.read (h : Watches requests n drained c) (hln : ¬ h2RequestLine <+: stream requests)
    (hc : requests.length < 2 ^ 64) (hb : bytes <+: (stream requests).drop n)
    (hr : headsWithin requests (n + bytes.length) ≤ drained + signalCapacity) :
    Watches requests (n + bytes.length) drained (c.step (.read bytes)).1 := by
  cases h with
  | detect hn hbg hd =>
    subst hd
    rw [Nat.zero_add] at hr
    refine detect_watches hln hc hn ?_ hr
    obtain ⟨rest, hrs⟩ := hbg
    rw [← hrs] at hb ⊢
    have hdr : (h2Preface.take n ++ rest).drop n = rest :=
      drop_left' (length_take_preface hn.le)
    rw [hdr] at hb
    exact (prefix_append_right_inj _).2 hb
  | @http1 w signals hp ht =>
    obtain ⟨hp', ht'⟩ := observeH1_watches hp ht hc hb hr
    have ho : w.observe bytes signals = w.observeH1 bytes signals := by
      rw [WireScanner.observe, hp]
    have hs : ((⟨w, signals⟩ : Connection).step (.read bytes)).1 =
        ⟨(w.observeH1 bytes signals).1, (w.observeH1 bytes signals).2⟩ := by
      rw [Connection.step, ho]
    rw [hs]
    exact .http1 hp' ht'

theorem Watches.drain (h : Watches requests n drained c) (hc : requests.length < 2 ^ 64)
    (hrd : drained < headsWithin requests n) :
    ∃ r, requests[drained]? = some r ∧ (c.step .nextConflict).2 = some r.verdict ∧
      Watches requests n (drained + 1) (c.step .nextConflict).1 := by
  cases h with
  | detect hn hb hd =>
    rw [headsWithin_preface hn hb] at hrd
    cases hrd
  | http1 hp ht =>
    obtain ⟨r, hr, hrs, ht'⟩ := ht.drain hc hrd
    exact ⟨r, hr, congrArg some hrs, .http1 hp ht'⟩

/-! ## Runs -/

/-- The decisions of a run, from any position on. -/
theorem results_eq {acts : List ConnectionAct} (h : Watches requests n drained c)
    (hln : ¬ h2RequestLine <+: stream requests) (hc : requests.length < 2 ^ 64)
    (hb : readBytes acts <+: (stream requests).drop n) (hp : Paced requests n drained acts) :
    c.results acts = ((requests.drop drained).take (drains acts)).map Request.verdict := by
  induction acts generalizing n drained c with
  | nil => rfl
  | cons act acts ih =>
    cases act with
    | read bytes =>
      obtain ⟨hrm, hp⟩ := hp
      have hn : bytes <+: (stream requests).drop n := (prefix_append _ _).trans hb
      refine ih (h.read hln hc hn hrm) ?_ hp
      obtain ⟨rest, hrs⟩ := hb
      rw [readBytes, append_assoc] at hrs
      rw [← drop_drop, ← hrs, drop_left]
      exact prefix_append _ _
    | nextConflict =>
      obtain ⟨hrd, hp⟩ := hp
      obtain ⟨r, hr, hrl, h'⟩ := h.drain hc hrd
      obtain ⟨hlt, rfl⟩ := List.getElem?_eq_some_iff.1 hr
      rw [Connection.results, hrl, ih h' hb hp, drains, drop_eq_getElem_cons hlt]
      rfl

/-- **The decisions of a connection come in the order of its requests**: for every stream of requests
    that does not look like HTTP/2, every split of it into reads, and every way to take the decisions
    in time, the i-th decision is that of the i-th request. -/
theorem framing_decisions_in_order (requests : List (Request max)) (acts : List ConnectionAct)
    (hline : ∀ r ∈ requests, ¬ h2RequestLine <+: r.bytes)
    (hreads : readBytes acts <+: stream requests) (hpaced : Paced requests 0 0 acts)
    (hcount : requests.length < 2 ^ 64) :
    (Connection.new max).results acts = (requests.take (drains acts)).map Request.verdict := by
  have hs : Watches requests 0 0 (Connection.new max) :=
    .detect (by decide +kernel) nil_prefix rfl
  exact results_eq hs (stream_not_preface hline) hcount hreads hpaced

/-- A request with both fields, and an empty chunked body. -/
def ambiguousRequest : Request 100 where
  head :=
    { leading := []
      requestLine := lit "POST / HTTP/1.1"
      requestEnd := .crlf
      fields :=
        [{ name := lit "Content-Length"
           value := lit " 2"
           ending := .crlf
           token := by decide +kernel
           text := by decide +kernel },
         { name := lit "transfer-encoding"
           value := lit "chunked"
           ending := .lf
           token := by decide +kernel
           text := by decide +kernel }]
      ending := .crlf
      nonempty := by decide +kernel
      text := by decide +kernel }
  contentLength := 2
  body := lit "0\r\n\r\n"
  headFits := by decide +kernel
  lengths := by
    intro f hf hlength
    rcases List.mem_cons.1 hf with rfl | hf
    · exact ⟨lit " ", lit "2", [], by decide +kernel⟩
    · rw [List.mem_singleton.1 hf] at hlength
      exact absurd hlength (by decide +kernel)
  framed := by
    rw [if_pos (by decide +kernel)]
    exact ⟨⟨[], ⟨lit "0", [], none, by decide +kernel, by decide +kernel, nofun, nofun⟩, [],
      by decide +kernel, nofun, by decide +kernel, by decide +kernel⟩, by decide +kernel⟩

def plainRequest : Request 100 where
  head :=
    { leading := [.crlf]
      requestLine := lit "GET / HTTP/1.1"
      requestEnd := .lf
      fields := []
      ending := .lf
      nonempty := by decide +kernel
      text := by decide +kernel }
  contentLength := 0
  body := []
  headFits := by decide +kernel
  lengths := nofun
  framed := rfl

theorem framing_decisions_in_order_pair :
    (Connection.new 100).results
      [.read ((stream [ambiguousRequest, plainRequest]).take 30),
        .read (((stream [ambiguousRequest, plainRequest]).drop 30).take 45), .nextConflict,
        .read ((stream [ambiguousRequest, plainRequest]).drop 75), .nextConflict] =
      [.conflict, .clear] := by
  refine (framing_decisions_in_order [ambiguousRequest, plainRequest] _ ?_ ?_ ?_ ?_).trans ?_
  · decide +kernel
  · decide +kernel
  · exact ⟨by decide +kernel, by decide +kernel, by decide +kernel, by decide +kernel,
      by decide +kernel, trivial⟩
  · decide +kernel
  · decide +kernel

end Ferrum.Framing
