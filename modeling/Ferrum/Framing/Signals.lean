/-
  The queue of framing decisions of an HTTP/1 connection.

  The wire scanner publishes one bit for each request head, and the handler of the request takes it.
  Both run on the task of the connection, so their calls do not overlap.

  * `push`, `nextConflict`: the two ends of the queue.
  * `Holds`: the decisions that are published and not taken.
  * `Holds.push`, `Holds.nextConflict`: the queue is first in, first out.
-/
import Ferrum.Lib.Ring
import Ferrum.Lib.Window

namespace Ferrum.Framing

open Lib

/-- Parse-reject reasons the inbound scanner can name. -/
def parseHintNone : UInt8 := 0
def parseHintConflictingContentLength : UInt8 := 1
def parseHintHttp10TransferEncoding : UInt8 := 2
def parseHintInvalidRequestTargetUtf8 : UInt8 := 3

/-- An earlier head was published before the hint. -/
def parseHintPriorHead : UInt8 := 0x80

def signalWords : ℕ := 16
def signalCapacity : ℕ := signalWords * 64

inductive H1FramingResult where
  | notObserved | clear | conflict | observerFailed
  deriving DecidableEq, Repr

structure H1FramingSignals where
  produced : ℕ := 0
  consumed : ℕ := 0
  conflicts : Option (Vector (BitVec 64) signalWords) := none
  overflowed : Bool := false
  unknown : Bool := false
  observationDisabled : Bool := false
  parseRejectHint : UInt8 := parseHintNone

namespace H1FramingSignals

def storeParseRejectHint (s : H1FramingSignals) (hint : UInt8) : H1FramingSignals :=
  if hint = parseHintNone then s
  else
    let hint := if 0 < s.produced then hint ||| parseHintPriorHead else hint
    if s.parseRejectHint = parseHintNone then { s with parseRejectHint := hint } else s

def conflictRing (s : H1FramingSignals) : Vector (BitVec 64) signalWords :=
  s.conflicts.getD (.replicate signalWords 0#64)

def markUnknown (s : H1FramingSignals) : H1FramingSignals :=
  { s with unknown := true, observationDisabled := true }

def markOverflowed (s : H1FramingSignals) : H1FramingSignals :=
  { s with overflowed := true, observationDisabled := true }

def disableObservation (s : H1FramingSignals) : H1FramingSignals :=
  { s with observationDisabled := true }

/-- The decision for the next head is published. -/
def push (s : H1FramingSignals) (conflict : Bool) : H1FramingSignals × Bool :=
  if s.observationDisabled then (s, false)
  else
    let sequence := s.produced
    if signalCapacity ≤ sequence - s.consumed then (s.markOverflowed, false)
    else
      let slot := sequence % signalCapacity
      let s := { s with conflicts := some s.conflictRing }
      match s.conflictRing[slot / 64]? with
      | none => (s.markUnknown, false)
      | some word =>
        let mask := 1#64 <<< (slot % 64)
        let word := if conflict then word ||| mask else word &&& ~~~mask
        let s := { s with conflicts := some (s.conflictRing.setIfInBounds (slot / 64) word) }
        if sequence + 1 < 2 ^ 64 then ({ s with produced := sequence + 1 }, true)
        else (s.markOverflowed, false)

/-- The decision for the next request is taken. -/
def nextConflict (s : H1FramingSignals) : H1FramingSignals × H1FramingResult :=
  if s.overflowed || s.unknown then (s, .observerFailed)
  else
    let sequence := s.consumed
    if s.produced ≤ sequence then (s.markUnknown, .observerFailed)
    else
      let slot := sequence % signalCapacity
      match s.conflicts with
      | none => (s.markUnknown, .observerFailed)
      | some ring =>
        match ring[slot / 64]? with
        | none => (s.markUnknown, .observerFailed)
        | some word =>
          let mask := 1#64 <<< (slot % 64)
          let conflict := word &&& mask != 0#64
          if sequence + 1 < 2 ^ 64 then
            ({ s with consumed := sequence + 1 }, if conflict then .conflict else .clear)
          else (s.markOverflowed, .observerFailed)

end H1FramingSignals

/-! ## First in, first out -/

def ringBit (ring : Vector (BitVec 64) signalWords) (slot : ℕ) : Bool :=
  (ring[slot / 64]?.getD 0#64).getLsbD (slot % 64)

/-- The signals work, and hold the decisions `pending`. -/
structure H1FramingSignals.Holds (s : H1FramingSignals) (pending : List Bool) : Prop where
  working : s.overflowed = false ∧ s.unknown = false ∧ s.observationDisabled = false
  produced : s.produced = s.consumed + pending.length
  ring : pending ≠ [] → s.conflicts.isSome
  queued : Queued (ringBit s.conflictRing) signalCapacity s.consumed pending

theorem holds_new : ({} : H1FramingSignals).Holds [] :=
  ⟨⟨rfl, rfl, rfl⟩, rfl, nofun, .nil⟩

theorem getLsbD_write {w : BitVec 64} {k i : ℕ} (hi : i < 64) (conflict : Bool) :
    (if conflict then w ||| 1#64 <<< k else w &&& ~~~(1#64 <<< k)).getLsbD i =
      if i = k then conflict else w.getLsbD i := by
  cases conflict with
  | false =>
    rw [if_neg Bool.false_ne_true, BitVec.getLsbD_and, BitVec.getLsbD_not, getLsbD_one_shiftLeft hi]
    by_cases h : i = k <;> simp [h, hi]
  | true =>
    rw [if_pos rfl, BitVec.getLsbD_or, getLsbD_one_shiftLeft hi]
    by_cases h : i = k <;> simp [h]

theorem ringBit_set {ring : Vector (BitVec 64) signalWords} {slot : ℕ} {word : BitVec 64}
    (hw : ring[slot / 64]? = some word) (conflict : Bool) (slot' : ℕ) :
    ringBit (ring.setIfInBounds (slot / 64) (if conflict
        then word ||| 1#64 <<< (slot % 64) else word &&& ~~~(1#64 <<< (slot % 64)))) slot' =
      if slot' = slot then conflict else ringBit ring slot' := by
  have hlt : slot / 64 < signalWords := by
    by_contra hge
    rw [Vector.getElem?_eq_none (Nat.le_of_not_lt hge)] at hw
    cases hw
  rw [ringBit, ringBit, Vector.getElem?_setIfInBounds]
  by_cases hd : slot / 64 = slot' / 64
  · rw [if_pos hd, if_pos hlt, ← hd, hw, Option.getD_some, Option.getD_some,
      getLsbD_write (Nat.mod_lt _ (by decide))]
    by_cases hs : slot' = slot
    · rw [hs]
      simp
    · rw [if_neg hs, if_neg (by omega)]
  · rw [if_neg hd, if_neg (by rintro rfl; exact hd rfl)]

theorem ring_getElem (ring : Vector (BitVec 64) signalWords) (sequence : ℕ) :
    ∃ word, ring[sequence % signalCapacity / 64]? = some word := by
  have hlt : sequence % signalCapacity / 64 < signalWords :=
    Nat.div_lt_of_lt_mul (Nat.lt_of_lt_of_eq (Nat.mod_lt _ (by decide)) (Nat.mul_comm _ _))
  exact ⟨_, Vector.getElem?_eq_getElem hlt⟩

namespace H1FramingSignals.Holds

variable {s : H1FramingSignals} {pending : List Bool} {conflict : Bool}

theorem storeHint (h : s.Holds pending) (hi : UInt8) :
    (s.storeParseRejectHint hi).Holds pending ∧
      (s.storeParseRejectHint hi).produced = s.produced := by
  unfold storeParseRejectHint
  dsimp only
  split_ifs <;> exact ⟨⟨h.working, h.produced, h.ring, h.queued⟩, rfl⟩

theorem storeHints (h : s.Holds pending) (hints : List UInt8) :
    (hints.foldl storeParseRejectHint s).Holds pending ∧
      (hints.foldl storeParseRejectHint s).produced = s.produced := by
  induction hints generalizing s with
  | nil => exact ⟨h, rfl⟩
  | cons hi hints ih =>
    obtain ⟨hh, hp⟩ := h.storeHint hi
    exact ⟨(ih hh).1, (ih hh).2.trans hp⟩

/-- A decision is published while there is room. -/
theorem push (h : s.Holds pending) (conflict : Bool) (hr : pending.length < signalCapacity)
    (hc : s.produced + 1 < 2 ^ 64) :
    (s.push conflict).2 = true ∧ (s.push conflict).1.Holds (pending ++ [conflict]) ∧
      (s.push conflict).1.produced = s.produced + 1 ∧
      (s.push conflict).1.consumed = s.consumed := by
  obtain ⟨⟨ho, hu, hd⟩, hp, -, hq⟩ := h
  obtain ⟨word, hw⟩ := ring_getElem s.conflictRing s.produced
  have hf : ¬ signalCapacity ≤ s.produced - s.consumed := by omega
  have hps : s.push conflict = ({ s with
      conflicts := some (s.conflictRing.setIfInBounds (s.produced % signalCapacity / 64)
        (if conflict then word ||| 1#64 <<< (s.produced % signalCapacity % 64)
          else word &&& ~~~(1#64 <<< (s.produced % signalCapacity % 64))))
      produced := s.produced + 1 }, true) := by
    rw [H1FramingSignals.push, hd, if_neg Bool.false_ne_true, if_neg hf]
    show (match s.conflictRing[s.produced % signalCapacity / 64]? with
      | none => _
      | some word => _) = _
    rw [hw]
    exact if_pos hc
  rw [hps]
  refine ⟨rfl, ⟨⟨ho, hu, hd⟩, ?_, fun _ => rfl, ?_⟩, rfl, rfl⟩
  · rw [List.length_append]
    exact congrArg (· + 1) hp
  · refine hq.push hr ?_ fun slot hs => ?_
    · rw [← hp]
      exact (ringBit_set hw conflict _).trans (if_pos rfl)
    · rw [← hp] at hs
      exact (ringBit_set hw conflict _).trans (if_neg hs)

/-- Decisions are taken in the order in which they were published. -/
theorem nextConflict (h : s.Holds (conflict :: pending)) (hcn : s.produced < 2 ^ 64) :
    s.nextConflict.2 = (if conflict then .conflict else .clear) ∧ s.nextConflict.1.Holds pending ∧
      s.nextConflict.1.produced = s.produced := by
  obtain ⟨⟨ho, hu, hd⟩, hp, hr, hq⟩ := h
  obtain ⟨ring, hr⟩ := Option.isSome_iff_exists.1 (hr (List.cons_ne_nil _ _))
  obtain ⟨word, hw⟩ := ring_getElem ring s.consumed
  rw [List.length_cons] at hp
  obtain ⟨hb, hq'⟩ := hq.pop
  have hc : (word &&& 1#64 <<< (s.consumed % signalCapacity % 64) != 0#64) = conflict := by
    rw [conflictRing, hr, Option.getD_some, ringBit, hw, Option.getD_some] at hb
    rw [Bool.eq_iff_iff, bne_iff_ne, and_one_shiftLeft_ne_zero (Nat.mod_lt _ (by decide)), hb]
  have hn : s.nextConflict = ({ s with consumed := s.consumed + 1 },
      if conflict then .conflict else .clear) := by
    rw [H1FramingSignals.nextConflict, ho, hu, if_neg (by decide),
      if_neg (by omega : ¬ s.produced ≤ s.consumed), hr]
    simp only [hw, hc]
    exact if_pos (by omega)
  rw [hn]
  refine ⟨rfl, ⟨⟨ho, hu, hd⟩, ?_, fun _ => ?_, hq'⟩, rfl⟩
  · show s.produced = s.consumed + 1 + pending.length
    omega
  · exact Option.isSome_iff_exists.2 ⟨ring, hr⟩

end H1FramingSignals.Holds

end Ferrum.Framing
