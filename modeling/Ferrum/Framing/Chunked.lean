/-
  The scanner for chunked bodies on the wire.

  * `ChunkedScanner.observe`: a read, up to the end of the body; the data of a chunk is skipped.
  * `ChunkedScanner.feedByte`: the scanner as if it were fed one byte after the other.
  * `observe_cons`: a read takes one byte and then the rest.
-/
import Ferrum.Lib.Feed
import Ferrum.Lib.Bytes

namespace Ferrum.Framing

open Lib

def chunkExtensionLimit : ℕ := 16 * 1024
def hyperTrailerLimit : ℕ := 16 * 1024

inductive ChunkState where
  | sizeStart | size | sizeLws | extension | sizeLf
  | data (remaining : ℕ)
  | dataCr | dataLf | endCr | trailer | trailerLf | endLf
  deriving DecidableEq, Repr

/-- The data of a chunk may have no byte left to take. -/
def ChunkState.rank : ChunkState → ℕ
  | .data _ => 1
  | _ => 0

theorem ChunkState.rank_le (state : ChunkState) : state.rank ≤ 1 := by
  cases state <;> simp [ChunkState.rank]

structure ChunkedScanner where
  state : ChunkState := .sizeStart
  chunkSize : ℕ := 0
  extensionBytes : ℕ := 0
  trailerBytes : ℕ := 0

inductive ChunkStep where
  | continue_ | complete | disable
  deriving DecidableEq, Repr

def hexValue (b : UInt8) : Option ℕ :=
  if byte '0' ≤ b && b ≤ byte '9' then some (b - byte '0').toNat
  else if byte 'a' ≤ b && b ≤ byte 'f' then some (b + 10 - byte 'a').toNat
  else if byte 'A' ≤ b && b ≤ byte 'F' then some (b + 10 - byte 'A').toNat
  else none

namespace ChunkedScanner

/-- One byte, outside of the data of a chunk. -/
def next (c : ChunkedScanner) (b : UInt8) : Fed ChunkedScanner Unit :=
  match c.state with
  | .sizeStart =>
    match hexValue b with
    | some value => .more { c with chunkSize := value, state := .size }
    | none => .failed
  | .size =>
    match hexValue b with
    | some value =>
      if c.chunkSize * 16 + value < 2 ^ 64 then
        .more { c with chunkSize := c.chunkSize * 16 + value }
      else .failed
    | none =>
      if b = byte ' ' ∨ b = byte '\t' then .more { c with state := .sizeLws }
      else if b = byte ';' then .more { c with state := .extension }
      else if b = byte '\r' then .more { c with state := .sizeLf }
      else .failed
  | .sizeLws =>
    if b = byte ' ' ∨ b = byte '\t' then .more c
    else if b = byte ';' then .more { c with state := .extension }
    else if b = byte '\r' then .more { c with state := .sizeLf }
    else .failed
  | .extension =>
    if b = byte '\r' then .more { c with state := .sizeLf }
    else if b = byte '\n' then .failed
    else if chunkExtensionLimit ≤ c.extensionBytes + 1 then .failed
    else .more { c with extensionBytes := c.extensionBytes + 1 }
  | .sizeLf =>
    if b ≠ byte '\n' then .failed
    else if c.chunkSize = 0 then .more { c with state := .endCr }
    else .more { c with state := .data c.chunkSize }
  | .data _ => .more c
  | .dataCr => if b = byte '\r' then .more { c with state := .dataLf } else .failed
  | .dataLf =>
    if b = byte '\n' then .more { c with chunkSize := 0, state := .sizeStart } else .failed
  | .endCr =>
    if b = byte '\r' then .more { c with state := .endLf }
    else .more { c with trailerBytes := c.trailerBytes + 1, state := .trailer }
  | .trailer =>
    if hyperTrailerLimit ≤ c.trailerBytes + 1 then .failed
    else if b = byte '\r' then
      .more { c with trailerBytes := c.trailerBytes + 1, state := .trailerLf }
    else .more { c with trailerBytes := c.trailerBytes + 1 }
  | .trailerLf => if b = byte '\n' then .more { c with state := .endCr } else .failed
  | .endLf => if b = byte '\n' then .done () else .failed

/-- The scanner after some of the data of a chunk. -/
def skipData (c : ChunkedScanner) (remaining : ℕ) : ChunkedScanner :=
  { c with state := if remaining = 0 then .dataCr else .data remaining }

/-- The result of a read after `n` further bytes of it. -/
def ahead (n : ℕ) (r : ChunkedScanner × ℕ × ChunkStep) : ChunkedScanner × ℕ × ChunkStep :=
  (r.1, n + r.2.1, r.2.2)

/-- The scanner after a read, the bytes of the read that it took, and where it is then. -/
def observe (c : ChunkedScanner) (bytes : Bytes) : ChunkedScanner × ℕ × ChunkStep :=
  match bytes with
  | [] => (c, 0, .continue_)
  | b :: rest =>
    match _hstate : c.state with
    | .data remaining =>
      let consumed := min (b :: rest).length remaining
      ahead consumed ((c.skipData (remaining - consumed)).observe ((b :: rest).drop consumed))
    | _ =>
      match c.next b with
      | .more c' => ahead 1 (c'.observe rest)
      | .done _ => (c, 1, .complete)
      | .failed => (c, 1, .disable)
termination_by 2 * bytes.length + c.state.rank
decreasing_by
  · simp only [skipData, _hstate, ChunkState.rank, List.length_drop, List.length_cons]
    split_ifs with h
    · simp only; omega
    · simp only; omega
  · have := ChunkState.rank_le c'.state
    simp only [List.length_cons]
    omega

/-! ## One byte after the other -/

def feedByte (c : ChunkedScanner) (b : UInt8) : Fed ChunkedScanner Unit :=
  match c.state with
  | .data 0 => (c.skipData 0).next b
  | .data (remaining + 1) => .more (c.skipData remaining)
  | _ => c.next b

variable {c c' : ChunkedScanner} {remaining : ℕ} {b : UInt8} {bytes rest : Bytes}

theorem observe_data (hs : c.state = .data remaining) (hne : bytes ≠ []) :
    c.observe bytes = ahead (min bytes.length remaining)
      ((c.skipData (remaining - min bytes.length remaining)).observe
        (bytes.drop (min bytes.length remaining))) := by
  obtain ⟨b, rest, rfl⟩ := List.exists_cons_of_ne_nil hne
  rw [observe]
  split
  · next remaining' hs' =>
    rw [hs] at hs'
    cases hs'
    rfl
  · next hd => exact absurd hs (hd remaining)

theorem observe_next (hs : ∀ remaining, c.state ≠ .data remaining) :
    c.observe (b :: rest) = match c.next b with
      | .more c' => ahead 1 (c'.observe rest)
      | .done _ => (c, 1, .complete)
      | .failed => (c, 1, .disable) := by
  rw [observe]
  split
  · next remaining hs' => exact absurd hs' (hs remaining)
  · rfl

theorem ahead_zero (r : ChunkedScanner × ℕ × ChunkStep) : ahead 0 r = r := by
  rw [ahead, Nat.zero_add]

theorem ahead_ahead (m n : ℕ) (r : ChunkedScanner × ℕ × ChunkStep) :
    ahead m (ahead n r) = ahead (m + n) r := by
  simp only [ahead, Nat.add_assoc]

theorem skipData_state (h : remaining ≠ 0) : (c.skipData remaining).state = .data remaining :=
  if_neg h

/-- The bulk skip of data takes the same bytes as a skip of one byte and then the rest. -/
theorem observe_data_cons (hs : c.state = .data (remaining + 1)) :
    c.observe (b :: rest) = ahead 1 ((c.skipData remaining).observe rest) := by
  rw [observe_data hs (List.cons_ne_nil _ _), List.length_cons, Nat.add_min_add_right,
    Nat.add_sub_add_right, List.drop_succ_cons, Nat.add_comm, ← ahead_ahead]
  congr 1
  rcases remaining.eq_zero_or_pos with rfl | hpos
  · simp [ahead_zero]
  · cases rest with
    | nil => simp [ahead_zero]
    | cons b' rest =>
      rw [observe_data (skipData_state (Nat.ne_of_gt hpos)) (List.cons_ne_nil _ _)]
      rfl

theorem observe_cons (c : ChunkedScanner) (b : UInt8) (rest : Bytes) :
    (∀ c', c.feedByte b = .more c' → c.observe (b :: rest) = ahead 1 (c'.observe rest)) ∧
      (c.feedByte b = .done () → (c.observe (b :: rest)).2 = (1, .complete)) := by
  have hsk : ∀ remaining, (c.skipData 0).state ≠ .data remaining := nofun
  rw [feedByte]
  split
  · next hs =>
    have hz : c.observe (b :: rest) = (c.skipData 0).observe (b :: rest) := by
      rw [observe_data hs (List.cons_ne_nil _ _), Nat.min_zero, ahead_zero]
      rfl
    rw [hz, observe_next hsk]
    constructor
    · intro c' h
      rw [h]
    · intro h
      rw [h]
  · next remaining hs =>
    refine ⟨fun c' h => ?_, nofun⟩
    cases h
    exact observe_data_cons hs
  · next hz hsc =>
    have hs : ∀ remaining, c.state ≠ .data remaining := by
      intro remaining hs
      cases remaining with
      | zero => exact hz hs
      | succ remaining => exact hsc remaining hs
    rw [observe_next hs]
    constructor
    · intro c' h
      rw [h]
    · intro h
      rw [h]

end ChunkedScanner

end Ferrum.Framing
