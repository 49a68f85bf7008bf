/-
  Datagrams over a byte stream.

  Each datagram is written after its length.  What is read of the stream comes in chunks that have
  nothing to do with the datagrams; a buffer keeps what is not yet a whole one.

  * `readDatagram_eq`: a call depends only on the buffer and the bytes to come, not on the chunks.
  * `datagrams_read_back`: the calls return the datagrams that are there as a whole, and then none.
-/
import Mathlib.Order.Bounds.Basic
import Ferrum.Lib.Bytes

namespace Ferrum.Mesh

open Lib List

def maxFramePayload : ℕ := 65535

def lenPrefix : ℕ := 2

def encodeDatagram (out payload : Bytes) : Except String Bytes :=
  let size := payload.length
  if size > maxFramePayload then
    .error s!"datagram payload {size} exceeds max framed size {maxFramePayload}"
  else .ok (out ++ beBytes 2 size ++ payload)

/-- The first datagram of a buffer and what is left of it. -/
def popFramedDatagram (buf : Bytes) : Option (Bytes × Bytes) :=
  if buf.length < lenPrefix then none
  else
    let payloadLen := beNat (buf.take 2)
    if buf.length < lenPrefix + payloadLen then none
    else some ((buf.drop lenPrefix).take payloadLen, (buf.drop lenPrefix).drop payloadLen)

/-- A call returns a datagram, or none at the end of the stream, or fails with a read.  The reads to
    come are given; with them go on the buffer and the reads of the next call. -/
def readDatagram {ε : Type} (buf : Bytes) (reader : List (Except ε Bytes)) :
    Except ε (Option Bytes) × Bytes × List (Except ε Bytes) :=
  match popFramedDatagram buf with
  | some (payload, buf) => (.ok (some payload), buf, reader)
  | none =>
    match reader with
    | [] => (.ok none, buf, [])
    | .error e :: reader => (.error e, buf, reader)
    | .ok chunk :: reader =>
      if chunk.length = 0 then (.ok none, buf, reader) else readDatagram (buf ++ chunk) reader

/-- What the first `n` calls return. -/
def readDatagrams {ε : Type} : ℕ → Bytes → List (Except ε Bytes) → List (Except ε (Option Bytes))
  | 0, _, _ => []
  | n + 1, buf, reader =>
    let (result, buf, reader) := readDatagram buf reader
    result :: readDatagrams n buf reader

/-- The datagrams are written one after the other. -/
def encodeDatagrams (payloads : List Bytes) : Except String Bytes :=
  payloads.foldlM encodeDatagram []

/-! ## One datagram -/

/-- A datagram as it is written. -/
def frame (payload : Bytes) : Bytes := beBytes 2 payload.length ++ payload

theorem length_frame (payload : Bytes) : (frame payload).length = lenPrefix + payload.length := by
  rw [frame, length_append, length_beBytes, lenPrefix]

variable {payload buf : Bytes}

theorem pop_frame (h : payload.length ≤ maxFramePayload) (rest : Bytes) :
    popFramedDatagram (frame payload ++ rest) = some (payload, rest) := by
  have hlen : beNat ((frame payload ++ rest).take 2) = payload.length := by
    rw [frame, append_assoc, take_left' (length_beBytes 2 _), beNat_beBytes]
    exact Nat.mod_eq_of_lt (Nat.lt_succ_of_le h)
  have hd : (frame payload ++ rest).drop lenPrefix = payload ++ rest := by
    rw [frame, append_assoc, lenPrefix, drop_left' (length_beBytes 2 _)]
  have hln : (frame payload ++ rest).length = lenPrefix + payload.length + rest.length := by
    rw [length_append, length_frame]
  simp only [popFramedDatagram, hlen, hd]
  rw [if_neg (by omega), if_neg (by omega), take_left' rfl, drop_left' rfl]

theorem pop_part (h : payload.length ≤ maxFramePayload) (hb : buf <+: frame payload)
    (hne : buf.length < (frame payload).length) : popFramedDatagram buf = none := by
  rw [popFramedDatagram]
  split_ifs with hs
  · rfl
  · obtain ⟨rest, hr⟩ := hb
    rw [Nat.not_lt, lenPrefix] at hs
    have hln : beNat (buf.take 2) = payload.length := by
      have := congrArg (List.take 2) hr
      rw [take_append_of_le_length hs, frame, take_left' (length_beBytes 2 _)] at this
      rw [this, beNat_beBytes]
      exact Nat.mod_eq_of_lt (Nat.lt_succ_of_le h)
    rw [length_frame] at hne
    simp only [hln]
    rw [if_pos hne]

/-- More bytes do not change the first datagram. -/
theorem pop_append {rest : Bytes} (h : popFramedDatagram buf = some (payload, rest)) (more : Bytes)
    : popFramedDatagram (buf ++ more) = some (payload, rest ++ more) := by
  simp only [popFramedDatagram, Option.ite_none_left_eq_some, Option.some.injEq, Prod.mk.injEq] at h ⊢
  obtain ⟨hs, hln, rfl, rfl⟩ := h
  have ht : (buf ++ more).take 2 = buf.take 2 := take_append_of_le_length (Nat.not_lt.1 hs)
  have hd : (buf ++ more).drop lenPrefix = buf.drop lenPrefix ++ more :=
    drop_append_of_le_length (Nat.not_lt.1 hs)
  have hle : beNat (buf.take 2) ≤ (buf.drop lenPrefix).length := by
    rw [length_drop]
    omega
  rw [ht, hd, length_append, take_append_of_le_length hle, drop_append_of_le_length hle]
  exact ⟨by omega, by omega, rfl, rfl⟩

/-! ## Calls -/

section
variable {ε : Type}

/-- The reads of a stream without errors. -/
def chunked (chunks : List Bytes) : List (Except ε Bytes) := chunks.map .ok

/-- **A call** takes the first datagram of the buffer and the bytes to come, if there is one. -/
theorem readDatagram_eq {buf : Bytes} {chunks : List Bytes} (hne : ∀ c ∈ chunks, c ≠ []) :
    match popFramedDatagram (buf ++ chunks.flatten) with
    | some (payload, rest) => ∃ buf' chunks', (∀ c ∈ chunks', c ≠ []) ∧
        buf' ++ chunks'.flatten = rest ∧
        readDatagram buf (@chunked ε chunks) = (.ok (some payload), buf', chunked chunks')
    | none => readDatagram buf (@chunked ε chunks) = (.ok none, buf ++ chunks.flatten, []) := by
  induction chunks generalizing buf with
  | nil =>
    rw [flatten_nil, append_nil, readDatagram.eq_def]
    cases popFramedDatagram buf with
    | none => rfl
    | some r => exact ⟨r.2, [], by simp, by simp, rfl⟩
  | cons chunk chunks ih =>
    cases hp : popFramedDatagram buf with
    | some r =>
      rw [pop_append hp, readDatagram.eq_def, hp]
      exact ⟨r.2, chunk :: chunks, hne, rfl, rfl⟩
    | none =>
      have hch : chunk.length ≠ 0 := fun h => hne chunk (by simp) (length_eq_zero_iff.1 h)
      have hr : readDatagram buf (@chunked ε (chunk :: chunks)) =
          readDatagram (buf ++ chunk) (chunked chunks) := by
        rw [readDatagram.eq_def, hp]
        exact if_neg hch
      rw [hr, flatten_cons, ← append_assoc]
      exact ih fun c hc => hne c (by simp [hc])

/-- Where no datagram is left, there will be none. -/
theorem readDatagrams_none {buf : Bytes} {chunks : List Bytes} (hne : ∀ c ∈ chunks, c ≠ [])
    (hp : popFramedDatagram (buf ++ chunks.flatten) = none) (n : ℕ) :
    readDatagrams n buf (@chunked ε chunks) = List.replicate n (.ok none) := by
  induction n generalizing buf chunks with
  | zero => rfl
  | succ n ih =>
    have hr := @readDatagram_eq ε buf chunks hne
    rw [hp] at hr
    rw [readDatagrams, hr, replicate_succ]
    exact congrArg _ (@ih _ [] (by simp) (by simpa using hp))

/-- What the calls return on a part of the stream. -/
theorem readDatagrams_eq (ds : List Bytes) (hds : ∀ d ∈ ds, d.length ≤ maxFramePayload) (cut : ℕ)
    {buf : Bytes} {chunks : List Bytes} (hne : ∀ c ∈ chunks, c ≠ [])
    (hs : buf ++ chunks.flatten = (ds.flatMap frame).take cut) :
    ∃ m, IsGreatest {m | m ≤ ds.length ∧ ((ds.take m).flatMap frame).length ≤ cut} m ∧
      ∀ n, readDatagrams (m + n) buf (@chunked ε chunks) =
        (ds.take m).map (fun d => .ok (some d)) ++ List.replicate n (.ok none) := by
  induction ds generalizing cut buf chunks with
  | nil =>
    refine ⟨0, ⟨⟨le_rfl, by simp⟩, fun m hm => hm.1⟩, fun n => ?_⟩
    rw [Nat.zero_add, readDatagrams_none hne (by rw [hs]; simp [popFramedDatagram, lenPrefix])]
    rfl
  | cons d ds ih =>
    have hd := hds d (by simp)
    by_cases hct : cut < (frame d).length
    · refine ⟨0, ⟨⟨Nat.zero_le _, by simp⟩, fun m hm => ?_⟩, fun n => ?_⟩
      · cases m with
        | zero => exact le_rfl
        | succ m =>
          have := hm.2
          rw [take_succ_cons, flatMap_cons, length_append] at this
          omega
      · have hp : (frame d ++ ds.flatMap frame).take cut = (frame d).take cut :=
          take_append_of_le_length (Nat.le_of_lt hct)
        rw [Nat.zero_add, readDatagrams_none hne]
        · rfl
        · rw [hs, flatMap_cons, hp]
          refine pop_part hd ⟨_, take_append_drop _ _⟩ ?_
          rw [length_take]
          omega
    · have hw : (frame d ++ ds.flatMap frame).take cut =
          frame d ++ (ds.flatMap frame).take (cut - (frame d).length) := by
        rw [take_append, take_of_length_le (Nat.not_lt.1 hct)]
      rw [flatMap_cons, hw] at hs
      have hr := @readDatagram_eq ε buf chunks hne
      rw [hs, pop_frame hd] at hr
      obtain ⟨buf', chunks', hne', hrs, hr⟩ := hr
      obtain ⟨m, ⟨hm, hgr⟩, hc⟩ := ih (fun d hd => hds d (by simp [hd])) _ hne' hrs
      refine ⟨m + 1, ⟨⟨Nat.succ_le_succ hm.1, ?_⟩, fun m' hm' => ?_⟩, fun n => ?_⟩
      · have := hm.2
        rw [take_succ_cons, flatMap_cons, length_append]
        omega
      · cases m' with
        | zero => exact Nat.zero_le _
        | succ m' =>
          have := hm'.2
          rw [take_succ_cons, flatMap_cons, length_append] at this
          exact Nat.succ_le_succ (hgr ⟨Nat.le_of_succ_le_succ hm'.1, by omega⟩)
      · rw [Nat.add_right_comm, readDatagrams, hr, take_succ_cons, map_cons, cons_append, ← hc n]

theorem encodeDatagrams_eq {ds : List Bytes} (hds : ∀ d ∈ ds, d.length ≤ maxFramePayload) :
    encodeDatagrams ds = .ok (ds.flatMap frame) := by
  have hf (out : Bytes) : ds.foldlM encodeDatagram out = .ok (out ++ ds.flatMap frame) := by
    induction ds generalizing out with
    | nil => simp [pure, Except.pure]
    | cons d ds ih =>
      have hd : encodeDatagram out d = .ok (out ++ frame d) := by
        rw [encodeDatagram, frame, ← append_assoc]
        exact if_neg (Nat.not_lt.2 (hds d (by simp)))
      rw [foldlM_cons, hd, flatMap_cons, ← append_assoc]
      exact ih (fun d hd => hds d (by simp [hd])) _
  exact hf []

/-- **The datagrams are read back**, whatever the chunks.  Of a stream that is cut the calls return
    the longest prefix of whole datagrams, and then none. -/
theorem datagrams_read_back (ds chunks : List Bytes) (hds : ∀ d ∈ ds, d.length ≤ maxFramePayload)
    (hne : ∀ c ∈ chunks, c ≠ []) :
    ∃ stream, encodeDatagrams ds = .ok stream ∧
      (chunks.flatten = stream → ∀ n, readDatagrams (ds.length + n) [] (@chunked ε chunks) =
        ds.map (fun d => .ok (some d)) ++ List.replicate n (.ok none)) ∧
      ∀ cut, chunks.flatten = stream.take cut →
        ∃ m, IsGreatest {m | m ≤ ds.length ∧ ∃ whole, encodeDatagrams (ds.take m) = .ok whole ∧
            whole.length ≤ cut} m ∧
          ∀ n, readDatagrams (m + n) [] (@chunked ε chunks) =
            (ds.take m).map (fun d => .ok (some d)) ++ List.replicate n (.ok none) := by
  refine ⟨_, encodeDatagrams_eq hds, fun ha => ?_, fun cut hct => ?_⟩
  · obtain ⟨m, ⟨hm, hgr⟩, hc⟩ := @readDatagrams_eq ε ds hds (ds.flatMap frame).length []
      chunks hne (by rw [take_length]; exact ha)
    have hln : m = ds.length :=
      le_antisymm hm.1 (hgr ⟨le_rfl, by rw [take_length]⟩)
    rw [hln, take_length] at hc
    exact hc
  · obtain ⟨m, hm, hc⟩ := @readDatagrams_eq ε ds hds cut [] chunks hne hct
    refine ⟨m, ?_, hc⟩
    convert hm using 3 with m'
    rw [encodeDatagrams_eq fun d hd => hds d (mem_of_mem_take hd)]
    simp

end

/-- Two datagrams in four chunks, the second one of them empty. -/
theorem datagrams_read_back_four :
    readDatagrams 3 [] (@chunked Unit [[0], [2, 7], [8, 0], [0]]) =
      [.ok (some [7, 8]), .ok (some []), .ok none] := by
  obtain ⟨stream, hs, hr, -⟩ :=
    @datagrams_read_back Unit [[7, 8], []] [[0], [2, 7], [8, 0], [0]] (by decide) (by decide)
  refine hr ?_ 1
  rw [encodeDatagrams_eq (by decide)] at hs
  cases hs
  decide +kernel

end Ferrum.Mesh
