/-
  The chunked scanner reads chunked bodies.

  * `feed_chunkLine`, `feed_data`, `feed_chunk`, `feed_trailer`: the parts of a body.
  * `feed_chunkedBody`: fed a chunked body, the scanner is done at its last byte.
-/
import Ferrum.Framing.Requests

namespace Ferrum.Framing

open Lib List

namespace ChunkedScanner

variable {c : ChunkedScanner} {b : UInt8}

theorem feedByte_next (hs : ∀ remaining, c.state ≠ .data remaining) : c.feedByte b = c.next b := by
  rw [feedByte]
  split
  · next h => exact absurd h (hs 0)
  · next remaining h => exact absurd h (hs _)
  · rfl

/-! ## The line of a chunk -/

theorem feed_digits {digits : Bytes} (hs : c.state = .size)
    (hh : ∀ b ∈ digits, (hexValue b).isSome)
    (hbn : digits.foldl (fun n b => n * 16 + (hexValue b).getD 0) c.chunkSize < 2 ^ 64) :
    feed feedByte c digits = .more { c with
      chunkSize := digits.foldl (fun n b => n * 16 + (hexValue b).getD 0) c.chunkSize } := by
  induction digits generalizing c with
  | nil => rfl
  | cons b digits ih =>
    obtain ⟨hb, hh⟩ := forall_mem_cons.1 hh
    obtain ⟨value, hv⟩ := Option.isSome_iff_exists.1 hb
    rw [foldl_cons, hv, Option.getD_some] at hbn ⊢
    have hst : c.feedByte b = .more { c with chunkSize := c.chunkSize * 16 + value } := by
      rw [feedByte_next (by simp [hs]), next, hs]
      simp only [hv]
      exact if_pos (lt_of_le_of_lt (le_foldl_digits (by decide) _ digits _) hbn)
    rw [feed_cons hst]
    exact ih (c := { c with chunkSize := c.chunkSize * 16 + value }) hs hh hbn

theorem feed_space {space : Bytes} (hst : c.state = .size ∨ c.state = .sizeLws)
    (hs : ∀ b ∈ space, isOws b) :
    ∃ state, (state = .size ∨ state = .sizeLws) ∧
      feed feedByte c space = .more { c with state } := by
  induction space generalizing c with
  | nil => exact ⟨c.state, hst, rfl⟩
  | cons b space ih =>
    obtain ⟨hb, hs⟩ := forall_mem_cons.1 hs
    rw [isOws, Bool.or_eq_true, beq_iff_eq, beq_iff_eq] at hb
    have hsp : c.feedByte b = .more { c with state := .sizeLws } := by
      have hh : hexValue b = none := by rcases hb with rfl | rfl <;> decide
      obtain ⟨state, chunkSize, extensionBytes, trailerBytes⟩ := c
      rcases hst with rfl | rfl <;> simp [feedByte, next, hh, hb]
    obtain ⟨state, hsz, hf⟩ := ih (c := { c with state := .sizeLws }) (.inr rfl) hs
    exact ⟨state, hsz, (feed_cons hsp).trans hf⟩

variable {text : Bytes} {l : ChunkLine}

theorem feed_extension (hs : c.state = .extension) (hp : byte '\r' ∉ text ∧ byte '\n' ∉ text)
    (hr : c.extensionBytes + text.length < chunkExtensionLimit) :
    feed feedByte c text = .more { c with extensionBytes := c.extensionBytes + text.length } := by
  induction text generalizing c with
  | nil => rfl
  | cons b text ih =>
    rw [mem_cons, not_or, mem_cons, not_or] at hp
    rw [length_cons] at hr
    have hst : c.feedByte b = .more { c with extensionBytes := c.extensionBytes + 1 } := by
      rw [feedByte_next (by simp [hs]), next, hs]
      simp only
      rw [if_neg (Ne.symm hp.1.1), if_neg (Ne.symm hp.2.1), if_neg (by omega)]
    rw [feed_cons hst, ih (c := { c with extensionBytes := c.extensionBytes + 1 }) hs ⟨hp.1.2,
      hp.2.2⟩ (by simp only; omega), length_cons, Nat.add_comm text.length, ← Nat.add_assoc]

/-- The state after the line of a chunk. -/
def dataState (size : ℕ) : ChunkState := if size = 0 then .endCr else .data size

theorem feed_lineEnd (hs : c.state = .size ∨ c.state = .sizeLws ∨ c.state = .extension) :
    feed feedByte c crlf = .more { c with state := dataState c.chunkSize } := by
  have hcr : c.feedByte (byte '\r') = .more { c with state := .sizeLf } := by
    obtain ⟨state, chunkSize, extensionBytes, trailerBytes⟩ := c
    have hh : hexValue (byte '\r') = none := by decide
    have ho : ¬ (byte '\r' = byte ' ' ∨ byte '\r' = byte '\t') := by decide
    have hsm : byte '\r' ≠ byte ';' := by decide
    rcases hs with rfl | rfl | rfl <;> simp [feedByte, next, hh, ho, hsm]
  have hlf : ({ c with state := .sizeLf } : ChunkedScanner).feedByte (byte '\n') =
      .more { c with state := dataState c.chunkSize } := by
    rw [feedByte_next (by simp), next]
    simp only [ne_eq, not_true_eq_false, if_false, dataState]
    split_ifs <;> rfl
  rw [crlf, LineEnd.bytes, feed_cons hcr, feed_singleton, hlf]

theorem feed_lineRest (hst : c.state = .size)
    (hr : c.extensionBytes + l.extensionBytes < chunkExtensionLimit) :
    feed feedByte c (l.space ++ l.extension.elim [] (byte ';' :: ·) ++ crlf) = .more { c with
      state := dataState c.chunkSize
      extensionBytes := c.extensionBytes + l.extensionBytes } := by
  obtain ⟨state, hs, hsp⟩ := feed_space (.inl hst) l.blank
  rw [append_assoc, feed_append hsp]
  rw [ChunkLine.extensionBytes] at hr ⊢
  cases he : l.extension with
  | none => exact feed_lineEnd (c := { c with state }) (hs.imp_right .inl)
  | some text =>
    rw [he] at hr
    have hsm : ({ c with state } : ChunkedScanner).feedByte (byte ';') =
        .more { c with state := .extension } := by
      have hh : hexValue (byte ';') = none := by decide
      have ho : ¬ (byte ';' = byte ' ' ∨ byte ';' = byte '\t') := by decide
      rcases hs with rfl | rfl <;> simp [feedByte, next, hh, ho]
    have ht := feed_extension (c := { c with state := .extension }) rfl
      (l.plain text (Option.mem_def.2 he)) hr
    show feed feedByte _ (byte ';' :: (text ++ crlf)) = _
    rw [feed_cons hsm, feed_append ht]
    exact feed_lineEnd (.inr (.inr rfl))

theorem feed_chunkLine (hs : c.state = .sizeStart)
    (hr : c.extensionBytes + l.extensionBytes < chunkExtensionLimit) :
    feed feedByte c l.bytes = .more { c with
      state := dataState l.size
      chunkSize := l.size
      extensionBytes := c.extensionBytes + l.extensionBytes } := by
  obtain ⟨b, digits, hd⟩ := exists_cons_of_ne_nil l.hex.1
  have hh := l.hex.2
  have hbn := l.bounded
  have hsz : l.size = hexNat (b :: digits) := by rw [ChunkLine.size, hd]
  rw [hd] at hh hbn
  obtain ⟨hb, hh⟩ := forall_mem_cons.1 hh
  obtain ⟨value, hv⟩ := Option.isSome_iff_exists.1 hb
  rw [hexNat, foldl_cons, hv, Option.getD_some, Nat.zero_mul, Nat.zero_add] at hbn hsz
  have hf : c.feedByte b = .more { c with chunkSize := value, state := .size } := by
    rw [feedByte_next (by simp [hs]), next, hs]
    simp only [hv]
  have hrs := feed_digits (c := { c with chunkSize := value, state := .size }) rfl hh hbn
  rw [ChunkLine.bytes, hd, append_assoc, append_assoc, cons_append,
    feed_cons hf, feed_append hrs, ← append_assoc, hsz]
  exact feed_lineRest rfl hr

/-! ## Chunks -/

theorem feed_data {data : Bytes} (hs : c.state = .data data.length) (hne : data ≠ []) :
    feed feedByte c data = .more { c with state := .dataCr } := by
  induction data generalizing c with
  | nil => exact absurd rfl hne
  | cons b data ih =>
    have hst : c.feedByte b = .more (c.skipData data.length) := by
      rw [feedByte, hs, length_cons]
    rw [feed_cons hst]
    cases data with
    | nil => rfl
    | cons b' data =>
      exact ih (skipData_state (Nat.succ_ne_zero data.length)) (cons_ne_nil _ _)

theorem feed_dataEnd (hs : c.state = .dataCr) :
    feed feedByte c crlf = .more { c with chunkSize := 0, state := .sizeStart } := by
  have hcr : c.feedByte (byte '\r') = .more { c with state := .dataLf } := by
    rw [feedByte_next (by simp [hs]), next, hs]
    exact if_pos rfl
  rw [crlf, LineEnd.bytes, feed_cons hcr, feed_singleton]
  rfl

/-- **A chunk** is read. -/
theorem feed_chunk (chunk : Chunk) (hs : c.state = .sizeStart)
    (hr : c.extensionBytes + chunk.line.extensionBytes < chunkExtensionLimit) :
    feed feedByte c chunk.bytes = .more { c with
      chunkSize := 0
      extensionBytes := c.extensionBytes + chunk.line.extensionBytes } := by
  have hsz : dataState chunk.line.size = .data chunk.data.length := by
    rw [chunk.sized]
    exact if_neg (length_pos_iff.2 chunk.nonempty).ne'
  have hln := feed_chunkLine (l := chunk.line) hs hr
  rw [hsz] at hln
  rw [Chunk.bytes, append_assoc, feed_append hln, feed_append (feed_data rfl chunk.nonempty),
    feed_dataEnd rfl, ← hs]

theorem feed_chunks (chunks : List Chunk) (hs : c.state = .sizeStart)
    (hr : c.extensionBytes + (chunks.map fun chunk => chunk.line.extensionBytes).sum <
      chunkExtensionLimit) :
    ∃ size, feed feedByte c (chunks.flatMap Chunk.bytes) = .more { c with
      chunkSize := size
      extensionBytes :=
        c.extensionBytes + (chunks.map fun chunk => chunk.line.extensionBytes).sum } := by
  induction chunks generalizing c with
  | nil => exact ⟨c.chunkSize, rfl⟩
  | cons chunk chunks ih =>
    rw [map_cons, sum_cons, ← Nat.add_assoc] at hr ⊢
    have hc := feed_chunk chunk hs (by omega)
    obtain ⟨size, hrs⟩ := ih (c := { c with
      chunkSize := 0
      extensionBytes := c.extensionBytes + chunk.line.extensionBytes }) hs hr
    exact ⟨size, (feed_append hc).trans hrs⟩

/-! ## Trailers -/

theorem feed_trailerText (hs : c.state = .trailer) (hcr : byte '\r' ∉ text)
    (hr : c.trailerBytes + text.length < hyperTrailerLimit) :
    feed feedByte c text = .more { c with trailerBytes := c.trailerBytes + text.length } := by
  induction text generalizing c with
  | nil => rfl
  | cons b text ih =>
    rw [mem_cons, not_or] at hcr
    rw [length_cons] at hr
    have hst : c.feedByte b = .more { c with trailerBytes := c.trailerBytes + 1 } := by
      rw [feedByte_next (by simp [hs]), next, hs]
      simp only
      rw [if_neg (by omega), if_neg (Ne.symm hcr.1)]
    rw [feed_cons hst, ih (c := { c with trailerBytes := c.trailerBytes + 1 }) hs hcr.2
      (by simp only; omega), length_cons, Nat.add_comm text.length, ← Nat.add_assoc]

theorem feed_trailerEnd (hs : c.state = .trailer)
    (hr : c.trailerBytes + 1 < hyperTrailerLimit) :
    feed feedByte c crlf =
      .more { c with trailerBytes := c.trailerBytes + 1, state := .endCr } := by
  have hcr : c.feedByte (byte '\r') =
      .more { c with trailerBytes := c.trailerBytes + 1, state := .trailerLf } := by
    rw [feedByte_next (by simp [hs]), next, hs]
    exact (if_neg (Nat.not_le.2 hr)).trans (if_pos rfl)
  rw [crlf, LineEnd.bytes, feed_cons hcr, feed_singleton]
  rfl

/-- **A trailer** is read. -/
theorem feed_trailer (hs : c.state = .endCr) (hne : text ≠ []) (hcr : byte '\r' ∉ text)
    (hr : c.trailerBytes + (text.length + 1) < hyperTrailerLimit) :
    feed feedByte c (text ++ crlf) =
      .more { c with trailerBytes := c.trailerBytes + (text.length + 1) } := by
  obtain ⟨b, rest, rfl⟩ := exists_cons_of_ne_nil hne
  rw [mem_cons, not_or] at hcr
  rw [length_cons] at hr ⊢
  have hf : c.feedByte b =
      .more { c with trailerBytes := c.trailerBytes + 1, state := .trailer } := by
    rw [feedByte_next (by simp [hs]), next, hs]
    exact if_neg (Ne.symm hcr.1)
  have ht := feed_trailerText
    (c := { c with trailerBytes := c.trailerBytes + 1, state := .trailer }) rfl hcr.2
    (by simp only; omega)
  rw [cons_append, feed_cons hf, feed_append ht, feed_trailerEnd rfl (by simp only; omega), ← hs]
  simp only [Nat.add_comm 1, Nat.add_assoc]

theorem feed_trailers {trailers : List Bytes} (hs : c.state = .endCr)
    (ht : ∀ t ∈ trailers, t ≠ [] ∧ byte '\r' ∉ t)
    (hr : c.trailerBytes + (trailers.map fun t => t.length + 1).sum < hyperTrailerLimit) :
    feed feedByte c (trailers.flatMap (· ++ crlf)) = .more { c with
      trailerBytes := c.trailerBytes + (trailers.map fun t => t.length + 1).sum } := by
  induction trailers generalizing c with
  | nil => rfl
  | cons t trailers ih =>
    obtain ⟨⟨hne, hcr⟩, ht⟩ := forall_mem_cons.1 ht
    rw [map_cons, sum_cons, ← Nat.add_assoc] at hr ⊢
    have hf := feed_trailer hs hne hcr (by omega)
    exact (feed_append hf).trans
      (ih (c := { c with trailerBytes := c.trailerBytes + (t.length + 1) }) hs ht hr)

theorem feed_end (hs : c.state = .endCr) : feed feedByte c crlf = .done () := by
  have hcr : c.feedByte (byte '\r') = .more { c with state := .endLf } := by
    rw [feedByte_next (by simp [hs]), next, hs]
    exact if_pos rfl
  rw [crlf, LineEnd.bytes, feed_cons hcr, feed_singleton]
  rfl

/-- **A chunked body is read**: the scanner is done at its last byte. -/
theorem feed_chunkedBody (body : ChunkedBody) : feed feedByte {} body.bytes = .done () := by
  have hf := body.extensionsFit
  obtain ⟨size, hc⟩ := feed_chunks (c := {}) body.chunks rfl (by simp only; omega)
  have hls := feed_chunkLine (l := body.last) (c := { ({} : ChunkedScanner) with
    chunkSize := size
    extensionBytes := 0 + (body.chunks.map fun chunk => chunk.line.extensionBytes).sum }) rfl
    (by simp only [Nat.zero_add]; exact hf)
  have he : dataState body.last.size = .endCr := if_pos body.final
  have ht := feed_trailers (c := { ({} : ChunkedScanner) with
    state := dataState body.last.size
    chunkSize := body.last.size
    extensionBytes := 0 + (body.chunks.map fun chunk => chunk.line.extensionBytes).sum +
      body.last.extensionBytes }) he body.text (by simp only [Nat.zero_add]; exact body.trailersFit)
  rw [ChunkedBody.bytes, append_assoc, append_assoc, feed_append hc,
    feed_append hls, feed_append ht, feed_end he]

end ChunkedScanner

end Ferrum.Framing
