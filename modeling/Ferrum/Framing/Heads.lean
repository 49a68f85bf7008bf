/-
  The head scanner reads the heads of requests.

  * `feed_line`: a line is fed as its text, whatever its line end is.
  * `AtLine`: the scanner between two header lines, after some fields.
  * `AtLine.field`: one field; `AtLine.all`: all fields.
  * `feed_head`: fed the head of a request, the scanner is done at its last byte and has the decision
    for the head and the framing of the body.
-/
import Ferrum.Framing.Requests

namespace Ferrum.Framing

open Lib List LineEnd

namespace HeadScanner

/-- The scanner goes on, is done, or gives up. -/
def fed (observed : HeadObserved) : Fed HeadScanner HeadOutcome :=
  match observed.step with
  | .continue_ => .more observed.head
  | .complete outcome => .done outcome
  | .disable => .failed

def feedByte (h : HeadScanner) (b : UInt8) : Fed HeadScanner HeadOutcome := fed (h.observe b)

/-! ## Lines -/

/-- The scanner with another number of bytes seen. -/
def seen (h : HeadScanner) (n : ℕ) : HeadScanner := { h with bytesSeen := n }

/-- The scanner within a line, after the text `text`. -/
def lineBytes (h : HeadScanner) (text : Bytes) : HeadScanner := text.foldl observeLineByte h

variable {h : HeadScanner} {b : UInt8} {text : Bytes} {n : ℕ}

theorem observeLineByte_seen (h : HeadScanner) (n : ℕ) (b : UInt8) :
    (h.seen n).observeLineByte b = (h.observeLineByte b).seen n := by
  unfold observeLineByte observeColon pushTail seen
  dsimp only
  split_ifs <;> first | rfl | (cases h.currentHeader <;> rfl)

theorem observeLineByte_frame (h : HeadScanner) (b : UInt8) :
    (h.observeLineByte b).maxBytes = h.maxBytes ∧ (h.observeLineByte b).bytesSeen = h.bytesSeen ∧
      (h.observeLineByte b).pendingCr = h.pendingCr := by
  unfold observeLineByte observeColon pushTail
  dsimp only
  split_ifs <;> first | exact ⟨rfl, rfl, rfl⟩ | (cases h.currentHeader <;> exact ⟨rfl, rfl, rfl⟩)

section
variable (hp : h.pendingCr = false) (hr : h.bytesSeen < h.maxBytes)
include hp hr

theorem observe_noPending : h.observe b = (h.seen (h.bytesSeen + 1)).observeByte b :=
  (if_neg (Nat.not_lt.2 hr)).trans (if_neg fun h' => Bool.false_ne_true (hp.symm.trans h'))

theorem feedByte_text (hcr : b ≠ byte '\r') (hlf : b ≠ byte '\n') :
    h.feedByte b = .more ((h.observeLineByte b).seen (h.bytesSeen + 1)) := by
  rw [feedByte, observe_noPending hp hr, observeByte, if_neg hcr, if_neg hlf, observeLineByte_seen]
  rfl

theorem feedByte_lf : h.feedByte (byte '\n') = fed (h.seen (h.bytesSeen + 1)).finishLine := by
  rw [feedByte, observe_noPending hp hr]
  rfl

/-- The scanner after a CR. -/
def pending (h : HeadScanner) : HeadScanner :=
  { h with pendingCr := true, bytesSeen := h.bytesSeen + 1 }

theorem feedByte_cr : h.feedByte (byte '\r') = .more h.pending := by
  rw [feedByte, observe_noPending hp hr]
  rfl

end

theorem unpending (hp : h.pendingCr = false) (n : ℕ) :
    { h with pendingCr := false, bytesSeen := n } = h.seen n := by
  rw [seen, hp]

theorem pending_lf (hp : h.pendingCr = false) (hr : h.bytesSeen + 1 < h.maxBytes) :
    h.pending.feedByte (byte '\n') = fed (h.seen (h.bytesSeen + 2)).finishLine := by
  have ho : h.pending.observe (byte '\n') =
      { h with pendingCr := false, bytesSeen := h.bytesSeen + 2 }.finishLine :=
    (if_neg (Nat.not_lt.2 hr)).trans ((if_pos rfl).trans (if_pos rfl))
  rw [feedByte, ho, unpending hp]

/-- A CR that does not start a line end belongs to the text. -/
theorem pending_text (hp : h.pendingCr = false) (hr : h.bytesSeen + 1 < h.maxBytes)
    (hlf : b ≠ byte '\n') :
    h.pending.feedByte b = ((h.observeLineByte (byte '\r')).seen (h.bytesSeen + 1)).feedByte b := by
  obtain ⟨hmax, -, hcr⟩ := observeLineByte_frame h (byte '\r')
  have ho : (h.pending.observe b).step =
      (((h.observeLineByte (byte '\r')).seen (h.bytesSeen + 2)).observeByte b).step ∧
      (h.pending.observe b).head =
      (((h.observeLineByte (byte '\r')).seen (h.bytesSeen + 2)).observeByte b).head := by
    rw [← observeLineByte_seen, ← unpending hp]
    have : h.pending.observe b = _ :=
      (if_neg (Nat.not_lt.2 hr)).trans ((if_pos rfl).trans (if_neg hlf))
    rw [this]
    exact ⟨rfl, rfl⟩
  have hn : ((h.observeLineByte (byte '\r')).seen (h.bytesSeen + 1)).observe b =
      ((h.observeLineByte (byte '\r')).seen (h.bytesSeen + 2)).observeByte b :=
    observe_noPending (h := (h.observeLineByte (byte '\r')).seen (h.bytesSeen + 1))
      (hcr.trans hp) (Nat.lt_of_lt_of_eq hr hmax.symm)
  rw [feedByte, feedByte, hn, fed, fed, ho.1, ho.2]

theorem lineBytes_seen (h : HeadScanner) (n : ℕ) (text : Bytes) :
    (h.seen n).lineBytes text = (h.lineBytes text).seen n := by
  induction text generalizing h with
  | nil => rfl
  | cons b text ih => exact (congrArg (lineBytes · text) (observeLineByte_seen h n b)).trans (ih _)

theorem lineText_cons (h : LineText (b :: text)) :
    LineText text ∧ b ≠ byte '\n' ∧ (text = [] → b ≠ byte '\r') := by
  obtain ⟨hlf, hcr⟩ := h
  rw [mem_cons, not_or] at hlf
  refine ⟨⟨hlf.2, ?_⟩, fun h => hlf.1 h.symm, ?_⟩
  · cases text with
    | nil => exact nofun
    | cons b' text => exact hcr
  · rintro rfl rfl
    exact hcr rfl

/-- **A line is fed** as its text, whatever its line end is. -/
theorem feed_line (hp : h.pendingCr = false) (htx : LineText text) (ending : LineEnd)
    (hr : h.bytesSeen + (text ++ ending.bytes).length ≤ h.maxBytes) :
    feed feedByte h (text ++ ending.bytes) =
      fed ((h.lineBytes text).seen (h.bytesSeen + (text ++ ending.bytes).length)).finishLine := by
  induction text generalizing h with
  | nil =>
    cases ending with
    | lf =>
      rw [nil_append, bytes, feed_singleton, feedByte_lf hp hr]
      rfl
    | crlf =>
      rw [nil_append, bytes, feed_cons (feedByte_cr hp (Nat.lt_of_succ_lt hr)), feed_singleton,
        pending_lf hp hr]
      rfl
  | cons b text ih =>
    obtain ⟨ht, hlf, hn⟩ := lineText_cons htx
    obtain ⟨hmax, hs, hcr⟩ := observeLineByte_frame h b
    rw [cons_append, length_cons] at hr ⊢
    have hsm : h.bytesSeen + 1 + (text ++ ending.bytes).length =
        h.bytesSeen + ((text ++ ending.bytes).length + 1) := by omega
    have hrs : feed feedByte ((h.observeLineByte b).seen (h.bytesSeen + 1)) (text ++ ending.bytes) =
        fed ((h.lineBytes (b :: text)).seen
          (h.bytesSeen + ((text ++ ending.bytes).length + 1))).finishLine := by
      rw [← hsm] at hr ⊢
      rw [ih (h := (h.observeLineByte b).seen (h.bytesSeen + 1)) (hcr.trans hp) ht
        (hr.trans_eq hmax.symm), lineBytes_seen]
      rfl
    by_cases hb : b = byte '\r'
    · -- the CR is pending, and the next byte shows that it is text
      subst hb
      rw [feed_cons (feedByte_cr hp (by omega)), ← hrs]
      cases text with
      | nil => exact absurd rfl (hn rfl)
      | cons b' text =>
        rw [cons_append, length_cons] at hr
        exact feed_congr (pending_text hp (by omega) (lineText_cons ht).2.1)
    · rw [feed_cons (feedByte_text hp (by omega) hb hlf), hrs]

theorem lineBytes_requestLine (hln : h.requestLine = true) (hne : text ≠ []) :
    ∃ utf8 tail len, h.lineBytes text = { h with
      lineHasData := true
      requestLineUtf8 := utf8
      requestLineTail := tail
      requestLineTailLen := len } := by
  induction text generalizing h with
  | nil => exact absurd rfl hne
  | cons b text ih =>
    obtain ⟨utf8, tail, len, hb⟩ : ∃ utf8 tail len, h.observeLineByte b = { h with
        lineHasData := true
        requestLineUtf8 := utf8
        requestLineTail := tail
        requestLineTailLen := len } := by
      rw [observeLineByte, if_pos hln, pushTail]
      split_ifs
      · exact ⟨_, _, _, rfl⟩
      · exact ⟨_, _, _, rfl⟩
    have hc : h.lineBytes (b :: text) = (h.observeLineByte b).lineBytes text := rfl
    rw [hc, hb]
    cases text with
    | nil => exact ⟨utf8, tail, len, rfl⟩
    | cons b' text => exact ih hln (cons_ne_nil _ _)

theorem lineBytes_ignored (hln : h.requestLine = false) (hd : h.lineHasData = true)
    (hi : h.conflict = true ∨ h.currentHeader = .other) : h.lineBytes text = h := by
  have hb : ∀ b, h.observeLineByte b = h := by
    intro b
    have hs : { h with lineHasData := true } = h := by rw [← hd]
    rw [observeLineByte, hs, hln, if_neg Bool.false_ne_true]
    rcases hi with hc | ho
    · rw [if_pos hc]
    · rw [ho]
      exact ite_self h
  induction text with
  | nil => rfl
  | cons b text ih => exact (congrArg (lineBytes · text) (hb b)).trans ih

theorem lineBytes_value (hli : h.requestLine = false) (hd : h.lineHasData = true)
    (hc : h.conflict = false) (hln : h.currentHeader = .contentLength) :
    h.lineBytes text =
      { h with contentLengthValue := text.foldl ContentLengthScanner.observe h.contentLengthValue } := by
  induction text generalizing h with
  | nil => rfl
  | cons b text ih =>
    have hb : h.observeLineByte b =
        { h with contentLengthValue := h.contentLengthValue.observe b } := by
      rw [observeLineByte, hli, if_neg Bool.false_ne_true, hc, if_neg Bool.false_ne_true, hln, ← hd]
    have hcn : h.lineBytes (b :: text) = (h.observeLineByte b).lineBytes text := rfl
    rw [hcn, hb]
    exact ih (h := { h with contentLengthValue := h.contentLengthValue.observe b }) hli hd
      hc hln

/-! ## Names -/

/-- The bytes agree with the pattern from `index` on. -/
def patternMatches (pattern : Bytes) : ℕ → Bytes → Bool
  | _, [] => true
  | index, b :: name => patternByteMatches pattern index b && patternMatches pattern (index + 1) name

theorem patternMatches_iff (pattern name : Bytes) {index : ℕ} (hi : index ≤ pattern.length) :
    (patternMatches pattern index name && index + name.length == pattern.length) =
      eqIgnoreAsciiCase name (pattern.drop index) := by
  induction name generalizing index with
  | nil =>
    rw [patternMatches, Bool.true_and, Bool.eq_iff_iff, beq_iff_eq, eqIgnoreAsciiCase, beq_iff_eq]
    simp only [length_nil, Nat.add_zero, toAsciiLowercase, map_nil]
    rw [eq_comm (a := []), map_eq_nil_iff, drop_eq_nil_iff]
    omega
  | cons b name ih =>
    rw [patternMatches, length_cons, ← Nat.add_assoc, Nat.add_right_comm, Bool.and_assoc]
    rcases Nat.lt_or_eq_of_le hi with hlt | rfl
    · rw [ih hlt, patternByteMatches, getElem?_eq_getElem hlt, drop_eq_getElem_cons hlt,
        Bool.eq_iff_iff]
      simp only [Option.any_some, Bool.and_eq_true, beq_iff_eq, eqIgnoreAsciiCase,
        toAsciiLowercase, map_cons, List.cons.injEq]
      exact and_congr_left' eq_comm
    · simp [patternByteMatches, eqIgnoreAsciiCase, toAsciiLowercase]

theorem lineBytes_name {name : Bytes} (hln : h.requestLine = false) (hc : h.conflict = false)
    (hn : h.currentHeader = .name) (hcl : byte ':' ∉ name) (hne : name ≠ []) :
    h.lineBytes name = { h with
      lineHasData := true
      contentLengthCandidate :=
        h.contentLengthCandidate && patternMatches contentLengthName h.nameLen name
      transferEncodingCandidate :=
        h.transferEncodingCandidate && patternMatches transferEncodingName h.nameLen name
      nameLen := h.nameLen + name.length } := by
  induction name generalizing h with
  | nil => exact absurd rfl hne
  | cons b name ih =>
    rw [mem_cons, not_or] at hcl
    have hbt : h.observeLineByte b = { h with
        lineHasData := true
        contentLengthCandidate :=
          h.contentLengthCandidate && patternByteMatches contentLengthName h.nameLen b
        transferEncodingCandidate :=
          h.transferEncodingCandidate && patternByteMatches transferEncodingName h.nameLen b
        nameLen := h.nameLen + 1 } := by
      rw [observeLineByte, hln, if_neg Bool.false_ne_true, hc, if_neg Bool.false_ne_true, hn]
      exact if_neg fun hb => hcl.1 hb.symm
    have hcn : h.lineBytes (b :: name) = (h.observeLineByte b).lineBytes name := rfl
    rw [hcn, hbt]
    cases name with
    | nil => simp [lineBytes, patternMatches]
    | cons b' name =>
      refine (ih (h := { h with
        lineHasData := true
        contentLengthCandidate := _
        transferEncodingCandidate := _
        nameLen := h.nameLen + 1 }) hln hc hn hcl.2 (cons_ne_nil _ _)).trans ?_
      simp only [patternMatches, length_cons, Bool.and_assoc, Nat.add_assoc, Nat.add_comm 1]

end HeadScanner

/-! ## The value of a Content-Length -/

namespace ContentLengthScanner

theorem isDigit_of_isOws {b : UInt8} (h : isOws b = true) : isDigit b = false := by
  rw [isOws, Bool.or_eq_true, beq_iff_eq, beq_iff_eq] at h
  rcases h with rfl | rfl <;> decide

theorem foldl_leading {before : Bytes} (h : ∀ b ∈ before, isOws b) :
    before.foldl observe {} = {} := by
  induction before with
  | nil => rfl
  | cons b before ih =>
    obtain ⟨hb, h⟩ := forall_mem_cons.1 h
    have hs : observe {} b = {} := if_pos hb
    rw [foldl_cons, hs, ih h]

variable {s : ContentLengthScanner}

theorem foldl_digits {digits : Bytes} (hp : s.phase = .leadingOws ∨ s.phase = .digits)
    (hd : ∀ b ∈ digits, isDigit b) (hne : digits ≠ [])
    (hbn : digits.foldl (fun n b => n * 10 + (b - byte '0').toNat) s.value < 2 ^ 64) :
    digits.foldl observe s =
      ⟨.digits, digits.foldl (fun n b => n * 10 + (b - byte '0').toNat) s.value⟩ := by
  induction digits generalizing s with
  | nil => exact absurd rfl hne
  | cons b digits ih =>
    obtain ⟨hb, hd⟩ := forall_mem_cons.1 hd
    have hv : s.value * 10 + (b - byte '0').toNat < 2 ^ 64 :=
      lt_of_le_of_lt (le_foldl_digits (by decide) _ digits _) hbn
    have hs : s.observe b = ⟨.digits, s.value * 10 + (b - byte '0').toNat⟩ := by
      have hdg : s.digit b = ⟨.digits, s.value * 10 + (b - byte '0').toNat⟩ := if_pos hv
      have ho : ¬ isOws b = true := fun ho => by simp [isDigit_of_isOws ho] at hb
      rw [observe]
      rcases hp with hp | hp <;> simp [hp, hb, hdg, ho]
    rw [foldl_cons, hs]
    cases digits with
    | nil => rfl
    | cons b' digits => exact ih (.inr rfl) hd (cons_ne_nil _ _) hbn

theorem foldl_trailing {after : Bytes} {n : ℕ} (hf : s.finish = some n) (h : ∀ b ∈ after, isOws b) :
    (after.foldl observe s).finish = some n := by
  induction after generalizing s with
  | nil => exact hf
  | cons b after ih =>
    obtain ⟨hb, h⟩ := forall_mem_cons.1 h
    refine ih ?_ h
    obtain ⟨phase, value⟩ := s
    have hd := isDigit_of_isOws hb
    cases phase with
    | leadingOws => cases hf
    | invalid => cases hf
    | digits => simpa [observe, hd, hb, finish] using hf
    | trailingOws => simpa [observe, hb, finish] using hf

theorem finish_value {value : Bytes} {n : ℕ} (h : ContentLengthValue value n) :
    (value.foldl observe {}).finish = some n := by
  obtain ⟨before, digits, after, rfl, hb, hd, ha, hne, rfl, hbn⟩ := h
  rw [foldl_append, foldl_append, foldl_leading hb, foldl_digits (s := {}) (.inl rfl) hd hne hbn]
  exact foldl_trailing rfl ha

end ContentLengthScanner

/-! ## Fields -/

namespace HeadScanner

/-- The scanner is at the start of a header line, after `fields`. -/
structure AtLine (h : HeadScanner) (length : ℕ) (fields : List Field) : Prop where
  requestLine : h.requestLine = false
  lineHasData : h.lineHasData = false
  pendingCr : h.pendingCr = false
  currentHeader : h.currentHeader = .name
  nameLen : h.nameLen = 0
  contentLengthCandidate : h.contentLengthCandidate = true
  transferEncodingCandidate : h.transferEncodingCandidate = true
  seenContentLength : h.seenContentLength = fields.any Field.isContentLength
  seenTransferEncoding : h.seenTransferEncoding = fields.any Field.isTransferEncoding
  conflict : h.conflict = (h.seenContentLength && h.seenTransferEncoding)
  valid : h.contentLengthValid = true
  -- after a Transfer-Encoding the lengths no longer matter
  canonical : h.seenTransferEncoding = false →
    h.canonicalContentLength = if h.seenContentLength then some length else none

/-- The scanner at the start of the next line. -/
def nextLine (h : HeadScanner) : HeadScanner :=
  { h with
    lineHasData := false
    currentHeader := .name
    nameLen := 0
    contentLengthCandidate := true
    transferEncodingCandidate := true
    requestLineTailLen := 0 }

variable {h : HeadScanner} {length : ℕ} {fields : List Field} {f : Field}

theorem fed_finishLine (hd : h.lineHasData = true) :
    fed h.finishLine = .more h.finishDataLine.1.nextLine := by
  rw [finishLine, hd]
  rfl

theorem colon_notMem (f : Field) : byte ':' ∉ f.name := by
  intro hm
  exact absurd (f.token.2 _ hm) (by decide +kernel)

theorem lf_notMem (f : Field) : byte '\n' ∉ f.name := by
  intro hm
  exact absurd (f.token.2 _ hm) (by decide +kernel)

theorem lineText_line (f : Field) : LineText f.line := by
  refine ⟨fun hm => ?_, ?_⟩
  · rcases mem_append.1 hm with hm | hm
    · exact lf_notMem f hm
    · exact (mem_cons.1 hm).elim (by decide) f.text.1
  · rw [Field.line, getLast?_append]
    cases hv : f.value with
    | nil =>
      have hc : byte ':' ≠ byte '\r' := by decide
      simpa using hc
    | cons b value =>
      have := f.text.2
      rw [hv] at this
      rw [getLast?_cons_cons]
      simpa [getLast?_cons] using this

theorem contentLength_ne_transferEncoding (h : f.isContentLength = true) :
    f.isTransferEncoding = false := by
  rw [Field.isContentLength, eqIgnoreAsciiCase, beq_iff_eq] at h
  rw [Field.isTransferEncoding, eqIgnoreAsciiCase, h]
  decide +kernel

/-- The scanner is at the value of the field `f`. -/
structure AtValue (h k : HeadScanner) (f : Field) : Prop where
  requestLine : k.requestLine = false
  lineHasData : k.lineHasData = true
  pendingCr : k.pendingCr = false
  currentHeader : k.currentHeader = if f.isContentLength then .contentLength else .other
  value : f.isContentLength = true → k.contentLengthValue = {}
  seenContentLength : k.seenContentLength = (h.seenContentLength || f.isContentLength)
  seenTransferEncoding : k.seenTransferEncoding = (h.seenTransferEncoding || f.isTransferEncoding)
  conflict : k.conflict = (k.seenContentLength && k.seenTransferEncoding)
  valid : k.contentLengthValid = true
  canonical : k.canonicalContentLength = h.canonicalContentLength

theorem AtLine.colon (hat : h.AtLine length fields) (hc : h.conflict = false) :
    h.AtValue (h.lineBytes (f.name ++ [byte ':'])) f := by
  have hln : (patternMatches contentLengthName 0 f.name &&
      0 + f.name.length == contentLengthName.length) = f.isContentLength :=
    patternMatches_iff contentLengthName f.name (Nat.zero_le _)
  have he : (patternMatches transferEncodingName 0 f.name &&
      0 + f.name.length == transferEncodingName.length) = f.isTransferEncoding :=
    patternMatches_iff transferEncodingName f.name (Nat.zero_le _)
  have hn := lineBytes_name hat.requestLine hc hat.currentHeader (colon_notMem f) f.token.1
  rw [hat.nameLen, hat.contentLengthCandidate, hat.transferEncodingCandidate, Bool.true_and,
    Bool.true_and] at hn
  have hcn : h.lineBytes (f.name ++ [byte ':']) = (h.lineBytes f.name).observeColon := by
    rw [lineBytes, foldl_append]
    show (h.lineBytes f.name).observeLineByte (byte ':') = _
    rw [hn, observeLineByte]
    simp only [hat.requestLine, hc, hat.currentHeader, Bool.false_eq_true, if_false, if_true]
  rw [hcn, hn, observeColon]
  simp only [hln, he]
  cases hcl : f.isContentLength with
  | true =>
    exact ⟨hat.requestLine, rfl, hat.pendingCr, (if_pos hcl).symm, fun _ => rfl, by simp [hcl],
      by simp [contentLength_ne_transferEncoding hcl], rfl, hat.valid, rfl⟩
  | false =>
    have hne : ¬ f.isContentLength = true := Bool.not_eq_true _ ▸ hcl
    exact ⟨hat.requestLine, rfl, hat.pendingCr, (if_neg hne).symm, fun h' => absurd h' hne,
      by simp [hcl], rfl, rfl, hat.valid, rfl⟩

variable {k : HeadScanner} {max : ℕ}

/-- A line goes on with a value that matters. -/
theorem AtValue.finish_read (hat : h.AtLine length fields) (hk : h.AtValue k f)
    (hv : ContentLengthValue f.value length) (hcl : f.isContentLength = true)
    (hc : k.conflict = false) (n : ℕ) :
    ((k.lineBytes f.value).seen n).finishDataLine.1 = { k with
      contentLengthValue := f.value.foldl ContentLengthScanner.observe {}
      bytesSeen := n
      canonicalContentLength := some length } := by
  have hh : k.currentHeader = .contentLength := hk.currentHeader.trans (if_pos hcl)
  have he : h.seenTransferEncoding = false := by
    rw [hk.conflict, hk.seenContentLength, hk.seenTransferEncoding, hcl] at hc
    simpa [contentLength_ne_transferEncoding hcl] using hc
  have hcn : (k.canonicalContentLength.isNone ||
      k.canonicalContentLength == some length) = true := by
    rw [hk.canonical, hat.canonical he]
    cases h.seenContentLength <;> simp
  have hln : ¬ k.requestLine = true := by simp [hk.requestLine]
  rw [lineBytes_value hk.requestLine hk.lineHasData hc hh, hk.value hcl, finishDataLine]
  refine (congrArg Prod.fst ((if_neg hln).trans (if_pos ⟨hh, hc⟩))).trans ?_
  simp only [finishContentLength, seen, ContentLengthScanner.finish_value hv]
  exact congrArg Prod.fst (if_pos hcn)

/-- A line goes on with a value that does not matter. -/
theorem AtValue.finish_ignored (hk : h.AtValue k f)
    (hr : ¬ (f.isContentLength = true ∧ k.conflict = false)) (n : ℕ) :
    ((k.lineBytes f.value).seen n).finishDataLine.1 = k.seen n := by
  have hh : k.currentHeader = .contentLength → f.isContentLength = true := by
    intro hh
    by_contra hcl
    rw [hk.currentHeader, if_neg hcl] at hh
    cases hh
  have hs : k.lineBytes f.value = k := by
    refine lineBytes_ignored hk.requestLine hk.lineHasData ?_
    rcases Bool.eq_false_or_eq_true k.conflict with hc | hc
    · exact .inl hc
    · exact .inr (hk.currentHeader.trans (if_neg fun hcl => hr ⟨hcl, hc⟩))
  have hln : ¬ k.requestLine = true := by simp [hk.requestLine]
  rw [hs, finishDataLine]
  exact congrArg Prod.fst ((if_neg hln).trans (if_neg fun h' => hr ⟨hh h'.1, h'.2⟩))

theorem AtValue.finish (hat : h.AtLine length fields) (hk : h.AtValue k f)
    (hv : f.isContentLength = true → ContentLengthValue f.value length) (n : ℕ) :
    ((k.lineBytes f.value).seen n).finishDataLine.1.nextLine.AtLine length (fields ++ [f]) := by
  have hsn : k.seenContentLength = (fields ++ [f]).any Field.isContentLength := by
    rw [hk.seenContentLength, hat.seenContentLength, any_append, any_cons, any_nil, Bool.or_false]
  have hs : k.seenTransferEncoding = (fields ++ [f]).any Field.isTransferEncoding := by
    rw [hk.seenTransferEncoding, hat.seenTransferEncoding, any_append, any_cons,
      any_nil, Bool.or_false]
  by_cases hr : f.isContentLength = true ∧ k.conflict = false
  · rw [hk.finish_read hat (hv hr.1) hr.1 hr.2]
    refine ⟨hk.requestLine, rfl, hk.pendingCr, rfl, rfl, rfl, rfl, hsn, hs,
      hk.conflict, hk.valid, fun _ => (if_pos ?_).symm⟩
    exact hk.seenContentLength.trans (by simp [hr.1])
  · rw [hk.finish_ignored hr]
    refine ⟨hk.requestLine, rfl, hk.pendingCr, rfl, rfl, rfl, rfl, hsn, hs,
      hk.conflict, hk.valid, fun he => ?_⟩
    have he : k.seenTransferEncoding = false := he
    have hcl : f.isContentLength = false := by
      by_contra hcl
      exact hr ⟨Bool.not_eq_false _ ▸ hcl, by rw [hk.conflict, he, Bool.and_false]⟩
    rw [hk.seenTransferEncoding, Bool.or_eq_false_iff] at he
    show k.canonicalContentLength = if k.seenContentLength then some length else none
    rw [hk.canonical, hat.canonical he.1, hk.seenContentLength, hcl, Bool.or_false]

theorem observeLineByte_data (h : HeadScanner) (b : UInt8) :
    (h.observeLineByte b).lineHasData = true := by
  unfold observeLineByte observeColon pushTail
  dsimp only
  split_ifs <;> first | rfl | (cases h.currentHeader <;> rfl)

theorem lineBytes_frame (h : HeadScanner) (text : Bytes) :
    (h.lineBytes text).maxBytes = h.maxBytes ∧
      (text ≠ [] → (h.lineBytes text).lineHasData = true) := by
  induction text generalizing h with
  | nil => exact ⟨rfl, fun h' => absurd rfl h'⟩
  | cons b text ih =>
    obtain ⟨hmax, hd⟩ := ih (h.observeLineByte b)
    refine ⟨hmax.trans (observeLineByte_frame h b).1, fun _ => ?_⟩
    cases text with
    | nil => exact observeLineByte_data h b
    | cons b' text => exact hd (cons_ne_nil _ _)

theorem finishDataLine_frame (h : HeadScanner) :
    h.finishDataLine.1.maxBytes = h.maxBytes ∧ h.finishDataLine.1.bytesSeen = h.bytesSeen := by
  unfold finishDataLine finishContentLength
  split
  · exact ⟨rfl, rfl⟩
  · split
    · split
      · split
        · exact ⟨rfl, rfl⟩
        · exact ⟨rfl, rfl⟩
      · exact ⟨rfl, rfl⟩
    · exact ⟨rfl, rfl⟩

/-- The scanner after a line with text. -/
def afterLine (h : HeadScanner) (text : Bytes) (n : ℕ) : HeadScanner :=
  ((h.lineBytes text).seen n).finishDataLine.1.nextLine

theorem afterLine_frame (h : HeadScanner) (text : Bytes) (n : ℕ) :
    (h.afterLine text n).maxBytes = h.maxBytes ∧ (h.afterLine text n).bytesSeen = n := by
  obtain ⟨hmax, hs⟩ := finishDataLine_frame ((h.lineBytes text).seen n)
  exact ⟨hmax.trans (lineBytes_frame h text).1, hs⟩

theorem feed_dataLine {text : Bytes} {ending : LineEnd} (hp : h.pendingCr = false)
    (ht : LineText text) (hne : text ≠ [])
    (hr : h.bytesSeen + (text ++ ending.bytes).length ≤ h.maxBytes) :
    feed feedByte h (text ++ ending.bytes) =
      .more (h.afterLine text (h.bytesSeen + (text ++ ending.bytes).length)) := by
  rw [feed_line hp ht ending hr]
  exact fed_finishLine (h := (h.lineBytes text).seen _) ((lineBytes_frame h text).2 hne)

theorem AtLine.skip (hat : h.AtLine length fields) (hc : h.conflict = true) (n : ℕ) :
    (h.afterLine f.line n).AtLine length (fields ++ [f]) := by
  obtain ⟨b, rest, hln⟩ : ∃ b rest, f.line = b :: rest :=
    exists_cons_of_ne_nil (append_ne_nil_of_right_ne_nil _ (cons_ne_nil _ _))
  have hb : h.observeLineByte b = { h with lineHasData := true } := by
    rw [observeLineByte, hat.requestLine, if_neg Bool.false_ne_true]
    exact if_pos hc
  have hsm : h.lineBytes f.line = { h with lineHasData := true } := by
    rw [hln]
    show (h.observeLineByte b).lineBytes rest = _
    rw [hb]
    exact lineBytes_ignored (h := { h with lineHasData := true }) hat.requestLine rfl (.inl hc)
  have hf : ((h.lineBytes f.line).seen n).finishDataLine.1 =
      { h with lineHasData := true, bytesSeen := n } := by
    have hln : ¬ h.requestLine = true := by simp [hat.requestLine]
    have hn : ¬ (h.currentHeader = .contentLength ∧ h.conflict = false) := by
      simp [hat.currentHeader]
    rw [hsm, finishDataLine]
    exact congrArg Prod.fst ((if_neg hln).trans (if_neg hn))
  have hs : h.seenContentLength = true ∧ h.seenTransferEncoding = true := by
    rw [hat.conflict, Bool.and_eq_true] at hc
    exact hc
  rw [afterLine, hf]
  refine ⟨hat.requestLine, rfl, hat.pendingCr, rfl, rfl, rfl, rfl, ?_, ?_, hat.conflict, hat.valid,
    hat.canonical⟩
  · rw [any_append, ← hat.seenContentLength, hs.1]
    rfl
  · rw [any_append, ← hat.seenTransferEncoding, hs.2]
    rfl

/-- **One field** is read. -/
theorem AtLine.field (hat : h.AtLine length fields)
    (hv : f.isContentLength = true → ContentLengthValue f.value length) (n : ℕ) :
    (h.afterLine f.line n).AtLine length (fields ++ [f]) := by
  rcases Bool.eq_false_or_eq_true h.conflict with hc | hc
  · exact hat.skip hc n
  · have hln : h.lineBytes f.line = (h.lineBytes (f.name ++ [byte ':'])).lineBytes f.value := by
      rw [lineBytes, lineBytes, lineBytes, ← foldl_append, Field.line, append_assoc]
      rfl
    rw [afterLine, hln]
    exact (hat.colon hc).finish hat hv n

/-- **All fields** are read. -/
theorem AtLine.all (hat : h.AtLine length fields) {more : List Field}
    (hv : ∀ f ∈ more, f.isContentLength = true → ContentLengthValue f.value length)
    (hr : h.bytesSeen + (more.flatMap Field.bytes).length ≤ h.maxBytes) :
    ∃ k, feed feedByte h (more.flatMap Field.bytes) = .more k ∧ k.AtLine length (fields ++ more) ∧
      k.maxBytes = h.maxBytes ∧ k.bytesSeen = h.bytesSeen + (more.flatMap Field.bytes).length := by
  induction more generalizing h fields with
  | nil => exact ⟨h, rfl, by rwa [append_nil], rfl, rfl⟩
  | cons f more ih =>
    obtain ⟨hf, hm⟩ := forall_mem_cons.1 hv
    rw [flatMap_cons, length_append] at hr ⊢
    have hln : feed feedByte h f.bytes = .more (h.afterLine f.line (h.bytesSeen + f.bytes.length)) :=
      feed_dataLine hat.pendingCr (lineText_line f)
        (append_ne_nil_of_right_ne_nil _ (cons_ne_nil _ _))
        ((Nat.add_le_add_left (Nat.le_add_right _ _) _).trans hr)
    obtain ⟨hmax, hs⟩ := afterLine_frame h f.line (h.bytesSeen + f.bytes.length)
    obtain ⟨k, hfd, hk, hkm, hks⟩ := ih (hat.field hf _) hm
      (by rw [hmax, hs, Nat.add_assoc]; exact hr)
    refine ⟨k, (feed_append hln).trans hfd, ?_, hkm.trans hmax, ?_⟩
    · rw [append_assoc] at hk
      exact hk
    · rw [hks, hs, Nat.add_assoc]

/-! ## Heads -/

theorem feed_leading {n : ℕ} {leading : List LineEnd}
    (hr : n + (leading.flatMap bytes).length ≤ max) :
    feed feedByte (({ maxBytes := max } : HeadScanner).seen n) (leading.flatMap bytes) =
      .more (({ maxBytes := max } : HeadScanner).seen
        (n + (leading.flatMap bytes).length)) := by
  induction leading generalizing n with
  | nil => rfl
  | cons ending leading ih =>
    rw [flatMap_cons, length_append] at hr ⊢
    have hln : feed feedByte (({ maxBytes := max } : HeadScanner).seen n) ending.bytes =
        .more (({ maxBytes := max } : HeadScanner).seen (n + ending.bytes.length)) :=
      feed_line (h := ({ maxBytes := max } : HeadScanner).seen n) rfl (show LineText [] by decide)
        ending ((Nat.add_le_add_left (Nat.le_add_right _ _) _).trans hr)
    rw [feed_append hln, ih (by omega), Nat.add_assoc]

theorem atLine_requestLine {text : Bytes} (hne : text ≠ []) (m n length : ℕ) :
    ((({ maxBytes := max } : HeadScanner).seen m).afterLine text n).AtLine length [] := by
  obtain ⟨utf8, tail, len, hln⟩ :=
    lineBytes_requestLine (h := ({ maxBytes := max } : HeadScanner).seen m) rfl hne
  rw [afterLine, hln]
  exact ⟨rfl, rfl, rfl, rfl, rfl, rfl, rfl, rfl, rfl, rfl, rfl, fun _ => rfl⟩

/-- The head up to the end of the request line. -/
theorem feed_requestLine {head : RequestHead} (length : ℕ)
    (hrm : (head.leading.flatMap bytes).length +
      (head.requestLine ++ head.requestEnd.bytes).length ≤ max) :
    ∃ k, feed feedByte { maxBytes := max } (head.leading.flatMap bytes ++
        (head.requestLine ++ head.requestEnd.bytes)) = .more k ∧ k.AtLine length [] ∧
      k.maxBytes = max ∧ k.bytesSeen = (head.leading.flatMap bytes).length +
        (head.requestLine ++ head.requestEnd.bytes).length := by
  have hld : feed feedByte { maxBytes := max } (head.leading.flatMap bytes) = _ :=
    feed_leading (n := 0) (by omega)
  rw [Nat.zero_add] at hld
  have hr := feed_dataLine
    (h := ({ maxBytes := max } : HeadScanner).seen (head.leading.flatMap bytes).length)
    rfl head.text head.nonempty hrm
  obtain ⟨hmax, hs⟩ := afterLine_frame
    (({ maxBytes := max } : HeadScanner).seen (head.leading.flatMap bytes).length)
    head.requestLine ((head.leading.flatMap bytes).length +
      (head.requestLine ++ head.requestEnd.bytes).length)
  exact ⟨_, (feed_append hld).trans hr, atLine_requestLine head.nonempty _ _ length, hmax,
    hs⟩

def framingOf (head : RequestHead) (length : ℕ) : BodyFraming :=
  if head.hasTransferEncoding then .chunked
  else if head.hasContentLength then (if length = 0 then .none else .fixed length)
  else .none

theorem AtLine.framing (hat : h.AtLine length fields) :
    h.framing = if fields.any Field.isTransferEncoding then .chunked
      else if fields.any Field.isContentLength then (if length = 0 then .none else .fixed length)
      else .none := by
  rw [HeadScanner.framing, ← hat.seenTransferEncoding, ← hat.seenContentLength, hat.valid]
  cases he : h.seenTransferEncoding with
  | true => rfl
  | false =>
    rw [hat.canonical he]
    cases h.seenContentLength <;> rfl

theorem AtLine.ending (hat : h.AtLine length fields) {ending : LineEnd}
    (hr : h.bytesSeen + ending.bytes.length ≤ h.maxBytes) :
    feed feedByte h ending.bytes = .done ⟨h.conflict, h.framing⟩ := by
  have hfd : feed feedByte h ending.bytes = fed (h.seen (h.bytesSeen + ending.bytes.length)).finishLine :=
    feed_line hat.pendingCr (show LineText [] by decide) ending hr
  have hd : (!h.lineHasData) = true := by simp [hat.lineHasData]
  have hln : ¬ h.requestLine = true := by simp [hat.requestLine]
  have hf : (h.seen (h.bytesSeen + ending.bytes.length)).finishLine = ⟨_, _, _⟩ :=
    (if_pos hd).trans (if_neg hln)
  rw [hfd, hf]
  rfl

/-- **A head is read**: the scanner is done at its last byte. -/
theorem feed_head {max : ℕ} {head : RequestHead} (hr : head.bytes.length ≤ max)
    (hv : ∀ f ∈ head.fields, f.isContentLength = true → ContentLengthValue f.value length) :
    feed feedByte { maxBytes := max } head.bytes =
      .done ⟨head.hasContentLength && head.hasTransferEncoding, framingOf head length⟩ := by
  rw [RequestHead.bytes] at hr ⊢
  rw [length_append, length_append, length_append] at hr
  obtain ⟨k, hs, hk, hkm, hks⟩ :=
    feed_requestLine length (show _ + (head.requestLine ++ _).length ≤ max by omega)
  obtain ⟨k', hf, hk', hkm', hks'⟩ := hk.all hv (by omega)
  rw [append_assoc, feed_append hs, feed_append hf, hk'.ending (by omega), hk'.conflict,
    hk'.seenContentLength, hk'.seenTransferEncoding, hk'.framing]
  rfl

end HeadScanner

end Ferrum.Framing
