/-
  A ClientHello in records, and what is found out while it arrives.

  A message may be cut anywhere, also inside its own header, and records may be empty.

  * `wireSpanLoop_record`: one record, whole or cut.
  * `span_records`, `span_cut`: how many bytes are needed, with all of them there or not.
  * `parseRecords_records`: both parsers get the message, wherever it was cut.
  * `hello_classified`: what is found out does not depend on the cuts, on what follows, or on how the
    bytes arrive.
-/
import Ferrum.Sni.Grammar

namespace Ferrum.Sni

open Lib List

/-! ## Records and messages -/

/-- A record with a part of a handshake message. -/
structure Record where
  version : UInt8 × UInt8
  payload : Bytes
  length_lt : payload.length < 256 ^ 2

def Record.wire (r : Record) : Bytes :=
  0x16 :: r.version.1 :: r.version.2 :: lengthPrefixed 2 r.payload

def wire (rs : List Record) : Bytes := rs.flatMap Record.wire

/-- What the records carry. -/
def payloads (rs : List Record) : Bytes := rs.flatMap Record.payload

/-- A ClientHello message: its type, its length and its body. -/
def message (body : Bytes) : Bytes := 0x01 :: lengthPrefixed 3 body

theorem Record.length_wire (r : Record) : r.wire.length = 5 + r.payload.length := by
  rw [Record.wire, length_cons, length_cons, length_cons, length_lengthPrefixed]
  omega

theorem length_message (body : Bytes) : (message body).length = 4 + body.length := by
  rw [message, length_cons, length_lengthPrefixed]
  omega

theorem payloads_length_le (rs : List Record) : (payloads rs).length ≤ (wire rs).length := by
  induction rs with
  | nil => exact le_rfl
  | cons r rs ih =>
    simp only [payloads, wire, flatMap_cons, length_append, r.length_wire] at ih ⊢
    omega

theorem u24_message {body rest : Bytes} (h : body.length < 256 ^ 3) :
    u24ToUsize ((message body ++ rest).drop 1) = body.length := by
  have ht : ((message body ++ rest).drop 1).take 3 = beBytes 3 body.length := by
    rw [message, lengthPrefixed, cons_append, drop_one, tail_cons, append_assoc]
    exact take_left' (length_beBytes 3 _)
  rw [u24ToUsize, ht, beNat_beBytes, Nat.mod_eq_of_lt h]

/-! ## One record -/

section
variable {buf q M acc : Bytes} {cap pos n fuel : ℕ} {v1 v2 : UInt8}

/-- The bytes of a record of `n` bytes of which `q` and more may be there. -/
def recordAt (buf : Bytes) (pos : ℕ) (v1 v2 : UInt8) (n : ℕ) (q : Bytes) : Prop :=
  n < 256 ^ 2 ∧ buf.drop pos = 0x16 :: v1 :: v2 :: (beBytes 2 n ++ q)

theorem read_record (h : recordAt buf pos v1 v2 n q) :
    byteAt buf pos = 0x16 ∧ u16At buf (pos + 3) = n ∧ buf.drop (pos + 5) = q ∧
      buf.length = pos + 5 + q.length := by
  obtain ⟨hn, h⟩ := h
  have hpos : pos < buf.length := by
    by_contra hle
    rw [drop_eq_nil_of_le (Nat.not_lt.1 hle)] at h
    cases h
  have h3 : buf.drop (pos + 3) = beBytes 2 n ++ q := drop_of_drop (a := [0x16, v1, v2]) h
  have h5 := drop_of_drop h3
  rw [length_beBytes] at h5
  have hln := congrArg List.length h
  simp only [length_drop, length_cons, length_append, length_beBytes] at hln
  exact ⟨byteAt_of_drop h, u16At_of_drop h3 hn, h5, by omega⟩

/-- The length that is known after the handshake bytes `acc`. -/
def knownTotal (M acc : Bytes) : Option ℕ := if 4 ≤ acc.length then some M.length else none

/-- The header is filled with what there is of the message. -/
theorem filled_eq (h5 : buf.drop (pos + 5) = q) (hln : buf.length = pos + 5 + q.length) :
    acc.take 4 ++ slice buf (pos + 5) (pos + 5 +
        min (min buf.length (pos + 5 + n) - (pos + 5)) (4 - (acc.take 4).length)) =
      (acc ++ q.take n).take 4 := by
  rw [slice, h5, Nat.add_sub_cancel_left, take_append, take_take]
  congr 1
  by_cases ha : acc.length < 4
  · rw [take_eq_take_iff, length_take, hln]
    omega
  · have h0 : 4 - acc.length = 0 := by omega
    have h0' : 4 - (acc.take 4).length = 0 := by
      rw [length_take]
      omega
    rw [h0, h0', Nat.min_zero, Nat.zero_min]

theorem byteAt_zero_mono {a : Bytes} (ha : a <+: M) (hne : a ≠ []) : byteAt a 0 = byteAt M 0 := by
  obtain ⟨t, rfl⟩ := ha
  obtain ⟨b, a, rfl⟩ := exists_cons_of_ne_nil hne
  rfl

/-- **One record.** The loop goes on after it, or ends with it, if the message ends with it or the
    bound is reached. -/
theorem wireSpanLoop_record {body : Bytes} (hb : body.length < 256 ^ 3)
    (hr : recordAt buf pos v1 v2 n q) (hp : acc ++ q.take n <+: message body) :
    wireSpanLoop buf cap (fuel + 1) pos acc.length (acc.take 4) (knownTotal (message body) acc) =
      if (4 ≤ (acc ++ q.take n).length ∧ (message body).length ≤ acc.length + n) ∨ cap ≤ pos + 5 + n then
        .span (min (pos + 5 + n) cap)
      else wireSpanLoop buf cap fuel (pos + 5 + n) (acc.length + n) ((acc ++ q.take n).take 4)
        (knownTotal (message body) (acc ++ q.take n)) := by
  obtain ⟨htp, hlen, h5, hln⟩ := read_record hr
  rw [wireSpanLoop, if_neg (by omega), htp, if_neg (not_not.2 rfl), hlen]
  simp only [filled_eq h5 hln]
  have hf : ¬((acc.take 4).length < 4 ∧ 1 ≤ ((acc ++ q.take n).take 4).length ∧
      byteAt ((acc ++ q.take n).take 4) 0 ≠ 0x01) := by
    rintro ⟨-, ho, hbt⟩
    refine hbt ((byteAt_zero_mono ((List.take_prefix 4 _).trans hp) ?_).trans rfl)
    exact ne_nil_of_length_pos ho
  have ht : (if (acc.take 4).length < 4 ∧ ((acc ++ q.take n).take 4).length = 4 then
      some (4 + u24ToUsize (((acc ++ q.take n).take 4).drop 1)) else knownTotal (message body) acc) =
      knownTotal (message body) (acc ++ q.take n) := by
    rw [knownTotal, knownTotal, length_take, length_take]
    by_cases hk : 4 ≤ (acc ++ q.take n).length
    · rw [if_pos hk]
      by_cases ha : 4 ≤ acc.length
      · rw [if_neg (by omega), if_pos ha]
      · -- the header is completed here
        have htk : (acc ++ q.take n).take 4 = (message body).take 4 := by
          rw [prefix_iff_eq_take.1 hp, take_take, Nat.min_eq_left hk]
        have hu24 := @u24_message body [] hb
        rw [append_nil] at hu24
        rw [if_pos ⟨by omega, by omega⟩, htk, length_message, u24ToUsize, drop_take,
          take_take]
        exact congrArg (fun k => some (4 + k)) hu24
    · rw [if_neg (by omega), if_neg hk, if_neg]
      rw [length_append] at hk
      omega
  rw [if_neg hf, ht]
  refine if_congr (or_congr ?_ Iff.rfl) rfl rfl
  rw [knownTotal]
  by_cases hk : 4 ≤ (acc ++ q.take n).length
  · simp only [hk, if_true, Option.any_some, decide_eq_true_eq, true_and]
  · simp only [hk, if_false, Option.any_none, false_and, Bool.false_eq_true]

end

/-! ## All records -/

section
variable {buf body trailer : Bytes} {cap fuel : ℕ}

theorem wire_cons (r : Record) (rs : List Record) : wire (r :: rs) = r.wire ++ wire rs := rfl

theorem payloads_cons (r : Record) (rs : List Record) :
    payloads (r :: rs) = r.payload ++ payloads rs := rfl

theorem recordAt_wire {pre rest : Bytes} (r : Record) (h : buf = pre ++ (r.wire ++ rest)) :
    recordAt buf pre.length r.version.1 r.version.2 r.payload.length (r.payload ++ rest) := by
  refine ⟨r.length_lt, ?_⟩
  rw [h, drop_left, Record.wire, lengthPrefixed, cons_append, cons_append,
    cons_append, append_assoc]

theorem payloads_pos {rs : List Record} (hrs : rs ≠ []) (hls : ∀ r ∈ rs.getLast?, r.payload ≠ []) :
    0 < (payloads rs).length := by
  have hr := hls _ (getLast?_eq_some_getLast hrs)
  rw [payloads, ← dropLast_append_getLast hrs, flatMap_append, length_append, flatMap_singleton]
  have := length_pos_iff.2 hr
  omega

/-- The records left of a message after `acc` was read of it, from the bytes `pre`. -/
structure Left (body : Bytes) (cap : ℕ) (rs : List Record) (pre acc : Bytes) : Prop where
  short : body.length < 256 ^ 3
  message : acc ++ payloads rs = message body
  last : ∀ r ∈ rs.getLast?, r.payload ≠ []
  fits : pre.length + (wire rs).length ≤ cap

/-- The loop from there on. -/
def spanFrom (buf body : Bytes) (cap fuel : ℕ) (pre acc : Bytes) : WireSpan :=
  wireSpanLoop buf cap fuel pre.length acc.length (acc.take 4) (knownTotal (message body) acc)

variable {r : Record} {rs : List Record} {pre acc d : Bytes}

theorem Left.tail (h : Left body cap (r :: rs) pre acc) (hrs : rs ≠ []) :
    Left body cap rs (pre ++ r.wire) (acc ++ r.payload) := by
  obtain ⟨hb, hm, hls, hcap⟩ := h
  refine ⟨hb, by rw [append_assoc, ← payloads_cons, hm], ?_, ?_⟩
  · obtain ⟨r', rs, rfl⟩ := exists_cons_of_ne_nil hrs
    rwa [getLast?_cons_cons] at hls
  · rwa [wire_cons, length_append, ← Nat.add_assoc, ← length_append] at hcap

/-- A whole record before the last one: the loop goes on after it. -/
theorem spanFrom_next {rest : Bytes} (h : Left body cap (r :: rs) pre acc) (hrs : rs ≠ [])
    (hbf : buf = pre ++ (r.wire ++ rest)) : spanFrom buf body cap (fuel + 1) pre acc =
      spanFrom buf body cap fuel (pre ++ r.wire) (acc ++ r.payload) := by
  have hcap := h.fits
  have hp : acc ++ (r.payload ++ rest).take r.payload.length <+: message body := by
    rw [take_left]
    exact ⟨payloads rs, (h.tail hrs).message⟩
  have hmr := payloads_pos hrs (h.tail hrs).last
  have hw := payloads_length_le rs
  have hln := congrArg List.length h.message
  rw [payloads_cons, length_append, length_append] at hln
  rw [wire_cons, length_append, r.length_wire] at hcap
  rw [spanFrom, spanFrom, wireSpanLoop_record h.short (recordAt_wire r hbf) hp, take_left,
    if_neg (by omega), length_append, length_append, r.length_wire, Nat.add_assoc]

/-- If all records are there, their bytes are what is needed. -/
theorem span_records (h : Left body cap rs pre acc) (hrs : rs ≠ [])
    (hbf : buf = pre ++ (wire rs ++ trailer)) (hf : buf.length < pre.length + fuel) :
    spanFrom buf body cap fuel pre acc = .span (pre.length + (wire rs).length) := by
  induction rs generalizing pre acc fuel with
  | nil => exact absurd rfl hrs
  | cons r rs ih =>
    rw [wire_cons, append_assoc] at hbf
    obtain ⟨fuel, rfl⟩ : ∃ k, fuel = k + 1 := ⟨fuel - 1, by
      have := congrArg List.length hbf
      rw [length_append] at this
      omega⟩
    by_cases hn : rs = []
    · -- the message ends here
      subst hn
      obtain ⟨hb, hm, -, hcap⟩ := h
      have hp : acc ++ (r.payload ++ (wire [] ++ trailer)).take r.payload.length <+: message body := by
        rw [take_left, ← hm]
        exact ⟨[], by rw [payloads_cons, append_assoc]; rfl⟩
      have hln := congrArg List.length hm
      rw [payloads_cons, payloads, flatMap_nil, append_nil, length_append, length_message] at hln
      rw [wire_cons, wire, flatMap_nil, append_nil, r.length_wire] at hcap ⊢
      rw [spanFrom, wireSpanLoop_record hb (recordAt_wire r hbf) hp, take_left, length_append,
        length_message, if_pos (.inl ⟨by omega, by omega⟩), Nat.min_eq_left (by omega), Nat.add_assoc]
    · rw [spanFrom_next h hn hbf, wire_cons, length_append, ← Nat.add_assoc, ← length_append]
      refine ih (h.tail hn) hn (by rw [hbf, append_assoc]) ?_
      rw [length_append, r.length_wire]
      omega

/-- A prefix of the bytes of records ends in the first record or has all of it. -/
theorem prefix_cons_cases (hd : d <+: wire (r :: rs)) :
    (d <+: r.wire ∧ d.length < r.wire.length) ∨ ∃ d', d = r.wire ++ d' ∧ d' <+: wire rs := by
  rw [wire_cons] at hd
  by_cases hlt : d.length < r.wire.length
  · exact .inl ⟨prefix_of_prefix_length_le hd (prefix_append _ _) hlt.le, hlt⟩
  · obtain ⟨d', rfl⟩ := prefix_of_prefix_length_le (prefix_append r.wire (wire rs)) hd
      (Nat.not_lt.1 hlt)
    exact .inr ⟨d', rfl, (prefix_append_right_inj _).1 hd⟩

theorem recordAt_cut (hd : d <+: r.wire) (hln : 5 ≤ d.length) (hb : buf = pre ++ d) :
    ∃ q, q <+: r.payload ∧ d.length = 5 + q.length ∧
      recordAt buf pre.length r.version.1 r.version.2 r.payload.length q := by
  have hw : r.wire = (0x16 :: r.version.1 :: r.version.2 :: beBytes 2 r.payload.length) ++
      r.payload := rfl
  have hh : (0x16 :: r.version.1 :: r.version.2 :: beBytes 2 r.payload.length).length = 5 := by
    simp only [length_cons, length_beBytes]
  rw [hw] at hd
  obtain ⟨q, rfl⟩ := prefix_of_prefix_length_le (prefix_append _ r.payload) hd
    (hh.trans_le hln)
  refine ⟨q, (prefix_append_right_inj _).1 hd, ?_, r.length_lt, ?_⟩
  · rw [length_append, hh]
  · rw [hb, drop_left]
    rfl

/-- If not all of them are there, more is needed. -/
theorem span_cut (h : Left body cap rs pre acc) (hd : d <+: wire rs) (hne : d ≠ wire rs)
    (hbf : buf = pre ++ d) (hf : buf.length < pre.length + fuel) :
    spanFrom buf body cap fuel pre acc = .needMore ∨
      ∃ want, buf.length < want ∧ spanFrom buf body cap fuel pre acc = .span want := by
  induction rs generalizing pre acc d fuel with
  | nil => exact absurd (prefix_nil.1 hd) hne
  | cons r rs ih =>
    have hln := congrArg List.length hbf
    rw [length_append] at hln
    obtain ⟨fuel, rfl⟩ : ∃ k, fuel = k + 1 := ⟨fuel - 1, by omega⟩
    rcases prefix_cons_cases hd with ⟨hd, hlt⟩ | ⟨d', rfl, hd'⟩
    · by_cases hs : d.length < 5
      · left
        rw [spanFrom, wireSpanLoop, if_pos (by omega)]
      · obtain ⟨hb, hm, -, hcap⟩ := h
        obtain ⟨q, hq, hdl, hr⟩ := recordAt_cut hd (Nat.not_lt.1 hs) hbf
        have ht : q.take r.payload.length = q := take_of_length_le hq.length_le
        have hp : acc ++ q.take r.payload.length <+: message body := by
          rw [ht, ← hm, payloads_cons]
          exact (prefix_append_right_inj _).2 (hq.trans (prefix_append _ _))
        rw [r.length_wire] at hlt
        rw [wire_cons, length_append, r.length_wire] at hcap
        rw [spanFrom, wireSpanLoop_record hb hr hp]
        split_ifs with hdn
        · right
          exact ⟨_, by omega, rfl⟩
        · left
          cases fuel with
          | zero => rw [wireSpanLoop]
          | succ fuel => rw [wireSpanLoop, if_pos (by omega)]
    · have hn : rs ≠ [] := by
        rintro rfl
        refine hne ?_
        rw [prefix_nil.1 hd', wire_cons]
        rfl
      rw [spanFrom_next h hn hbf]
      refine ih (h.tail hn) hd' ?_ (by rw [hbf, append_assoc]) ?_
      · rintro rfl
        exact hne rfl
      · rw [length_append, r.length_wire]
        omega

end

/-! ## Both parsers -/

section
variable {data body trailer : Bytes}

theorem prefix_reassembleLoop (data : Bytes) (fuel pos : ℕ) (handshake : Bytes) :
    handshake <+: reassembleLoop data fuel pos handshake := by
  induction fuel generalizing pos handshake with
  | zero => exact prefix_refl _
  | succ fuel ih =>
    rw [reassembleLoop]
    dsimp only
    split_ifs
    · exact prefix_refl _
    · exact prefix_append _ _
    · exact (prefix_append _ _).trans (ih _ _)
    · exact prefix_refl _

theorem reassembleLoop_records {rs : List Record} {pre acc : Bytes} {fuel : ℕ}
    (hd : data = pre ++ (wire rs ++ trailer)) (hf : data.length ≤ pre.length + fuel) :
    acc ++ payloads rs <+: reassembleLoop data fuel pre.length acc := by
  induction rs generalizing pre acc fuel with
  | nil =>
    rw [payloads, flatMap_nil, append_nil]
    exact prefix_reassembleLoop _ _ _ _
  | cons r rs ih =>
    rw [wire_cons, append_assoc] at hd
    obtain ⟨ht, hlen, h5, hln⟩ := read_record (recordAt_wire r hd)
    rw [length_append] at hln
    obtain ⟨fuel, rfl⟩ : ∃ k, fuel = k + 1 := ⟨fuel - 1, by omega⟩
    have ha : min (data.length - (pre.length + 5)) r.payload.length = r.payload.length := by omega
    rw [reassembleLoop, if_pos (by omega), ht, if_neg (not_not.2 rfl), hlen]
    simp only [ha, slice_of_drop h5, Nat.lt_irrefl, if_false]
    rw [payloads_cons, ← append_assoc]
    have hn := @ih (pre ++ r.wire) (acc ++ r.payload) fuel (by rw [hd, append_assoc])
      (by rw [length_append, r.length_wire]; omega)
    rwa [length_append, r.length_wire, ← Nat.add_assoc] at hn

/-- Wherever a message is cut, it is parsed. -/
theorem parseRecords_records {α : Type} (parse : Bytes → Option α) {rs : List Record}
    (hb : body.length < 256 ^ 3) (hm : payloads rs = message body)
    (hd : data = wire rs ++ trailer) :
    ∃ rest, parseRecords parse data = parse (message body ++ rest) := by
  cases rs with
  | nil => cases hm
  | cons r rs =>
    rw [wire_cons, append_assoc] at hd
    have hrc := @recordAt_wire data [] _ r hd
    obtain ⟨htp, hlen, h5, hln⟩ := read_record hrc
    rw [length_append] at hln
    rw [length_nil, Nat.zero_add] at *
    have ha : min r.payload.length (data.length - 5) = r.payload.length := by omega
    rw [parseRecords, if_neg (by omega), htp, if_neg (not_not.2 rfl)]
    simp only [hlen, ha, slice_of_drop h5]
    split_ifs with hf
    · -- the first record has all of it
      have hu24 : u24ToUsize (r.payload.drop 1) = body.length := by
        have hdr : (message body ++ []).drop 1 = r.payload.drop 1 ++ payloads rs := by
          rw [append_nil, ← hm, payloads_cons, drop_append_of_le_length (by omega)]
        have ht : 3 ≤ (r.payload.drop 1).length := by
          rw [length_drop]
          omega
        rw [← u24_message hb, hdr, u24ToUsize, u24ToUsize, take_append_of_le_length ht]
      have hp : r.payload <+: message body := ⟨payloads rs, hm⟩
      refine ⟨[], ?_⟩
      rw [append_nil, hp.eq_of_length_le]
      rw [length_message]
      omega
    · obtain ⟨rest, hr⟩ := @reassembleLoop_records data trailer (r :: rs) [] [] data.length
        (by rw [hd, wire_cons, append_assoc]; rfl) (by simp)
      rw [nil_append, hm] at hr
      refine ⟨rest, ?_⟩
      rw [reassembleTlsHandshakeRecords]
      simp only [length_nil] at hr
      rw [← hr]
      rfl

theorem read_message (body rest : Bytes) :
    byteAt (message body ++ rest) 0 = 0x01 ∧ (message body ++ rest).drop 4 = body ++ rest ∧
      (message body ++ rest).length = 4 + body.length + rest.length := by
  refine ⟨rfl, ?_, by rw [length_append, length_message]⟩
  have hs : message body ++ rest = (0x01 :: beBytes 3 body.length) ++ (body ++ rest) := by
    rw [message, lengthPrefixed, cons_append, cons_append, append_assoc]
  rw [hs]
  exact drop_left' (by rw [length_cons, length_beBytes])

variable {rest : Bytes}

/-- The strict parser reads the body of a message. -/
theorem parseClientHelloKtlsFacts_message (hb : body.length < 256 ^ 3) :
    parseClientHelloKtlsFacts (message body ++ rest) = parseTlsClientHelloKtlsFacts body := by
  obtain ⟨ht, hd, hln⟩ := read_message body rest
  rw [parseClientHelloKtlsFacts, ht, if_neg (by rintro (h | h); exacts [by omega, h rfl]),
    u24_message hb, if_neg (by omega), slice_of_drop hd]

theorem parseClientHelloSni_message (hb : body.length < 256 ^ 3) :
    parseClientHelloSni (message body ++ rest) = parseTlsClientHelloBody body := by
  obtain ⟨ht, hd, hln⟩ := read_message body rest
  have hm : min body.length ((message body ++ rest).length - 4) = body.length := by omega
  rw [parseClientHelloSni, if_neg (by omega), ht, if_neg (not_not.2 rfl), u24_message hb]
  simp only [hm, slice_of_drop hd]

end

/-! ## The classification -/

section
variable {body : Bytes} {rs : List Record}

theorem head?_wire (hm : payloads rs = message body) (trailer : Bytes) :
    (wire rs ++ trailer).head? = some 0x16 ∧ byteAt (wire rs ++ trailer) 0 = 0x16 ∧ rs ≠ [] := by
  cases rs with
  | nil => cases hm
  | cons r rs => exact ⟨rfl, rfl, by simp⟩

/-- With all records there, the answer is that of the message. -/
theorem classify_records {hello : Hello} (h : Left body maxClientHelloLen rs [] [])
    (he : hello.encode = body) (trailer : Bytes) :
    classifyClientHello (wire rs ++ trailer) = hello.answer := by
  obtain ⟨hh, hfr, hrs⟩ := head?_wire h.message trailer
  have hs : tlsClienthelloWireSpan (wire rs ++ trailer) maxClientHelloLen =
      .span (wire rs).length := by
    have hne : (wire rs ++ trailer).isEmpty = false := by
      rw [isEmpty_eq_false_iff]
      intro he
      rw [he] at hh
      cases hh
    have := @span_records (wire rs ++ trailer) body trailer maxClientHelloLen
      ((wire rs ++ trailer).length + 1) rs [] [] h hrs rfl (by simp)
    rw [length_nil, Nat.zero_add] at this
    rw [tlsClienthelloWireSpan, hne, hfr]
    exact this
  obtain ⟨rest, hf⟩ := parseRecords_records parseClientHelloKtlsFacts h.short h.message
    (rfl : wire rs ++ trailer = _)
  obtain ⟨rest', hsn⟩ := parseRecords_records parseClientHelloSni h.short h.message
    (rfl : wire rs ++ trailer = _)
  rw [parseClientHelloKtlsFacts_message h.short, ← he, hello.strict_encode] at hf
  rw [parseClientHelloSni_message h.short, ← he, lenient_eq] at hsn
  rw [classifyClientHello, hh]
  simp only [hs, clientHelloKtlsFacts, extractSniFromClientHello, hf, hsn]
  rw [if_neg (not_not.2 rfl), if_neg (by simp), Hello.answer, Hello.facts]
  cases hello.names? with
  | none => rfl
  | some names => cases hn : Hello.hostname names <;> simp [hn]

/-- With only a part of them there, it is not decided. -/
theorem classify_cut (h : Left body maxClientHelloLen rs [] []) {d : Bytes} (hd : d <+: wire rs)
    (hne : d ≠ wire rs) : classifyClientHello d = .indeterminate .truncated := by
  cases d with
  | nil => rfl
  | cons b d =>
    obtain ⟨hh, -, -⟩ := head?_wire h.message []
    obtain ⟨t, ht⟩ := hd
    have hb : b = 0x16 := by
      rw [append_nil, ← ht] at hh
      exact Option.some.inj hh
    subst hb
    have hc := @span_cut (0x16 :: d) body maxClientHelloLen ((0x16 :: d).length + 1) rs [] []
      (0x16 :: d) h ⟨t, ht⟩ hne rfl (by simp)
    have hs : tlsClienthelloWireSpan (0x16 :: d) maxClientHelloLen =
        spanFrom (0x16 :: d) body maxClientHelloLen ((0x16 :: d).length + 1) [] [] := rfl
    rw [classifyClientHello, head?_cons]
    simp only [hs]
    rw [if_neg (not_not.2 rfl)]
    rcases hc with hmr | ⟨want, hlt, hw⟩
    · rw [hmr]
    · rw [hw]
      exact if_pos hlt

end

/-- Whether a route is chosen or the connection is known not to be TLS. -/
def ClientHelloSni.isDeterminate : ClientHelloSni → Bool
  | .indeterminate _ => false
  | _ => true

/-- **What is found out does not depend on the cuts.** A body that the strict parser accepts is that of a
    `Hello`. In whatever records its message arrives, of which the last one is not empty, the answer is
    that of the `Hello`, whatever follows. Before the last byte is there, it is not decided. So a route
    that was chosen is not revised. -/
theorem hello_classified {body : Bytes} {facts : ClientHelloKtlsFacts}
    (haccepted : parseTlsClientHelloKtlsFacts body = some facts) :
    (∃ hello : Hello, hello.encode = body) ∧
      ∀ hello : Hello, hello.encode = body → ∀ rs : List Record, payloads rs = message body →
        (∀ r ∈ rs.getLast?, r.payload ≠ []) → (wire rs).length ≤ maxClientHelloLen →
        (∀ trailer, classifyClientHello (wire rs ++ trailer) = hello.answer) ∧
        (∀ d, d <+: wire rs → d ≠ wire rs → classifyClientHello d = .indeterminate .truncated) ∧
        ∀ trailer d d', d <+: d' → d' <+: wire rs ++ trailer →
          (classifyClientHello d).isDeterminate = true →
          classifyClientHello d' = classifyClientHello d := by
  refine ⟨exists_of_strict haccepted, fun hello hen rs hm hls hcap => ?_⟩
  have hb : body.length < 256 ^ 3 := by
    have hle := payloads_length_le rs
    rw [hm, length_message] at hle
    have : maxClientHelloLen < 256 ^ 3 := by decide
    omega
  have h : Left body maxClientHelloLen rs [] [] := ⟨hb, hm, hls, by simpa using hcap⟩
  have hw := classify_records h hen
  have hct (d : Bytes) (hd : d <+: wire rs) := classify_cut h hd
  refine ⟨hw, hct, fun trailer d d' hdd' hd' hdt => ?_⟩
  -- a part of the stream has all records, or is a part of them
  have hc : ∀ e, e <+: wire rs ++ trailer → (∃ t, e = wire rs ++ t) ∨
      (e <+: wire rs ∧ e ≠ wire rs) := by
    intro e he
    rcases prefix_or_prefix_of_prefix he (prefix_append _ _) with h | ⟨t, ht⟩
    · by_cases heq : e = wire rs
      · exact .inl ⟨[], by rw [heq, append_nil]⟩
      · exact .inr ⟨h, heq⟩
    · exact .inl ⟨t, ht.symm⟩
  rcases hc d (hdd'.trans hd') with ⟨t, rfl⟩ | ⟨hd, hne⟩
  · obtain ⟨t', rfl⟩ := hdd'
    rw [append_assoc, hw, hw]
  · rw [hct d hd hne] at hdt
    cases hdt

/-! ## A message in three records -/

namespace Sample

/-- A ClientHello that names a host, or nothing. -/
def hello (extensions : Option (List Extension))
    (nodup : ∀ es, extensions = some es → (es.map Extension.type).Nodup)
    (extensions_lt : ∀ es, extensions = some es → (es.flatMap Extension.encode).length < 256 ^ 2) :
    Hello where
  head := List.replicate 34 3
  sessionId := []
  suites := [0x13, 0x01]
  compression := [0]
  extensions
  head_length := rfl
  sessionId_lt := by decide
  suites_two_le := by decide
  suites_even := by decide
  suites_lt := by decide
  compression_ne := by decide
  compression_lt := by decide
  nodup
  extensions_lt

def host : ServerName := ⟨0, lit "A.b", by decide +kernel, by decide +kernel⟩

def named : Hello :=
  hello (some [.serverName [host] (by simp) (by simp) (by decide +kernel)])
    (by rintro _ ⟨⟩; simp) (by rintro _ ⟨⟩; decide +kernel)

def unnamed : Hello := hello none (by simp) (by simp)

/-- The first record is empty, the second one ends inside the header of the message. -/
def records : List Record :=
  [⟨(3, 1), [], by decide⟩, ⟨(3, 1), (message named.encode).take 2, by decide +kernel⟩,
    ⟨(3, 3), (message named.encode).drop 2, by decide +kernel⟩]

/-- An empty record after the message. -/
def padded : List Record :=
  [⟨(3, 1), message unnamed.encode, by decide +kernel⟩, ⟨(3, 1), [], by decide⟩]

end Sample

open Sample in
theorem hello_classified_sample :
    payloads records = message named.encode ∧
      classifyClientHello (wire records ++ [0x17, 0x03]) = .sni (lit "a.b") ∧
      classifyClientHello ((wire records).take 20) = .indeterminate .truncated := by
  have hr : payloads records = message named.encode := by decide +kernel
  have hls : ∀ r ∈ records.getLast?, r.payload ≠ [] := by
    rintro _ ⟨⟩
    decide +kernel
  obtain ⟨hw, hc, -⟩ := (hello_classified named.strict_encode).2 named rfl records hr hls
    (by decide +kernel)
  exact ⟨hr, (hw _).trans (by decide +kernel),
    hc _ (List.take_prefix _ _) (by decide +kernel)⟩

open Sample in
/-- If the last record is empty, the answer is there before it. -/
theorem decided_before_empty_record : ∃ d : Bytes,
    (parseTlsClientHelloKtlsFacts unnamed.encode).isSome = true ∧
      payloads padded = message unnamed.encode ∧ (wire padded).length ≤ maxClientHelloLen ∧
      d <+: wire padded ∧ d ≠ wire padded ∧ classifyClientHello d = .noSni :=
  ⟨(wire padded).take 50, by decide +kernel, by decide +kernel, by decide +kernel,
    take_prefix _ _, by decide +kernel, by decide +kernel⟩

end Ferrum.Sni
