/-
  What a ClientHello is, and that the parsers read it.

  A `Hello` is a message of the grammar; its fields say that the lengths fit and that no type occurs
  twice.

  * `strict_iff`: the strict parser accepts the bodies of such messages, and only these.
  * `lenient_eq`: on them, the lenient parser finds the host name.
-/
import Mathlib.Data.List.Nodup
import Ferrum.Lib.Window
import Ferrum.Sni.Parser

namespace Ferrum.Sni

open Lib List Nat

/-! ## The grammar -/

/-- An entry of a list of server names. -/
structure ServerName where
  nameType : UInt8
  name : Bytes
  length_lt : name.length < 256 ^ 2
  /-- A host name is not empty. -/
  host : nameType = 0 → name ≠ []

def ServerName.encode (n : ServerName) : Bytes := n.nameType :: lengthPrefixed 2 n.name

inductive Extension where
  | serverName (names : List ServerName) (ne : names ≠ [])
      (nodup : (names.map fun n => n.nameType.toNat).Nodup)
      (length_lt : 2 + (names.flatMap ServerName.encode).length < 256 ^ 2)
  | supportedVersions (versions : Bytes) (two_le : 2 ≤ versions.length)
      (even : versions.length % 2 = 0) (length_lt : versions.length < 256)
  | other (type : ℕ) (data : Bytes) (type_lt : type < 256 ^ 2) (not_name : type ≠ 0x0000)
      (not_versions : type ≠ 0x002b) (length_lt : data.length < 256 ^ 2)

namespace Extension

def type : Extension → ℕ
  | serverName .. => 0x0000
  | supportedVersions .. => 0x002b
  | other type .. => type

def data : Extension → Bytes
  | serverName names .. => lengthPrefixed 2 (names.flatMap ServerName.encode)
  | supportedVersions versions .. => lengthPrefixed 1 versions
  | other _ data .. => data

def encode (e : Extension) : Bytes := beBytes 2 e.type ++ lengthPrefixed 2 e.data

/-- The entries, if it is a list of server names. -/
def names? : Extension → Option (List ServerName)
  | serverName names .. => some names
  | _ => none

def offersTls13 : Extension → Bool
  | supportedVersions versions .. => versionsLoop versions
  | _ => false

theorem type_lt (e : Extension) : e.type < 256 ^ 2 := by
  cases e with
  | serverName => exact Nat.two_pow_pos 16
  | supportedVersions => exact (by decide : 0x002b < 256 ^ 2)
  | other _ _ h => exact h

theorem data_lt (e : Extension) : e.data.length < 256 ^ 2 := by
  cases e with
  | serverName _ _ _ h => rwa [data, length_lengthPrefixed]
  | supportedVersions _ _ _ h =>
    rw [data, length_lengthPrefixed]
    omega
  | other _ _ _ _ _ h => exact h

end Extension

open Extension

/-- A ClientHello; the block of extensions may be absent. -/
structure Hello where
  /-- The version and the random bytes. -/
  head : Bytes
  sessionId : Bytes
  suites : Bytes
  compression : Bytes
  extensions : Option (List Extension)
  head_length : head.length = 34
  sessionId_lt : sessionId.length < 256
  suites_two_le : 2 ≤ suites.length
  suites_even : suites.length % 2 = 0
  suites_lt : suites.length < 256 ^ 2
  compression_ne : compression ≠ []
  compression_lt : compression.length < 256
  nodup : ∀ es, extensions = some es → (es.map type).Nodup
  extensions_lt : ∀ es, extensions = some es → (es.flatMap encode).length < 256 ^ 2

namespace Hello

/-- The fields before the extensions. -/
def front (hello : Hello) : Bytes :=
  hello.head ++ (lengthPrefixed 1 hello.sessionId ++
    (lengthPrefixed 2 hello.suites ++ lengthPrefixed 1 hello.compression))

def tail (hello : Hello) : Bytes :=
  match hello.extensions with
  | none => []
  | some es => lengthPrefixed 2 (es.flatMap encode)

/-- The body of the message. -/
def encode (hello : Hello) : Bytes := hello.front ++ hello.tail

/-- The entries of its extension of server names. -/
def names? (hello : Hello) : Option (List ServerName) :=
  (hello.extensions.getD []).findSome? Extension.names?

def facts (hello : Hello) : ClientHelloKtlsFacts :=
  { suitesLoop hello.suites {} with
    offersTls13 := (hello.extensions.getD []).any offersTls13
    offersServerName := hello.names?.isSome }

/-- The first host name of a list, in lower case, if it is representable. -/
def hostname (names : List ServerName) : Option Bytes :=
  (names.find? fun n => n.nameType = 0).bind fun n =>
    if isValidSniDnsHostname n.name then some (n.name.map toAsciiLowercase) else none

/-- What has to be found out. -/
def answer (hello : Hello) : ClientHelloSni :=
  match hello.names? with
  | none => .noSni
  | some names =>
    match hostname names with
    | some h => .sni h
    | none => .indeterminate .unrepresentableName

end Hello

/-! ## Reading -/

section
variable {bs t : Bytes} {i n : ℕ}

theorem byteAt_of_drop {b : UInt8} (h : bs.drop i = b :: t) : byteAt bs i = b := by
  rw [byteAt, getD_eq_getElem?_getD, getElem?_of_drop h, Option.getD_some]

theorem u16At_of_drop (h : bs.drop i = beBytes 2 n ++ t) (hn : n < 256 ^ 2) : u16At bs i = n := by
  have hs := slice_of_drop h
  rw [length_beBytes] at hs
  rw [u16At, hs, beNat_beBytes, mod_eq_of_lt hn]

theorem drop_u16At (h : i + 2 ≤ bs.length) : bs.drop i = beBytes 2 (u16At bs i) ++ bs.drop (i + 2) := by
  have hln : (slice bs i (i + 2)).length = 2 := by rw [length_slice h]; omega
  have hb : beBytes 2 (u16At bs i) = slice bs i (i + 2) := by
    have := beBytes_beNat (slice bs i (i + 2))
    rwa [hln] at this
  rw [hb]
  exact drop_eq_slice_append (le_add_right i 2)

theorem u16At_lt (bs : Bytes) (i : ℕ) : u16At bs i < 256 ^ 2 := by
  refine (beNat_lt _).trans_le (Nat.pow_le_pow_right (by decide) ?_)
  rw [slice, length_take]
  omega

theorem drop_byteAt (h : i < bs.length) : bs.drop i = byteAt bs i :: bs.drop (i + 1) := by
  rw [byteAt, getD_eq_getElem?_getD, getElem?_eq_getElem h, Option.getD_some]
  exact drop_eq_getElem_cons h

end

/-! ## Code points -/

namespace SeenCodePoints

variable {seen : SeenCodePoints} {n : ℕ}

def Mem (seen : SeenCodePoints) (n : ℕ) : Prop :=
  ∃ word, seen.words[n / 64]? = some word ∧ word.getLsbD (n % 64) = true

theorem not_mem_empty {words : ℕ} : ¬(empty words).Mem n := by
  rintro ⟨word, hw, hb⟩
  rw [empty, getElem?_replicate] at hw
  split_ifs at hw
  obtain rfl := Option.some.inj hw
  simp at hb

theorem insertIsDuplicate_spec (h : n < 64 * seen.words.length) :
    ((seen.insertIsDuplicate n).1 = true ↔ seen.Mem n) ∧
      (seen.insertIsDuplicate n).2.words.length = seen.words.length ∧
      ∀ m, (seen.insertIsDuplicate n).2.Mem m ↔ m = n ∨ seen.Mem m := by
  have hi : n / 64 < seen.words.length := by omega
  obtain ⟨word, hw⟩ : ∃ word, seen.words[n / 64]? = some word := ⟨_, getElem?_eq_getElem hi⟩
  have hs : seen.insertIsDuplicate n = (word &&& (1#64 <<< (n % 64)) != 0,
      ⟨seen.words.set (n / 64) (word ||| (1#64 <<< (n % 64)))⟩) := by
    rw [insertIsDuplicate, hw]
  have hlt : ∀ k, k % 64 < 64 := fun k => mod_lt k (by decide)
  rw [hs]
  refine ⟨?_, length_set .., fun m => ?_⟩
  · refine (bne_iff_ne.trans (and_one_shiftLeft_ne_zero (hlt n))).trans ?_
    constructor
    · intro hb
      exact ⟨word, hw, hb⟩
    · rintro ⟨word', hw', hb⟩
      rwa [Option.some.inj (hw.symm.trans hw')]
  · simp only [Mem, getElem?_set, hi, if_true]
    by_cases hm : n / 64 = m / 64
    · have hmn : m = n ↔ m % 64 = n % 64 := by omega
      rw [if_pos hm, hmn, ← hm, hw]
      simp [getLsbD_one_shiftLeft (hlt m), or_comm]
    · have hmn : m ≠ n := fun h => hm (h ▸ rfl)
      simp [hm, hmn]

/-- The numbers differ, from each other and from those that were seen. -/
def Fresh (seen : SeenCodePoints) (codes : List ℕ) : Prop := codes.Nodup ∧ ∀ n ∈ codes, ¬seen.Mem n

theorem fresh_nil : seen.Fresh [] := ⟨nodup_nil, fun _ => (absurd · not_mem_nil)⟩

theorem fresh_empty_iff {words : ℕ} {codes : List ℕ} : (empty words).Fresh codes ↔ codes.Nodup :=
  and_iff_left fun _ _ => not_mem_empty

theorem fresh_cons_iff {codes : List ℕ} (h : n < 64 * seen.words.length) :
    seen.Fresh (n :: codes) ↔
      ¬(seen.insertIsDuplicate n).1 = true ∧ (seen.insertIsDuplicate n).2.Fresh codes := by
  obtain ⟨hd, -, hm⟩ := insertIsDuplicate_spec h
  simp only [Fresh, hd, hm, nodup_cons, forall_mem_cons, not_or]
  constructor
  · rintro ⟨⟨hn, hnd⟩, hs, hf⟩
    exact ⟨hs, hnd, fun m hm => ⟨fun heq => hn (heq ▸ hm), hf m hm⟩⟩
  · rintro ⟨hs, hnd, hf⟩
    exact ⟨⟨fun hn => (hf n hn).1 rfl, hnd⟩, hs, fun m hm => (hf m hm).2⟩

end SeenCodePoints

open SeenCodePoints (fresh_nil fresh_cons_iff fresh_empty_iff insertIsDuplicate_spec)

/-! ## Lists of server names -/

section
variable {names : Bytes}

theorem ServerName.length_encode (n : ServerName) : n.encode.length = 3 + n.name.length := by
  rw [ServerName.encode, length_cons, length_lengthPrefixed]
  omega

variable {pos fuel : ℕ}

theorem read_serverName {n : ServerName} {rest : Bytes} (h : names.drop pos = n.encode ++ rest) :
    byteAt names pos = n.nameType ∧ u16At names (pos + 1) = n.name.length ∧
      slice names (pos + 3) (pos + 3 + n.name.length) = n.name ∧
      names.drop (pos + 3 + n.name.length) = rest ∧ pos + 3 + n.name.length ≤ names.length := by
  have hpos : pos < names.length := by
    by_contra hle
    rw [drop_eq_nil_of_le (not_lt.1 hle)] at h
    cases h
  have hln := length_of_drop h hpos.le
  rw [n.length_encode] at hln
  rw [ServerName.encode, lengthPrefixed, cons_append, append_assoc] at h
  have h1 : names.drop (pos + 1) = beBytes 2 n.name.length ++ (n.name ++ rest) :=
    drop_of_drop (a := [n.nameType]) h
  have h3 : names.drop (pos + 3) = n.name ++ rest := by
    have := drop_of_drop h1
    rwa [length_beBytes] at this
  exact ⟨byteAt_of_drop h, u16At_of_drop h1 n.length_lt, slice_of_drop h3, drop_of_drop h3, by omega⟩

/-- The bytes at a position where an entry fits. -/
theorem drop_serverName (h : pos + 3 + u16At names (pos + 1) ≤ names.length) :
    names.drop pos = byteAt names pos :: (beBytes 2 (u16At names (pos + 1)) ++
      (slice names (pos + 3) (pos + 3 + u16At names (pos + 1)) ++
        names.drop (pos + 3 + u16At names (pos + 1)))) := by
  rw [drop_byteAt (by omega : pos < names.length), drop_u16At (by omega : pos + 1 + 2 ≤ names.length),
    ← drop_eq_slice_append (by omega)]

theorem serverNameLoop_succ {seen : SeenCodePoints} (hpos : pos < names.length) :
    serverNameLoop names (fuel + 1) pos seen = true ↔
      pos + 3 + u16At names (pos + 1) ≤ names.length ∧
      ¬(seen.insertIsDuplicate (byteAt names pos).toNat).1 = true ∧
      ¬(byteAt names pos = 0 ∧ u16At names (pos + 1) = 0) ∧
      serverNameLoop names fuel (pos + 3 + u16At names (pos + 1))
        (seen.insertIsDuplicate (byteAt names pos).toNat).2 = true := by
  rw [serverNameLoop, if_pos hpos]
  dsimp only
  split_ifs <;> grind

/-- The loop accepts the lists whose types differ, from each other and from those that were seen. -/
theorem serverNameLoop_iff {seen : SeenCodePoints} (hfl : names.length ≤ pos + fuel)
    (hpos : pos ≤ names.length) (hs : seen.words.length = nameTypeBitsetWords) :
    serverNameLoop names fuel pos seen = true ↔
      ∃ ns : List ServerName, names.drop pos = ns.flatMap ServerName.encode ∧
        seen.Fresh (ns.map fun n => n.nameType.toNat) := by
  -- at the end the list is empty
  have he : ∀ {pos : ℕ} {seen : SeenCodePoints}, pos = names.length → ∃ ns : List ServerName,
      names.drop pos = ns.flatMap ServerName.encode ∧
        seen.Fresh (ns.map fun n => n.nameType.toNat) := by
    rintro _ _ rfl
    exact ⟨[], by simp, fresh_nil⟩
  induction fuel generalizing pos seen with
  | zero =>
    rw [serverNameLoop]
    exact iff_of_true rfl (he (by omega))
  | succ fuel ih =>
    by_cases hlt : pos < names.length
    swap
    · rw [serverNameLoop, if_neg hlt]
      exact iff_of_true rfl (he (by omega))
    have hft : (byteAt names pos).toNat < 64 * seen.words.length := by
      rw [hs]
      exact (byteAt names pos).toNat_lt
    have hw := (insertIsDuplicate_spec hft).2.1
    rw [serverNameLoop_succ hlt]
    constructor
    · rintro ⟨hle, hnw, hh, hlp⟩
      obtain ⟨ns, hns, hf⟩ := (ih (by omega) hle (hw.trans hs)).1 hlp
      have hln : (slice names (pos + 3) (pos + 3 + u16At names (pos + 1))).length =
          u16At names (pos + 1) := by
        rw [length_slice hle]
        omega
      let n : ServerName :=
        { nameType := byteAt names pos
          name := slice names (pos + 3) (pos + 3 + u16At names (pos + 1))
          length_lt := hln.trans_lt (u16At_lt names (pos + 1))
          host := fun h0 hnl => hh ⟨h0, by rw [← hln, hnl]; rfl⟩ }
      refine ⟨n :: ns, ?_, (fresh_cons_iff hft).2 ⟨hnw, hf⟩⟩
      rw [drop_serverName hle, hns, flatMap_cons, ServerName.encode, lengthPrefixed, hln]
      simp only [cons_append, append_assoc, n]
    · rintro ⟨ns, hns, hf⟩
      cases ns with
      | nil =>
        rw [flatMap_nil, drop_eq_nil_iff] at hns
        omega
      | cons n ns =>
        rw [flatMap_cons] at hns
        obtain ⟨ht, hlen, hnm, hr, hle⟩ := read_serverName hns
        rw [ht] at hw hft ⊢
        rw [hlen]
        obtain ⟨hnw, hf⟩ := (fresh_cons_iff hft).1 hf
        refine ⟨hle, hnw, ?_, (ih (by omega) hle (hw.trans hs)).2 ⟨ns, hr, hf⟩⟩
        rintro ⟨h0, hlen0⟩
        exact n.host h0 (length_eq_zero_iff.1 hlen0)

theorem serverNameExtension_iff {data : Bytes} (hdt : data.length < 256 ^ 2) :
    serverNameExtensionIsWellFormed data = true ↔
      ∃ names ne nodup length_lt, (Extension.serverName names ne nodup length_lt).data = data := by
  have hsn : (SeenCodePoints.empty nameTypeBitsetWords).words.length = nameTypeBitsetWords :=
    length_replicate
  rw [serverNameExtensionIsWellFormed]
  constructor
  · intro h
    dsimp only at h
    split_ifs at h with hs hls
    rw [not_lt] at hs
    simp only [not_or, not_not] at hls
    obtain ⟨ns, hns, hn⟩ := (serverNameLoop_iff (by omega) (zero_le _) hsn).1 h
    rw [drop_zero] at hns
    have hb := @drop_u16At data 0 hs
    rw [drop_zero, zero_add] at hb
    refine ⟨ns, ?_, fresh_empty_iff.1 hn, ?_, ?_⟩
    · rintro rfl
      exact hls.1 (by rw [← hls.2, hns]; rfl)
    · rw [← hns, length_drop]
      omega
    · rw [Extension.data, lengthPrefixed, ← hns, hls.2]
      exact hb.symm
  · rintro ⟨names, hne, hn, hlt, rfl⟩
    have hd0 : (lengthPrefixed 2 (names.flatMap ServerName.encode)).drop 0 =
        beBytes 2 (names.flatMap ServerName.encode).length ++ names.flatMap ServerName.encode := rfl
    have hln : u16At (lengthPrefixed 2 (names.flatMap ServerName.encode)) 0 =
        (names.flatMap ServerName.encode).length := u16At_of_drop hd0 (by omega)
    have hd : (lengthPrefixed 2 (names.flatMap ServerName.encode)).drop 2 =
        names.flatMap ServerName.encode := by
      have := drop_of_drop hd0
      rwa [length_beBytes] at this
    have hpos : (names.flatMap ServerName.encode).length ≠ 0 := by
      obtain ⟨n, ns, rfl⟩ := exists_cons_of_ne_nil hne
      rw [flatMap_cons, length_append, n.length_encode]
      omega
    simp only [Extension.data, hln, hd, length_lengthPrefixed]
    rw [if_neg (by omega), if_neg (not_or.2 ⟨hpos, not_not.2 rfl⟩)]
    exact (serverNameLoop_iff (by omega) (zero_le _) hsn).2
      ⟨names, rfl, fresh_empty_iff.2 hn⟩

end

/-! ## Lists of extensions -/

/-- What is found out from an extension. -/
def Extension.update (scanned : ScannedExtensions) (e : Extension) : ScannedExtensions :=
  { offersTls13 := scanned.offersTls13 || e.offersTls13
    offersServerName := scanned.offersServerName || e.names?.isSome }

section
variable {scanned : ScannedExtensions}

theorem update_serverName {names : List ServerName} {ne nodup hlt} :
    update scanned (.serverName names ne nodup hlt) =
      { scanned with offersServerName := true } := by
  simp [update, offersTls13, names?]

theorem update_supportedVersions {versions : Bytes} {two_le even hlt} :
    update scanned (.supportedVersions versions two_le even hlt) =
      if versionsLoop versions then { scanned with offersTls13 := true } else scanned := by
  cases hv : versionsLoop versions <;>
    simp [update, offersTls13, names?, hv]

theorem update_other {type : ℕ} {data : Bytes} {type_lt hn hv hlt} :
    update scanned (.other type data type_lt hn hv hlt) = scanned := by
  simp [update, offersTls13, names?]

end

/-- What a turn of the loop does with an extension. -/
def checkExtension (extType : ℕ) (data : Bytes) (scanned : ScannedExtensions) :
    Option ScannedExtensions :=
  if extType = 0x0000 then
    if serverNameExtensionIsWellFormed data then some { scanned with offersServerName := true }
    else none
  else if extType = 0x002b then
    match data.head? with
    | none => none
    | some listLen =>
      if listLen.toNat < 2 ∨ listLen.toNat % 2 ≠ 0 ∨ data.length ≠ 1 + listLen.toNat then none
      else some (if versionsLoop (data.drop 1) then { scanned with offersTls13 := true } else scanned)
  else some scanned

variable {b : UInt8} {data ext rest body : Bytes} {out : ScannedExtensions} {fuel pos : ℕ}
  {p : Prop} {facts : ClientHelloKtlsFacts}

theorem lengthPrefixed_one (h : data.head? = some b) (hln : data.length = 1 + b.toNat) :
    data = lengthPrefixed 1 (data.drop 1) := by
  obtain ⟨rest, rfl⟩ : ∃ rest, data = b :: rest := head?_eq_some_iff.1 h
  have hr : rest.length = b.toNat := by
    rw [length_cons] at hln
    omega
  rw [drop_one, tail_cons, lengthPrefixed, hr, beBytes, beBytes, Nat.pow_zero, Nat.div_one,
    UInt8.ofNat_toNat]
  rfl

theorem head?_lengthPrefixed_one {bs : Bytes} (h : bs.length < 256) :
    ∃ b : UInt8, (lengthPrefixed 1 bs).head? = some b ∧ b.toNat = bs.length ∧
      (lengthPrefixed 1 bs).drop 1 = bs := by
  refine ⟨UInt8.ofNat (bs.length / 256 ^ 0), rfl, ?_, rfl⟩
  rw [Nat.pow_zero, Nat.div_one, UInt8.toNat_ofNat', Nat.mod_eq_of_lt h]

/-- The check accepts the contents of extensions. -/
theorem checkExtension_iff {extType : ℕ} {scanned : ScannedExtensions} (ht : extType < 256 ^ 2)
    (hdt : data.length < 256 ^ 2) :
    checkExtension extType data scanned = some out ↔
      ∃ e : Extension, e.type = extType ∧ e.data = data ∧ e.update scanned = out := by
  rw [checkExtension]
  constructor
  · intro h
    by_cases hnm : extType = 0x0000
    · rw [if_pos hnm] at h
      split_ifs at h with hwf
      obtain ⟨names, ne, nodup, hlt, hd⟩ := (serverNameExtension_iff hdt).1 hwf
      exact ⟨.serverName names ne nodup hlt, hnm.symm, hd, update_serverName.trans (Option.some.inj h)⟩
    by_cases hvr : extType = 0x002b
    · rw [if_neg hnm, if_pos hvr] at h
      split at h
      · cases h
      next listLen hh =>
      by_cases hbd : listLen.toNat < 2 ∨ listLen.toNat % 2 ≠ 0 ∨ data.length ≠ 1 + listLen.toNat
      · rw [if_pos hbd] at h
        cases h
      rw [if_neg hbd] at h
      simp only [not_or, not_not, not_lt] at hbd
      obtain ⟨htw, he, hln⟩ := hbd
      have hdr : (data.drop 1).length = listLen.toNat := by
        rw [length_drop]
        omega
      exact ⟨.supportedVersions (data.drop 1) (hdr ▸ htw) (hdr ▸ he)
        (hdr ▸ listLen.toNat_lt), hvr.symm, (lengthPrefixed_one hh hln).symm,
        update_supportedVersions.trans (Option.some.inj h)⟩
    · rw [if_neg hnm, if_neg hvr] at h
      exact ⟨.other extType data ht hnm hvr hdt, rfl, rfl,
        update_other.trans (Option.some.inj h)⟩
  · rintro ⟨e, rfl, rfl, rfl⟩
    cases e with
    | serverName names ne nodup hlt =>
      have hwf := (serverNameExtension_iff hdt).2 ⟨names, ne, nodup, hlt, rfl⟩
      rw [update_serverName]
      simp [Extension.type, hwf]
    | supportedVersions versions two_le even hlt =>
      obtain ⟨b, hh, hb, hdr⟩ := head?_lengthPrefixed_one hlt
      have hln := length_lengthPrefixed 1 versions
      simp only [Extension.type, Extension.data, hh, hb, hdr, hln]
      rw [if_neg (by decide), if_pos trivial, if_neg (by omega), update_supportedVersions]
    | other type data _ hn hv _ =>
      rw [update_other]
      simp [Extension.type, hn, hv]

theorem Extension.length_encode (e : Extension) : e.encode.length = 4 + e.data.length := by
  rw [encode, length_append, length_beBytes, length_lengthPrefixed]
  omega

theorem read_extension {e : Extension} (h : ext = e.encode ++ rest) :
    u16At ext 0 = e.type ∧ u16At ext 2 = e.data.length ∧ slice ext 4 (4 + e.data.length) = e.data ∧
      ext.drop (4 + e.data.length) = rest ∧ 4 + e.data.length ≤ ext.length := by
  have hln : ext.length = 4 + e.data.length + rest.length := by
    rw [h, length_append, e.length_encode]
  have h0 : ext.drop 0 = beBytes 2 e.type ++ (beBytes 2 e.data.length ++ (e.data ++ rest)) := by
    rw [drop_zero, h, encode, lengthPrefixed, append_assoc, append_assoc]
  have h2 : ext.drop 2 = beBytes 2 e.data.length ++ (e.data ++ rest) := by
    have := drop_of_drop h0
    rwa [length_beBytes] at this
  have h4 : ext.drop 4 = e.data ++ rest := by
    have := drop_of_drop h2
    rwa [length_beBytes] at this
  exact ⟨u16At_of_drop h0 e.type_lt, u16At_of_drop h2 e.data_lt, slice_of_drop h4, drop_of_drop h4,
    by omega⟩

theorem ext_eq (h : 4 + u16At ext 2 ≤ ext.length) :
    ext = beBytes 2 (u16At ext 0) ++ (beBytes 2 (u16At ext 2) ++
      (slice ext 4 (4 + u16At ext 2) ++ ext.drop (4 + u16At ext 2))) := by
  have h0 := @drop_u16At ext 0 (by omega)
  rw [drop_zero] at h0
  rw [← drop_eq_slice_append (by omega), ← drop_u16At (by omega : 2 + 2 ≤ ext.length)]
  exact h0

theorem extensionsLoop_succ {seen : SeenCodePoints} {scanned : ScannedExtensions} (hne : ext ≠ []) :
    extensionsLoop (fuel + 1) ext seen scanned = some out ↔
      4 + u16At ext 2 ≤ ext.length ∧ ¬(seen.insertIsDuplicate (u16At ext 0)).1 = true ∧
      ∃ scanned', checkExtension (u16At ext 0) (slice ext 4 (4 + u16At ext 2)) scanned = some scanned' ∧
        extensionsLoop fuel (ext.drop (4 + u16At ext 2))
          (seen.insertIsDuplicate (u16At ext 0)).2 scanned' = some out := by
  rw [extensionsLoop, if_neg (by simpa using hne)]
  dsimp only
  by_cases hle : 4 + u16At ext 2 ≤ ext.length
  swap
  · rw [ite_eq_left_iff.2 fun _ => if_pos (not_le.1 hle)]
    simp [hle]
  rw [if_neg (by omega), if_neg (not_lt.2 hle)]
  by_cases hd : (seen.insertIsDuplicate (u16At ext 0)).1 = true
  · simp [hd]
  simp only [hd, hle, true_and, checkExtension]
  by_cases hn : u16At ext 0 = 0x0000
  · simp [hn]
  by_cases hv : u16At ext 0 = 0x002b
  · cases hh : (slice ext 4 (4 + u16At ext 2)).head? with
    | none => simp [hv]
    | some listLen =>
      by_cases hb : listLen.toNat < 2 ∨ listLen.toNat % 2 ≠ 0 ∨
        (slice ext 4 (4 + u16At ext 2)).length ≠ 1 + listLen.toNat
      · simp only [hv, if_pos hb]
        simp
      · simp only [hv, if_neg hb]
        simp
  · simp [hn, hv]

/-- The loop accepts the lists whose types differ, from each other and from those that were seen. -/
theorem extensionsLoop_iff {seen : SeenCodePoints} {scanned : ScannedExtensions}
    (hfl : ext.length ≤ fuel) (hs : seen.words.length = extensionTypeBitsetWords) :
    extensionsLoop fuel ext seen scanned = some out ↔
      ∃ es : List Extension, ext = es.flatMap encode ∧ seen.Fresh (es.map type) ∧
        es.foldl update scanned = out := by
  have hnl : ∀ {seen : SeenCodePoints} {scanned : ScannedExtensions},
      (some scanned = some out ↔ ∃ es : List Extension, [] = es.flatMap encode ∧
        seen.Fresh (es.map type) ∧ es.foldl update scanned = out) := by
    intro seen scanned
    constructor
    · intro h
      exact ⟨[], rfl, fresh_nil, Option.some.inj h⟩
    · rintro ⟨es, hes, -, rfl⟩
      cases es with
      | nil => rfl
      | cons e es =>
        have := congrArg List.length hes
        rw [flatMap_cons, length_append, e.length_encode, length_nil] at this
        omega
  induction fuel generalizing ext seen scanned with
  | zero =>
    obtain rfl := length_eq_zero_iff.1 (le_zero.1 hfl)
    rw [extensionsLoop]
    exact hnl
  | succ fuel ih =>
    by_cases hne : ext = []
    · subst hne
      rw [extensionsLoop, if_pos isEmpty_nil]
      exact hnl
    have hft : u16At ext 0 < 64 * seen.words.length := by
      rw [hs]
      exact u16At_lt ext 0
    have hw := (insertIsDuplicate_spec hft).2.1
    rw [extensionsLoop_succ hne]
    constructor
    · rintro ⟨hle, hnw, scanned', hc, hlp⟩
      have hsl : (slice ext 4 (4 + u16At ext 2)).length = u16At ext 2 := by
        rw [length_slice hle]
        omega
      obtain ⟨e, ht, hd, rfl⟩ :=
        (checkExtension_iff (u16At_lt ext 0) (hsl.trans_lt (u16At_lt ext 2))).1 hc
      obtain ⟨es, hes, hf, rfl⟩ := (ih (by rw [length_drop]; omega) (hw.trans hs)).1 hlp
      refine ⟨e :: es, ?_, ?_, rfl⟩
      · have het := ext_eq hle
        rw [flatMap_cons, encode, lengthPrefixed, ht, hd, hsl, ← hes, append_assoc, append_assoc]
        exact het
      · rw [map_cons, ht]
        exact (fresh_cons_iff hft).2 ⟨hnw, hf⟩
    · rintro ⟨es, hes, hf, rfl⟩
      cases es with
      | nil => exact absurd hes hne
      | cons e es =>
        rw [flatMap_cons] at hes
        obtain ⟨ht, hln, hd, hr, hle⟩ := read_extension hes
        rw [ht] at hw hft ⊢
        rw [hln, hd]
        obtain ⟨hnw, hf⟩ := (fresh_cons_iff hft).1 hf
        refine ⟨hle, hnw, e.update scanned, ?_, ?_⟩
        · exact (checkExtension_iff e.type_lt e.data_lt).2 ⟨e, rfl, rfl, rfl⟩
        · rw [hr]
          have hlt : (es.flatMap encode).length ≤ fuel := by
            have := congrArg List.length hes
            rw [length_append, e.length_encode] at this
            omega
          exact (ih hlt (hw.trans hs)).2 ⟨es, rfl, hf, rfl⟩

theorem foldl_update (es : List Extension) (scanned : ScannedExtensions) :
    es.foldl update scanned =
      { offersTls13 := scanned.offersTls13 || es.any offersTls13
        offersServerName := scanned.offersServerName || (es.findSome? names?).isSome } := by
  induction es generalizing scanned with
  | nil => simp
  | cons e es ih =>
    rw [foldl_cons, ih, any_cons, findSome?_cons, update]
    cases hn : e.names? <;> simp [Bool.or_assoc]

/-- The scan accepts the lists whose types differ. -/
theorem scan_iff :
    scanClientHelloExtensions ext = some out ↔
      ∃ es : List Extension, ext = es.flatMap encode ∧ (es.map type).Nodup ∧
        out = ⟨es.any offersTls13, (es.findSome? names?).isSome⟩ := by
  have hs : (SeenCodePoints.empty extensionTypeBitsetWords).words.length =
      extensionTypeBitsetWords := length_replicate
  rw [scanClientHelloExtensions, extensionsLoop_iff le_rfl hs]
  simp only [foldl_update, Bool.false_or, fresh_empty_iff, @eq_comm _ out]

/-! ## The body -/

theorem drop_lengthPrefixed_one {bs : Bytes} {i : ℕ} (hbs : bs.length < 256)
    (h : body.drop i = lengthPrefixed 1 bs ++ rest) :
    ∃ b : UInt8, body[i]? = some b ∧ b.toNat = bs.length ∧ body.drop (i + (1 + bs.length)) = rest := by
  obtain ⟨b, hh, hb, -⟩ := head?_lengthPrefixed_one hbs
  refine ⟨b, ?_, hb, ?_⟩
  · rw [← head?_drop, h, head?_append, hh, Option.some_or]
  · have := drop_of_drop h
    rwa [length_lengthPrefixed] at this

theorem exists_lengthPrefixed_one {i : ℕ} (hb : body[i]? = some b)
    (hle : i + (1 + b.toNat) ≤ body.length) :
    ∃ bs : Bytes, bs.length = b.toNat ∧
      body.drop i = lengthPrefixed 1 bs ++ body.drop (i + (1 + b.toNat)) := by
  have hln : (slice body (i + 1) (i + (1 + b.toNat))).length = b.toNat := by
    rw [length_slice hle]
    omega
  refine ⟨_, hln, ?_⟩
  rw [drop_of_getElem? hb, @drop_eq_slice_append body (i + 1) (i + (1 + b.toNat)) (by omega),
    lengthPrefixed, hln, beBytes, beBytes, Nat.pow_zero, Nat.div_one, UInt8.ofNat_toNat]
  rfl

theorem exists_lengthPrefixed_two {i : ℕ} (hle : i + 2 + u16At body i ≤ body.length) :
    ∃ bs : Bytes, bs.length = u16At body i ∧ bs = slice body (i + 2) (i + 2 + u16At body i) ∧
      body.drop i = lengthPrefixed 2 bs ++ body.drop (i + 2 + u16At body i) := by
  have hln : (slice body (i + 2) (i + 2 + u16At body i)).length = u16At body i := by
    rw [length_slice hle]
    omega
  refine ⟨_, hln, rfl, ?_⟩
  rw [lengthPrefixed, hln, append_assoc, ← drop_eq_slice_append (by omega)]
  exact drop_u16At (by omega)

theorem guard_bind {α : Type} [Decidable p] (h : p) (f : Unit → Option α) :
    (guard p : Option Unit).bind f = f () := by
  simp [guard, h]

theorem guard_eq_some [Decidable p] {u : Unit} : (guard p : Option Unit) = some u ↔ p := by
  by_cases h : p <;> simp [guard, h]

theorem suitesLoop_others (suites : Bytes) (facts : ClientHelloKtlsFacts) :
    (suitesLoop suites facts).offersTls13 = facts.offersTls13 ∧
      (suitesLoop suites facts).offersServerName = facts.offersServerName := by
  fun_induction suitesLoop suites facts with
  | case1 hi lo rest facts suite ih =>
    refine ⟨ih.1.trans ?_, ih.2.trans ?_⟩ <;> split_ifs <;> rfl
  | case2 => exact ⟨rfl, rfl⟩

/-- What is read of a block of extensions at the end. -/
theorem read_tail {body enc : Bytes} {pos : ℕ} (h : body.drop pos = lengthPrefixed 2 enc)
    (he : enc.length < 256 ^ 2) :
    u16At body pos = enc.length ∧ slice body (pos + 2) (pos + 2 + enc.length) = enc := by
  have h0 : body.drop pos = beBytes 2 enc.length ++ (enc ++ []) := by rw [h, append_nil]; rfl
  have h2 := drop_of_drop h0
  rw [length_beBytes] at h2
  exact ⟨u16At_of_drop h0 he, slice_of_drop h2⟩

namespace Hello

variable {hello : Hello}

/-- What is read of the fields before the extensions. -/
theorem read_front {body tail : Bytes} (h : body = hello.front ++ tail) :
    ∃ sid comp : UInt8, body[34]? = some sid ∧ sid.toNat = hello.sessionId.length ∧
      u16At body (34 + (1 + sid.toNat)) = hello.suites.length ∧
      slice body (34 + (1 + sid.toNat) + 2) (34 + (1 + sid.toNat) + 2 + hello.suites.length) =
        hello.suites ∧
      body[34 + (1 + sid.toNat) + 2 + hello.suites.length]? = some comp ∧
      comp.toNat = hello.compression.length ∧
      body.drop (34 + (1 + sid.toNat) + 2 + hello.suites.length + (1 + comp.toNat)) = tail ∧
      body.length =
        34 + (1 + sid.toNat) + 2 + hello.suites.length + (1 + comp.toNat) + tail.length := by
  have h34 : body.drop 34 = lengthPrefixed 1 hello.sessionId ++
      (lengthPrefixed 2 hello.suites ++ (lengthPrefixed 1 hello.compression ++ tail)) := by
    rw [h, front, ← hello.head_length]
    simp only [append_assoc, drop_left]
  obtain ⟨sid, hsd, hs, h1⟩ := drop_lengthPrefixed_one hello.sessionId_lt h34
  rw [lengthPrefixed, append_assoc] at h1
  have h2 := drop_of_drop h1
  rw [length_beBytes] at h2
  have h3 := drop_of_drop h2
  obtain ⟨comp, hcm, hc, h4⟩ := drop_lengthPrefixed_one hello.compression_lt h3
  rw [← hs] at h1 h2 hcm h4
  rw [← hc] at h4
  refine ⟨sid, comp, hsd, hs, u16At_of_drop h1 hello.suites_lt, slice_of_drop h2, hcm, hc,
    h4, ?_⟩
  have := congrArg List.length h
  simp only [front, length_append, length_lengthPrefixed, hello.head_length] at this
  omega

theorem encode_eq (hello : Hello) : hello.encode = hello.front ++ hello.tail := rfl

theorem tail_none (h : hello.extensions = none) : hello.tail = [] := by rw [tail, h]

theorem tail_some {es : List Extension} (h : hello.extensions = some es) :
    hello.tail = lengthPrefixed 2 (es.flatMap Extension.encode) := by rw [tail, h]

/-- The strict parser accepts a body, with its facts. -/
theorem strict_encode (hello : Hello) : parseTlsClientHelloKtlsFacts hello.encode = some hello.facts := by
  obtain ⟨sid, comp, hsi, hsd, hs, hst, hcm, hc, ht, hln⟩ :=
    hello.read_front hello.encode_eq
  have hcp : comp.toNat ≠ 0 := by
    rw [hc]
    exact fun h => hello.compression_ne (length_eq_zero_iff.1 h)
  have htw := hello.suites_two_le
  have he := hello.suites_even
  simp only [parseTlsClientHelloKtlsFacts, Option.bind_eq_bind]
  rw [guard_bind (by omega), hsi, Option.bind_some, guard_bind (by omega), guard_bind (by omega),
    hs, guard_bind ⟨htw, he⟩, guard_bind (by omega), hcm, Option.bind_some,
    guard_bind hcp, guard_bind (by omega), hst]
  clear hcm hst hs
  generalize 34 + (1 + sid.toNat) + 2 + hello.suites.length + (1 + comp.toNat) = pos at *
  cases het : hello.extensions with
  | none =>
    rw [tail_none het, length_nil, add_zero] at hln
    rw [if_pos hln, facts, names?, het]
    obtain ⟨htl13, hn⟩ := suitesLoop_others hello.suites {}
    cases hf : suitesLoop hello.suites {}
    simp_all
  | some es =>
    have hlt := hello.extensions_lt es het
    rw [tail_some het] at ht hln
    rw [length_lengthPrefixed] at hln
    obtain ⟨hlen, hsl⟩ := read_tail ht hlt
    have hsc := scan_iff.2 ⟨es, rfl, hello.nodup es het, rfl⟩
    rw [if_neg (by omega), guard_bind (by omega), hlen, guard_bind (by omega), hsl, hsc, facts,
      names?, het]
    rfl

end Hello

/-- A block of extensions that is accepted, or none. -/
theorem exists_extensions {out : ClientHelloKtlsFacts}
    (h : (if body.length = pos then some facts else
      (guard (pos + 2 ≤ body.length) : Option Unit).bind fun _ =>
        (guard (body.length = pos + 2 + u16At body pos) : Option Unit).bind fun _ =>
          (scanClientHelloExtensions (slice body (pos + 2) (pos + 2 + u16At body pos))).bind fun scanned =>
            some { facts with
              offersTls13 := scanned.offersTls13
              offersServerName := scanned.offersServerName }) = some out) :
    ∃ extensions : Option (List Extension),
      (∀ es, extensions = some es → (es.map type).Nodup ∧
        (es.flatMap encode).length < 256 ^ 2) ∧
      body.drop pos = match extensions with
        | none => []
        | some es => lengthPrefixed 2 (es.flatMap encode) := by
  split_ifs at h with he
  · refine ⟨none, by simp, ?_⟩
    rw [← he, drop_length]
  · simp only [Option.bind_eq_some_iff, guard_eq_some, exists_const] at h
    obtain ⟨-, hln, scanned, hs, -⟩ := h
    obtain ⟨ext, het, hsl, hd⟩ := exists_lengthPrefixed_two hln.ge
    rw [← hsl] at hs
    obtain ⟨es, rfl, hn, -⟩ := scan_iff.1 hs
    refine ⟨some es, ?_, ?_⟩
    · rintro _ ⟨⟩
      exact ⟨hn, het.trans_lt (u16At_lt body pos)⟩
    · rw [hd, ← hln, drop_length, append_nil]

/-- A body that is accepted has the fields of the grammar. -/
theorem exists_of_strict (h : parseTlsClientHelloKtlsFacts body = some facts) :
    ∃ hello : Hello, hello.encode = body := by
  simp only [parseTlsClientHelloKtlsFacts, Option.bind_eq_bind, Option.bind_eq_some_iff, guard_eq_some,
    exists_const] at h
  obtain ⟨h34, sid, hsi, hp1, -, ⟨ht, hev⟩, hp2, comp, hcm, hne, hp3, h⟩ := h
  obtain ⟨sessionId, hsd, e1⟩ := exists_lengthPrefixed_one hsi hp1
  obtain ⟨suites, hs, -, e2⟩ := exists_lengthPrefixed_two hp2
  obtain ⟨compression, hc, e3⟩ := exists_lengthPrefixed_one hcm hp3
  obtain ⟨extensions, he, e4⟩ := exists_extensions h
  have e0 := @drop_eq_slice_append body 0 34 (zero_le _)
  rw [drop_zero] at e0
  refine ⟨
    { head := slice body 0 34
      sessionId, suites, compression, extensions
      head_length := length_slice h34
      sessionId_lt := hsd.trans_lt sid.toNat_lt
      suites_two_le := hs ▸ ht
      suites_even := hs ▸ hev
      suites_lt := hs.trans_lt (u16At_lt _ _)
      compression_ne := fun hn => hne (by rw [← hc, hn]; rfl)
      compression_lt := hc.trans_lt comp.toNat_lt
      nodup := fun es hes => (he es hes).1
      extensions_lt := fun es hes => (he es hes).2 }, ?_⟩
  rw [Hello.encode, Hello.front, Hello.tail, ← e4]
  simp only [append_assoc]
  rw [← e3, ← e2, ← e1, ← e0]

/-- The strict parser accepts the bodies of the grammar, and only these. -/
theorem strict_iff {body : Bytes} {facts : ClientHelloKtlsFacts} :
    parseTlsClientHelloKtlsFacts body = some facts ↔
      ∃ hello : Hello, hello.encode = body ∧ hello.facts = facts := by
  constructor
  · intro h
    obtain ⟨hello, rfl⟩ := exists_of_strict h
    exact ⟨hello, rfl, Option.some.inj (hello.strict_encode.symm.trans h)⟩
  · rintro ⟨hello, rfl, rfl⟩
    exact hello.strict_encode

/-! ## The host name -/

theorem sniHostnameLoop_eq {names : Bytes} {ns : List ServerName}
    (h : names.drop pos = ns.flatMap ServerName.encode) (hf : names.length ≤ pos + fuel)
    (hpos : pos ≤ names.length) : sniHostnameLoop names fuel pos = Hello.hostname ns := by
  induction ns generalizing fuel pos with
  | nil =>
    have he : pos = names.length :=
      le_antisymm hpos (drop_eq_nil_iff.1 h)
    cases fuel with
    | zero => rfl
    | succ fuel =>
      rw [sniHostnameLoop, if_neg (by omega)]
      rfl
  | cons n ns ih =>
    rw [flatMap_cons] at h
    obtain ⟨ht, hln, hn, hr, hle⟩ := read_serverName h
    cases fuel with
    | zero => omega
    | succ fuel =>
      rw [sniHostnameLoop, if_pos (by omega), hln, ht, if_neg (by omega), Hello.hostname,
        find?_cons]
      by_cases h0 : n.nameType = 0
      · simp [h0, hn]
      · rw [if_neg h0, ih hr (by omega) hle, decide_eq_false h0]
        rfl

theorem parseSniHostname_eq {names : List ServerName} {ne nodup hlt} :
    parseSniHostname (serverName names ne nodup hlt).data = Hello.hostname names := by
  obtain ⟨hln, hs⟩ := @read_tail (lengthPrefixed 2 (names.flatMap ServerName.encode))
    (names.flatMap ServerName.encode) 0 rfl (by omega)
  have hd : (lengthPrefixed 2 (names.flatMap ServerName.encode)).drop 2 =
      names.flatMap ServerName.encode := rfl
  simp only [parseSniHostname, data, length_lengthPrefixed, hln, hd]
  rw [if_neg (by omega), if_neg (not_not.2 rfl)]
  exact sniHostnameLoop_eq rfl (by omega) (zero_le _)

theorem sniExtensionsLoop_eq {es : List Extension} (h : ext = es.flatMap encode)
    (hf : ext.length ≤ fuel) :
    sniExtensionsLoop fuel ext = (es.findSome? names?).bind Hello.hostname := by
  induction es generalizing fuel ext with
  | nil =>
    subst h
    cases fuel <;> rfl
  | cons e es ih =>
    rw [flatMap_cons] at h
    obtain ⟨ht, hln, hd, hr, hle⟩ := read_extension h
    cases fuel with
    | zero => omega
    | succ fuel =>
      rw [sniExtensionsLoop, if_pos (by omega), hln, ht, if_neg (by omega), hd, hr, findSome?_cons]
      have hih := @ih _ fuel rfl (by
        rw [← hr, length_drop]
        omega)
      cases e with
      | serverName names ne nodup hlt => exact (if_pos rfl).trans parseSniHostname_eq
      | supportedVersions => exact (if_neg (show 0x002b ≠ 0 by decide)).trans hih
      | other type data _ hn => exact (if_neg hn).trans hih

/-- On the bodies of the grammar, the lenient parser finds the host name. -/
theorem lenient_eq (hello : Hello) :
    parseTlsClientHelloBody hello.encode = hello.names?.bind Hello.hostname := by
  obtain ⟨sid, comp, hsi, hsd, hs, -, hc, hcm, ht, hln⟩ :=
    hello.read_front hello.encode_eq
  have ha : 34 + (1 + sid.toNat) + (2 + hello.suites.length) =
      34 + (1 + sid.toNat) + 2 + hello.suites.length := by omega
  simp only [parseTlsClientHelloBody, Option.bind_eq_bind]
  rw [guard_bind (by omega), hsi, Option.bind_some, guard_bind (by omega), guard_bind (by omega),
    hs, guard_bind (by omega), ha, hc, Option.bind_some, guard_bind (by omega)]
  clear hc hs ha
  generalize 34 + (1 + sid.toNat) + 2 + hello.suites.length + (1 + comp.toNat) = pos at *
  rw [Hello.names?]
  cases he : hello.extensions with
  | none =>
    rw [Hello.tail_none he, length_nil, add_zero] at hln
    have hgr : (guard (pos + 2 ≤ hello.encode.length) : Option Unit) = none := by
      simp [guard, hln]
    rw [hgr]
    rfl
  | some es =>
    have hlt := hello.extensions_lt es he
    rw [Hello.tail_some he] at ht hln
    rw [length_lengthPrefixed] at hln
    obtain ⟨hlen, hsl⟩ := read_tail ht hlt
    rw [guard_bind (by omega), hlen, min_eq_left (by omega), hsl, parseSniFromExtensions]
    exact sniExtensionsLoop_eq rfl le_rfl

end Ferrum.Sni
