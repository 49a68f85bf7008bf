/-
  What a pattern with wildcards matches.

  The matcher pins the first and the last part of a pattern and looks for the others from left to
  right in what is between.  Its slices are string slices: `wildcardMatchStr` says where they would
  panic.

  * `matchPartsStr_eq`: the search never cuts a character, and finds the parts iff they occur.
  * `wildcard_match_iff_weave`: a pattern matches the texts that are its parts with a string for every
    wildcard.
-/
import Ferrum.Lib.Glob
import Ferrum.Mesh.Text

namespace Ferrum.Mesh

open Lib List

/-! ## The matcher with its slices -/

/-- The search for the parts of a pattern, `none` where a slice would panic. -/
def matchPartsStr (anchoredEnd : Bool) (value : Bytes) (limit : ℕ) : List Bytes → ℕ → Option Bool
  | [], _ => some true
  | part :: parts, pos =>
    if anchoredEnd && parts.isEmpty then some true
    else (sliceStr value pos limit).bind fun range =>
      match find part range with
      | none => some false
      | some index => matchPartsStr anchoredEnd value limit parts (pos + index + part.length)

/-- `wildcard_match`, `none` where a slice would panic. -/
def wildcardMatchStr (pattern value : Bytes) : Option Bool :=
  if pattern = [0x2a] then some true
  else if !pattern.contains 0x2a then some (pattern == value)
  else
    let anchoredStart := pattern.head? != some 0x2a
    let anchoredEnd := pattern.getLast? != some 0x2a
    let parts := (pattern.splitOn 0x2a).filter (· ≠ [])
    match parts with
    | [] => some true
    | first :: rest =>
      if anchoredStart && !startsWith value first then some false
      else
        let pos := if anchoredStart then first.length else 0
        let parts := if anchoredStart then rest else first :: rest
        let last := rest.getLastD first
        if anchoredEnd && !endsWith value last then some false
        else if anchoredEnd && value.length - last.length < pos then some false
        else
          let limit := if anchoredEnd then value.length - last.length else value.length
          matchPartsStr anchoredEnd value limit parts pos

/-! ## The search -/

theorem startsWith_iff {s start : Bytes} : startsWith s start = true ↔ ∃ t, s = start ++ t := by
  rw [startsWith, isPrefixOf_iff_prefix]
  exact exists_congr fun _ => eq_comm

theorem endsWith_iff {s ending : Bytes} : endsWith s ending = true ↔ ∃ t, s = t ++ ending := by
  rw [endsWith, isSuffixOf_iff_suffix]
  exact exists_congr fun _ => eq_comm

theorem find_some {part s : Bytes} {i : ℕ} (h : find part s = some i) :
    (∃ x w, s = x ++ (part ++ w) ∧ x.length = i) ∧
      ∀ y u, s = y ++ (part ++ u) → i ≤ y.length := by
  induction s generalizing i with
  | nil =>
    rw [find] at h
    split_ifs at h with hp
    cases h
    exact ⟨⟨[], [], by rw [hp]; rfl, rfl⟩, fun _ _ _ => Nat.zero_le _⟩
  | cons b s ih =>
    rw [find] at h
    split_ifs at h with hs
    · cases h
      obtain ⟨t, ht⟩ := startsWith_iff.1 hs
      exact ⟨⟨[], t, ht, rfl⟩, fun _ _ _ => Nat.zero_le _⟩
    · obtain ⟨j, hj, rfl⟩ := Option.map_eq_some_iff.1 h
      obtain ⟨⟨x, w, rfl, rfl⟩, hf⟩ := ih hj
      refine ⟨⟨b :: x, w, rfl, rfl⟩, fun y u hy => ?_⟩
      cases y with
      | nil => exact absurd (startsWith_iff.2 ⟨u, hy⟩) hs
      | cons c y => exact Nat.succ_le_succ (hf y u (List.cons.inj hy).2)

theorem find_none {part s x w : Bytes} (h : find part s = none) : s ≠ x ++ (part ++ w) := by
  induction s generalizing x with
  | nil =>
    rw [find] at h
    split_ifs at h with hp
    intro hs
    exact hp (append_eq_nil_iff.1 (append_eq_nil_iff.1 hs.symm).2).1
  | cons b s ih =>
    rw [find] at h
    split_ifs at h with hst
    rw [Option.map_eq_none_iff] at h
    intro hs
    cases x with
    | nil => exact hst (startsWith_iff.2 ⟨w, hs⟩)
    | cons c x => exact ih h (List.cons.inj hs).2

variable {anchoredEnd : Bool} {pinned mids : List Bytes} {a m e : Bytes}

/-- **The search.**  The text between what is matched and what is pinned is a string throughout. -/
theorem matchPartsStr_eq (hp : pinned.length = anchoredEnd.toNat)
    (hmd : ∀ p ∈ mids, IsUtf8 p ∧ p ≠ []) (hm : IsUtf8 m) (he : IsUtf8 e) :
    matchPartsStr anchoredEnd (a ++ (m ++ e)) (a.length + m.length) (mids ++ pinned) a.length =
        some (matchParts anchoredEnd (a ++ (m ++ e)) (a.length + m.length) (mids ++ pinned) a.length) ∧
      (matchParts anchoredEnd (a ++ (m ++ e)) (a.length + m.length) (mids ++ pinned) a.length = true ↔
        Occur mids m) := by
  induction mids generalizing a m with
  | nil =>
    cases anchoredEnd with
    | false =>
      rw [length_eq_zero_iff.1 hp]
      exact ⟨rfl, iff_of_true rfl trivial⟩
    | true =>
      obtain ⟨last, rfl⟩ := length_eq_one_iff.1 hp
      exact ⟨rfl, iff_of_true rfl trivial⟩
  | cons part mids ih =>
    obtain ⟨⟨hpr, hne⟩, hmd⟩ := forall_mem_cons.1 hmd
    have hmr : (anchoredEnd && (mids ++ pinned).isEmpty) = false := by
      cases anchoredEnd with
      | false => rfl
      | true =>
        obtain ⟨last, rfl⟩ := length_eq_one_iff.1 hp
        simp
    have hs : slice (a ++ (m ++ e)) a.length (a.length + m.length) = m :=
      slice_of_drop (drop_left' rfl)
    have hsl : sliceStr (a ++ (m ++ e)) a.length (a.length + m.length) = some m := by
      have hst : isCharBoundary (a ++ (m ++ e)) (a.length + m.length) = true := by
        rw [← append_assoc, ← length_append]
        exact isCharBoundary_append he
      rw [sliceStr, if_pos ⟨Nat.le_add_right _ _, isCharBoundary_append (hm.append he), hst⟩, hs]
    simp only [cons_append, matchPartsStr, matchParts, hmr, Bool.false_eq_true, if_false, hs,
      hsl, Option.bind_some]
    cases hf : find part m with
    | none =>
      refine ⟨rfl, iff_of_false Bool.false_ne_true ?_⟩
      rintro ⟨x, w, hx, -⟩
      exact find_none hf hx
    | some i =>
      obtain ⟨⟨x, w, rfl, rfl⟩, hfr⟩ := find_some hf
      -- the next round starts behind the part that was found
      have hw : IsUtf8 w := (hm.split_word hpr hne).2.2
      have hv : a ++ (x ++ (part ++ w) ++ e) = (a ++ x ++ part) ++ (w ++ e) := by
        simp only [append_assoc]
      have hpos : a.length + x.length + part.length = (a ++ x ++ part).length := by
        simp only [length_append]
      have hlm : a.length + (x ++ (part ++ w)).length = (a ++ x ++ part).length + w.length := by
        simp only [length_append]
        omega
      dsimp only
      rw [hv, hpos, hlm, occur_of_first rfl hfr]
      exact ih hmd hw

/-! ## The parts of a pattern -/

section
variable {p0 pn pattern value : Bytes}

theorem not_mem_of_mem_splitOn {part : Bytes} (h : part ∈ pattern.splitOn 0x2a) :
    (0x2a : UInt8) ∉ part := by
  induction pattern generalizing part with
  | nil =>
    rw [splitOn_nil, mem_singleton] at h
    rw [h]
    exact not_mem_nil
  | cons b pattern ih =>
    rw [splitOn_cons_eq_if_modifyHead] at h
    split_ifs at h with hb
    · rcases mem_cons.1 h with rfl | h
      · exact not_mem_nil
      · exact ih h
    · cases hs : pattern.splitOn 0x2a with
      | nil => exact absurd hs (splitOn_ne_nil _ _)
      | cons first rest =>
        rw [hs] at h ih
        rcases mem_cons.1 h with rfl | h
        · intro hm
          rcases mem_cons.1 hm with rfl | hm
          · exact hb rfl
          · exact ih mem_cons_self hm
        · exact ih (mem_cons_of_mem _ h)

/-- The parts of a string are strings, since the wildcard is an ASCII character. -/
theorem isUtf8_parts {parts : List Bytes} (h : IsUtf8 ([0x2a].intercalate parts)) :
    ∀ p ∈ parts, IsUtf8 p := by
  induction parts with
  | nil => simp
  | cons p parts ih =>
    cases parts with
    | nil =>
      rw [intercalate_singleton] at h
      exact forall_mem_singleton.2 h
    | cons q parts =>
      rw [intercalate_cons_cons, append_assoc, singleton_append] at h
      obtain ⟨hp, hr⟩ := h.split_ascii (by decide)
      exact forall_mem_cons.2 ⟨hp, ih hr⟩

/-- A pattern starts with a wildcard iff its first part is empty. -/
theorem head_intercalate {q : Bytes} {parts : List Bytes} (h0 : (0x2a : UInt8) ∉ p0) :
    (([0x2a].intercalate (p0 :: q :: parts)).head? != some 0x2a) = !p0.isEmpty := by
  rw [intercalate_cons_cons]
  cases p0 with
  | nil => rfl
  | cons b p0 =>
    have hb : b ≠ 0x2a := fun hb => h0 (hb ▸ mem_cons_self)
    simpa using hb

/-- A pattern ends with a wildcard iff its last part is empty. -/
theorem getLast_intercalate {parts : List Bytes} (hp : parts ≠ []) (hn : (0x2a : UInt8) ∉ pn) :
    (([0x2a].intercalate (parts ++ [pn])).getLast? != some 0x2a) = !pn.isEmpty := by
  have he : ∃ front, [0x2a].intercalate (parts ++ [pn]) = front ++ [0x2a] ++ pn := by
    induction parts with
    | nil => exact absurd rfl hp
    | cons p parts ih =>
      cases parts with
      | nil => exact ⟨p, by rw [singleton_append, intercalate_cons_cons, intercalate_singleton]⟩
      | cons q parts =>
        obtain ⟨front, hf⟩ := ih (cons_ne_nil _ _)
        refine ⟨p ++ [0x2a] ++ front, ?_⟩
        rw [cons_append, cons_append, intercalate_cons_cons, ← cons_append, hf]
        simp only [append_assoc]
  obtain ⟨front, hf⟩ := he
  rw [hf]
  rcases eq_nil_or_concat pn with rfl | ⟨pn, b, rfl⟩
  · simp
  · have hb : b ≠ 0x2a := fun hb => hn (by simp [hb])
    have hne : (pn ++ [b]).isEmpty = false := by simp
    rw [concat_eq_append, ← append_assoc, getLast?_concat, hne]
    simpa using hb

/-- The last part, if it is not empty. -/
def pinnedEnd (pn : Bytes) : List Bytes := if pn = [] then [] else [pn]

/-- The anchored ends stand at the ends of the text and do not overlap. -/
def endsPinned (p0 pn value : Bytes) : Bool :=
  startsWith value p0 && endsWith value pn && p0.length + pn.length ≤ value.length

/-- The body of the matcher around its search, for the matcher with and without its slices. -/
theorem body_eq {β : Type} (yes no : β) (loop : Bool → ℕ → List Bytes → ℕ → β)
    (hn : loop false value.length [] 0 = yes) (F : List Bytes) :
    (match pinnedEnd p0 ++ (F ++ pinnedEnd pn) with
    | [] => yes
    | first :: rest =>
      if !p0.isEmpty && !startsWith value first then no
      else
        let pos := if !p0.isEmpty then first.length else 0
        let parts := if !p0.isEmpty then rest else first :: rest
        let last := rest.getLastD first
        if !pn.isEmpty && !endsWith value last then no
        else if !pn.isEmpty && value.length - last.length < pos then no
        else
          let limit := if !pn.isEmpty then value.length - last.length else value.length
          loop (!pn.isEmpty) limit parts pos) =
      if endsPinned p0 pn value then
        loop (!pn.isEmpty) (value.length - pn.length) (F ++ pinnedEnd pn) p0.length
      else no := by
  have hs : startsWith value [] = true := startsWith_iff.2 ⟨value, rfl⟩
  have hen : endsWith value [] = true := endsWith_iff.2 ⟨value, (append_nil _).symm⟩
  have hst : startsWith value p0 = true → p0.length ≤ value.length := fun h => by
    obtain ⟨t, rfl⟩ := startsWith_iff.1 h
    simp
  have he : endsWith value pn = true → pn.length ≤ value.length := fun h => by
    obtain ⟨t, rfl⟩ := endsWith_iff.1 h
    simp
  by_cases hp0 : p0 = []
  · subst hp0
    by_cases hpn : pn = []
    · subst hpn
      cases F with
      | nil => simpa [pinnedEnd, endsPinned, hs, hen] using hn.symm
      | cons first rest => simp [pinnedEnd, endsPinned, hs, hen]
    · obtain ⟨first, rest, hf⟩ : ∃ first rest, F ++ [pn] = first :: rest :=
        exists_cons_of_ne_nil (by simp)
      have hls : rest.getLastD first = pn := by
        have h := congrArg getLast? hf
        rw [getLast?_concat, getLast?_cons] at h
        rw [getLastD_eq_getLast?]
        exact (Option.some.inj h).symm
      simp only [pinnedEnd, if_true, if_neg hpn, nil_append, hf, isEmpty_nil, hls,
        isEmpty_eq_false_iff.2 hpn, endsPinned, hs]
      by_cases hpd : endsWith value pn = true
      · simp [hpd, he hpd]
      · simp [hpd]
  · have hp0' : p0.isEmpty = false := isEmpty_eq_false_iff.2 hp0
    by_cases hp0Start : startsWith value p0 = true
    · by_cases hpn : pn = []
      · subst hpn
        simp [pinnedEnd, endsPinned, hp0, hp0', hp0Start, hen, hst hp0Start]
      · by_cases hpd : endsWith value pn = true
        · have hlt : value.length - pn.length < p0.length ↔ ¬ p0.length + pn.length ≤ value.length := by
            have := he hpd
            omega
          by_cases hft : p0.length + pn.length ≤ value.length <;>
            simp [pinnedEnd, endsPinned, hp0, hp0', hp0Start, hpd, hpn, hlt, hft]
        · simp [pinnedEnd, endsPinned, hp0, hp0', hp0Start, hpd, hpn]
    · simp [pinnedEnd, endsPinned, hp0, hp0', hp0Start]

/-- What the two matchers compute once the pattern is taken apart. -/
theorem wildcardMatch_eq (value : Bytes) (h0 : (0x2a : UInt8) ∉ p0) (hn : (0x2a : UInt8) ∉ pn)
    (hp : pattern.splitOn 0x2a = p0 :: (mids ++ [pn])) :
    let parts := mids.filter (· ≠ []) ++ pinnedEnd pn
    (wildcardMatch pattern value = if endsPinned p0 pn value then
        matchParts (!pn.isEmpty) value (value.length - pn.length) parts p0.length else false) ∧
      wildcardMatchStr pattern value = if endsPinned p0 pn value then
        matchPartsStr (!pn.isEmpty) value (value.length - pn.length) parts p0.length
        else some false := by
  intro parts
  have hjn : [0x2a].intercalate (p0 :: (mids ++ [pn])) = pattern := by
    rw [← hp, intercalate_splitOn]
  obtain ⟨q, rest, hq⟩ : ∃ q rest, mids ++ [pn] = q :: rest :=
    exists_cons_of_ne_nil (by simp)
  have hsr : (pattern.head? != some 0x2a) = !p0.isEmpty := by
    rw [← hjn, hq]
    exact head_intercalate h0
  have hen : (pattern.getLast? != some 0x2a) = !pn.isEmpty := by
    rw [← hjn, ← cons_append]
    exact getLast_intercalate (cons_ne_nil _ _) hn
  have hc : pattern.contains 0x2a = true := by
    rw [contains_iff_mem, ← hjn, hq, intercalate_cons_cons]
    simp
  have hpr : (pattern.splitOn 0x2a).filter (· ≠ []) = pinnedEnd p0 ++ parts := by
    simp only [hp, parts, pinnedEnd, filter_cons, filter_append, filter_nil]
    split_ifs <;> simp_all
  by_cases hst : pattern = [0x2a]
  · -- both ends are empty, and there is nothing between them
    have hs : p0 :: (mids ++ [pn]) = [[], []] := by
      rw [← hp, hst]
      rfl
    rw [List.cons.injEq] at hs
    obtain ⟨rfl, hs⟩ := hs
    obtain ⟨rfl, rfl⟩ : mids = [] ∧ pn = [] := by
      cases mids with
      | nil => exact ⟨rfl, (List.cons.inj hs).1⟩
      | cons m mids => simp at hs
    have he : endsPinned [] [] value = true := by
      simp [endsPinned, startsWith, endsWith]
    rw [wildcardMatch, wildcardMatchStr, if_pos hst, if_pos hst, if_pos he, if_pos he]
    exact ⟨rfl, rfl⟩
  · simp only [wildcardMatch, wildcardMatchStr, if_neg hst, hc, hsr, hen, hpr,
      Bool.not_true, Bool.false_eq_true, if_false]
    exact ⟨body_eq true false (fun e => matchParts e value) rfl _,
      body_eq (some true) (some false) (fun e => matchPartsStr e value) rfl _⟩

theorem endsPinned_iff : endsPinned p0 pn value = true ↔ ∃ m, value = p0 ++ (m ++ pn) := by
  simp only [endsPinned, Bool.and_eq_true, decide_eq_true_eq, startsWith_iff, endsWith_iff]
  constructor
  · rintro ⟨⟨⟨s, hs⟩, t, ht⟩, hln⟩
    -- the two ends leave a text between them
    have hle : p0.length ≤ t.length := by
      have := congrArg length ht
      rw [length_append] at this
      omega
    obtain ⟨m, rfl⟩ : p0 <+: t :=
      prefix_of_prefix_length_le (hs ▸ prefix_append _ _) (ht ▸ prefix_append _ _) hle
    exact ⟨m, by rw [ht, append_assoc]⟩
  · rintro ⟨m, rfl⟩
    refine ⟨⟨⟨m ++ pn, rfl⟩, p0 ++ m, by rw [append_assoc]⟩, ?_⟩
    simp only [length_append]
    omega

/-- **A pattern with wildcards.**  Its slices do not panic, and it matches iff its parts fill the
    text. -/
theorem wildcardMatch_fills (hpt : IsUtf8 pattern) (hv : IsUtf8 value) :
    wildcardMatchStr pattern value = some (wildcardMatch pattern value) ∧
      (wildcardMatch pattern value = true ↔
        Fills (fun _ => True) (pattern.splitOn 0x2a) value) := by
  have hjn : [0x2a].intercalate (pattern.splitOn 0x2a) = pattern := intercalate_splitOn _
  have hu : ∀ p ∈ pattern.splitOn 0x2a, IsUtf8 p := isUtf8_parts (hjn.symm ▸ hpt)
  have hf : ∀ p ∈ pattern.splitOn 0x2a, (0x2a : UInt8) ∉ p := fun p => not_mem_of_mem_splitOn
  obtain ⟨p0, rest, hs⟩ := exists_cons_of_ne_nil (splitOn_ne_nil (0x2a : UInt8) pattern)
  rcases eq_nil_or_concat rest with rfl | ⟨mids, pn, rfl⟩
  · -- no wildcard
    rw [hs] at hjn hf ⊢
    rw [intercalate_singleton] at hjn
    subst hjn
    have hno : (0x2a : UInt8) ∉ p0 := hf p0 mem_cons_self
    have hne : p0 ≠ [0x2a] := fun h => hno (by rw [h]; exact mem_cons_self)
    rw [wildcardMatch, wildcardMatchStr, if_neg hne, if_neg hne, if_pos (by simpa using hno),
      if_pos (by simpa using hno)]
    exact ⟨rfl, beq_iff_eq.trans eq_comm⟩
  · rw [concat_eq_append] at hs
    rw [hs] at hu hf ⊢
    obtain ⟨hmt, hst⟩ := wildcardMatch_eq value (hf p0 (by simp)) (hf pn (by simp)) hs
    rw [hmt, hst, fills_iff_occur]
    by_cases he : endsPinned p0 pn value = true
    · rw [if_pos he, if_pos he]
      obtain ⟨m, rfl⟩ := endsPinned_iff.1 he
      have hpn : IsUtf8 pn := hu pn (by simp)
      have hm : IsUtf8 m := by
        have hr : IsUtf8 (m ++ pn) := hv.of_append (hu p0 (by simp))
        by_cases hne : pn = []
        · rwa [hne, append_nil] at hr
        · exact (IsUtf8.split_word (by rwa [append_nil]) hpn hne).1
      have hlm : (p0 ++ (m ++ pn)).length - pn.length = p0.length + m.length := by
        simp only [length_append]
        omega
      have ho : (∃ m', p0 ++ (m ++ pn) = p0 ++ (m' ++ pn) ∧ Occur mids m') ↔
          Occur (mids.filter (· ≠ [])) m := by
        simp only [occur_filter, append_cancel_left_eq, append_cancel_right_eq, exists_eq_left']
      have hmd : ∀ p ∈ mids.filter (· ≠ []), IsUtf8 p ∧ p ≠ [] := by
        intro p hp
        obtain ⟨hmm, hne⟩ := mem_filter.1 hp
        exact ⟨hu p (by simp [hmm]), by simpa using hne⟩
      have hen : (pinnedEnd pn).length = (!pn.isEmpty).toNat := by
        cases pn <;> rfl
      rw [ho, hlm]
      exact matchPartsStr_eq hen hmd hm hpn
    · rw [if_neg he, if_neg he]
      refine ⟨rfl, iff_of_false Bool.false_ne_true ?_⟩
      rintro ⟨m, hm, -⟩
      exact he (endsPinned_iff.2 ⟨m, hm⟩)

end

/-! ## Patterns and texts are strings -/

/-- The texts around the wildcards of a pattern. -/
structure PartsOf (pattern : Str) (parts : List Str) : Prop where
  ne_nil : parts ≠ []
  free : ∀ p ∈ parts, (0x2a : UInt8) ∉ p.bytes
  joined : [0x2a].intercalate (parts.map Str.bytes) = pattern.bytes

theorem exists_map_bytes {texts : List Bytes} (h : ∀ t ∈ texts, IsUtf8 t) :
    ∃ ts : List Str, ts.map Str.bytes = texts := by
  refine ⟨texts.pmap Str.mk h, ?_⟩
  rw [map_pmap]
  simp

theorem partsOf_iff {pattern : Str} {parts : List Str} :
    PartsOf pattern parts ↔ parts.map Str.bytes = pattern.bytes.splitOn 0x2a := by
  constructor
  · rintro ⟨hne, hf, hjn⟩
    rw [← hjn, splitOn_intercalate _ (by simpa using hf) (by simpa using hne)]
  · intro h
    refine ⟨?_, ?_, by rw [h, intercalate_splitOn]⟩
    · rintro rfl
      exact splitOn_ne_nil _ _ h.symm
    · intro p hp
      exact not_mem_of_mem_splitOn (h ▸ mem_map_of_mem hp)

/-- **What a pattern matches.**  Write the pattern as `p₀*p₁*…*pₙ` with parts `pᵢ` without a wildcard,
    which is possible in one way.  The matcher never slices inside a character, and accepts the texts
    `p₀x₁p₁x₂…xₙpₙ` for strings `xᵢ`. -/
theorem wildcard_match_iff_weave (pattern value : Str) :
    wildcardMatchStr pattern.bytes value.bytes = some (wildcardMatch pattern.bytes value.bytes) ∧
      ∃ parts : List Str, (∀ ps, PartsOf pattern ps ↔ ps = parts) ∧
        (wildcardMatch pattern.bytes value.bytes = true ↔
          ∃ xs : List Str, xs.length + 1 = parts.length ∧
            value.bytes = weave (parts.map Str.bytes) (xs.map Str.bytes)) := by
  have hjn : [0x2a].intercalate (pattern.bytes.splitOn 0x2a) = pattern.bytes :=
    intercalate_splitOn _
  have hu : ∀ p ∈ pattern.bytes.splitOn 0x2a, IsUtf8 p := isUtf8_parts (hjn.symm ▸ pattern.utf8)
  obtain ⟨hs, hm⟩ := wildcardMatch_fills pattern.utf8 value.utf8
  obtain ⟨parts, hpr⟩ := exists_map_bytes hu
  refine ⟨hs, parts, fun ps => ?_, ?_⟩
  · have hi : Function.Injective Str.bytes := fun s t h => Str.ext h
    rw [partsOf_iff, ← hpr, (map_injective_iff.2 hi).eq_iff]
  · cases parts with
    | nil => exact absurd hpr.symm (splitOn_ne_nil _ _)
    | cons p ps =>
      rw [hm, ← hpr]
      rw [← hpr] at hu
      constructor
      · intro h
        -- the gaps can be chosen to be strings
        obtain ⟨xs, hln, hxs, hv⟩ := fills_iff_weave.1
          (h.strengthen .nil (fun h => h.of_append) (fun hne hp h => (h.split_word hp hne).1)
            value.utf8 hu)
        obtain ⟨ts, rfl⟩ := exists_map_bytes hxs
        exact ⟨ts, by simpa using hln, hv⟩
      · rintro ⟨xs, hln, hv⟩
        exact fills_iff_weave.2 ⟨xs.map Str.bytes, by simpa using hln, fun _ _ => trivial, hv⟩

end Ferrum.Mesh
