/-
  The scanner accepts the JSON texts within its limits, and tells those with duplicate names.

  * `reads_of_derives`: the scan goes over a phrase of the grammar.
  * `soundAt`: what the scan goes over is a phrase of the grammar.
  * `scan_exact`.
-/
import Ferrum.Json.Plain

namespace Ferrum.Json

open Lib List JsonMembers Nat

/-! ## Phrases -/

section
variable (x : JsonPhrase)

def phraseDepth : ℕ :=
  match x with
  | .value v => v.depth
  | .items vs => vs.depth
  | .members ms => ms.depth

def phraseTokens : ℕ :=
  match x with
  | .value v => v.tokens
  | .items vs => vs.tokens
  | .members ms => ms.tokens

def phraseMembers : ℕ :=
  match x with
  | .value v => v.members
  | .items vs => vs.members
  | .members ms => ms.members

def phraseNameBytes : ℕ :=
  match x with
  | .value v => v.nameBytes
  | .items vs => vs.nameBytes
  | .members ms => ms.nameBytes

end

/-- Inside `depth` containers and after `tokens` tokens, the phrase is within the limits. -/
@[mk_iff]
structure Fits (limits : JsonScanLimits) (depth tokens : ℕ) (x : JsonPhrase) : Prop where
  depth : depth + phraseDepth x ≤ limits.maxDepth
  tokens : tokens + phraseTokens x ≤ limits.maxTokens
  members : phraseMembers x ≤ limits.maxObjectMembers
  nameBytes : phraseNameBytes x ≤ limits.maxKeyBytes

section
variable {limits : JsonScanLimits} {depth tokens : ℕ}

attribute [local simp] phraseDepth phraseTokens phraseMembers phraseNameBytes JsonValue.depth
  JsonValue.tokens JsonValue.members JsonValue.nameBytes JsonItems.depth JsonItems.tokens
  JsonItems.members JsonItems.nameBytes depth tokens members
  nameBytes

variable {v : JsonValue} {vs : JsonItems} {ms : JsonMembers}

theorem fits_scalar (hv : IsScalar v) :
    Fits limits depth tokens (.value v) ↔ depth ≤ limits.maxDepth ∧ tokens < limits.maxTokens := by
  cases v with
  | array | object => cases hv
  | null | true_ | false_ | number | string => simp [fits_iff, succ_le_iff]

theorem fits_array :
    Fits limits depth tokens (.value (.array vs)) ↔
      Fits limits (depth + 1) (tokens + 1) (.items vs) := by
  simp [fits_iff]
  omega

theorem fits_object :
    Fits limits depth tokens (.value (.object ms)) ↔
      Fits limits (depth + 1) (tokens + 1) (.members ms) ∧
        ms.names.length ≤ limits.maxObjectMembers := by
  simp [fits_iff]
  omega

theorem fits_items_nil : Fits limits depth tokens (.items .nil) ↔
    depth ≤ limits.maxDepth ∧ tokens ≤ limits.maxTokens := by
  simp [fits_iff]

theorem fits_members_nil : Fits limits depth tokens (.members .nil) ↔
    depth ≤ limits.maxDepth ∧ tokens ≤ limits.maxTokens := by
  simp [fits_iff]

theorem fits_items_cons :
    Fits limits depth tokens (.items (.cons v vs)) ↔
      Fits limits depth tokens (.value v) ∧ Fits limits depth (tokens + v.tokens) (.items vs) := by
  simp [fits_iff]
  omega

theorem fits_members_cons {raw name : Bytes} :
    Fits limits depth tokens (.members (.cons raw name v ms)) ↔
      raw.length ≤ limits.maxKeyBytes ∧ Fits limits depth (tokens + 1) (.value v) ∧
        Fits limits depth (tokens + 1 + v.tokens) (.members ms) := by
  simp [fits_iff]
  omega

end

local instance : LawfulBEq Bytes := inferInstance

/-- Has a name been seen, or is it here twice? -/
def repeats : List Bytes → List Bytes → Bool
  | _, [] => false
  | seen, name :: names => decide (name ∈ seen) || repeats (seen.insert name) names

variable {names : List Bytes} {b : UInt8} {a : At Plain} {p f : Plain} {count : ℕ} {v : JsonValue}
  {F' : List Open}

theorem repeats_eq_false_iff {seen : List Bytes} :
    repeats seen names = false ↔ names.Nodup ∧ ∀ name ∈ names, name ∉ seen := by
  induction names generalizing seen with
  | nil => simp [repeats]
  | cons name names ih =>
    simp only [repeats, Bool.or_eq_false_iff, decide_eq_false_iff_not, ih, nodup_cons,
      forall_mem_cons, mem_insert_iff, not_or]
    constructor
    · rintro ⟨hs, hnd, hnm⟩
      exact ⟨⟨fun hm => (hnm name hm).1 rfl, hnd⟩, hs, fun n hn => (hnm n hn).2⟩
    · rintro ⟨⟨hm, hnd⟩, hs, hnm⟩
      exact ⟨hs, hnd, fun n hn => ⟨fun heq => hm (heq ▸ hn), hnm n hn⟩⟩

theorem repeats_nil (names : List Bytes) : repeats [] names = !decide names.Nodup := by
  rw [Bool.eq_iff_iff, ← not_iff_not, Bool.not_eq_true, repeats_eq_false_iff]
  simp

/-! ## What follows a value -/

theorem Ws.follows {t r : Bytes} (h : Ws t r) (hr : Follows r) : Follows t := by
  obtain ⟨w, hw, rfl⟩ := h
  cases w with
  | nil => exact hr
  | cons b w =>
    intro b' hb'
    cases hb'
    rcases hw b mem_cons_self with rfl | rfl | rfl | rfl <;> decide

theorem follows_nil : Follows [] := nofun

theorem follows_cons {r : Bytes} (hb : b = 0x2C ∨ b = 0x5D ∨ b = 0x7D) : Follows (b :: r) := by
  intro b' hb'
  cases hb'
  rcases hb with rfl | rfl | rfl <;> decide

theorem skipWhitespace_of_ws {t r : Bytes} (h : Ws t (b :: r)) (hb : ¬ IsWs b := by simp [IsWs]) :
    skipWhitespace t = b :: r := by
  refine skipWhitespace_eq h fun b' hb' => ?_
  cases hb'
  exact hb

theorem startsValue_not_ws (h : StartsValue b) : ¬ IsWs b := by
  rintro (rfl | rfl | rfl | rfl) <;> revert h <;> unfold StartsValue <;> decide

/-! ## The scan goes over a phrase -/

variable {limits : JsonScanLimits} {t t₂ r : Bytes} {n : ℕ} {F : List Open} {d : Bool}

theorem step_value (htokens : p.tokens < limits.maxTokens)
    (h : { p with tokens := p.tokens + 1 }.readValue limits = .ok a) :
    Steps limits (.value p) a := by
  refine .single ?_
  show (p.token limits >>= _) = _
  rw [Plain.token, if_neg (not_lt.2 htokens)]
  exact h

theorem step_close (h : { p with rest := skipWhitespace p.rest }.readSeparator limits = .ok a) :
    Steps limits (.close p) a := .single h

theorem close_array (h : skipWhitespace t = 0x5D :: r) :
    Steps limits (.close ⟨t, n, .array :: F, d⟩) (.close ⟨r, n, F, d⟩) := by
  refine step_close ?_
  rw [h]
  rfl

theorem close_object (h : skipWhitespace t = 0x7D :: r) :
    Steps limits (.close ⟨t, n, .object names count :: F, d⟩) (.close ⟨r, n, F, d⟩) := by
  refine step_close ?_
  rw [h]
  rfl

theorem comma_array (h : skipWhitespace t = 0x2C :: t₂) :
    Steps limits (.close ⟨t, n, .array :: F, d⟩)
      (.value ⟨skipWhitespace t₂, n, .array :: F, d⟩) := by
  refine step_close ?_
  rw [h]
  rfl

theorem comma_object (h : skipWhitespace t = 0x2C :: t₂)
    (ha : Plain.member limits ⟨skipWhitespace t₂, n, .object names count :: F, d⟩ names count F
      = .ok a) : Steps limits (.close ⟨t, n, .object names count :: F, d⟩) a := by
  refine step_close ?_
  rw [h]
  exact ha

section
variable (hdepth : F.length < limits.maxDepth)
include hdepth

theorem readValue_array : Plain.readValue limits ⟨0x5B :: t, n, F, d⟩ =
    if (skipWhitespace t).head? = some (byte ']')
    then .ok (.close ⟨(skipWhitespace t).tail, n, F, d⟩)
    else .ok (.value ⟨skipWhitespace t, n, .array :: F, d⟩) := by
  have hno : ¬ some (0x5B : UInt8) = some (byte '{') := by decide
  exact (if_neg hno).trans ((if_pos rfl).trans (if_neg (not_le.2 hdepth)))

theorem readValue_object : Plain.readValue limits ⟨0x7B :: t, n, F, d⟩ =
    if (skipWhitespace t).head? = some (byte '}')
    then .ok (.close ⟨(skipWhitespace t).tail, n, F, d⟩)
    else Plain.member limits ⟨skipWhitespace t, n, F, d⟩ [] 0 F :=
  (if_pos rfl).trans (if_neg (not_le.2 hdepth))

variable (htokens : n < limits.maxTokens)
include htokens

theorem empty_array (h : skipWhitespace t = 0x5D :: r) :
    Steps limits (.value ⟨0x5B :: t, n, F, d⟩) (.close ⟨r, n + 1, F, d⟩) := by
  refine step_value htokens ((readValue_array hdepth).trans ?_)
  rw [h]
  rfl

theorem open_array (h : skipWhitespace t = t₂) (ht₂ : t₂.head? ≠ some (byte ']')) :
    Steps limits (.value ⟨0x5B :: t, n, F, d⟩) (.value ⟨t₂, n + 1, .array :: F, d⟩) := by
  refine step_value htokens ((readValue_array hdepth).trans ?_)
  rw [h, if_neg ht₂]

theorem empty_object (h : skipWhitespace t = 0x7D :: r) :
    Steps limits (.value ⟨0x7B :: t, n, F, d⟩) (.close ⟨r, n + 1, F, d⟩) := by
  refine step_value htokens ((readValue_object hdepth).trans ?_)
  rw [h]
  rfl

theorem open_object {a : At Plain} (h : skipWhitespace t = t₂) (ht₂ : t₂.head? ≠ some (byte '}'))
    (ha : Plain.member limits ⟨t₂, n + 1, F, d⟩ [] 0 F = .ok a) :
    Steps limits (.value ⟨0x7B :: t, n, F, d⟩) a := by
  refine step_value htokens ((readValue_object hdepth).trans ?_)
  rw [h, if_neg ht₂, ha]

end

/-- The scan goes over the phrase, from `t` to `r`. -/
def Reads (limits : JsonScanLimits) (x : JsonPhrase) (t r : Bytes) : Prop :=
  match x with
  | .value v => ∀ n F d, Fits limits F.length n (.value v) → Follows r →
    Steps limits (.value ⟨t, n, F, d⟩) (.close ⟨r, n + v.tokens, F, d || v.duplicate⟩)
  | .items vs => ∀ n F d, Fits limits (F.length + 1) n (.items vs) →
    Steps limits (.value ⟨t, n, .array :: F, d⟩) (.close ⟨r, n + vs.tokens, F, d || vs.duplicate⟩)
  | .members ms => ∀ n F F' d names count, Fits limits (F.length + 1) n (.members ms) →
    count + ms.names.length ≤ limits.maxObjectMembers →
    ∃ a, Plain.member limits ⟨t, n, F', d⟩ names count F = .ok a ∧
      Steps limits a
        (.close ⟨r, n + ms.tokens, F, d || (repeats names ms.names || ms.duplicate)⟩)

theorem IsScalar.measures (h : IsScalar v) :
    v.depth = 0 ∧ v.tokens = 1 ∧ v.members = 0 ∧ v.nameBytes = 0 ∧ v.duplicate = false := by
  cases v with
  | array | object => cases h
  | null | true_ | false_ | number | string => exact ⟨rfl, rfl, rfl, rfl, rfl⟩

theorem head_scalar (h : Derives (.value v) t r) (hv : IsScalar v) :
    t.head? ≠ some (byte '{') ∧ t.head? ≠ some (byte '[') := by
  cases h with
  | null | true_ | false_ | string => exact ⟨by simp [byte], by simp [byte]⟩
  | number hn =>
    obtain ⟨b, rest, rfl, hb⟩ := hn.starts
    constructor
    all_goals
      rintro hbr
      cases hbr
      revert hb
      decide
  | emptyArray | array | emptyObject | object => cases hv

theorem reads_scalar (h : Derives (.value v) t r) (hv : IsScalar v) :
    Reads limits (.value v) t r := by
  intro n F d hft hf
  obtain ⟨-, htokens, -, -, hd⟩ := hv.measures
  obtain ⟨ho, ha⟩ := head_scalar h hv
  have hlt : n < limits.maxTokens := by
    have := hft.tokens
    simp only [phraseTokens, htokens] at this
    exact this
  refine step_value hlt ?_
  rw [Plain.readValue, if_neg ho, if_neg ha, readScalar_eq h hv hf, htokens,
    hd, Bool.or_false]
  rfl

theorem not_ws_of_value {t r : Bytes} (h : Derives (.value v) t r) :
    ∀ b, t.head? = some b → ¬ IsWs b := by
  obtain ⟨b, rest, rfl, hb⟩ := h.starts
  intro b' hb'
  cases hb'
  exact startsValue_not_ws hb

theorem not_ws_of_items {t r : Bytes} {vs : JsonItems} (h : Derives (.items vs) t r) :
    (∀ b, t.head? = some b → ¬ IsWs b) ∧ t.head? ≠ some (byte ']') := by
  obtain ⟨b, rest, rfl, hb⟩ := h.starts
  refine ⟨fun b' hb' => ?_, fun hc => ?_⟩
  · cases hb'
    exact startsValue_not_ws hb
  · cases hc
    revert hb
    unfold StartsValue
    decide

theorem not_ws_of_members {t r : Bytes} {ms : JsonMembers} (h : Derives (.members ms) t r) :
    (∀ b, t.head? = some b → ¬ IsWs b) ∧ t.head? ≠ some (byte '}') := by
  obtain ⟨rest, rfl⟩ := h.starts
  refine ⟨fun b' hb' => ?_, fun hc => ?_⟩
  · cases hb'
    simp [IsWs]
  · cases hc

theorem member_eq {raw name t₁ t₂ t₃ : Bytes} (hn : StringBody raw name) (hc : Ws t₁ (0x3A :: t₂))
    (hws : Ws t₂ t₃) (hs : ∀ b, t₃.head? = some b → ¬ IsWs b)
    (hln : raw.length ≤ limits.maxKeyBytes) (hf : count < limits.maxObjectMembers)
    (htokens : n < limits.maxTokens) :
    Plain.member limits ⟨0x22 :: (raw ++ 0x22 :: t₁), n, F', d⟩ names count F =
      .ok (.value ⟨t₃, n + 1, .object (names.insert name) (count + 1) :: F,
        d || decide (name ∈ names)⟩) := by
  rw [Plain.member, Plain.token, if_neg (not_lt.2 htokens)]
  show (readMemberName limits names count (0x22 :: (raw ++ 0x22 :: t₁)) >>= _) = _
  rw [readMemberName_eq hn hc hws hs hln hf]
  rfl

theorem close_congr {n' : ℕ} {d' : Bool} (hn : n = n') (hd : d = d') :
    At.close (Plain.mk r n F d) = .close ⟨r, n', F, d'⟩ := by
  rw [hn, hd]

/-- **The scan goes over** every phrase that is within its limits. -/
theorem reads_of_derives {x : JsonPhrase} (h : Derives x t r) : Reads limits x t r := by
  induction h with
  | null => exact reads_scalar .null trivial
  | true_ => exact reads_scalar .true_ trivial
  | false_ => exact reads_scalar .false_ trivial
  | number hnm => exact reads_scalar (.number hnm) trivial
  | string hn => exact reads_scalar (.string hn) trivial
  | emptyArray hws =>
    intro n F d hf _
    obtain ⟨hdepth, htokens⟩ := fits_items_nil.1 (fits_array.1 hf)
    rw [JsonValue.duplicate, JsonItems.duplicate, Bool.or_false]
    exact empty_array hdepth htokens (skipWhitespace_of_ws hws)
  | array hws hi ih =>
    intro n F d hf _
    have hf' := fits_array.1 hf
    obtain ⟨hs, hcl⟩ := not_ws_of_items hi
    have ho := open_array (d := d) (le_of_add_right_le hf'.depth)
      (le_of_add_right_le hf'.tokens) (skipWhitespace_eq hws hs) hcl
    have hr := ih (n + 1) F d hf'
    rw [add_right_comm, add_assoc] at hr
    exact ho.trans hr
  | lastItem hv hws ih =>
    intro n F d hf
    obtain ⟨hf, -⟩ := fits_items_cons.1 hf
    have hfl := Ws.follows hws (follows_cons (.inr (.inl rfl)))
    have hv' := ih n (.array :: F) d hf hfl
    rw [JsonItems.duplicate, JsonItems.duplicate, Bool.or_false]
    exact hv'.trans (close_array (skipWhitespace_of_ws hws))
  | moreItems hv hc hws hi ih ih' =>
    intro n F d hf
    obtain ⟨hf, hf'⟩ := fits_items_cons.1 hf
    have hfl := Ws.follows hc (follows_cons (.inl rfl))
    have hv' := ih n (.array :: F) d hf hfl
    rw [JsonItems.tokens, JsonItems.duplicate, ← add_assoc, ← Bool.or_assoc]
    refine hv'.trans ((comma_array (skipWhitespace_of_ws hc)).trans ?_)
    rw [skipWhitespace_eq hws (not_ws_of_items hi).1]
    exact ih' _ F _ hf'
  | emptyObject hws =>
    intro n F d hf _
    obtain ⟨hdepth, htokens⟩ := fits_members_nil.1 (fits_object.1 hf).1
    have hd : (JsonValue.object .nil).duplicate = false := rfl
    rw [hd, Bool.or_false]
    exact empty_object hdepth htokens (skipWhitespace_of_ws hws)
  | object hws hm ih =>
    intro n F d hf _
    obtain ⟨hf', hcn⟩ := fits_object.1 hf
    obtain ⟨hs, hcl⟩ := not_ws_of_members hm
    obtain ⟨a, ha, hr⟩ := ih (n + 1) F F d [] 0 hf' (by rwa [zero_add])
    rw [repeats_nil, add_right_comm, add_assoc] at hr
    exact (open_object (le_of_add_right_le hf'.depth)
      (le_of_add_right_le hf'.tokens) (skipWhitespace_eq hws hs) hcl ha).trans hr
  | lastMember hn hco hws hv hcl ih =>
    intro n F F' d names count hf hcn
    obtain ⟨hln, hf', -⟩ := fits_members_cons.1 hf
    have hfl := Ws.follows hcl (follows_cons (.inr (.inr rfl)))
    refine ⟨_, member_eq hn hco hws (not_ws_of_value hv) hln hcn
      (le_of_add_right_le hf'.tokens), ?_⟩
    refine close_congr ?_ ?_ ▸ (ih (n + 1) (.object _ _ :: F) _ hf' hfl).trans
      (close_object (skipWhitespace_of_ws hcl))
    · simp only [JsonMembers.tokens]; omega
    · simp [repeats, JsonMembers.names, JsonMembers.duplicate, Bool.or_assoc]
  | @moreMembers raw name v ms t t₁ t₂ t₃ t₄ t₅ r hn hco hws hv hc hws' hm ih ih' =>
    intro n F F' d names count hf hcn
    obtain ⟨hln, hf', hf''⟩ := fits_members_cons.1 hf
    have hfl := Ws.follows hc (follows_cons (.inl rfl))
    rw [JsonMembers.names, length_cons] at hcn
    refine ⟨_, member_eq hn hco hws (not_ws_of_value hv) hln (by omega)
      (le_of_add_right_le hf'.tokens), ?_⟩
    obtain ⟨a, ha, hr⟩ := ih' (n + 1 + v.tokens) F (.object (names.insert name) (count + 1) :: F)
      (d || decide (name ∈ names) || v.duplicate) (names.insert name) (count + 1) hf'' (by omega)
    rw [← skipWhitespace_eq hws' (not_ws_of_members hm).1] at ha
    have hc' := comma_object (skipWhitespace_of_ws hc) ha
    have hst := (ih (n + 1) (.object _ _ :: F) _ hf' hfl).trans (hc'.trans hr)
    refine close_congr ?_ ?_ ▸ hst
    · simp only [JsonMembers.tokens]; omega
    · simp only [repeats, JsonMembers.names, JsonMembers.duplicate, Bool.or_assoc,
        Bool.or_left_comm]

/-! ## What the scan goes over is a phrase -/

section
variable (limits : JsonScanLimits) (t : Bytes)

def ValueSound : Prop := ∀ n F d f, F.length ≤ limits.maxDepth →
  Steps limits (.value ⟨t, n, F, d⟩) (.finished f) →
  ∃ v r, Derives (.value v) t r ∧ Fits limits F.length n (.value v) ∧
    Steps limits (.close ⟨r, n + v.tokens, F, d || v.duplicate⟩) (.finished f)

def ItemsSound : Prop := ∀ n F d f, F.length < limits.maxDepth →
  Steps limits (.value ⟨t, n, .array :: F, d⟩) (.finished f) →
  ∃ vs r, Derives (.items vs) t r ∧ Fits limits (F.length + 1) n (.items vs) ∧
    Steps limits (.close ⟨r, n + vs.tokens, F, d || vs.duplicate⟩) (.finished f)

def MembersSound : Prop := ∀ n F F' d names count a f, F.length < limits.maxDepth →
  Plain.member limits ⟨t, n, F', d⟩ names count F = .ok a → Steps limits a (.finished f) →
  ∃ ms r, Derives (.members ms) t r ∧ Fits limits (F.length + 1) n (.members ms) ∧
    count + ms.names.length ≤ limits.maxObjectMembers ∧
    Steps limits (.close ⟨r, n + ms.tokens, F, d || (repeats names ms.names || ms.duplicate)⟩)
      (.finished f)

/-- From `t` on, the scan ends only if it goes over a phrase. -/
structure SoundAt : Prop where
  value : ValueSound limits t
  items : ItemsSound limits t
  members : MembersSound limits t

end

theorem value_step (h : Steps limits (.value p) (.finished f)) :
    p.tokens < limits.maxTokens ∧ ∃ a, { p with tokens := p.tokens + 1 }.readValue limits = .ok a ∧
      Steps limits a (.finished f) := by
  obtain ⟨a, ha, hs⟩ := (steps_head (a := .value p) nofun).1 h
  obtain ⟨q, hq, ha⟩ := bind_ok ha
  rw [Plain.token] at hq
  split_ifs at hq with htokens
  cases hq
  exact ⟨Nat.lt_of_succ_le (Nat.le_of_not_lt htokens), a, ha, hs⟩

theorem close_step (h : Steps limits (.close p) (.finished f)) :
    ∃ a, { p with rest := skipWhitespace p.rest }.readSeparator limits = .ok a ∧
      Steps limits a (.finished f) := (steps_head (a := .close p) nofun).1 h

theorem close_step_array (h : Steps limits (.close ⟨t, n, .array :: F, d⟩) (.finished f)) :
    (∃ t₂, skipWhitespace t = 0x2C :: t₂ ∧
        Steps limits (.value ⟨skipWhitespace t₂, n, .array :: F, d⟩) (.finished f)) ∨
      ∃ r, skipWhitespace t = 0x5D :: r ∧ Steps limits (.close ⟨r, n, F, d⟩) (.finished f) := by
  obtain ⟨a, ha, hs⟩ := close_step h
  simp only [Plain.readSeparator] at ha
  split_ifs at ha with hc hcl
  · obtain ⟨t₂, ht₂⟩ := head?_eq_some_iff.1 hc
    cases ha
    rw [ht₂] at hs
    exact .inl ⟨t₂, ht₂, hs⟩
  · obtain ⟨r, hr⟩ := head?_eq_some_iff.1 hcl
    cases ha
    rw [hr] at hs
    exact .inr ⟨r, hr, hs⟩

theorem close_step_object
    (h : Steps limits (.close ⟨t, n, .object names count :: F, d⟩) (.finished f)) :
    (∃ t₂ a, skipWhitespace t = 0x2C :: t₂ ∧
        Plain.member limits ⟨skipWhitespace t₂, n, .object names count :: F, d⟩ names count F
          = .ok a ∧ Steps limits a (.finished f)) ∨
      ∃ r, skipWhitespace t = 0x7D :: r ∧ Steps limits (.close ⟨r, n, F, d⟩) (.finished f) := by
  obtain ⟨a, ha, hs⟩ := close_step h
  simp only [Plain.readSeparator] at ha
  split_ifs at ha with hc hcl
  · obtain ⟨t₂, ht₂⟩ := head?_eq_some_iff.1 hc
    rw [ht₂] at ha
    exact .inl ⟨t₂, a, ht₂, ha, hs⟩
  · obtain ⟨r, hr⟩ := head?_eq_some_iff.1 hcl
    cases ha
    rw [hr] at hs
    exact .inr ⟨r, hr, hs⟩

theorem member_ok (h : Plain.member limits ⟨t, n, F', d⟩ names count F = .ok a) :
    ∃ raw name t₁ t₂ t₃, StringBody raw name ∧ t = 0x22 :: (raw ++ 0x22 :: t₁) ∧
      Ws t₁ (0x3A :: t₂) ∧ Ws t₂ t₃ ∧ raw.length ≤ limits.maxKeyBytes ∧
      count < limits.maxObjectMembers ∧
      a = .value ⟨t₃, n + 1, .object (names.insert name) (count + 1) :: F,
        d || decide (name ∈ names)⟩ := by
  obtain ⟨p, hp, h⟩ := bind_ok h
  obtain ⟨m, hm, h⟩ := bind_ok h
  rw [Plain.token] at hp
  split_ifs at hp
  cases hp
  obtain ⟨raw, name, t₁, t₂, hn, ht, hc, hws, hln, hf, hm'⟩ := readMemberName_ok hm
  refine ⟨raw, name, t₁, t₂, m.rest, hn, ht, hc, hws, hln, hf, ?_⟩
  cases h
  rw [hm']

section
variable (ih : ∀ t', t'.length < t.length → SoundAt limits t')
include ih

variable {f : Plain}

theorem value_sound : ValueSound limits t := by
  intro n F d f hdepth h
  obtain ⟨htokens, a, ha, hs⟩ := value_step h
  simp only [Plain.readValue] at ha
  split_ifs at ha with ho hdp he har hdp he
  · obtain ⟨t', rfl⟩ := head?_eq_some_iff.1 ho
    obtain ⟨r, hr⟩ := head?_eq_some_iff.1 he
    cases ha
    refine ⟨.object .nil, r, .emptyObject (hr ▸ ws_skipWhitespace t'), fits_object.2
      ⟨fits_members_nil.2 ⟨Nat.lt_of_not_le hdp, htokens⟩, Nat.zero_le _⟩, ?_⟩
    have hdu : (JsonValue.object .nil).duplicate = false := rfl
    rw [hdu, Bool.or_false]
    rw [hr] at hs
    exact hs
  · obtain ⟨t', rfl⟩ := head?_eq_some_iff.1 ho
    obtain ⟨ms, r, hd, hf, hc, hs⟩ := (ih (skipWhitespace t')
      (Nat.lt_succ_of_le (length_skipWhitespace t'))).members _ _ _ _ _ _ _ _
      (Nat.lt_of_not_le hdp) ha hs
    rw [Nat.zero_add] at hc
    refine ⟨.object ms, r, .object (ws_skipWhitespace t') hd, fits_object.2 ⟨hf, hc⟩, ?_⟩
    rw [repeats_nil, Nat.add_right_comm, Nat.add_assoc] at hs
    exact hs
  · obtain ⟨t', rfl⟩ := head?_eq_some_iff.1 har
    obtain ⟨r, hr⟩ := head?_eq_some_iff.1 he
    cases ha
    refine ⟨.array .nil, r, .emptyArray (hr ▸ ws_skipWhitespace t'), fits_array.2
      (fits_items_nil.2 ⟨Nat.lt_of_not_le hdp, htokens⟩), ?_⟩
    rw [JsonValue.duplicate, JsonItems.duplicate, Bool.or_false]
    rw [hr] at hs
    exact hs
  · obtain ⟨t', rfl⟩ := head?_eq_some_iff.1 har
    cases ha
    obtain ⟨vs, r, hd, hf, hs⟩ := (ih (skipWhitespace t')
      (Nat.lt_succ_of_le (length_skipWhitespace t'))).items _ _ _ _ (Nat.lt_of_not_le hdp) hs
    refine ⟨.array vs, r, .array (ws_skipWhitespace t') hd, fits_array.2 hf, ?_⟩
    rw [Nat.add_right_comm, Nat.add_assoc] at hs
    exact hs
  · obtain ⟨r, hr, rfl⟩ := map_ok ha
    obtain ⟨v, hv, hd⟩ := readScalar_ok hr
    obtain ⟨-, hon, -, -, hdl⟩ := hv.measures
    refine ⟨v, r, hd, (fits_scalar hv).2 ⟨hdepth, htokens⟩, ?_⟩
    rw [hon, hdl, Bool.or_false]
    exact hs

theorem items_sound : ItemsSound limits t := by
  intro n F d f hdepth h
  obtain ⟨v, r, hd, hf, hs⟩ := value_sound ih _ (.array :: F) _ _ hdepth h
  have hln := hd.length_lt
  rcases close_step_array hs with ⟨t₂, hc, hs⟩ | ⟨r', hcl, hs⟩
  · have hws : Ws r (0x2C :: t₂) := hc ▸ ws_skipWhitespace r
    have hln₂ := Ws.length_le hws
    have hln₃ := length_skipWhitespace t₂
    rw [length_cons] at hln₂
    obtain ⟨vs, r', hd', hf', hs⟩ :=
      (ih (skipWhitespace t₂) (by omega)).items _ _ _ _ hdepth hs
    refine ⟨.cons v vs, r', .moreItems hd hws (ws_skipWhitespace t₂) hd',
      fits_items_cons.2 ⟨hf, hf'⟩, ?_⟩
    rw [JsonItems.tokens, JsonItems.duplicate, ← add_assoc, ← Bool.or_assoc]
    exact hs
  · refine ⟨.cons v .nil, r', .lastItem hd (hcl ▸ ws_skipWhitespace r),
      fits_items_cons.2 ⟨hf, fits_items_nil.2 ⟨hdepth, hf.tokens⟩⟩, ?_⟩
    rw [JsonItems.duplicate, JsonItems.duplicate, Bool.or_false]
    exact hs

theorem members_sound : MembersSound limits t := by
  intro n F F' d names count a f hdepth ha h
  obtain ⟨raw, name, t₁, t₂, t₃, hn, rfl, hc, hws, hln, hfl, rfl⟩ := member_ok ha
  have hlen₁ := Ws.length_le hc
  have hlen₂ := Ws.length_le hws
  simp only [length_cons, length_append] at ih hlen₁
  obtain ⟨v, r, hd, hf, hs⟩ :=
    (ih t₃ (by omega)).value _ (.object _ _ :: F) _ _ hdepth h
  have hlen₃ := hd.length_lt
  rcases close_step_object hs with ⟨t₄, a, hcm, ha, hs⟩ | ⟨r', hcl, hs⟩
  · have hws' : Ws r (0x2C :: t₄) := hcm ▸ ws_skipWhitespace r
    have hlen₄ := Ws.length_le hws'
    have hlen₅ := length_skipWhitespace t₄
    rw [length_cons] at hlen₄
    obtain ⟨ms, r', hd', hf', hcn, hs⟩ :=
      (ih (skipWhitespace t₄) (by omega)).members _ _ _ _ _ _ _ _ hdepth ha hs
    refine ⟨.cons raw name v ms, r', .moreMembers hn hc hws hd hws'
      (ws_skipWhitespace t₄) hd', fits_members_cons.2 ⟨hln, hf, hf'⟩, ?_, ?_⟩
    · rw [JsonMembers.names, length_cons]; omega
    · refine close_congr ?_ ?_ ▸ hs
      · simp only [JsonMembers.tokens]; omega
      · simp only [repeats, JsonMembers.names, JsonMembers.duplicate, Bool.or_assoc,
          Bool.or_left_comm]
  · refine ⟨.cons raw name v .nil, r', .lastMember hn hc hws hd
      (hcl ▸ ws_skipWhitespace r), fits_members_cons.2 ⟨hln, hf, fits_members_nil.2
        ⟨hdepth, hf.tokens⟩⟩, hfl, ?_⟩
    refine close_congr ?_ ?_ ▸ hs
    · simp only [JsonMembers.tokens]; omega
    · simp [repeats, JsonMembers.names, JsonMembers.duplicate, Bool.or_assoc]

end

/-- **Every scan that ends** has gone over a phrase. -/
theorem soundAt (t : Bytes) : SoundAt limits t := by
  -- on the bytes that are left: the three kinds of phrases contain each other
  induction hln : t.length using Nat.strong_induction_on generalizing t with
  | _ len ih =>
    subst hln
    have ih' (t' : Bytes) (hlt : t'.length < t.length) : SoundAt limits t' := ih _ hlt t' rfl
    exact ⟨value_sound ih', items_sound ih', members_sound ih'⟩

/-! ## Documents -/

/-- The document is within the limits. -/
structure Within (limits : JsonScanLimits) (v : JsonValue) : Prop where
  depth : v.depth ≤ limits.maxDepth
  tokens : v.tokens ≤ limits.maxTokens
  members : v.members ≤ limits.maxObjectMembers
  nameBytes : v.nameBytes ≤ limits.maxKeyBytes

theorem fits_zero : Fits limits 0 0 (.value v) ↔ Within limits v := by
  constructor
  · rintro ⟨h₁, h₂, h₃, h₄⟩
    rw [zero_add] at h₁ h₂
    exact ⟨h₁, h₂, h₃, h₄⟩
  · rintro ⟨h₁, h₂, h₃, h₄⟩
    exact ⟨(zero_add _).trans_le h₁, (zero_add _).trans_le h₂, h₃, h₄⟩

/-- Outside of all containers the scan is finished. -/
theorem close_nil :
    Steps limits (.close ⟨t, n, [], d⟩) (.finished f) ↔ f = ⟨skipWhitespace t, n, [], d⟩ := by
  constructor
  · intro h
    obtain ⟨a, ha, hs⟩ := close_step h
    cases ha
    exact At.finished.inj (steps_finished hs)
  · rintro rfl
    exact .single rfl

/-- **The scan of a document** goes to its end iff it is a text within the limits. -/
theorem run_iff {bytes : Bytes} {dup : Bool} :
    (∃ s, run limits (.value { rest := skipWhitespace bytes }) = .ok s ∧ skipWhitespace s.rest = [] ∧
        s.duplicateFound = dup) ↔
      ∃ v, JsonText bytes v ∧ Within limits v ∧ v.duplicate = dup := by
  have hwf : (At.value { rest := skipWhitespace bytes }).Wf := ⟨rfl, le_rfl, rfl⟩
  constructor
  · rintro ⟨s, hs, he, rfl⟩
    have hst := (run_ok_iff hwf).1 ⟨s, hs, rfl⟩
    obtain ⟨v, r, hd, hf, hc⟩ :=
      (soundAt (skipWhitespace bytes)).value 0 [] false s.abs (zero_le _) hst
    have ha := close_nil.1 hc
    have hr : s.rest = skipWhitespace r := congrArg Plain.rest ha
    have hdp : s.duplicateFound = (false || v.duplicate) := congrArg Plain.duplicateFound ha
    refine ⟨v, ⟨_, r, ws_skipWhitespace bytes, hd, ?_⟩, fits_zero.1 hf,
      by rw [hdp, Bool.false_or]⟩
    rw [hr] at he
    exact Ws.trans (ws_skipWhitespace r) (he ▸ ws_skipWhitespace (skipWhitespace r))
  · rintro ⟨v, ⟨t, r, hws, hd, he⟩, hw, rfl⟩
    have hsk : skipWhitespace r = [] := skipWhitespace_eq he nofun
    have hst := (reads_of_derives hd 0 [] false (fits_zero.2 hw)
      (Ws.follows he follows_nil)).trans (close_nil.2 rfl)
    rw [← skipWhitespace_eq hws (not_ws_of_value hd)] at hst
    obtain ⟨s, hs, ha⟩ := (run_ok_iff hwf).2 hst
    have hr : s.rest = skipWhitespace r := congrArg Plain.rest ha
    refine ⟨s, hs, ?_, (congrArg Plain.duplicateFound ha).trans (Bool.false_or _)⟩
    rw [hr, hsk]
    rfl

/-! ## The loops report no duplicate -/

section
variable {α β : Type} {x : Except JsonScanReject α}

/-- An error of one result is one of another. -/
theorem error_congr {reject reject' : JsonScanReject}
    (h : Except.error (α := α) reject = .error reject') :
    Except.error (α := β) reject = .error reject' := congrArg Except.error (Except.error.inj h)

theorem bind_ne {f : α → Except JsonScanReject β} (hx : x ≠ .error .duplicateKey)
    (hf : ∀ a, f a ≠ .error .duplicateKey) : x >>= f ≠ .error .duplicateKey := by
  cases x with
  | error reject => exact fun h => hx (error_congr h)
  | ok a => exact hf a

theorem map_ne {f : α → β} (hx : x ≠ .error .duplicateKey) : x.map f ≠ .error .duplicateKey := by
  cases x with
  | error reject => exact fun h => hx (error_congr h)
  | ok a => nofun

theorem ite_ne {c : Prop} [Decidable c] {y : Except JsonScanReject α}
    (hx : x ≠ .error .duplicateKey) (hy : y ≠ .error .duplicateKey) :
    (if c then x else y) ≠ .error .duplicateKey := by
  split_ifs
  · exact hx
  · exact hy

end

theorem readHex4_ne (t : Bytes) : readHex4 t ≠ .error .duplicateKey := by
  unfold readHex4
  repeat' split
  all_goals nofun

theorem readEscape_ne (t : Bytes) : readEscape t ≠ .error .duplicateKey := by
  unfold readEscape
  split
  · simp
  · refine ite_ne (by simp) (ite_ne (bind_ne (readHex4_ne _) fun code => ?_) (by simp))
    refine ite_ne (ite_ne (by simp) (bind_ne (readHex4_ne _) fun low => ?_)) ?_
    · exact ite_ne (by simp) (by simp)
    · exact ite_ne (by simp) (by simp)

theorem stringBody_ne (t : Bytes) : stringBody t ≠ .error .duplicateKey := by
  fun_induction stringBody t with
  | case1 | case2 | case5 => simp
  | case3 rest reject hr => exact fun h => readEscape_ne rest (hr.trans (error_congr h))
  | case4 _ _ _ _ _ ih | case6 _ _ _ _ _ ih => exact map_ne ih

theorem readString_ne (t : Bytes) : readString t ≠ .error .duplicateKey := by
  unfold readString
  split
  · split_ifs
    · refine bind_ne (stringBody_ne _) fun r => ?_
      split_ifs <;> nofun
    · nofun
  · nofun

theorem readMemberName_ne (limits : JsonScanLimits) (names : List Bytes) (count : ℕ) (t : Bytes) :
    readMemberName limits names count t ≠ .error .duplicateKey := by
  refine bind_ne (readString_ne t) fun r => ?_
  repeat' split
  all_goals nofun

theorem expectLiteral_ne (literal t : Bytes) : expectLiteral literal t ≠ .error .duplicateKey := by
  unfold expectLiteral
  split_ifs <;> nofun

theorem readNumber_ne (t : Bytes) : readNumber t ≠ .error .duplicateKey := by
  refine bind_ne ?_ fun t => bind_ne ?_ fun t => ?_
  · unfold readInteger
    repeat' split
    all_goals nofun
  · unfold readFraction
    repeat' split
    all_goals nofun
  · unfold readExponent
    split
    · exact ite_ne (ite_ne nofun nofun) nofun
    · nofun

theorem readScalar_ne (t : Bytes) : readScalar t ≠ .error .duplicateKey := by
  unfold readScalar
  split
  · simp
  · split_ifs
    all_goals first
      | exact map_ne (readString_ne _) | exact expectLiteral_ne _ _ | exact readNumber_ne _

theorem member_ne (s : Scan) (set : ℕ) : s.member limits set ≠ .error .duplicateKey := by
  refine bind_ne ?_ fun s => bind_ne (readMemberName_ne _ _ _ _) nofun
  unfold Scan.token
  split_ifs <;> nofun

theorem valueStep_ne (s : Scan) : s.valueStep limits ≠ .error .duplicateKey := by
  refine bind_ne ?_ fun s => ?_
  · unfold Scan.token
    split_ifs <;> simp
  · simp only [Scan.readValue]
    split_ifs
    all_goals first | exact member_ne _ _ | exact map_ne (readScalar_ne _) | simp

theorem closeStep_ne (s : Scan) : s.closeStep limits ≠ .error .duplicateKey := by
  unfold Scan.closeStep Scan.readSeparator
  split
  · nofun
  all_goals
    split_ifs
    all_goals first | exact member_ne _ _ | nofun

theorem run_ne (a : At Scan) : run limits a ≠ .error .duplicateKey := by
  fun_induction run limits a with
  | case1 s reject hr => exact fun h => valueStep_ne s (hr.trans (error_congr h))
  | case3 s reject hr => exact fun h => closeStep_ne s (hr.trans (error_congr h))
  | case2 _ _ _ ih | case4 _ _ _ ih => exact ih
  | case5 => simp

/-- **The scanner is exact.**  It accepts the JSON texts within its limits that have no object with
    two members of one name, and reports a duplicate for the other texts within its limits. -/
theorem scan_exact (bytes : Bytes) (limits : JsonScanLimits)
    (hlen : bytes.length ≤ limits.maxBytes) :
    (scan bytes limits = .ok () ↔
        ∃ v, JsonText bytes v ∧ Within limits v ∧ v.duplicate = false) ∧
      (scan bytes limits = .error .duplicateKey ↔
        ∃ v, JsonText bytes v ∧ Within limits v ∧ v.duplicate = true) := by
  rw [← run_iff, ← run_iff, scan, if_neg (not_lt.2 hlen)]
  cases hr : run limits (.value { rest := skipWhitespace bytes }) with
  | error reject =>
    refine ⟨iff_of_false nofun nofun, iff_of_false (fun h => ?_) nofun⟩
    exact run_ne _ (hr.trans (error_congr h))
  | ok s =>
    show (_ ↔ ∃ s', Except.ok s = .ok s' ∧ _) ∧ (_ ↔ ∃ s', Except.ok s = .ok s' ∧ _)
    simp only [Except.ok.injEq, exists_eq_left', bind, Except.bind]
    by_cases he : skipWhitespace s.rest = []
    · rw [if_neg (not_not.2 he)]
      cases s.duplicateFound <;> simp [he]
    · rw [if_pos he]
      simp [he]

/-- Limits for the document `{"a":1,"\u0061":2}`. -/
def smallLimits : JsonScanLimits := ⟨64, 1, 5, 2, 6⟩

/-- The document, of the two members `a`. -/
def twice : Bytes :=
  [0x7B, 0x22, 0x61, 0x22, 0x3A, 0x31, 0x2C, 0x22, 0x5C, 0x75, 0x30, 0x30, 0x36, 0x31, 0x22, 0x3A,
    0x32, 0x7D]

theorem ws_refl (t : Bytes) : Ws t t := ⟨[], nofun, rfl⟩

theorem isNumber_digit (h : b = 0x31 ∨ b = 0x32) : IsNumber [b] := by
  refine ⟨[], [b], [], [], .inl rfl, .inr ⟨⟨cons_ne_nil _ _, ?_⟩, ?_⟩, .inl rfl, .inl rfl, rfl⟩
  · rcases h with rfl | rfl <;> decide +kernel
  · rcases h with rfl | rfl <;> decide +kernel

theorem stringBody_a : StringBody [0x61] [0x61] :=
  .unescaped 'a' (by decide) (by decide) (by decide) .nil

theorem stringBody_escaped : StringBody [0x5C, 0x75, 0x30, 0x30, 0x36, 0x31] [0x61] :=
  .escape [0x75, 0x30, 0x30, 0x36, 0x31] 'a' (.unicode [0x30, 0x30, 0x36, 0x31] 0x61
    ⟨0x30, 0x30, 0x36, 0x31, 0, 0, 6, 1, rfl, rfl, rfl, rfl, rfl, rfl⟩ (.inl (by decide))) .nil

theorem scan_exact_twice : scan twice smallLimits = .error .duplicateKey := by
  refine (scan_exact twice smallLimits (by decide)).2.2
    ⟨.object (.cons [0x61] [0x61] (.number [0x31])
      (.cons [0x5C, 0x75, 0x30, 0x30, 0x36, 0x31] [0x61] (.number [0x32]) .nil)),
      ⟨twice, [], ws_refl _, ?_, ws_refl _⟩, ⟨by decide, by decide, by decide, by decide⟩, by decide⟩
  refine .object (ws_refl _) (.moreMembers stringBody_a (ws_refl _) (ws_refl _)
    (.number (isNumber_digit (.inl rfl))) (ws_refl _) (ws_refl _) ?_)
  exact .lastMember stringBody_escaped (ws_refl _) (ws_refl _)
    (.number (isNumber_digit (.inr rfl))) (ws_refl _)

end Ferrum.Json
