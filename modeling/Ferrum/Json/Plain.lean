/-
  The scan without the pool: every open object has its own names.

  * `Plain`, `Plain.step`: the same loops, with the names of an object on the stack.
  * `Scan.abs`, `Scan.Wf`: an object frame has the set that was last taken from the pool.
  * `step_refines`: a step of the scan is one of the plain scan.
  * `run_ok_iff`: the scan ends where the plain scan ends.
-/
import Ferrum.Json.Scan

namespace Ferrum.Json

open Lib

/-- An open container; an object with the names and the number of its members. -/
inductive Open where
  | array
  | object (names : List Bytes) (count : ℕ)

structure Plain where
  rest : Bytes
  tokens : ℕ
  frames : List Open
  duplicateFound : Bool

variable (limits : JsonScanLimits)

namespace Plain

def token (p : Plain) : Except JsonScanReject Plain :=
  if limits.maxTokens < p.tokens + 1 then .error .tokenBudgetExceeded
  else .ok { p with tokens := p.tokens + 1 }

/-- The next token is a member name, of an object inside `frames`. -/
def member (p : Plain) (names : List Bytes) (count : ℕ) (frames : List Open) :
    Except JsonScanReject (At Plain) := do
  let p ← p.token limits
  let m ← readMemberName limits names count p.rest
  .ok (.value { p with
    rest := m.rest
    frames := .object m.names m.memberCount :: frames
    duplicateFound := p.duplicateFound || m.duplicate })

def readValue (p : Plain) : Except JsonScanReject (At Plain) :=
  if p.rest.head? = some (byte '{') then
    if limits.maxDepth ≤ p.frames.length then .error .depthExceeded
    else
      let p := { p with rest := skipWhitespace p.rest.tail }
      if p.rest.head? = some (byte '}') then .ok (.close { p with rest := p.rest.tail })
      else p.member limits [] 0 p.frames
  else if p.rest.head? = some (byte '[') then
    if limits.maxDepth ≤ p.frames.length then .error .depthExceeded
    else
      let p := { p with rest := skipWhitespace p.rest.tail }
      if p.rest.head? = some (byte ']') then .ok (.close { p with rest := p.rest.tail })
      else .ok (.value { p with frames := .array :: p.frames })
  else (readScalar p.rest).map fun rest => .close { p with rest := rest }

def valueStep (p : Plain) : Except JsonScanReject (At Plain) := do
  let p ← p.token limits
  p.readValue limits

def readSeparator (p : Plain) : Except JsonScanReject (At Plain) :=
  match p.frames with
  | [] => .ok (.finished p)
  | .array :: frames =>
    if p.rest.head? = some (byte ',') then
      .ok (.value { p with rest := skipWhitespace p.rest.tail })
    else if p.rest.head? = some (byte ']') then
      .ok (.close { p with rest := p.rest.tail, frames := frames })
    else .error .malformed
  | .object names count :: frames =>
    if p.rest.head? = some (byte ',') then
      { p with rest := skipWhitespace p.rest.tail }.member limits names count frames
    else if p.rest.head? = some (byte '}') then
      .ok (.close { p with rest := p.rest.tail, frames := frames })
    else .error .malformed

def closeStep (p : Plain) : Except JsonScanReject (At Plain) :=
  { p with rest := skipWhitespace p.rest }.readSeparator limits

def step : At Plain → Except JsonScanReject (At Plain)
  | .value p => p.valueStep limits
  | .close p => p.closeStep limits
  | .finished p => .ok (.finished p)

end Plain

/-! ## The pool -/

/-- The objects on the stack have the first `live` sets, in turn. -/
def Stacked : List Frame → ℕ → Prop
  | [], live => live = 0
  | .array :: frames, live => Stacked frames live
  | .object set :: frames, live => live = set + 1 ∧ Stacked frames set

structure Scan.Wf (s : Scan) : Prop where
  counts : s.memberCounts.length = s.sets.length
  live : s.liveSets ≤ s.sets.length
  stacked : Stacked s.frames s.liveSets

def Frame.abs (sets : List (List Bytes)) (memberCounts : List ℕ) : Frame → Open
  | .array => .array
  | .object set => .object (sets.getD set []) (memberCounts.getD set 0)

def Scan.abs (s : Scan) : Plain where
  rest := s.rest
  tokens := s.tokens
  frames := s.frames.map (Frame.abs s.sets s.memberCounts)
  duplicateFound := s.duplicateFound

def At.Wf : At Scan → Prop
  | .value s | .close s | .finished s => s.Wf

variable {frames : List Frame} {i set : ℕ} {a : At Scan} {p : Plain}

/-- The objects on the stack do not see the other sets. -/
theorem Stacked.map_abs {live : ℕ} {sets sets' : List (List Bytes)} {counts counts' : List ℕ}
    (h : Stacked frames live) (hs : ∀ set < live, sets'.getD set [] = sets.getD set [] ∧
      counts'.getD set 0 = counts.getD set 0) :
    frames.map (Frame.abs sets' counts') = frames.map (Frame.abs sets counts) := by
  induction frames generalizing live with
  | nil => rfl
  | cons frame frames ih =>
    cases frame with
    | array => exact congrArg (Open.array :: ·) (ih h hs)
    | object set =>
      obtain ⟨rfl, h⟩ := h
      obtain ⟨hst, hc⟩ := hs set (Nat.lt_succ_self set)
      rw [List.map_cons, List.map_cons, Frame.abs, Frame.abs, hst, hc,
        ih h fun set' hlt => hs set' (Nat.lt_succ_of_lt hlt)]

theorem getD_set_ne {α : Type*} {l : List α} {j : ℕ} {a d : α} (h : i ≠ j) :
    (l.set i a).getD j d = l.getD j d := by
  simp only [List.getD_eq_getElem?_getD, List.getElem?_set_ne h]

theorem getD_set_self {α : Type*} {l : List α} {a d : α} (h : i < l.length) :
    (l.set i a).getD i d = a := by
  simp only [List.getD_eq_getElem?_getD, List.getElem?_set_self h, Option.getD_some]

/-- The slot `n` of a pool, cleared or new. -/
theorem getD_slot {α : Type*} {l : List α} {n : ℕ} {d : α} {full : Prop} [Decidable full]
    (hf : full ↔ n = l.length) (hn : n ≤ l.length) :
    (if full then l ++ [d] else l.set n d).length = max l.length (n + 1) ∧
      (if full then l ++ [d] else l.set n d).getD n d = d ∧
      ∀ j < n, (if full then l ++ [d] else l.set n d).getD j d = l.getD j d := by
  split_ifs with h
  · have hln := hf.1 h
    subst hln
    refine ⟨by simp, by simp, fun j hj => ?_⟩
    rw [List.getD_eq_getElem?_getD, List.getElem?_append_left hj, ← List.getD_eq_getElem?_getD]
  · have hne := mt hf.2 h
    refine ⟨by rw [List.length_set]; omega, getD_set_self (by omega), fun j hj => ?_⟩
    exact getD_set_ne (by omega)

theorem Scan.Wf.openObject {s : Scan} (h : s.Wf) :
    s.openObject.Wf ∧
      s.openObject.abs = { s.abs with frames := .object [] 0 :: s.abs.frames } := by
  obtain ⟨hc, hlv, hs⟩ := h
  obtain ⟨hln, hse, hst⟩ := getD_slot (d := ([] : List Bytes)) (Iff.refl (s.liveSets = s.sets.length)) hlv
  have hfl : s.liveSets = s.sets.length ↔ s.liveSets = s.memberCounts.length := by rw [hc]
  obtain ⟨hln', hcn, hc'⟩ := getD_slot (d := 0) hfl (hc ▸ hlv)
  refine ⟨⟨?_, ?_, rfl, hs⟩, ?_⟩
  · exact hln'.trans (hc ▸ hln.symm)
  · exact hln ▸ le_max_right _ _
  · have hf := hs.map_abs fun set hlt => ⟨hst set hlt, hc' set hlt⟩
    simp only [Scan.abs, Scan.openObject, List.map_cons, Frame.abs, hse, hcn, hf]

theorem Scan.Wf.closeObject {s : Scan} (h : s.Wf) (hf : s.frames = .object set :: frames) :
    s.closeObject.Wf ∧ s.closeObject.abs = { s.abs with frames := s.abs.frames.tail } := by
  obtain ⟨hc, hlv, hs⟩ := h
  rw [hf] at hs
  obtain ⟨heq, hs⟩ := hs
  refine ⟨⟨hc, (Nat.sub_le _ _).trans hlv, ?_⟩, ?_⟩
  · show Stacked s.frames.tail (s.liveSets - 1)
    rw [hf, heq]
    exact hs
  · simp only [Scan.abs, Scan.closeObject, List.map_tail]

/-! ## Steps -/

/-- The outcome of a step, and that of the plain step. -/
inductive Refines : Except JsonScanReject (At Scan) → Except JsonScanReject (At Plain) → Prop
  | error (reject : JsonScanReject) : Refines (.error reject) (.error reject)
  | ok (a : At Scan) : a.Wf → Refines (.ok a) (.ok (a.map Scan.abs))

variable {limits} {s : Scan}

theorem refines_token {f : Scan → Except JsonScanReject (At Scan)}
    {g : Plain → Except JsonScanReject (At Plain)}
    (h : Refines (f { s with tokens := s.tokens + 1 })
      (g { s.abs with tokens := s.abs.tokens + 1 })) :
    Refines (s.token limits >>= f) (s.abs.token limits >>= g) := by
  unfold Scan.token Plain.token
  show Refines ((if limits.maxTokens < s.tokens + 1 then _ else _) >>= f)
    ((if limits.maxTokens < s.tokens + 1 then _ else _) >>= g)
  split_ifs
  · exact .error _
  · exact h

/-- A name goes to the set of the innermost object, which no other object sees. -/
theorem Scan.Wf.member (h : s.Wf) (hf : s.frames = .object set :: frames) :
    Refines (s.member limits set) (s.abs.member limits (s.sets.getD set [])
      (s.memberCounts.getD set 0) (frames.map (Frame.abs s.sets s.memberCounts))) := by
  obtain ⟨hc, hlv, hs⟩ := h
  refine refines_token ?_
  show Refines (readMemberName limits (s.sets.getD set []) (s.memberCounts.getD set 0) s.rest >>= _)
    (readMemberName limits (s.sets.getD set []) (s.memberCounts.getD set 0) s.rest >>= _)
  cases readMemberName limits (s.sets.getD set []) (s.memberCounts.getD set 0) s.rest with
  | error reject => exact .error reject
  | ok m =>
    have hlt : set < s.liveSets ∧ Stacked frames set := by
      rw [hf] at hs
      exact ⟨Nat.lt_of_lt_of_eq (Nat.lt_succ_self set) hs.1.symm, hs.2⟩
    have hst : set < s.sets.length := hlt.1.trans_le hlv
    have hm := hlt.2.map_abs fun set' hlt' =>
      ⟨getD_set_ne (l := s.sets) (a := m.names) (d := []) (Nat.ne_of_gt hlt'),
        getD_set_ne (l := s.memberCounts) (a := m.memberCount) (d := 0) (Nat.ne_of_gt hlt')⟩
    have hok := Refines.ok (.value { s with
      tokens := s.tokens + 1
      rest := m.rest
      duplicateFound := s.duplicateFound || m.duplicate
      sets := s.sets.set set m.names
      memberCounts := s.memberCounts.set set m.memberCount }) ⟨by simpa using hc,
        by simpa using hlv, hs⟩
    have hf' : s.frames.map (Frame.abs (s.sets.set set m.names)
        (s.memberCounts.set set m.memberCount)) = .object m.names m.memberCount ::
          frames.map (Frame.abs s.sets s.memberCounts) := by
      rw [hf, List.map_cons, hm, Frame.abs, getD_set_self hst, getD_set_self (hc ▸ hst)]
    rw [At.map, Scan.abs, hf'] at hok
    exact hok

theorem refines_ite {c d : Prop} [Decidable c] [Decidable d] {x x' : Except JsonScanReject (At Scan)}
    {y y' : Except JsonScanReject (At Plain)} (hcd : c ↔ d) (hpos : c → Refines x y)
    (hn : ¬ c → Refines x' y') : Refines (if c then x else x') (if d then y else y') := by
  by_cases hc : c
  · rw [if_pos hc, if_pos (hcd.1 hc)]
    exact hpos hc
  · rw [if_neg hc, if_neg (mt hcd.2 hc)]
    exact hn hc

/-- A member does not see what is on the stack. -/
theorem Plain.member_frames (p : Plain) (names : List Bytes) (count : ℕ) (frames frames' : List Open) :
    { p with frames := frames' }.member limits names count frames =
      p.member limits names count frames := by
  unfold Plain.member Plain.token
  split_ifs <;> rfl

/-- After the opening bracket of an object. -/
theorem Scan.Wf.readObject (h : s.Wf) :
    Refines (if s.openObject.rest.head? = some (byte '}')
        then .ok (.close { s.openObject with rest := s.openObject.rest.tail }.closeObject)
        else s.openObject.member limits (s.openObject.liveSets - 1))
      (if s.abs.rest.head? = some (byte '}') then .ok (.close { s.abs with rest := s.abs.rest.tail })
        else s.abs.member limits [] 0 s.abs.frames) := by
  obtain ⟨hwf, ha⟩ := h.openObject
  refine refines_ite Iff.rfl (fun _ => ?_) fun _ => ?_
  · have hwf' : Scan.Wf { s.openObject with rest := s.openObject.rest.tail } := ⟨hwf.1, hwf.2, hwf.3⟩
    obtain ⟨hc, ha'⟩ := hwf'.closeObject rfl
    have hok := Refines.ok (.close _) hc
    rw [At.map, ha'] at hok
    have hp : ({ s.openObject.abs with
        rest := s.rest.tail, frames := s.openObject.abs.frames.tail } : Plain) =
        { s.abs with rest := s.abs.rest.tail } := by
      rw [ha]
      rfl
    exact hp ▸ hok
  · have ho : s.openObject.frames = .object s.liveSets :: s.frames := rfl
    have hm : Refines (s.openObject.member limits s.liveSets) _ := hwf.member ho
    have hf : s.openObject.abs.frames = .object [] 0 :: s.abs.frames := by rw [ha]
    obtain ⟨hob, hf⟩ := List.cons.inj hf
    obtain ⟨hn, hcn⟩ := Open.object.inj hob
    rw [hn, hcn, hf, ha, Plain.member_frames] at hm
    exact hm

theorem Scan.Wf.readValue (h : s.Wf) : Refines (s.readValue limits) (s.abs.readValue limits) := by
  have hln : s.abs.frames.length = s.frames.length := List.length_map _
  have hs : Scan.Wf { s with rest := skipWhitespace s.rest.tail } := ⟨h.1, h.2, h.3⟩
  refine refines_ite Iff.rfl (fun _ => ?_) fun _ => refines_ite Iff.rfl (fun _ => ?_) fun _ => ?_
  · refine refines_ite (by rw [hln]) (fun _ => .error _) fun _ => ?_
    exact hs.readObject
  · refine refines_ite (by rw [hln]) (fun _ => .error _) fun _ => ?_
    refine refines_ite Iff.rfl (fun _ => ?_) fun _ => ?_
    · exact .ok (.close { s with rest := (skipWhitespace s.rest.tail).tail }) ⟨h.1, h.2, h.3⟩
    · exact .ok (.value { s with
        rest := skipWhitespace s.rest.tail
        frames := .array :: s.frames }) ⟨h.1, h.2, h.3⟩
  · show Refines ((readScalar s.rest).map _) ((readScalar s.rest).map _)
    cases readScalar s.rest with
    | error reject => exact .error reject
    | ok rest => exact .ok (.close { s with rest := rest }) ⟨h.1, h.2, h.3⟩

theorem Scan.Wf.readSeparator (h : s.Wf) :
    Refines (s.readSeparator limits) (s.abs.readSeparator limits) := by
  obtain ⟨rest, tokens, frames, duplicateFound, sets, memberCounts, liveSets⟩ := s
  have hs (rest' : Bytes) : Scan.Wf
      ⟨rest', tokens, frames, duplicateFound, sets, memberCounts, liveSets⟩ := ⟨h.1, h.2, h.3⟩
  match frames, h, hs with
  | [], h, _ => exact .ok (.finished _) h
  | .array :: frames, h, hs =>
    refine refines_ite Iff.rfl (fun _ => ?_) fun _ =>
      refines_ite Iff.rfl (fun _ => ?_) fun _ => .error _
    · exact .ok (.value _) (hs _)
    · exact .ok (.close ⟨rest.tail, tokens, frames, duplicateFound, sets, memberCounts, liveSets⟩)
        ⟨h.1, h.2, h.3⟩
  | .object set :: frames, h, hs =>
    refine refines_ite Iff.rfl (fun _ => ?_) fun _ =>
      refines_ite Iff.rfl (fun _ => ?_) fun _ => .error _
    · exact (hs (skipWhitespace rest.tail)).member rfl
    · obtain ⟨hc, ha⟩ := (hs rest.tail).closeObject rfl
      have hok := Refines.ok (.close _) hc
      rw [At.map, ha] at hok
      exact hok

/-- **A step of the scan** is one of the plain scan. -/
theorem step_refines (limits : JsonScanLimits) (h : a.Wf) :
    Refines (step limits a) (Plain.step limits (a.map Scan.abs)) := by
  cases a with
  | value s =>
    refine refines_token ?_
    exact Scan.Wf.readValue (s := { s with tokens := s.tokens + 1 }) ⟨h.1, h.2, h.3⟩
  | close s =>
    exact Scan.Wf.readSeparator (s := { s with rest := skipWhitespace s.rest }) ⟨h.1, h.2, h.3⟩
  | finished s => exact .ok _ h

/-! ## Runs -/

def Steps (limits : JsonScanLimits) : At Plain → At Plain → Prop :=
  Relation.ReflTransGen fun a b => Plain.step limits a = .ok b

theorem steps_finished {a : At Plain} (h : Steps limits (.finished p) a) : a = .finished p := by
  induction h with
  | refl => rfl
  | tail _ hs ih =>
    subst ih
    exact (Except.ok.inj hs).symm

theorem steps_head {a : At Plain} (ha : a ≠ .finished p) :
    Steps limits a (.finished p) ↔ ∃ b, Plain.step limits a = .ok b ∧ Steps limits b (.finished p) :=
  Relation.ReflTransGen.cases_head_iff.trans (or_iff_right ha)

/-- The scan goes on, or it is rejected; so does the plain scan. -/
theorem steps_of_error {reject : JsonScanReject} (h : a.Wf) (ha : a.map Scan.abs ≠ .finished p)
    (hs : step limits a = .error reject) : ¬ Steps limits (a.map Scan.abs) (.finished p) := by
  rw [steps_head ha]
  rintro ⟨b, hb, -⟩
  have hr := step_refines limits h
  rw [hs, hb] at hr
  cases hr

theorem steps_of_ok {b : At Scan} (h : a.Wf) (ha : a.map Scan.abs ≠ .finished p)
    (hst : step limits a = .ok b) :
    b.Wf ∧ (Steps limits (a.map Scan.abs) (.finished p) ↔
      Steps limits (b.map Scan.abs) (.finished p)) := by
  have hr := step_refines limits h
  rw [hst] at hr
  generalize hp : Plain.step limits (a.map Scan.abs) = y at hr
  cases hr with
  | ok _ hb =>
    refine ⟨hb, ?_⟩
    rw [steps_head ha, hp]
    exact ⟨fun ⟨_, heq, hs⟩ => Except.ok.inj heq ▸ hs, fun hs => ⟨_, rfl, hs⟩⟩

/-- **The scan ends** where the plain scan ends. -/
theorem run_ok_iff (h : a.Wf) :
    (∃ s, run limits a = .ok s ∧ s.abs = p) ↔ Steps limits (a.map Scan.abs) (.finished p) := by
  fun_induction run limits a with
  | case1 s reject hr =>
    exact iff_of_false nofun (steps_of_error (a := .value s) h nofun hr)
  | case2 s b hb ih =>
    obtain ⟨hwf, hi⟩ := steps_of_ok (a := .value s) h nofun hb
    exact (ih hwf).trans hi.symm
  | case3 s reject hr =>
    exact iff_of_false nofun (steps_of_error (a := .close s) h nofun hr)
  | case4 s b hb ih =>
    obtain ⟨hwf, hi⟩ := steps_of_ok (a := .close s) h nofun hb
    exact (ih hwf).trans hi.symm
  | case5 s =>
    constructor
    · rintro ⟨s', hs', rfl⟩
      cases hs'
      exact .refl
    · intro hst
      exact ⟨s, rfl, (At.finished.inj (steps_finished hst)).symm⟩

end Ferrum.Json
