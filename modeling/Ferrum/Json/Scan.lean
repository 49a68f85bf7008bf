/-
  The scanner for duplicate object member names in JSON documents.

  `scan` has no recursion: it keeps the open containers on a stack of frames, and the names of the
  open objects in a pool of sets that are cleared when they are used again.  The scan is at a value,
  or after one, where it closes every container that ends there.

  * `valueStep`, `closeStep`: the two loops.
  * `run`: they end, as every step of theirs reads a byte.
  * `scan`.
-/
import Ferrum.Json.Strings

namespace Ferrum.Json

open Lib

/-- An open container; an object has the index of its set of names in the pool. -/
inductive Frame where
  | array
  | object (set : ℕ)
  deriving DecidableEq, Repr

structure Scan where
  rest : Bytes
  tokens : ℕ := 0
  /-- the innermost container first -/
  frames : List Frame := []
  duplicateFound : Bool := false
  sets : List (List Bytes) := []
  memberCounts : List ℕ := []
  liveSets : ℕ := 0

/-- Where a scan is: at a value, after one, or after the document. -/
inductive At (σ : Type) where
  | value (s : σ)
  | close (s : σ)
  | finished (s : σ)

def At.map {σ τ : Type} (f : σ → τ) : At σ → At τ
  | .value s => .value (f s)
  | .close s => .close (f s)
  | .finished s => .finished (f s)

variable (limits : JsonScanLimits)

namespace Scan

def token (s : Scan) : Except JsonScanReject Scan :=
  if limits.maxTokens < s.tokens + 1 then .error .tokenBudgetExceeded
  else .ok { s with tokens := s.tokens + 1 }

/-- The next token is a member name, of the object with the set `set`. -/
def member (s : Scan) (set : ℕ) : Except JsonScanReject (At Scan) := do
  let s ← s.token limits
  let m ← readMemberName limits (s.sets.getD set []) (s.memberCounts.getD set 0) s.rest
  .ok (.value { s with
    rest := m.rest
    duplicateFound := s.duplicateFound || m.duplicate
    sets := s.sets.set set m.names
    memberCounts := s.memberCounts.set set m.memberCount })

/-- A set for a new object: one of the pool is cleared, unless all are in use. -/
def openObject (s : Scan) : Scan :=
  { s with
    sets := if s.liveSets = s.sets.length then s.sets ++ [[]] else s.sets.set s.liveSets []
    memberCounts := if s.liveSets = s.sets.length then s.memberCounts ++ [0]
      else s.memberCounts.set s.liveSets 0
    frames := .object s.liveSets :: s.frames
    liveSets := s.liveSets + 1 }

def closeObject (s : Scan) : Scan :=
  { s with frames := s.frames.tail, liveSets := s.liveSets - 1 }

/-- The value here, or the opening bracket of a container and what follows it. -/
def readValue (s : Scan) : Except JsonScanReject (At Scan) :=
  if s.rest.head? = some (byte '{') then
    if limits.maxDepth ≤ s.frames.length then .error .depthExceeded
    else
      let s := { s with rest := skipWhitespace s.rest.tail }.openObject
      if s.rest.head? = some (byte '}') then
        .ok (.close { s with rest := s.rest.tail }.closeObject)
      else s.member limits (s.liveSets - 1)
  else if s.rest.head? = some (byte '[') then
    if limits.maxDepth ≤ s.frames.length then .error .depthExceeded
    else
      let s := { s with rest := skipWhitespace s.rest.tail }
      if s.rest.head? = some (byte ']') then .ok (.close { s with rest := s.rest.tail })
      else .ok (.value { s with frames := .array :: s.frames })
  else (readScalar s.rest).map fun rest => .close { s with rest := rest }

def valueStep (s : Scan) : Except JsonScanReject (At Scan) := do
  let s ← s.token limits
  s.readValue limits

/-- A sibling follows, or the innermost container ends. -/
def readSeparator (s : Scan) : Except JsonScanReject (At Scan) :=
  match s.frames with
  | [] => .ok (.finished s)
  | .array :: frames =>
    if s.rest.head? = some (byte ',') then
      .ok (.value { s with rest := skipWhitespace s.rest.tail })
    else if s.rest.head? = some (byte ']') then
      .ok (.close { s with rest := s.rest.tail, frames := frames })
    else .error .malformed
  | .object set :: _ =>
    if s.rest.head? = some (byte ',') then
      { s with rest := skipWhitespace s.rest.tail }.member limits set
    else if s.rest.head? = some (byte '}') then
      .ok (.close { s with rest := s.rest.tail }.closeObject)
    else .error .malformed

def closeStep (s : Scan) : Except JsonScanReject (At Scan) :=
  { s with rest := skipWhitespace s.rest }.readSeparator limits

end Scan

def step : At Scan → Except JsonScanReject (At Scan)
  | .value s => s.valueStep limits
  | .close s => s.closeStep limits
  | .finished s => .ok (.finished s)

/-! ## Termination -/

section
variable {limits} {s : Scan} {a : At Scan}

/-- The bytes that are left; the last step reads none. -/
def At.measure : At Scan → ℕ
  | .value s | .close s => 2 * s.rest.length + 1
  | .finished s => 2 * s.rest.length

theorem Scan.token_ok {s' : Scan} (h : s.token limits = .ok s') :
    s.tokens < limits.maxTokens ∧ s' = { s with tokens := s.tokens + 1 } := by
  unfold Scan.token at h
  split_ifs at h with ht
  cases h
  exact ⟨Nat.lt_of_succ_le (Nat.le_of_not_lt ht), rfl⟩

theorem readMemberName_length {names : List Bytes} {count : ℕ} {t : Bytes} {m : MemberName}
    (h : readMemberName limits names count t = .ok m) : m.rest.length < t.length := by
  obtain ⟨raw, name, t₁, t₂, -, rfl, hc, hws, -⟩ := readMemberName_ok h
  have h₁ := Ws.length_le hc
  have h₂ := Ws.length_le hws
  simp only [List.length_cons, List.length_append] at h₁ ⊢
  omega

theorem readScalar_length {t r : Bytes} (h : readScalar t = .ok r) : r.length < t.length := by
  obtain ⟨v, -, hv⟩ := readScalar_ok h
  exact hv.length_lt

/-- A byte that is here, and the white space after it. -/
theorem length_skip_tail {t : Bytes} {b : UInt8} (h : t.head? = some b) :
    (skipWhitespace t.tail).length < t.length := by
  cases t with
  | nil => cases h
  | cons b' t => exact Nat.lt_succ_of_le (length_skipWhitespace t)

theorem Scan.member_measure {set : ℕ} (h : s.member limits set = .ok a) :
    a.measure < 2 * s.rest.length := by
  obtain ⟨s', hs', h⟩ := bind_ok h
  obtain ⟨m, hm, h⟩ := bind_ok h
  obtain ⟨-, rfl⟩ := Scan.token_ok hs'
  cases h
  have := readMemberName_length hm
  simp only [At.measure] at this ⊢
  omega

theorem length_tail_lt {t : Bytes} {b : UInt8} (h : t.head? = some b) : t.tail.length < t.length := by
  cases t with
  | nil => cases h
  | cons b' t => exact Nat.lt_succ_self _

theorem Scan.readValue_measure (h : s.readValue limits = .ok a) :
    a.measure < 2 * s.rest.length := by
  simp only [Scan.readValue] at h
  split_ifs at h with ho hd he ha hd he
  · cases h
    have := length_skip_tail ho
    have := length_tail_lt he
    simp only [At.measure, Scan.closeObject, Scan.openObject] at *
    omega
  · have := length_skip_tail ho
    have := Scan.member_measure h
    simp only [Scan.openObject] at *
    omega
  · cases h
    have := length_skip_tail ha
    have := length_tail_lt he
    simp only [At.measure] at *
    omega
  · cases h
    have := length_skip_tail ha
    simp only [At.measure]
    omega
  · obtain ⟨rest, hr, rfl⟩ := map_ok h
    have := readScalar_length hr
    simp only [At.measure]
    omega

theorem Scan.valueStep_measure (h : s.valueStep limits = .ok a) :
    a.measure < (At.value s).measure := by
  obtain ⟨s', hs', h⟩ := bind_ok h
  obtain ⟨-, rfl⟩ := Scan.token_ok hs'
  exact (Scan.readValue_measure h).trans (Nat.lt_succ_self _)

theorem Scan.readSeparator_measure (h : s.readSeparator limits = .ok a) :
    a.measure < 2 * s.rest.length + 1 := by
  unfold Scan.readSeparator at h
  split at h
  · cases h
    exact Nat.lt_succ_self _
  · split_ifs at h with hc hcl
    · cases h
      have := length_skip_tail hc
      simp only [At.measure]
      omega
    · cases h
      have := length_tail_lt hcl
      simp only [At.measure]
      omega
  · split_ifs at h with hc hcl
    · have := length_skip_tail hc
      have := Scan.member_measure h
      simp only at this
      omega
    · cases h
      have := length_tail_lt hcl
      simp only [At.measure, Scan.closeObject]
      omega

theorem Scan.closeStep_measure (h : s.closeStep limits = .ok a) :
    a.measure < (At.close s).measure := by
  have := length_skipWhitespace s.rest
  have := Scan.readSeparator_measure h
  simp only [At.measure] at *
  omega

end

/-- The two loops. -/
def run : At Scan → Except JsonScanReject Scan
  | .value s =>
    match _h : s.valueStep limits with
    | .error reject => .error reject
    | .ok a => run a
  | .close s =>
    match _h : s.closeStep limits with
    | .error reject => .error reject
    | .ok a => run a
  | .finished s => .ok s
termination_by a => a.measure
decreasing_by
  · exact Scan.valueStep_measure _h
  · exact Scan.closeStep_measure _h

def scan (bytes : Bytes) (limits : JsonScanLimits) : Except JsonScanReject Unit :=
  if limits.maxBytes < bytes.length then .error .tooLarge
  else do
    let s ← run limits (.value { rest := skipWhitespace bytes })
    if skipWhitespace s.rest ≠ [] then .error .malformed
    else if s.duplicateFound then .error .duplicateKey
    else .ok ()

end Ferrum.Json
