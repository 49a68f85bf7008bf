/-
  Lanes of pending requests.

  A request in flight is counted for its logical destination: a namespace, an upstream, the uid of a
  service, a subset and a port.  The counters are in one map, under keys that are written from these.

  * `writePendingKey_eq_iff`: the key determines them.
  * `tryAcquire_current`, `drop_current`: a slot is counted where the key is the same.
  * `pending_lanes_apart`: so two destinations share a counter iff they are the same.
-/
import Ferrum.Lib.HashMap
import Ferrum.Router.Keys

namespace Ferrum.Pending

open Lib Router

/-! ## Keys -/

def writeLengthPrefixed (buf : Bytes) (tag : String) (value : Bytes) : Bytes :=
  buf ++ lit tag ++ decimal value.length ++ [byte ':'] ++ value

def fnv1a64 (bytes : Bytes) : UInt64 :=
  bytes.foldl (fun h b => (h ^^^ b.toUInt64) * 0x00000100000001B3) 0xcbf29ce484222325

/-- The field `prefix` of the source is `scopePrefix`. -/
structure BackendPendingScopeBase where
  scopePrefix : Bytes
  digest : UInt64

def BackendPendingScopeBase.new (namespace_ upstreamId : Bytes)
    (k8sServiceUid subset : Option Bytes) : BackendPendingScopeBase :=
  let buf := writeLengthPrefixed [] "ns" namespace_ ++ [byte '|']
  let buf := writeLengthPrefixed buf "id" upstreamId
  let buf := match k8sServiceUid.filter (· ≠ []) with
    | some uid => writeLengthPrefixed (buf ++ [byte '|']) "uid" uid
    | none => buf
  let buf := buf ++ [byte '|']
  let buf := match subset with
    | some name => writeLengthPrefixed buf "s" name
    | none => buf ++ [byte 'n']
  let buf := buf ++ [byte '|']
  ⟨buf, fnv1a64 buf⟩

/-- The key, in a buffer that has been cleared. -/
def writePendingKey (scope : BackendPendingScopeBase) (port : UInt16) : Bytes :=
  scope.scopePrefix ++ decimal port.toNat

/-! ## Counters -/

/-- The counts.  A counter also has a copy of its key, by which its guards find it again. -/
structure BackendPendingLimiter where
  inner : HMap Bytes UInt64

open BackendPendingLimiter

/-- A guard, by the key of its counter. -/
structure BackendPendingGuard where
  key : Bytes
  deriving DecidableEq

structure BackendPendingLimitExceeded where
  current : UInt64
  cap : UInt64
  deriving DecidableEq, Repr

namespace BackendPendingLimiter

/-- A slot of a counter, under the lock of its shard: none where the cap has been reached. -/
def reserve (g : BackendPendingLimiter) (key : Bytes) (current cap : UInt64) :
    BackendPendingLimiter × Except BackendPendingLimitExceeded (Option BackendPendingGuard) :=
  if current ≥ cap then (g, .error ⟨current, cap⟩)
  else (⟨g.inner.insert key (current + 1)⟩, .ok (some ⟨key⟩))

/-- The counter of a new key is zero, which is below the cap. -/
def tryAcquire (g : BackendPendingLimiter) (scope : BackendPendingScopeBase) (port : UInt16)
    (cap : Option UInt32) :
    BackendPendingLimiter × Except BackendPendingLimitExceeded (Option BackendPendingGuard) :=
  match cap with
  | none => (g, .ok none)
  | some cap =>
    if cap.toUInt64 = 0 then (g, .error ⟨0, 0⟩)
    else
      let key := writePendingKey scope port
      match g.inner.get key with
      | some current => g.reserve key current cap.toUInt64
      | none => g.reserve key 0 cap.toUInt64

def current (g : BackendPendingLimiter) (scope : BackendPendingScopeBase) (port : UInt16) : UInt64 :=
  (g.inner.get (writePendingKey scope port)).getD 0

/-- The drop of a guard; the last one removes the counter. -/
def drop (g : BackendPendingLimiter) (guard : BackendPendingGuard) : BackendPendingLimiter :=
  match g.inner.get guard.key with
  | none => g
  | some count =>
    if count = 1 then ⟨g.inner.remove guard.key⟩ else ⟨g.inner.insert guard.key (count - 1)⟩

end BackendPendingLimiter

/-! ## The key determines the destination -/

/-- A value after its tag and length. -/
def field (tag : String) (value : Bytes) : Bytes := writeLengthPrefixed [] tag value

def uidField : Option Bytes → Bytes
  | some uid => byte '|' :: field "uid" uid
  | none => []

def subsetField : Option Bytes → Bytes
  | some name => field "s" name
  | none => [byte 'n']

theorem writePendingKey_new (ns id : Bytes) (uid subset : Option Bytes) (port : UInt16) :
    writePendingKey (.new ns id uid subset) port =
      field "ns" ns ++ byte '|' :: (field "id" id ++ (uidField (uid.filter (· ≠ [])) ++
        byte '|' :: (subsetField subset ++ byte '|' :: decimal port.toNat))) := by
  unfold writePendingKey BackendPendingScopeBase.new
  generalize uid.filter (· ≠ []) = uid
  cases uid <;> cases subset <;>
    simp [field, uidField, subsetField, writeLengthPrefixed]

/-- A field splits off the front: no digit is a colon. -/
theorem field_inj {tag : String} {a b s t : Bytes} (h : field tag a ++ s = field tag b ++ t) :
    a = b ∧ s = t := by
  have hdg (n : ℕ) : ∀ d ∈ decimal n, (d != byte ':') = true := by
    intro d hd
    have := (mem_decimal hd).2
    rw [bne_iff_ne]
    rintro rfl
    exact absurd this (by decide)
  simp only [field, writeLengthPrefixed, List.nil_append, List.append_assoc, List.cons_append,
    List.append_cancel_left_eq] at h
  have hf := congrArg (List.takeWhile (· != byte ':')) h
  rw [List.takeWhile_append_of_pos (hdg _), List.takeWhile_append_of_pos (hdg _)] at hf
  have hln : a.length = b.length := decimal_injective (by simpa using hf)
  rw [hln] at h
  exact List.append_inj (by simpa using h) hln

theorem head?_field {tag : String} {c : UInt8} (h : (lit tag).head? = some c) (value s : Bytes) :
    (field tag value ++ s).head? = some c := by
  simp [field, writeLengthPrefixed, h]

theorem head?_uid : (lit "uid").head? = some (byte 'u') := by decide +kernel

theorem head?_s : (lit "s").head? = some (byte 's') := by decide +kernel

/-- A subset and a port after it: a name has another tag than none. -/
theorem subsetField_inj {subset subset' : Option Bytes} {s t : Bytes}
    (h : subsetField subset ++ byte '|' :: s = subsetField subset' ++ byte '|' :: t) :
    subset = subset' ∧ s = t := by
  have hne {name s t : Bytes} : [byte 'n'] ++ s ≠ field "s" name ++ t := by
    intro h
    have := congrArg List.head? h
    rw [head?_field head?_s] at this
    exact absurd (Option.some.inj this) (by decide)
  cases subset with
  | none =>
    cases subset' with
    | none => exact ⟨rfl, by simpa [subsetField] using h⟩
    | some name => exact absurd h hne
  | some name =>
    cases subset' with
    | none => exact absurd h.symm hne
    | some name' =>
      obtain ⟨rfl, h⟩ := field_inj h
      exact ⟨rfl, by simpa using h⟩

/-- A uid, if there is one, and a subset after it: their tags are told apart by the first letter. -/
theorem uidField_inj {uid uid' subset subset' : Option Bytes} {s t : Bytes}
    (h : uidField uid ++ byte '|' :: (subsetField subset ++ s) =
      uidField uid' ++ byte '|' :: (subsetField subset' ++ t)) :
    uid = uid' ∧ subsetField subset ++ s = subsetField subset' ++ t := by
  have hne {uid t : Bytes} (subset : Option Bytes) (s : Bytes) :
      subsetField subset ++ s ≠ field "uid" uid ++ t := by
    intro h
    have := congrArg List.head? h
    rw [head?_field head?_uid] at this
    cases subset with
    | none => exact absurd (Option.some.inj this) (by decide)
    | some name =>
      rw [subsetField, head?_field head?_s] at this
      exact absurd (Option.some.inj this) (by decide)
  cases uid with
  | none =>
    cases uid' with
    | none => exact ⟨rfl, by simpa [uidField] using h⟩
    | some uid' => exact absurd (by simpa [uidField] using h) (hne subset s)
  | some uid =>
    cases uid' with
    | none => exact absurd (by simpa [uidField] using h.symm) (hne subset' t)
    | some uid' =>
      obtain ⟨rfl, ht⟩ := field_inj (List.cons.inj h).2
      exact ⟨rfl, (List.cons.inj ht).2⟩

section
variable {ns id ns' id' : Bytes} {uid subset uid' subset' : Option Bytes} {port port' : UInt16}

/-- The same logical destination.  An empty uid counts as absent. -/
def SameLane (ns id : Bytes) (uid subset : Option Bytes) (port : UInt16) (ns' id' : Bytes)
    (uid' subset' : Option Bytes) (port' : UInt16) : Prop :=
  ns = ns' ∧ id = id' ∧ uid.filter (· ≠ []) = uid'.filter (· ≠ []) ∧ subset = subset' ∧ port = port'

instance : Decidable (SameLane ns id uid subset port ns' id' uid' subset' port') :=
  inferInstanceAs (Decidable (_ ∧ _))

/-- **The key determines the destination.** -/
theorem writePendingKey_eq_iff :
    writePendingKey (.new ns id uid subset) port = writePendingKey (.new ns' id' uid' subset') port' ↔
      SameLane ns id uid subset port ns' id' uid' subset' port' := by
  rw [writePendingKey_new, writePendingKey_new]
  constructor
  · intro h
    obtain ⟨hns, h⟩ := field_inj h
    obtain ⟨hid, h⟩ := field_inj (List.cons.inj h).2
    obtain ⟨hu, h⟩ := uidField_inj h
    obtain ⟨hs, hp⟩ := subsetField_inj h
    exact ⟨hns, hid, hu, hs, UInt16.toNat_inj.1 (decimal_injective hp)⟩
  · rintro ⟨rfl, rfl, hu, rfl, rfl⟩
    rw [hu]

end

/-! ## Slots are counted under their key -/

section
variable (g : BackendPendingLimiter) (scope scope' : BackendPendingScopeBase) (port port' : UInt16)

theorem current_eq : g.current scope port = (g.inner.get (writePendingKey scope port)).getD 0 := rfl

/-- A slot that is taken is counted where the key is the same, and nowhere else. -/
theorem tryAcquire_current {g' : BackendPendingLimiter} {guard : BackendPendingGuard}
    {cap : Option UInt32} (h : g.tryAcquire scope port cap = (g', .ok (some guard))) :
    guard = ⟨writePendingKey scope port⟩ ∧
      g'.current scope' port' = g.current scope' port' +
        if writePendingKey scope port = writePendingKey scope' port' then 1 else 0 := by
  have hr {current cap : UInt64} (hc : current = g.current scope port)
      (h : g.reserve (writePendingKey scope port) current cap = (g', .ok (some guard))) :
      guard = ⟨writePendingKey scope port⟩ ∧
        g'.current scope' port' = g.current scope' port' +
          if writePendingKey scope port = writePendingKey scope' port' then 1 else 0 := by
    unfold reserve at h
    split_ifs at h with hcap
    · cases h
    · cases h
      refine ⟨rfl, ?_⟩
      split_ifs with hk
      · rw [current_eq, ← hk, HMap.get_insert, hc, current_eq, current_eq, hk]
        rfl
      · rw [current_eq, HMap.get_insert_ne (Ne.symm hk), UInt64.add_zero, current_eq]
  unfold tryAcquire at h
  cases cap with
  | none => cases h
  | some cap =>
    dsimp only at h
    split_ifs at h with hz
    · cases h
    · split at h
      · next current hget => exact hr (by rw [current_eq, hget]; rfl) h
      · next hget => exact hr (by rw [current_eq, hget]; rfl) h

/-- The drop of a guard releases a slot where the key is the same. -/
theorem drop_current (h : g.current scope port ≠ 0) :
    (g.drop ⟨writePendingKey scope port⟩).current scope' port' = g.current scope' port' -
      if writePendingKey scope port = writePendingKey scope' port' then 1 else 0 := by
  unfold drop
  cases hget : g.inner.get (writePendingKey scope port) with
  | none =>
    rw [current_eq, hget] at h
    exact absurd rfl h
  | some count =>
    dsimp only
    by_cases hk : writePendingKey scope port = writePendingKey scope' port'
    · rw [if_pos hk, current_eq g scope' port', ← hk, hget, current_eq, ← hk]
      split_ifs with ho
      · rw [HMap.get_remove, ho]
        rfl
      · rw [HMap.get_insert]
        rfl
    · rw [if_neg hk, UInt64.sub_zero, current_eq, current_eq]
      split_ifs
      · rw [HMap.get_remove_ne (Ne.symm hk)]
      · rw [HMap.get_insert_ne (Ne.symm hk)]

end

section
variable (ns id ns' id' : Bytes) (uid subset uid' subset' : Option Bytes) (port port' : UInt16)

/-- **Two destinations share a counter iff they are the same.**  The key determines the destination;
    a slot that a dispatch takes is counted for another one iff they have the same destination, and
    so is the slot that it gives back. -/
theorem pending_lanes_apart :
    (writePendingKey (.new ns id uid subset) port = writePendingKey (.new ns' id' uid' subset') port' ↔
      SameLane ns id uid subset port ns' id' uid' subset' port') ∧
    (∀ g g' guard cap, BackendPendingLimiter.tryAcquire g (.new ns id uid subset) port cap =
        (g', .ok (some guard)) →
      (g'.current (.new ns' id' uid' subset') port' = g.current (.new ns' id' uid' subset') port' +
        if SameLane ns id uid subset port ns' id' uid' subset' port' then 1 else 0) ∧
      ∀ g : BackendPendingLimiter, g.current (.new ns id uid subset) port ≠ 0 →
        (g.drop guard).current (.new ns' id' uid' subset') port' =
          g.current (.new ns' id' uid' subset') port' -
            if SameLane ns id uid subset port ns' id' uid' subset' port' then 1 else 0) := by
  refine ⟨writePendingKey_eq_iff, fun g g' guard cap h => ?_⟩
  obtain ⟨rfl, hc⟩ := tryAcquire_current g _ (.new ns' id' uid' subset') port port' h
  simp only [writePendingKey_eq_iff] at hc
  refine ⟨hc, fun g hpos => ?_⟩
  have hd := drop_current g _ (.new ns' id' uid' subset') port port' hpos
  simpa only [writePendingKey_eq_iff] using hd

end

/-- Names with delimiters in them. -/
theorem delimiters_apart : ∃ g' guard,
    BackendPendingLimiter.tryAcquire ⟨.empty⟩ (.new (lit "a|id1:b") (lit "c") none none) 80
        (some 1) =
      (g', .ok (some guard)) ∧
    g'.current (.new (lit "a") (lit "b|id1:c") none none) 80 = 0 := by
  have ha := pending_lanes_apart (lit "a|id1:b") (lit "c") (lit "a") (lit "b|id1:c") none none none
    none 80 80
  refine ⟨_, _, rfl, (ha.2 ⟨.empty⟩ _ _ (some 1) rfl).1.trans ?_⟩
  decide +kernel

end Ferrum.Pending
