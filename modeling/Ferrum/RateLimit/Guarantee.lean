/-
  What the local limiter guarantees over a sequence of calls.

  * `KeyOk`: the history of a key, in every state of a sequence of calls.
  * `CountingLimiter`: the limiter with sliding windows, without its rings: it remembers the
    admissions themselves.  `events_eq`: the limiter returns what it returns.
  * `local_limiter_windows`: admissions of a window in any interval of its length, what a denial
    implies, and that denied checks leave no trace.
-/
import Ferrum.RateLimit.Limiter

namespace Ferrum.RateLimit

open Lib List LocalLimiter HMap

variable {B K : Type*} [DecidableEq K] (tb : TokenBuckets B) {specs : List RateLimitWindowSpec}
variable {latest now instantNow : ℕ} {recent adm : List ℕ}
variable {state : Option (DynamicHttpRateLimitState B)}

/-! ## Prunes -/

/-- Is there recent activity in a window of the specification? -/
def RateLimitWindowSpec.activeAt (spec : RateLimitWindowSpec) (recent : List ℕ) (now : ℕ) : Bool :=
  recent.head?.any fun last =>
    (checkedDurationSince now last).all fun elapsed =>
      decide (elapsed < slidingWindowRetention spec.duration)

def pruneAt (specs : List RateLimitWindowSpec) (recent : List ℕ) (now : ℕ) : List ℕ :=
  if specs.any fun spec => spec.activeAt recent now then recent else []

/-- An admission that no window of the specification counts any more. -/
def RateLimitWindowSpec.Expired (spec : RateLimitWindowSpec) (t now : ℕ) : Prop :=
  63 * t + 64 * spec.duration ≤ 63 * now

variable {window : HttpWindowState B} {t : ℕ}

theorem WindowOk.isActive {spec : RateLimitWindowSpec} (h : WindowOk latest recent spec window)
    (hs : spec.Sliding) : window.isActive tb now = spec.activeAt recent now := by
  cases window with
  | bucket b => exact absurd hs h
  | sliding w =>
    obtain ⟨-, -, hd, ht⟩ := h
    show w.hasRecentActivity now = _
    rw [SlidingWindow.hasRecentActivity, RateLimitWindowSpec.activeAt, ht.activity, hd]
    cases recent with
    | nil => rfl
    | cons last recent =>
      simp only [head?_cons, Option.any_some]
      cases checkedDurationSince now last <;> rfl

/-- An idle window has only admissions that have expired. -/
theorem WindowOk.expired {spec : RateLimitWindowSpec} (h : WindowOk latest recent spec window)
    (hs : spec.Sliding) (hn : latest ≤ now) (hen : now < instantEnd)
    (hi : window.isActive tb now = false) : ∀ t ∈ recent, spec.Expired t now := by
  cases window with
  | bucket b => exact absurd hs h
  | sliding w =>
    obtain ⟨-, -, hd, htr⟩ := h
    intro t ht
    cases recent with
    | nil => cases ht
    | cons last recent =>
      obtain ⟨hle, hsr⟩ := pairwise_cons.1 htr.sorted
      have hls : t ≤ last := by
        rcases mem_cons.1 ht with rfl | ht
        · exact le_rfl
        · exact (pairwise_cons.1 hsr).1 t ht
      have he := expired_of_inactive htr.activity
        ((hle last (mem_cons_self ..)).trans hn) hen hi
      rw [hd] at he
      rw [RateLimitWindowSpec.Expired]
      omega

section
variable {windows : List (HttpWindowState B)}

theorem any_isActive (h : List.Forall₂ (WindowOk latest recent) specs windows)
    (ha : ∀ spec ∈ specs, spec.Sliding) :
    windows.any (·.isActive tb now) = specs.any fun spec => spec.activeAt recent now := by
  induction h with
  | nil => rfl
  | cons hw _ ih =>
    rw [any_cons, any_cons, hw.isActive tb (ha _ (mem_cons_self ..)),
      ih fun spec hm => ha spec (mem_cons_of_mem _ hm)]

theorem expired_of_idle (h : List.Forall₂ (WindowOk latest recent) specs windows)
    (hn : latest ≤ now) (he : now < instantEnd)
    (hi : ∀ window ∈ windows, window.isActive tb now = false) :
    ∀ t ∈ recent, ∀ spec ∈ specs, spec.Sliding → spec.Expired t now := by
  intro t ht
  induction h with
  | nil => exact nofun
  | cons hwn _ ih =>
    intro spec hm hs
    rcases mem_cons.1 hm with rfl | hm
    · exact hwn.expired tb hs hn he (hi _ (mem_cons_self ..)) t ht
    · exact ih (fun window hw => hi window (mem_cons_of_mem _ hw)) spec hm hs

end

/-- **A prune** forgets a key only if its admissions have expired. -/
theorem View.prune (h : View specs latest recent state) (hn : latest ≤ now)
    (hen : now < instantEnd) :
    ∃ recent', View specs now recent' (state.filter fun state => isStateActive tb state now) ∧
      (recent' = recent ∨
        recent' = [] ∧ ∀ t ∈ recent, ∀ spec ∈ specs, spec.Sliding → spec.Expired t now) ∧
      ((∀ spec ∈ specs, spec.Sliding) → recent' = pruneAt specs recent now) := by
  cases state with
  | none =>
    have he : recent = [] := h
    subst he
    refine ⟨[], rfl, .inl rfl, fun _ => ?_⟩
    rw [pruneAt]
    split_ifs <;> rfl
  | some state =>
    obtain ⟨hsp, hwn⟩ := h
    cases ha : isStateActive tb state now with
    | true =>
      rw [Option.filter_some, if_pos ha]
      refine ⟨recent, View.mono (show View specs latest recent (some state) from ⟨hsp, hwn⟩) hn, .inl rfl,
        fun hs => ?_⟩
      rw [pruneAt, ← any_isActive tb hwn hs]
      exact (if_pos ha).symm
    | false =>
      rw [Option.filter_some, ha]
      refine ⟨[], rfl, .inr ⟨rfl, expired_of_idle tb hwn hn hen fun window hw => ?_⟩,
        fun hs => ?_⟩
      · exact Bool.eq_false_iff.2 (any_eq_false.1 ha window hw)
      · rw [pruneAt, ← any_isActive tb hwn hs]
        exact (if_neg (Bool.eq_false_iff.1 ha)).symm

/-! ## The history of a key -/

/-- The instants of a sequence of calls: they are in range, and so are the buckets they are in. -/
structure InRange (specs : List RateLimitWindowSpec) (times : ℕ → Prop) : Prop where
  lt : ∀ t, times t → t < instantEnd
  fits : ∀ spec ∈ specs, spec.Sliding → ∀ t t', times t → times t' →
    (t' - t) * 63 / spec.duration ≤ u64Max

/-- The history `adm` of a key, the last admission first: its state counts the admissions since it
    was made, and the ones before have expired. -/
structure KeyOk (specs : List RateLimitWindowSpec) (times : ℕ → Prop) (latest : ℕ) (adm : List ℕ)
    (state : Option (DynamicHttpRateLimitState B)) : Prop where
  view : ∃ recent old, adm = recent ++ old ∧ View specs latest recent state ∧
    ∀ t ∈ old, ∀ spec ∈ specs, spec.Sliding → spec.Expired t latest
  sorted : (latest :: adm).Pairwise fun t t' => t' ≤ t
  times : ∀ t ∈ adm, times t
  spaced : ∀ spec ∈ specs, spec.Sliding → Spaced spec.limit.toNat spec.duration adm

variable {times : ℕ → Prop}

theorem InRange.fits_of (h : InRange specs times) {spec : RateLimitWindowSpec} (hsp : spec ∈ specs)
    (hs : spec.Sliding) {first : ℕ} (ht : times t) (hf : times first) :
    Fits spec.duration (t - first) := by
  refine ⟨?_, h.fits spec hsp hs first t hf ht⟩
  have hw : instantEnd * 63 ≤ u128Max := by decide
  have hlt := h.lt t ht
  omega

theorem Expired.mono {spec : RateLimitWindowSpec} (h : spec.Expired t latest) (hn : latest ≤ now) :
    spec.Expired t now := by
  rw [RateLimitWindowSpec.Expired] at h ⊢
  omega

theorem KeyOk.mono (h : KeyOk specs times latest adm state) (hn : latest ≤ now) :
    KeyOk specs times now adm state := by
  obtain ⟨recent, old, ha, hv, hold⟩ := h.view
  obtain ⟨hle, hsr⟩ := pairwise_cons.1 h.sorted
  exact ⟨⟨recent, old, ha, hv.mono hn, fun t ht spec hsp hs =>
      Expired.mono (hold t ht spec hsp hs) hn⟩,
    pairwise_cons.2 ⟨fun t ht => (hle t ht).trans hn, hsr⟩, h.times, h.spaced⟩

/-- The first admission that the state counts. -/
theorem first_mem (ht : t ∈ recent) : recent.getLast?.getD 0 ∈ recent := by
  obtain ⟨first, hf⟩ := Option.isSome_iff_exists.1
    (getLast?_isSome.2 (ne_nil_of_mem ht))
  rw [hf]
  exact mem_of_getLast? hf

theorem first_le (hsr : recent.Pairwise fun t t' => t' ≤ t) (ht : t ∈ recent) :
    recent.getLast?.getD 0 ≤ t := by
  induction recent with
  | nil => cases ht
  | cons last recent ih =>
    obtain ⟨hle, hr⟩ := pairwise_cons.1 hsr
    by_cases hne : recent = []
    · subst hne
      rw [mem_singleton.1 ht]
      exact le_rfl
    · rw [getLast?_cons_of_ne_nil hne]
      rcases mem_cons.1 ht with rfl | ht
      · obtain ⟨s, hs⟩ := exists_mem_of_ne_nil recent hne
        exact hle _ (first_mem hs)
      · exact ih hr ht

/-- **A check of a key** extends its history. -/
theorem KeyOk.check (instantNow : ℕ) (h : KeyOk specs times latest adm state)
    (hrn : InRange specs times) (hnw : latest ≤ now) (hti : times now) :
    let result := checkLocal tb (state.getD newState) specs now instantNow
    KeyOk specs times now (result.1.after now adm) (some result.2) ∧
      ∀ idx spec, result.1.deniedBy = some idx → specs[idx]? = some spec → spec.Sliding →
        spec.limit.toNat ≤ adm.countP fun t => 63 * now < 63 * t + 64 * spec.duration := by
  obtain ⟨⟨recent, old, rfl, hv, hold⟩, hsr, htm, hsc⟩ := h
  obtain ⟨hv', hjs, -⟩ := checkLocal_ok tb instantNow hv hnw
  intro result
  have hf (spec : RateLimitWindowSpec) (hsp : spec ∈ specs) (hsl : spec.Sliding) (t s : ℕ)
      (ht : times t) (hs : s ∈ recent) : Fits spec.duration (t - recent.getLast?.getD 0) :=
    hrn.fits_of hsp hsl ht (htm _ (mem_append_left old (first_mem hs)))
  obtain ⟨hle, hrc⟩ := pairwise_cons.1 hsr
  have hle' (t : ℕ) (ht : t ∈ recent ++ old) : t ≤ now := (hle t ht).trans hnw
  refine ⟨⟨?_, ?_, ?_, ?_⟩, ?_⟩
  · refine ⟨result.1.after now recent, old, ?_, hv', fun t ht spec hsp hsl =>
      Expired.mono (hold t ht spec hsp hsl) hnw⟩
    rw [Decision.after, Decision.after]
    split_ifs <;> rfl
  · rw [Decision.after]
    split_ifs
    · refine pairwise_cons.2 ⟨fun t ht => ?_, pairwise_cons.2 ⟨hle', hrc⟩⟩
      rcases mem_cons.1 ht with rfl | ht
      · exact le_rfl
      · exact hle' t ht
    · exact pairwise_cons.2 ⟨hle', hrc⟩
  · intro t ht
    rw [Decision.after] at ht
    split_ifs at ht
    · rcases mem_cons.1 ht with rfl | ht
      · exact hti
      · exact htm t ht
    · exact htm t ht
  · intro spec hsp hsl
    rw [Decision.after]
    split_ifs with ha
    · refine ⟨?_, hsc spec hsp hsl⟩
      have hr := hjs.allowed ha spec hsp hsl
      rw [RateLimitWindowSpec.denies, decide_eq_false_iff_not, Nat.not_le] at hr
      refine Nat.lt_of_le_of_lt ?_ hr
      rw [countP_append]
      have hnn : old.countP (fun t => now ≤ t + spec.duration) = 0 := by
        refine countP_eq_zero.2 fun t ht => ?_
        have he := hold t ht spec hsp hsl
        have hpos := hsl.duration_pos
        rw [RateLimitWindowSpec.Expired] at he
        simp only [decide_eq_true_eq, Nat.not_le]
        omega
      rw [hnn]
      refine countP_mono_left fun t ht hn => ?_
      simp only [decide_eq_true_eq] at hn ⊢
      exact live_of_near hsl.duration_pos (hf spec hsp hsl now t hti ht)
        (hf spec hsp hsl t t (htm t (mem_append_left old ht)) ht) hn
    · exact hsc spec hsp hsl
  · intro idx spec hi hget hsl
    have hsp : spec ∈ specs := mem_of_getElem? hget
    have hfl := hjs.denied idx spec hi hget hsl
    rw [RateLimitWindowSpec.denies, decide_eq_true_iff] at hfl
    refine hfl.trans ?_
    rw [countP_append]
    refine Nat.le_trans (countP_mono_left fun t ht hlv => ?_) (Nat.le_add_right _ _)
    simp only [decide_eq_true_eq] at hlv ⊢
    exact near_of_live hsl.duration_pos (hf spec hsp hsl now t hti ht)
      (hf spec hsp hsl t t (htm t (mem_append_left old ht)) ht)
      (first_le (pairwise_append.1 hrc).1 ht) hlv

theorem KeyOk.prune (h : KeyOk specs times latest adm state) (hn : latest ≤ now)
    (hen : now < instantEnd) :
    KeyOk specs times now adm (state.filter fun state => isStateActive tb state now) := by
  obtain ⟨⟨recent, old, rfl, hv, hold⟩, hsr, htm, hsc⟩ := h
  obtain ⟨recent', hv', hc, -⟩ := hv.prune tb hn hen
  obtain ⟨hle, hr⟩ := pairwise_cons.1 hsr
  refine ⟨?_, pairwise_cons.2 ⟨fun t ht => (hle t ht).trans hn, hr⟩, htm, hsc⟩
  rcases hc with rfl | ⟨rfl, he⟩
  · exact ⟨recent', old, rfl, hv', fun t ht spec hsp hs =>
      Expired.mono (hold t ht spec hsp hs) hn⟩
  · refine ⟨[], recent ++ old, rfl, hv', fun t ht spec hsp hs => ?_⟩
    rcases mem_append.1 ht with ht | ht
    · exact he t ht spec hsp hs
    · exact Expired.mono (hold t ht spec hsp hs) hn

/-! ## Sequences of calls -/

section
variable {limiter : LocalLimiter K B} {acts before after : List (Act K)} {act : Act K} {key : K}

theorem events_append :
    limiter.events tb specs (before ++ after) = limiter.events tb specs before ++
      (limiter.final tb specs before).events tb specs after := by
  induction before generalizing limiter with
  | nil => rfl
  | cons act before ih =>
    rw [cons_append, events, events, ih]
    rfl

theorem final_append :
    limiter.final tb specs (before ++ after) =
      (limiter.final tb specs before).final tb specs after := foldl_append

theorem length_events : (limiter.events tb specs acts).length = acts.length := by
  induction acts generalizing limiter with
  | nil => rfl
  | cons act acts ih => rw [events, length_cons, length_cons, ih]

/-- The call that returned the event at `i`. -/
theorem events_getElem {i : ℕ} {event : Event K}
    (h : (limiter.events tb specs acts)[i]? = some event) :
    ∃ before act after, acts = before ++ act :: after ∧ before.length = i ∧
      ((limiter.final tb specs before).step tb specs act).1 = event := by
  obtain ⟨hi, -⟩ := List.getElem?_eq_some_iff.1 h
  rw [length_events] at hi
  have ha : acts = acts.take i ++ acts[i] :: acts.drop (i + 1) := by
    rw [← drop_eq_getElem_cons hi, take_append_drop]
  have hln : (acts.take i).length = i := length_take_of_le hi.le
  refine ⟨_, _, _, ha, hln, ?_⟩
  rw [ha, events_append, getElem?_append_right (by rw [length_events, hln]),
    length_events, hln, Nat.sub_self] at h
  exact Option.some.inj h

/-- The state of a key after a check of it, unless there is no slot for it. -/
theorem get_checkAt (limiter : LocalLimiter K B) (key : K) (specs : List RateLimitWindowSpec)
    (now instantNow : ℕ) :
    (limiter.checkAt tb key specs now instantNow =
        ({ outcome := { allowed := false } }, limiter) ∧ limiter.state.get key = none ∧
        usizeMax ≤ limiter.entryCount) ∨
      (limiter.checkAt tb key specs now instantNow).1 =
          (checkLocal tb ((limiter.state.get key).getD newState) specs now instantNow).1 ∧
        (limiter.checkAt tb key specs now instantNow).2.state = limiter.state.insert key
          (checkLocal tb ((limiter.state.get key).getD newState) specs now instantNow).2 ∧
        (limiter.checkAt tb key specs now instantNow).2.entryCount =
          limiter.entryCount + if (limiter.state.get key).isSome then 0 else 1 := by
  cases hget : limiter.state.get key with
  | some state =>
    right
    simp [checkAt, checkAtWithCapacity, hget]
  | none =>
    by_cases hs : limiter.entryCount < usizeMax
    · right
      simp [checkAt, checkAtWithCapacity, hget, hs]
    · left
      simp [checkAt, checkAtWithCapacity, hget, hs]
      exact Nat.not_lt.1 hs

theorem admitted_append {es es' : List (Event K)} :
    admitted key (es ++ es') = admitted key es ++ admitted key es' := filterMap_append

theorem admitted_checked (key key' : K) (decision : Decision) :
    admitted key [.checked key' now decision] ++ adm =
      if key = key' then decision.after now adm else adm := by
  rw [Decision.after]
  by_cases hk : key = key'
  · cases ha : decision.outcome.allowed <;> simp [admitted, ha, hk]
  · simp [admitted, hk, Ne.symm hk]

/-- **One call** extends the history of a key. -/
theorem KeyOk.step (h : KeyOk specs times latest adm (limiter.state.get key))
    (hr : InRange specs times) (hn : latest ≤ act.now) (ht : times act.now) :
    KeyOk specs times act.now (admitted key [(limiter.step tb specs act).1] ++ adm)
      ((limiter.step tb specs act).2.state.get key) := by
  cases act with
  | prune now =>
    show KeyOk specs times now adm ((limiter.state.retain _).get key)
    rw [get_retain]
    exact h.prune tb hn (hr.lt now ht)
  | check key' now instantNow =>
    show KeyOk specs times now
      (admitted key [.checked key' now (limiter.checkAt tb key' specs now instantNow).1] ++ adm)
      ((limiter.checkAt tb key' specs now instantNow).2.state.get key)
    rcases get_checkAt tb limiter key' specs now instantNow with ⟨heq, -⟩ | ⟨hd, hs, -⟩
    · rw [heq, admitted_checked]
      split_ifs <;> exact h.mono hn
    · rw [hd, hs, get_insert_eq, admitted_checked]
      split_ifs with hk
      · subst hk
        exact (h.check tb instantNow hr hn ht).1
      · exact h.mono hn

/-- The calls are in the order of their instants, which are in range. -/
structure Timely (specs : List RateLimitWindowSpec) (acts : List (Act K)) : Prop where
  sorted : acts.Pairwise fun act act' => act.now ≤ act'.now
  inRange : InRange specs fun t => ∃ act ∈ acts, act.now = t

/-- **In every state of a sequence of calls** the history of a key is in order. -/
theorem keyOk_final (key : K) (hr : InRange specs times)
    (hs : acts.Pairwise fun act act' => act.now ≤ act'.now)
    (ht : ∀ act ∈ acts, times act.now) (hls : ∀ act ∈ acts, act.now ≤ latest) :
    KeyOk specs times latest (admitted key (new.events tb specs acts)).reverse
      ((new.final tb specs acts).state.get key) := by
  induction acts using reverseRecOn generalizing latest with
  | nil =>
    refine ⟨⟨[], [], rfl, ?_, nofun⟩, pairwise_singleton _ _, nofun, fun _ _ _ => trivial⟩
    show View specs latest [] (empty.get key)
    rw [get_empty]
    rfl
  | append_singleton acts act ih =>
    obtain ⟨hrc, -, hle⟩ := pairwise_append.1 hs
    have hp := ih hrc (fun a ha => ht a (mem_append_left _ ha))
      (fun a ha => hle a ha act (mem_singleton_self act))
    have hac : act ∈ acts ++ [act] := mem_append_right _ (mem_singleton_self act)
    have hst := (hp.step tb hr le_rfl (ht act hac)).mono (hls act hac)
    rw [events_append, admitted_append, reverse_append, final_append]
    have hrv : (admitted key ((new.final tb specs acts).events tb specs
        [act])).reverse = admitted key [((new.final tb specs acts).step tb specs
        act).1] := by
      rw [events, events]
      generalize ((new.final tb specs acts).step tb specs act).1 = event
      cases event with
      | pruned => rfl
      | checked key' now d =>
        simp only [admitted, filterMap_cons, filterMap_nil]
        split_ifs <;> rfl
    rw [hrv]
    exact hst

end

/-! ## Sliding windows without rings -/

/-- The limiter with sliding windows: the admissions of every key that it has not forgotten. -/
abbrev CountingLimiter (K : Type*) := K → List ℕ

namespace CountingLimiter

def step (specs : List RateLimitWindowSpec) (counted : CountingLimiter K) :
    Act K → Event K × CountingLimiter K
  | .check key now _ =>
    let decision := decisionAt specs (counted key) now
    (.checked key now decision, Function.update counted key (decision.after now (counted key)))
  | .prune now => (.pruned, fun key => pruneAt specs (counted key) now)

def events (specs : List RateLimitWindowSpec) (counted : CountingLimiter K) :
    List (Act K) → List (Event K)
  | [] => []
  | act :: acts => (counted.step specs act).1 :: events specs (counted.step specs act).2 acts

theorem step_denied {counted : CountingLimiter K} {act : Act K} {key : K} {decision : Decision}
    (h : (counted.step specs act).1 = .checked key now decision)
    (hd : decision.outcome.allowed = false) : (counted.step specs act).2 = counted := by
  cases act with
  | prune now => cases h
  | check key now instantNow =>
    cases h
    show Function.update counted key (Decision.after _ now (counted key)) = counted
    rw [Decision.after, hd, if_neg Bool.false_ne_true, Function.update_eq_self]

end CountingLimiter

/-- The limiter counts what the counting limiter counts, and has a slot for each of `keys`. -/
structure Counts (specs : List RateLimitWindowSpec) (keys : Finset K) (latest : ℕ)
    (limiter : LocalLimiter K B) (counted : CountingLimiter K) : Prop where
  view : ∀ key, View specs latest (counted key) (limiter.state.get key)
  entries : limiter.entryCount = limiter.state.len
  keys : ∀ key, (limiter.state.get key).isSome = true → key ∈ keys

section
variable {limiter : LocalLimiter K B} {counted : CountingLimiter K} {keys : Finset K}
variable {acts : List (Act K)} {act : Act K}

theorem Counts.slot (h : Counts specs keys latest limiter counted) {key : K} (hk : key ∈ keys)
    (hn : limiter.state.get key = none) : limiter.entryCount < keys.card := by
  rw [h.entries]
  have hln := len_insert_none (v := newState) hn
  refine Nat.lt_of_lt_of_le (Nat.lt_of_succ_le hln.ge) (len_le_card fun key' hk' => ?_)
  rw [get_insert_eq] at hk'
  split_ifs at hk' with heq
  · exact heq ▸ hk
  · exact h.keys key' hk'

/-- **One call** of the limiter is one of the counting limiter. -/
theorem Counts.step (h : Counts specs keys latest limiter counted)
    (ha : ∀ spec ∈ specs, spec.Sliding) (hcr : keys.card ≤ usizeMax)
    (hk : ∀ key now instantNow, act = .check key now instantNow → key ∈ keys)
    (hnw : latest ≤ act.now) (he : act.now < instantEnd) :
    (limiter.step tb specs act).1 = (counted.step specs act).1 ∧
      Counts specs keys act.now (limiter.step tb specs act).2 (counted.step specs act).2 := by
  cases act with
  | prune now =>
    change latest ≤ now at hnw
    refine ⟨rfl, ⟨fun key => ?_, ?_, fun key hke => ?_⟩⟩
    · show View specs now (pruneAt specs (counted key) now) ((limiter.state.retain _).get key)
      obtain ⟨recent', hv, -, hp⟩ := (h.view key).prune tb hnw he
      rw [get_retain, ← hp ha]
      exact hv
    · show limiter.entryCount - (limiter.state.len - (limiter.state.retain _).len) =
        (limiter.state.retain _).len
      rw [h.entries]
      exact Nat.sub_sub_self len_retain_le
    · change ((limiter.state.retain _).get key).isSome = true at hke
      rw [get_retain] at hke
      exact h.keys key (Option.isSome_of_isSome_filter _ _ hke)
  | check key now instantNow =>
    change latest ≤ now at hnw
    have hke : key ∈ keys := hk key now instantNow rfl
    obtain ⟨hv, -, hd⟩ :=
      checkLocal_ok tb instantNow (h.view key) hnw
    rw [hd ha] at hv
    rcases get_checkAt tb limiter key specs now instantNow with ⟨-, hn, hfl⟩ | ⟨hf, hs, hc⟩
    · have := h.slot hke hn
      omega
    refine ⟨congrArg (Event.checked key now) (hf.trans (hd ha)),
      ⟨fun key' => ?_, ?_, fun key' hke' => ?_⟩⟩
    · show View specs now (Function.update counted key _ key')
        ((limiter.checkAt tb key specs now instantNow).2.state.get key')
      rw [hs, get_insert_eq]
      split_ifs with heq
      · rw [heq, Function.update_self]
        exact hv
      · rw [Function.update_of_ne heq]
        exact (h.view key').mono hnw
    · show (limiter.checkAt tb key specs now instantNow).2.entryCount =
        (limiter.checkAt tb key specs now instantNow).2.state.len
      rw [hc, hs, h.entries]
      cases hget : limiter.state.get key with
      | none => exact (len_insert_none hget).symm
      | some state => exact (len_insert_some hget).symm
    · change ((limiter.checkAt tb key specs now instantNow).2.state.get key').isSome = true at hke'
      rw [hs, get_insert_eq] at hke'
      split_ifs at hke' with heq
      · exact heq ▸ hke
      · exact h.keys key' hke'

/-- **The limiter returns** what the counting limiter returns. -/
theorem Counts.events_eq (h : Counts specs keys latest limiter counted)
    (hal : ∀ spec ∈ specs, spec.Sliding) (hc : keys.card ≤ usizeMax)
    (hk : ∀ key now instantNow, Act.check key now instantNow ∈ acts → key ∈ keys)
    (hs : acts.Pairwise fun act act' => act.now ≤ act'.now)
    (hls : ∀ act ∈ acts, latest ≤ act.now) (he : ∀ act ∈ acts, act.now < instantEnd) :
    limiter.events tb specs acts = counted.events specs acts := by
  induction acts generalizing limiter counted latest with
  | nil => rfl
  | cons act acts ih =>
    obtain ⟨hle, hr⟩ := pairwise_cons.1 hs
    obtain ⟨heq, hn⟩ := h.step tb hal hc
      (fun key now instantNow hac => hk key now instantNow (hac ▸ mem_cons_self ..))
      (hls act (mem_cons_self ..)) (he act (mem_cons_self ..))
    rw [events, CountingLimiter.events, heq, ih hn
      (fun key now instantNow hac => hk key now instantNow (mem_cons_of_mem _ hac)) hr
      hle (fun a ha => he a (mem_cons_of_mem _ ha))]

end

theorem CountingLimiter.events_eraseIdx {counted : CountingLimiter K} {acts : List (Act K)} {i : ℕ}
    {key : K} {decision : Decision}
    (h : (counted.events specs acts)[i]? = some (.checked key now decision))
    (hd : decision.outcome.allowed = false) :
    counted.events specs (acts.eraseIdx i) = (counted.events specs acts).eraseIdx i := by
  induction acts generalizing counted i with
  | nil => rfl
  | cons act acts ih =>
    cases i with
    | zero =>
      have hs := step_denied (Option.some.inj h) hd
      show counted.events specs acts = CountingLimiter.events specs (counted.step specs act).2 acts
      rw [hs]
    | succ i =>
      rw [eraseIdx_cons_succ, CountingLimiter.events, CountingLimiter.events,
        eraseIdx_cons_succ, ih h]

section
variable {acts : List (Act K)} {key : K} {spec : RateLimitWindowSpec} {i : ℕ} {decision : Decision}

omit [DecidableEq K] in
theorem Timely.time_mem {act : Act K} (ha : act ∈ acts) : ∃ act' ∈ acts, act'.now = act.now :=
  ⟨act, ha, rfl⟩

/-- A sliding window admits no more than its limit in an interval of its duration. -/
theorem Timely.interval_le (h : Timely specs acts) (hsp : spec ∈ specs) (hs : spec.Sliding)
    (low : ℕ) :
    (admitted key (new.events tb specs acts)).countP
      (fun t => low ≤ t ∧ t ≤ low + spec.duration) ≤ spec.limit.toNat := by
  have he (act : Act K) (ha : act ∈ acts) : act.now ≤ instantEnd :=
    (h.inRange.lt _ (time_mem ha)).le
  have hk := keyOk_final tb key h.inRange h.sorted (fun _ => time_mem) he
  have hi := (hk.spaced spec hsp hs).interval
    (pairwise_cons.1 hk.sorted).2 low
  rwa [countP_reverse] at hi

/-- A sliding window that denies has admitted as many as its limit, not long ago. -/
theorem Timely.admitted_of_denied (h : Timely specs acts)
    (hi : (new.events tb specs acts)[i]? = some (.checked key now decision)) {idx : ℕ}
    (hid : decision.deniedBy = some idx) (hsp : specs[idx]? = some spec)
    (hs : spec.Sliding) :
    spec.limit.toNat ≤ (admitted key ((new.events tb specs acts).take i)).countP
      fun t => 63 * now < 63 * t + 64 * spec.duration := by
  obtain ⟨before, act, after, rfl, rfl, he⟩ := events_getElem tb hi
  obtain ⟨hsr, -, hle⟩ := pairwise_append.1 h.sorted
  have hac : act ∈ before ++ act :: after := mem_append_right _ (mem_cons_self ..)
  have hln : (new.events tb specs before).length = before.length := length_events tb
  rw [events_append, ← hln, take_left]
  have hk := keyOk_final tb key h.inRange hsr
    (fun a ha => time_mem (mem_append_left _ ha)) (fun a ha => hle a ha act (mem_cons_self ..))
  generalize new.final tb specs before = limiter at hk he
  cases act with
  | prune now => cases he
  | check key' now' instantNow =>
    obtain ⟨rfl, rfl, rfl⟩ : key' = key ∧ now' = now ∧
        (limiter.checkAt tb key' specs now' instantNow).1 = decision := Event.checked.inj he
    rcases get_checkAt tb limiter key' specs now' instantNow with ⟨heq, -⟩ | ⟨hd, -⟩
    · rw [heq] at hid
      cases hid
    · rw [hd] at hid
      have hc := (hk.check tb instantNow h.inRange le_rfl
        (time_mem hac)).2 idx spec hid hsp hs
      rwa [countP_reverse] at hc

/-- With sliding windows, a denied check makes no difference. -/
theorem Timely.denied_no_trace (h : Timely specs acts) (hal : ∀ spec ∈ specs, spec.Sliding)
    {keys : Finset K} (hc : keys.card ≤ usizeMax)
    (hk : ∀ key now instantNow, Act.check key now instantNow ∈ acts → key ∈ keys)
    (hi : (new.events tb specs acts)[i]? = some (.checked key now decision))
    (hd : decision.outcome.allowed = false) :
    new.events tb specs (acts.eraseIdx i) =
      (new.events tb specs acts).eraseIdx i := by
  have hin : Counts specs keys 0 (new : LocalLimiter K B) fun _ => [] := by
    refine ⟨fun key => ?_, rfl, fun key hke => ?_⟩
    · show View specs 0 [] (empty.get key)
      rw [get_empty]
      rfl
    · change (empty.get key).isSome = true at hke
      rw [get_empty] at hke
      cases hke
  have he := hin.events_eq tb hal hc hk h.sorted (fun _ _ => Nat.zero_le _)
    fun act ha => h.inRange.lt _ (time_mem ha)
  have hs := eraseIdx_sublist acts i
  have her := hin.events_eq tb hal hc
    (fun key now instantNow ha => hk key now instantNow (hs.subset ha))
    (h.sorted.sublist hs) (fun _ _ => Nat.zero_le _)
    fun act ha => h.inRange.lt _ (time_mem (hs.subset ha))
  rw [he] at hi ⊢
  rw [her]
  exact CountingLimiter.events_eraseIdx hi hd

end

/-- **What the limiter guarantees.**  A sliding window admits no more than its limit in an interval
    of its duration; it denies only if that many were admitted within 64/63 of its duration; and if
    all windows are sliding, checks that are denied make no difference. -/
theorem local_limiter_windows (tb : TokenBuckets B) (specs : List RateLimitWindowSpec)
    (acts : List (Act K)) (h : Timely specs acts) :
    let events := LocalLimiter.new.events tb specs acts
    (∀ key, ∀ spec ∈ specs, spec.Sliding → ∀ low, (admitted key events).countP
        (fun t => low ≤ t ∧ t ≤ low + spec.duration) ≤ spec.limit.toNat) ∧
      (∀ (i : ℕ) key now decision, events[i]? = some (.checked key now decision) →
        ∀ idx spec, decision.deniedBy = some idx → specs[idx]? = some spec → spec.Sliding →
        spec.limit.toNat ≤ (admitted key (events.take i)).countP
          fun t => 63 * now < 63 * t + 64 * spec.duration) ∧
      ((∀ spec ∈ specs, spec.Sliding) →
        (∃ keys : Finset K, keys.card ≤ usizeMax ∧
          ∀ key now instantNow, Act.check key now instantNow ∈ acts → key ∈ keys) →
        ∀ (i : ℕ) key now decision, events[i]? = some (.checked key now decision) →
        decision.outcome.allowed = false →
        LocalLimiter.new.events tb specs (acts.eraseIdx i) = events.eraseIdx i) := by
  refine ⟨fun key spec hsp hs low => h.interval_le tb hsp hs low, ?_, ?_⟩
  · intro i key now decision hi idx spec hid hsp hs
    exact h.admitted_of_denied tb hi hid hsp hs
  · rintro ha ⟨keys, hc, hk⟩ i key now decision hi hd
    exact h.denied_no_trace tb ha hc hk hi hd

/-- No window is a token bucket. -/
def noBuckets : TokenBuckets Unit :=
  ⟨fun _ _ _ => (), fun _ _ _ => (true, ()), fun _ _ => (), fun _ => 0, fun _ _ => false⟩

/-- Two requests in ten seconds. -/
def twoInTen : List RateLimitWindowSpec := [⟨2, 10 * nanosPerSec⟩]

/-- Requests in the first second, at ten seconds, and after eleven. -/
def burst : List (Act Unit) :=
  [.check () 0 0, .check () nanosPerSec 0, .check () (10 * nanosPerSec) 0,
    .prune (10 * nanosPerSec), .check () (11 * nanosPerSec + 200000000) 0]

theorem burst_timely : Timely twoInTen burst := by
  refine ⟨by decide, ⟨?_, ?_⟩⟩
  · rintro t ⟨act, ha, rfl⟩
    revert act
    decide
  · intro spec hs _ t t' ⟨act, ha, ht⟩ ⟨act', ha', ht'⟩
    have hlt : ∀ act ∈ burst, act.now < 2 ^ 40 := by decide
    have hlt' := ht' ▸ hlt act' ha'
    rw [mem_singleton.1 hs]
    refine (Nat.div_le_self _ _).trans ?_
    rw [u64Max]
    omega

theorem local_limiter_windows_burst :
    (admitted () (LocalLimiter.new.events noBuckets twoInTen burst)).countP
        (fun t => nanosPerSec ≤ t ∧ t ≤ nanosPerSec + 10 * nanosPerSec) ≤ 2 ∧
      admitted () (LocalLimiter.new.events noBuckets twoInTen burst) =
        [0, nanosPerSec, 11 * nanosPerSec + 200000000] :=
  ⟨(local_limiter_windows noBuckets twoInTen burst burst_timely).1 () _ (mem_singleton_self _)
    rfl nanosPerSec, by decide +kernel⟩

end Ferrum.RateLimit
