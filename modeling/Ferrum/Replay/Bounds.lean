/-
  The bounds on the expiries of a replay lane: runs.

  * `moves_admit`, `moves_write`, `moves_walk`, `moves_publish`: what an atomic operation of each
    part of a call does to the words, and what its thread knows after it; `knows_step`: of all.
  * `active_counts`: the word of active writers counts them.
  * `expiry_bounds_sound`: both bounds hold for the markers of writers that have finished, in every
    state that is not within the publication of a prune.
  * `bound_lost_after_wrap`: not so when the revisions come around within a prune.
-/
import Ferrum.Replay.SingleUse
import Ferrum.Replay.Words

namespace Ferrum.Replay

open Lib Function List

variable {K : Type*} {n : ℕ}

section
variable [DecidableEq K] {i : ℕ} {w w' : Words K} {shard : K → Fin n} {pc pc' : Pc K}

/-! ## Operations -/

/-- A thread that has written nothing has nothing to finish. -/
theorem Knows.not_pending (hk : Knows shard i w pc) (hw : pc.wrote = none)
    {P : K → WritePhase → Prop} (k : K) (phase : WritePhase)
    (hp : w.pending k = some (i, phase)) : P k phase := by
  obtain ⟨e, he, -⟩ := hk.pending k phase hp
  rw [hw] at he
  cases he

omit [DecidableEq K] in
theorem noted_of_not_noting (h : pc.noting = false) (c : Call K) (e : ℕ) (b : Bool)
    (heq : pc = .noteEarliest c e b) : e ≤ w.newest := by
  rw [heq] at h
  cases h

section
variable (hk : Knows shard i w pc)
include hk

/-- Outside of the window the thread that has the lock knows the lower bound. -/
theorem Knows.below (hw : pc.inWindow = false) (hlc : w.lock = some i) : w.Below := by
  refine (hk.window hlc).resolve_left ?_
  rw [hw]
  exact Bool.false_ne_true

theorem Knows.next (hs : WordStep i w w') (hw : pc.inWindow = false) (hp : pc'.pruning = false)
    (hpn : ∀ k phase, w'.pending k = some (i, phase) →
      ∃ e, pc'.wrote = some (k, e, phase) ∧ ∀ e', w'.entries.get k = some e' → e' = e)
    (hn : ∀ c e b, pc' = .noteEarliest c e b → e ≤ w'.newest) (hlc : w'.lock = w.lock) :
    Knows shard i w' pc' := by
  refine ⟨fun h => ?_, fun h => .inr (hs.below (hk.below hw (hlc ▸ h))), hpn, hn,
    stage_of_not_pruning hp⟩
  rw [hp] at h
  cases h

/-- What a thread does to the words, and what it knows then. -/
structure Moves (shard : K → Fin n) (i : ℕ) (w w' : Words K) (pc' : Pc K) : Prop where
  step : WordStep i w w' ∨ ∃ e, w.lock = some i ∧ w' = { w with earliest := e }
  knows : Knows shard i w' pc'

theorem Knows.quiet (hwr : pc.wrote = none) (hlc : pc'.pruning = true → w.lock = some i)
    (hw : w.lock = some i → pc'.inWindow = true ∨ w.Below) (hn : pc'.noting = false)
    (hs : Stage shard w pc') : Moves shard i w w pc' :=
  ⟨.inl .quiet, hlc, hw, hk.not_pending hwr, noted_of_not_noting hn, hs⟩

theorem Knows.outside (hwr : pc.wrote = none) (hw : pc.inWindow = false) (hp : pc'.pruning = false)
    (hn : pc'.noting = false) : Moves shard i w w pc' := by
  refine hk.quiet hwr (fun h => ?_) (fun hlc => .inr (hk.below hw hlc)) hn (stage_of_not_pruning hp)
  rw [hp] at h
  cases h

theorem Knows.within (hwr : pc.wrote = none) (hw : pc.inWindow = false) (hp : pc.pruning = true)
    (hn : pc'.noting = false) (hs : Stage shard w pc') : Moves shard i w w pc' :=
  hk.quiet hwr (fun _ => hk.lock hp) (fun hlc => .inr (hk.below hw hlc)) hn hs

/-- The write a thread is at comes to the next phase. -/
theorem Knows.pending_advance {k : K} {e : ℕ} {phase : WritePhase}
    (hw : pc.wrote = some (k, e, phase)) {next : Option WritePhase} {k' : K} {phase' : WritePhase}
    (h : w.pending.advance i k phase next k' = some (i, phase')) :
    k' = k ∧ next = some phase' ∧ ∀ e', w.entries.get k = some e' → e' = e := by
  have hs : k' = k ∧ w.pending k = some (i, phase) := by
    rcases advance_cases w.pending i k k' phase next with ⟨hk', hp, -⟩ | hsm
    · exact ⟨hk', hp⟩
    · have hold := hsm.symm.trans h
      obtain ⟨e', he', -⟩ := hk.pending k' phase' hold
      rw [hw] at he'
      cases he'
      exact ⟨rfl, hold⟩
  obtain ⟨rfl, hp⟩ := hs
  rw [advance_self hp] at h
  obtain ⟨phase'', rfl, heq⟩ := Option.map_eq_some_iff.1 h
  cases heq
  obtain ⟨e', he', hget⟩ := hk.pending k' phase hp
  rw [hw] at he'
  cases he'
  exact ⟨rfl, rfl, hget⟩

theorem Knows.write (hwr : pc.wrote = none) (hw : pc.inWindow = false) (c : Call K) (e : ℕ)
    (b : Bool) :
    Knows shard i { w with
      entries := w.entries.insert c.key e
      pending := update w.pending c.key (some (i, .unpublished)) }
      (.noteNewest c e b) := by
  refine hk.next (.write c.key e) hw rfl (fun k phase hp => ?_) nofun rfl
  dsimp only at hp ⊢
  by_cases hke : k = c.key
  · subst hke
    rw [update_self] at hp
    cases hp
    refine ⟨e, rfl, fun e' he' => ?_⟩
    rw [HMap.get_insert] at he'
    exact (Option.some.inj he').symm
  · rw [update_of_ne hke] at hp
    exact (hk.not_pending (P := fun _ _ => False) hwr k phase hp).elim

end

omit [DecidableEq K] in
/-- The least of the expiries that a scan of a shard has seen. -/
theorem foldl_min_le (es : List (K × ℕ)) (least : ℕ) :
    es.foldl (fun least e => min least e.2) least ≤ least ∧
      ∀ e ∈ es, es.foldl (fun least e => min least e.2) least ≤ e.2 := by
  induction es generalizing least with
  | nil => exact ⟨Nat.le_refl _, nofun⟩
  | cons x es ih =>
    obtain ⟨hle, ha⟩ := ih (min least x.2)
    refine ⟨hle.trans (Nat.min_le_left _ _), fun e he => ?_⟩
    rcases mem_cons.1 he with rfl | he
    · exact hle.trans (Nat.min_le_right _ _)
    · exact ha e he

theorem Stage.scanned {c : Call K} {epoch : WriterEpoch} {m : ℕ} {expired : List K} {liveMin : ℕ}
    (hm : m < n) (h : Stage shard w (.scan c epoch m expired liveMin)) :
    let visited := w.entries.toList.filter fun e => shard e.1 = ⟨m, hm⟩
    let parts := visited.partition fun e => e.2 ≤ c.nowMillis
    Stage shard w (.scan c epoch (m + 1) (expired ++ parts.1.map Prod.fst)
      (parts.2.foldl (fun least e => min least e.2) liveMin)) := by
  intro visited parts hz
  refine (h hz).mono fun k e hget hq => ?_
  rw [show parts = _ from partition_eq_filter_filter]
  rcases hq with hs | ⟨hk, he⟩ | hle
  · by_cases hn : m + 1 ≤ (shard k).val
    · exact .inl hn
    · have hm' : shard k = ⟨m, hm⟩ := Fin.ext (by dsimp only; omega)
      have hv : (k, e) ∈ visited :=
        mem_filter.2 ⟨HMap.mem_toList.2 hget, decide_eq_true hm'⟩
      by_cases he : e ≤ c.nowMillis
      · refine .inr (.inl ⟨mem_append_right _ ?_, he⟩)
        exact mem_map.2 ⟨(k, e), mem_filter.2 ⟨hv, decide_eq_true he⟩, rfl⟩
      · refine .inr (.inr ((foldl_min_le _ _).2 (k, e) (mem_filter.2 ⟨hv, ?_⟩)))
        simpa using he
  · exact .inr (.inl ⟨mem_append_left _ hk, he⟩)
  · exact .inr (.inr ((foldl_min_le _ _).1.trans hle))

/-- After an entry that has expired is reclaimed, or found to be another. -/
theorem Words.Covers.reclaimed {r now : ℕ} {key : K} {expired : List K} {Q : K → ℕ → Prop}
    (h : w.Covers r fun k e => k ∈ key :: expired ∧ e ≤ now ∨ Q k e)
    (hk : ∀ e, w.entries.get key = some e → ¬e ≤ now) :
    w.Covers r fun k e => k ∈ expired ∧ e ≤ now ∨ Q k e := by
  refine h.mono fun k e hget hq => hq.imp_left fun ⟨hm, he⟩ => ⟨?_, he⟩
  rcases mem_cons.1 hm with rfl | hm
  · exact absurd he (hk e hget)
  · exact hm

section
variable {g : Tracked K n} {lane' : ProcessReplayLane K n} {spurious : Bool}
  (h : exec shard i spurious g.lane pc = some (lane', pc')) (hk : Knows shard i g.words pc)
include h hk

/-- An operation of a call before its write, up to the lock of a prune. -/
theorem moves_admit (hb : Bounded g.words) (hw : pc.writing = false) (hp : pc.pruning = false) :
    Moves shard i g.words (Tracked.mk lane' (track i g.pending pc)).words pc' := by
  cases pc with
  | idle | returned c r => cases h
  | entry c =>
    simp only [exec, ne_eq, ite_not] at h
    split_ifs at h
    split at h
    · split_ifs at h <;> cases h <;> exact hk.outside rfl rfl rfl rfl
    · cases h
      exact hk.outside rfl rfl rfl rfl
  | occupied c existing | full c existing | pruneLoad c =>
    cases h
    split_ifs <;> exact hk.outside rfl rfl rfl rfl
  | refreshBegin c existing | insertBegin c =>
    cases h
    rw [words_activeWriters g.lane _ (fetchAdd g.lane.activeWriters)]
    exact hk.outside rfl rfl rfl rfl
  | reserveLoad c =>
    cases h
    unfold Pc.reserve
    split_ifs <;> exact hk.outside rfl rfl rfl rfl
  | reserveCas c count =>
    simp only [exec, Pc.reserve] at h
    split_ifs at h <;> cases h <;> exact hk.outside rfl rfl rfl rfl
  | dropGuard c e =>
    cases h
    exact hk.outside rfl rfl rfl rfl
  | pruneLock c =>
    simp only [exec, ne_eq, ite_not] at h
    split_ifs at h with hf
    cases h
    exact ⟨.inl (.lock hf), fun _ => rfl, fun _ => .inr (hb.below hf), hk.not_pending rfl,
      noted_of_not_noting rfl, trivial⟩
  | _ => first | (cases hw; done) | cases hp

theorem moves_write (hw : pc.writing = true)
    (hwr : ∀ c e b, pc = .endRevision c e b → g.lane.completedRevisions + 1 < 2 ^ 64) :
    Moves shard i g.words (Tracked.mk lane' (track i g.pending pc)).words pc' := by
  cases pc with
  | refreshInsert c existing =>
    cases h
    exact ⟨.inl (.write c.key _), hk.write rfl rfl c _ true⟩
  | insert c =>
    cases h
    exact ⟨.inl (.write c.key _), hk.write rfl rfl c _ false⟩
  | noteNewest c e b =>
    cases h
    refine ⟨.inl (.note e), hk.next (.note e) rfl rfl hk.pending ?_ rfl⟩
    rintro c' e' b' ⟨⟩
    exact Nat.le_max_right _ _
  | noteEarliest c e b =>
    cases h
    have hst : WordStep i g.words { g.words with
        earliest := min g.words.earliest e
        pending := g.words.pending.advance i c.key .unpublished (some .published) } := by
      refine .publish c.key e (fun hp => ?_) (hk.noted c e b rfl)
      obtain ⟨e', he', hget⟩ := hk.pending _ _ hp
      cases he'
      exact hget
    refine ⟨.inl hst, hk.next hst rfl rfl (fun k phase hp => ?_) (noted_of_not_noting rfl) rfl⟩
    obtain ⟨rfl, heq, hget⟩ := hk.pending_advance rfl hp
    cases heq
    exact ⟨e, rfl, hget⟩
  | endRevision c e b =>
    cases h
    have hnx : fetchAdd g.lane.completedRevisions = g.lane.completedRevisions + 1 :=
      Nat.mod_eq_of_lt (hwr c e b rfl)
    rw [hnx]
    refine ⟨.inl (.revise c.key), hk.next (.revise c.key) rfl rfl (fun k phase hp => ?_)
      (noted_of_not_noting rfl) rfl⟩
    obtain ⟨rfl, heq, hget⟩ := hk.pending_advance rfl hp
    cases heq
    exact ⟨e, rfl, hget⟩
  | endActive c e b =>
    cases h
    have hnx {q : Pc K} (hp : q.pruning = false) (hn : q.noting = false) :
        Knows shard i { g.words with pending := g.words.pending.advance i c.key .revised none } q := by
      refine hk.next (.finish c.key) rfl hp (fun k phase hp => ?_) (noted_of_not_noting hn) rfl
      obtain ⟨-, heq, -⟩ := hk.pending_advance rfl hp
      cases heq
    rw [words_activeWriters g.lane _ (fetchSub g.lane.activeWriters)]
    refine ⟨.inl (.finish c.key), ?_⟩
    split_ifs <;> exact hnx rfl rfl
  | _ => cases hw

/-- An operation of a prune up to the end of its walk over the shards. -/
theorem moves_walk (hp : pc.pruning = true) (hpb : pc.publishing = false) :
    Moves shard i g.words (Tracked.mk lane' (track i g.pending pc)).words pc' := by
  cases pc with
  | pruneRecheck c =>
    cases h
    split_ifs <;> exact hk.within rfl rfl rfl rfl trivial
  | pruneScans c =>
    cases h
    rw [words_pruneScans g.lane _ (fetchAdd g.lane.pruneScans)]
    exact hk.within rfl rfl rfl rfl trivial
  | epochActive c =>
    cases h
    exact hk.within rfl rfl rfl rfl trivial
  | epochCompleted c active =>
    cases h
    refine hk.within rfl rfl rfl rfl fun _ => ⟨Nat.le_refl _, fun _ k e _ => .inr (.inl ?_)⟩
    exact Nat.zero_le _
  | scan c epoch m expired liveMin =>
    simp only [exec, ne_eq, ite_not] at h
    split_ifs at h with hm hgr <;> cases h
    · exact hk.within rfl rfl rfl rfl (hk.stage.scanned hm)
    · refine hk.within rfl rfl rfl rfl fun hz => (hk.stage hz).mono fun k e _ hq => ?_
      exact hq.resolve_left fun hle => hm (Nat.lt_of_le_of_lt hle (shard k).isLt)
  | reclaim c epoch expired liveMin =>
    cases expired with
    | nil =>
      cases h
      refine hk.within rfl rfl rfl rfl fun hz => (hk.stage hz).mono fun k e _ hq => ?_
      exact hq.resolve_left fun hk => not_mem_nil hk.1
    | cons key expired =>
      simp only [exec, ne_eq, ite_not] at h
      split_ifs at h with hgr hold <;> cases h
      · have hst : WordStep i g.words { g.words with entries := g.words.entries.remove key } :=
          .drop key
        refine ⟨.inl hst, fun _ => hk.lock rfl, fun hlc => .inr (hst.below (hk.below rfl hlc)),
          hk.not_pending rfl, noted_of_not_noting rfl, fun hz => ?_⟩
        refine (hst.covers (hk.stage hz) fun _ _ hq => hq).reclaimed fun e hget => ?_
        cases HMap.get_remove.symm.trans hget
      · refine hk.within rfl rfl rfl rfl fun hz => (hk.stage hz).reclaimed fun e hget he => ?_
        refine hold ?_
        rw [show g.lane.entries.get key = some e from hget]
        exact decide_eq_true he
  | subtract c epoch expired liveMin =>
    cases h
    rw [words_entryCount g.lane _ (fetchSub g.lane.entryCount)]
    exact hk.within rfl rfl rfl rfl fun hz => hk.stage hz
  | current c epoch key expired liveMin =>
    simp only [exec, ne_eq, ite_not] at h
    split_ifs at h
    cases h
    refine hk.within rfl rfl rfl rfl fun hz => ?_
    refine (hk.stage hz).mono fun k e _ hq => hq.imp_right fun hle => Nat.le_trans ?_ hle
    cases g.lane.entries.get key with
    | none => exact Nat.le_refl _
    | some e' => exact Nat.min_le_left _ _
  | _ => first | (cases hp; done) | cases hpb

/-- An operation of a prune from the check of its bound on. -/
theorem moves_publish (hpb : pc.publishing = true)
    (hi : g.lane.activeWriters = 0 → ∀ k, g.pending k = none) :
    Moves shard i g.words (Tracked.mk lane' (track i g.pending pc)).words pc' := by
  cases pc with
  | publishActive c epoch liveMin =>
    cases h
    split_ifs with hz
    · exact hk.within rfl rfl rfl rfl ⟨hz, hk.stage hz⟩
    · exact hk.within rfl rfl rfl rfl trivial
  | publishCompleted c epoch liveMin active =>
    cases h
    split_ifs
    · exact hk.within rfl rfl rfl rfl hk.stage
    · exact hk.within rfl rfl rfl rfl trivial
  | publishStore c epoch liveMin =>
    cases h
    exact ⟨.inr ⟨liveMin, hk.lock rfl, rfl⟩, fun _ => hk.lock rfl, fun _ => .inl rfl,
      hk.not_pending rfl, noted_of_not_noting rfl, hk.stage⟩
  | verifyActive c epoch =>
    cases h
    refine hk.quiet rfl (fun _ => hk.lock rfl) (fun _ => .inl rfl) rfl ?_
    obtain ⟨hz, hc⟩ := hk.stage
    refine ⟨hz, fun ha => ⟨hc.1, fun hr k e hget => ?_⟩⟩
    refine (hc.2 hr k e hget).imp_left fun h => ?_
    -- no writer is active, so none is left to complete its revision
    obtain ⟨j, phase, hp, -⟩ := h
    cases (hi ha k).symm.trans hp
  | verifyCompleted c epoch active =>
    cases h
    obtain ⟨hz, ha⟩ := hk.stage
    split_ifs with hep
    · have hzr : active = 0 := (congrArg Prod.fst hep).trans hz
      have hr : g.words.completed = epoch.2 := congrArg Prod.snd hep
      exact hk.quiet rfl (fun _ => hk.lock rfl) (fun _ => .inr ((ha hzr).2 hr)) rfl trivial
    · exact hk.quiet rfl (fun _ => hk.lock rfl) (fun _ => .inl rfl) rfl trivial
  | publishZero c =>
    cases h
    exact ⟨.inr ⟨0, hk.lock rfl, rfl⟩, fun _ => hk.lock rfl,
      fun _ => .inr fun k e _ => .inr (Nat.zero_le _), hk.not_pending rfl,
      noted_of_not_noting rfl, trivial⟩
  | pruneUnlock c =>
    cases h
    have hlc := hk.lock rfl
    refine ⟨.inl (.unlock hlc (hk.below rfl hlc)), fun h => ?_, fun h => ?_, hk.not_pending rfl,
      noted_of_not_noting rfl, trivial⟩ <;> cases h
  | _ => cases hpb

/-- **One operation**: what it does to the words, and what its thread knows after it. -/
theorem knows_step (hb : Bounded g.words)
    (hwr : ∀ c e b, pc = .endRevision c e b → g.lane.completedRevisions + 1 < 2 ^ 64)
    (hi : g.lane.activeWriters = 0 → ∀ k, g.pending k = none) :
    Moves shard i g.words (Tracked.mk lane' (track i g.pending pc)).words pc' := by
  cases hw : pc.writing with
  | true => exact moves_write h hk hw hwr
  | false =>
    cases hp : pc.pruning with
    | false => exact moves_admit h hk hb hw hp
    | true =>
      cases hpb : pc.publishing with
      | false => exact moves_walk h hk hp hpb
      | true => exact moves_publish h hk hpb hi

end

/-! ## Active writers -/

theorem exec_active {g g' : ProcessReplayLane K n} {spurious : Bool}
    (h : exec shard i spurious g pc = some (g', pc')) :
    (pc.writing = false ∧ pc'.writing = true ∧ g'.activeWriters = fetchAdd g.activeWriters ∧
        ((∃ c e, pc = .refreshBegin c e) ∨ ∃ c, pc = .insertBegin c)) ∨
      (pc.writing = true ∧ pc'.writing = false ∧ g'.activeWriters = fetchSub g.activeWriters) ∨
      (pc'.writing = pc.writing ∧ g'.activeWriters = g.activeWriters) := by
  cases pc with
  | refreshBegin c e =>
    cases h
    exact .inl ⟨rfl, rfl, rfl, .inl ⟨c, e, rfl⟩⟩
  | insertBegin c =>
    cases h
    exact .inl ⟨rfl, rfl, rfl, .inr ⟨c, rfl⟩⟩
  | endActive c e b =>
    cases h
    refine .inr (.inl ⟨rfl, ?_, rfl⟩)
    cases b <;> rfl
  | entry c =>
    refine .inr (.inr ?_)
    simp only [exec, ne_eq, ite_not] at h
    split_ifs at h
    split at h
    · split_ifs at h <;> cases h <;> exact ⟨rfl, rfl⟩
    · cases h
      exact ⟨rfl, rfl⟩
  | reclaim c epoch expired liveMin =>
    refine .inr (.inr ?_)
    cases expired with
    | nil =>
      cases h
      exact ⟨rfl, rfl⟩
    | cons key expired =>
      simp only [exec, ne_eq, ite_not] at h
      split_ifs at h <;> cases h <;> exact ⟨rfl, rfl⟩
  | _ =>
    -- the others leave the number of writers as it is
    refine .inr (.inr ?_)
    simp only [exec, Pc.reserve, ne_eq, ite_not, reduceCtorEq] at h
    try split_ifs at h
    all_goals
      cases h
      try split_ifs
      all_goals exact ⟨rfl, rfl⟩

/-- What a thread does: it starts a call, or goes on with one. -/
theorem bound_cases {g g' : Tracked K n} {c : BoundChoice K}
    (h : (boundLane shard).step i g pc c = some (g', pc')) :
    (g' = g ∧ pc.isDone = true ∧ ∃ call, pc' = .entry call) ∨
      ∃ spurious lane', exec shard i spurious g.lane pc = some (lane', pc') ∧
        g' = ⟨lane', track i g.pending pc⟩ := by
  cases c with
  | admitAt retention key maxEntries nowMillis =>
    simp only [boundLane, Option.ite_none_right_eq_some] at h
    obtain ⟨hd, h⟩ := h
    cases h
    exact .inl ⟨rfl, hd, _, rfl⟩
  | go spurious =>
    simp only [boundLane, Option.map_eq_some_iff] at h
    obtain ⟨⟨lane', q⟩, he, heq⟩ := h
    cases heq
    exact .inr ⟨spurious, lane', he, rfl⟩

theorem fetchAdd_eq {m : ℕ} (h : m + 1 < 2 ^ 64) : fetchAdd m = m + 1 := Nat.mod_eq_of_lt h

omit [DecidableEq K] in
theorem isDone_eq (h : pc.isDone = true) :
    pc.writing = false ∧ pc.wrote = none ∧ pc.inWindow = false := by
  cases pc <;> first | exact ⟨rfl, rfl, rfl⟩ | cases h

omit [DecidableEq K] in
theorem writing_of_wrote {x : K × ℕ × WritePhase} (h : pc.wrote = some x) : pc.writing = true := by
  cases pc <;> first | rfl | cases h

variable {s : BoundSys K n}

/-- **In every state reached** the word counts the active writers. -/
theorem active_counts
    (hr : Reach (Pool.step (boundLane shard)) (fun s a => noWrap s a = true) BoundSys.init s) :
    s.Counts Pc.writing s.shared.lane.activeWriters ∧ s.shared.lane.activeWriters < 2 ^ 64 := by
  refine hr.inv (I := fun s => s.Counts Pc.writing s.shared.lane.activeWriters ∧
    s.shared.lane.activeWriters < 2 ^ 64) ⟨Pool.counts_zero fun _ => rfl, Nat.two_pow_pos 64⟩ ?_
  rintro x a y - ⟨hc, hf⟩ hok hst
  rcases Pool.step_some hst with ⟨i, c, pc', rfl, hrn, ht⟩ | ⟨e, -, -, -⟩
  · obtain ⟨m, hm, hsm⟩ := hc.update ht
    suffices hy : y.shared.lane.activeWriters = m ∧ m < 2 ^ 64 by
      rw [hy.1]
      exact ⟨hm, hy.2⟩
    rcases bound_cases hrn with ⟨hg, hd, call, rfl⟩ | ⟨spurious, lane', he, hg⟩
    · rw [(isDone_eq hd).1] at hsm
      have hsm : m = x.shared.lane.activeWriters := hsm
      rw [hg, hsm]
      exact ⟨rfl, hf⟩
    · rw [hg]
      rcases exec_active he with ⟨hold, hn, ha, hb⟩ | ⟨hold, hn, ha⟩ |
        ⟨hs, ha⟩
      · have hrm : x.shared.lane.activeWriters + 1 < 2 ^ 64 := by
          rcases hb with ⟨c, e, hpc⟩ | ⟨c, hpc⟩ <;> simpa [noWrap, hpc] using hok
        rw [hold, hn] at hsm
        have hsm : m = x.shared.lane.activeWriters + 1 := hsm
        rw [ha, fetchAdd_eq hrm, hsm]
        exact ⟨rfl, hrm⟩
      · rw [hold, hn] at hsm
        have hsm : m + 1 = x.shared.lane.activeWriters := hsm
        rw [ha, fetchSub_eq (by omega) hf]
        omega
      · rw [hs] at hsm
        rw [ha]
        omega
  · exact nomatch e

/-! ## Runs -/

/-- **In every state reached** the bounds hold up to what the threads are about to do. -/
theorem bounds_hold
    (hr : Reach (Pool.step (boundLane shard)) (fun s a => noWrap s a = true) BoundSys.init s) :
    Pool.Holds (fun g => Bounded g.words) (fun i g pc => Knows shard i g.words pc) s := by
  refine hr.inv ⟨⟨fun _ => ?_, ?_⟩, fun i => ?_⟩ fun x a y hx hI hok hst => hI.step hst ?_ nofun
  · exact fun k e hget => nomatch hget
  · exact fun k e hget => nomatch hget
  · exact ⟨nofun, nofun, nofun, nofun, trivial⟩
  · rintro i c pc' rfl hrn
    rcases bound_cases hrn with ⟨hg, hd, call, rfl⟩ | ⟨spurious, lane', he, hg⟩
    · rw [hg]
      obtain ⟨-, hw, hwn⟩ := isDone_eq hd
      exact ⟨hI.shared, ((hI.thread i).outside hw hwn rfl rfl).knows, fun j m _ hm => hm⟩
    · have hi (hz : x.shared.lane.activeWriters = 0) (k : K) : x.shared.pending k = none := by
        by_contra hne
        obtain ⟨⟨j, phase⟩, hp⟩ := Option.ne_none_iff_exists'.1 hne
        obtain ⟨e, hw, -⟩ := (hI.thread j).pending k phase hp
        have hc := (active_counts hx).1
        rw [hz] at hc
        exact absurd (writing_of_wrote hw) (by rw [hc.eq_false j]; exact nofun)
      have hwp (c : Call K) (e : ℕ) (b : Bool) (hpc : x.thread i = .endRevision c e b) :
          x.shared.lane.completedRevisions + 1 < 2 ^ 64 := by
        simpa [noWrap, hpc] using hok
      obtain ⟨hwr, hk⟩ := knows_step he (hI.thread i) hI.shared hwp hi
      rw [hg]
      rcases hwr with hsp | ⟨e, hlc, hs⟩
      · exact ⟨hsp.bounded hI.shared, hk, fun j m hj hm => hsp.knows hj hm⟩
      · refine ⟨?_, hk, fun j m hj hm => ?_⟩
        · rw [hs]
          refine ⟨fun h => ?_, hI.shared.above⟩
          cases hlc.symm.trans h
        · rw [hs]
          exact hm.store hlc hj

/-- **The bounds are sound.**  Unless a prune is between the publication of a bound and the end of
    its check, the lower bound is not above the expiry of any marker whose writer has finished, so
    that a prune it holds back would reclaim none of them; the upper bound always holds for them. -/
theorem expiry_bounds_sound
    (hr : Reach (Pool.step (boundLane shard)) (fun s a => noWrap s a = true) BoundSys.init s) :
    ((∀ i, (s.thread i).inWindow = false) → ∀ k e, s.shared.lane.entries.get k = some e →
      s.shared.pending k = none → s.shared.lane.earliestExpiryMillis ≤ e) ∧
    ((∀ i, (s.thread i).inWindow = false) → ∀ i c,
      s.thread i = .pruneLoad c ∨ s.thread i = .pruneRecheck c →
      c.nowMillis < s.shared.lane.earliestExpiryMillis → ∀ k e,
      s.shared.lane.entries.get k = some e → s.shared.pending k = none → ¬ e ≤ c.nowMillis) ∧
    ∀ k e, s.shared.lane.entries.get k = some e → s.shared.pending k = none →
      e ≤ s.shared.lane.newestExpiryMillis := by
  have hh := bounds_hold hr
  have hb (hw : ∀ i, (s.thread i).inWindow = false) : s.shared.words.Below := by
    cases hlc : s.shared.words.lock with
    | none => exact hh.shared.below hlc
    | some i => exact (hh.thread i).below (hw i) hlc
  have hf {k : K} (hp : s.shared.pending k = none) : ¬ s.shared.words.Unpublished k := by
    rintro ⟨i, hi⟩
    cases hp.symm.trans hi
  refine ⟨fun hw k e hget hp => ?_, fun hw i c _ hlt k e hget hp => ?_,
    fun k e hget hp => ?_⟩
  · exact (hb hw k e hget).resolve_left (hf hp)
  · exact Nat.not_le.2 (Nat.lt_of_lt_of_le hlt
      ((hb hw k e hget).resolve_left (hf hp)))
  · exact (hh.shared.above k e hget).resolve_left (hf hp)

end

/-- A call for `key` at `now`, and the operations after it. -/
def callAt (retention now key : ℕ) (cap : UInt64) (gos : ℕ) : List (BoundChoice ℕ) :=
  .admitAt retention key cap now :: replicate gos (.go false)

/-- Marker 0 is written, and pruned for marker 1 when it has expired. -/
def pruneAndWrite : List (BoundAct ℕ) :=
  (callAt 5 0 0 1 9).map (.run 1) ++ (callAt 5 7 1 1 29).map (.run 0)

theorem pruneAndWrite_isSome :
    (Lib.exec (guarded (fun s a => noWrap s a = true) (Pool.step (boundLane oneShard)))
      BoundSys.init pruneAndWrite).isSome := by
  decide +kernel

theorem expiry_bounds_pruneAndWrite :
    ∃ s : BoundSys ℕ 1, s.shared.lane.entries.toList = [(1, 12)] ∧ s.shared.lane.pruneScans = 1 ∧
      s.shared.lane.earliestExpiryMillis ≤ 12 ∧ 12 ≤ s.shared.lane.newestExpiryMillis := by
  obtain ⟨hr, hrs⟩ := Pool.reach_below (fun s a => noWrap s a = true) noWrap 2
    (Option.some_get pruneAndWrite_isSome).symm rfl fun _ _ _ h => h
  obtain ⟨hb, -, ha⟩ := expiry_bounds_sound hr
  refine ⟨_, by decide +kernel, by decide +kernel, hb (fun i => ?_) 1 12 (by decide +kernel)
    (by decide +kernel), ha 1 12 (by decide +kernel) (by decide +kernel)⟩
  match i with
  | 0 => decide +kernel
  | 1 => decide +kernel
  | i + 2 =>
    rw [hrs (i + 2) (by omega)]
    rfl

/-! ## Overflow of the revisions -/

/-- The call that writes the marker 2, and the one that prunes. -/
def rewriteCall : Call ℕ := .admitAt 0 2 1 0
def pruneCall : Call ℕ := { Call.admitAt 0 1 0 0 with pruned := true }

/-- A prune that has seen one revision and no entry is about to publish; marker 2, which has expired,
    is in the map. -/
structure Parked (m : ℕ) (s : BoundSys ℕ 1) : Prop where
  reach : Reach (Pool.step (boundLane oneShard)) anyStep BoundSys.init s
  pruner : s.thread 0 = .publishActive pruneCall (0, 1) u64Max
  writer : (s.thread 1).isDone = true
  others : ∀ i, 2 ≤ i → s.thread i = .idle
  guard : s.shared.lane.guard 0 = none
  entry : s.shared.lane.entries.get 2 = some 0
  count : s.shared.lane.entryCount = 1
  active : s.shared.lane.activeWriters = 0
  completed : s.shared.lane.completedRevisions = m
  finished : s.shared.pending 2 = none

/-- Marker 0 is written and pruned, marker 2 is written. -/
def parkSchedule : List (BoundAct ℕ) :=
  (callAt 0 0 0 1 9).map (.run 1) ++ (callAt 0 0 1 0 14).map (.run 0) ++
    (callAt 0 0 2 1 9).map (.run 1)

theorem parkSchedule_isSome :
    (Lib.exec (guarded (fun _ _ => true = true) (Pool.step (boundLane oneShard))) BoundSys.init
      parkSchedule).isSome := by
  decide +kernel

theorem exists_parked : ∃ s, Parked 2 s := by
  obtain ⟨hr, hrs⟩ := Pool.reach_below anyStep (fun _ _ => true) 2
    (Option.some_get parkSchedule_isSome).symm rfl fun _ _ _ _ => trivial
  exact ⟨_, hr, by decide +kernel, by decide +kernel, hrs, by decide +kernel, by decide +kernel,
    by decide +kernel, by decide +kernel, by decide +kernel, by decide +kernel⟩

/-- The steps of one thread alone. -/
abbrev aloneStep (i : ℕ) (x : Tracked ℕ 1 × Pc ℕ) (c : BoundChoice ℕ) :
    Option (Tracked ℕ 1 × Pc ℕ) :=
  (boundLane oneShard).step i x.1 x.2 c

theorem go_eq {i : ℕ} {g : Tracked ℕ 1} {lane' : ProcessReplayLane ℕ 1} {pc pc' : Pc ℕ}
    (h : exec oneShard i false g.lane pc = some (lane', pc')) :
    aloneStep i (g, pc) (.go false) = some (⟨lane', track i g.pending pc⟩, pc') :=
  congrArg (Option.map _) h

/-- The refresh of marker 2, from the start of its write. -/
theorem refresh_write (g : Tracked ℕ 1) : ∃ p : Pending ℕ, p 2 = none ∧
    Lib.exec (aloneStep 1) (g, .refreshBegin rewriteCall 0) (replicate 7 (.go false)) =
      some (⟨{ g.lane with
        entries := g.lane.entries.insert 2 0
        newestExpiryMillis := max g.lane.newestExpiryMillis 0
        earliestExpiryMillis := min g.lane.earliestExpiryMillis 0
        activeWriters := fetchSub (fetchAdd g.lane.activeWriters)
        completedRevisions := fetchAdd g.lane.completedRevisions
        guard := update g.lane.guard 0 none
        admissions := ⟨rewriteCall, 0, g.lane.clock⟩ :: g.lane.admissions }, p⟩,
        .returned rewriteCall .admitted) :=
  ⟨_, rfl, rfl⟩

/-- **One more refresh**: the revisions go up, and the prune is where it was. -/
theorem Parked.refresh {m : ℕ} {s : BoundSys ℕ 1} (h : Parked m s) :
    ∃ s', Parked (fetchAdd m) s' := by
  have hs : aloneStep 1 (s.shared, s.thread 1) (.admitAt 0 2 1 0) =
      some (s.shared, .entry rewriteCall) := if_pos h.writer
  have hgr : s.shared.lane.guard (oneShard rewriteCall.key) = none := h.guard
  have hget : s.shared.lane.entries.get rewriteCall.key = some 0 := h.entry
  have hr : s.shared.lane.entryCount ≤ rewriteCall.maxEntries.toNat := by
    rw [h.count]
    decide
  have he : exec oneShard 1 false s.shared.lane (.entry rewriteCall) =
      some (s.shared.lane.hold 0 1, .occupied rewriteCall 0) := by
    simp only [exec, hgr, ne_eq, not_true_eq_false, if_false, hget]
    rfl
  have ho : exec oneShard 1 false (s.shared.lane.hold 0 1) (.occupied rewriteCall 0) =
      some (s.shared.lane.hold 0 1, .refreshBegin rewriteCall 0) :=
    congrArg some (congrArg (Prod.mk _) (if_pos hr))
  obtain ⟨p, hf, hw⟩ := refresh_write ⟨s.shared.lane.hold 0 1, s.shared.pending⟩
  have hrn : Lib.exec (aloneStep 1) (s.shared, s.thread 1) (callAt 0 0 2 1 9) = _ :=
    (exec_cons hs _).trans ((exec_cons (go_eq he) _).trans
      ((exec_cons (go_eq ho) _).trans hw))
  have ht (j : ℕ) (hj : j ≠ 1) :
      update s.thread 1 (.returned rewriteCall .admitted) j = s.thread j :=
    update_of_ne hj ..
  refine ⟨_, h.reach.trans (reach_of_exec (Pool.exec_alone hrn)), ?_, ?_, fun i hi => ?_,
    ?_, HMap.get_insert, h.count, ?_, ?_, hf⟩
  · exact (ht 0 (by decide)).trans h.pruner
  · show (update s.thread 1 (.returned rewriteCall .admitted) 1).isDone = true
    rw [update_self]
    rfl
  · exact (ht i (by omega)).trans (h.others i hi)
  · rfl
  · show fetchSub (fetchAdd s.shared.lane.activeWriters) = 0
    rw [h.active]
    rfl
  · show fetchAdd s.shared.lane.completedRevisions = _
    rw [h.completed]

theorem exists_parked_add (k : ℕ) : ∃ s, Parked ((2 + k) % 2 ^ 64) s := by
  induction k with
  | zero => exact exists_parked
  | succ k ih =>
    obtain ⟨s, hs⟩ := ih
    obtain ⟨s', hs'⟩ := hs.refresh
    refine ⟨s', ?_⟩
    have heq : fetchAdd ((2 + k) % 2 ^ 64) = (2 + (k + 1)) % 2 ^ 64 := by
      unfold fetchAdd
      omega
    exact heq ▸ hs'

/-- **With 2^64 revisions within a prune** the epoch comes around, and the bound forgets an expired
    marker whose writer has finished. -/
theorem bound_lost_after_wrap :
    ∃ s : BoundSys ℕ 1, Reach (Pool.step (boundLane oneShard)) anyStep BoundSys.init s ∧
      (∀ i, (s.thread i).inWindow = false) ∧ s.shared.lane.entries.get 2 = some 0 ∧
      s.shared.pending 2 = none ∧ s.shared.lane.earliestExpiryMillis = u64Max := by
  obtain ⟨s, hs⟩ := exists_parked_add (2 ^ 64 - 1)
  have ho : s.shared.lane.completedRevisions = 1 := hs.completed
  have ha : exec oneShard 0 false s.shared.lane (.publishActive pruneCall (0, 1) u64Max) =
      some (s.shared.lane, .publishCompleted pruneCall (0, 1) u64Max 0) := by
    simp only [exec, if_true, hs.active]
  have hc : exec oneShard 0 false s.shared.lane (.publishCompleted pruneCall (0, 1) u64Max 0) =
      some (s.shared.lane, .publishStore pruneCall (0, 1) u64Max) := by
    simp only [exec, ho, if_true]
  generalize hln : { s.shared.lane with earliestExpiryMillis := u64Max } = lane'
  have hst : exec oneShard 0 false s.shared.lane (.publishStore pruneCall (0, 1) u64Max) =
      some (lane', .verifyActive pruneCall (0, 1)) := by
    rw [← hln]
    rfl
  have hv : exec oneShard 0 false lane' (.verifyActive pruneCall (0, 1)) =
      some (lane', .verifyCompleted pruneCall (0, 1) 0) := by
    rw [← hln]
    simp only [exec, hs.active]
  have hp : exec oneShard 0 false lane' (.verifyCompleted pruneCall (0, 1) 0) =
      some (lane', .pruneUnlock pruneCall) := by
    rw [← hln]
    simp only [exec, ho, if_true]
  have hr : Lib.exec (aloneStep 0) (s.shared, s.thread 0) (replicate 5 (.go false)) =
      some (⟨lane', s.shared.pending⟩, .pruneUnlock pruneCall) := by
    rw [hs.pruner]
    exact (exec_cons (go_eq ha) _).trans ((exec_cons (go_eq hc) _).trans
      ((exec_cons (go_eq hst) _).trans ((exec_cons (go_eq hv) _).trans
        (exec_cons (go_eq hp) _))))
  refine ⟨_, hs.reach.trans (reach_of_exec (Pool.exec_alone hr)), fun i => ?_, ?_, hs.finished, ?_⟩
  · show (update s.thread 0 (.pruneUnlock pruneCall) i).inWindow = false
    rcases i with _ | _ | i
    · rw [update_self]
      rfl
    · rw [update_of_ne (by decide)]
      exact (isDone_eq hs.writer).2.2
    · rw [update_of_ne (by omega), hs.others (i + 2) (by omega)]
      rfl
  · rw [← hln]
    exact hs.entry
  · rw [← hln]

end Ferrum.Replay
