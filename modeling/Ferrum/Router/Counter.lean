/-
  The counter of a lookup cache under concurrent insertions, eviction passes and clears.

  Threads change the map of a partition and its counter in separate steps: an insertion counts its
  entry after it is in the map, a pass subtracts what it has removed when it is done, and a clear
  sets the counter from a value it has read before, but not below the size of the map.

  * `insert_alone`, `clear_alone`: a thread that is not disturbed does what `CachePartition` does.
  * `covered_step`: the map and what passes have removed is covered by the counter and what
    insertions have not counted yet; every step keeps this but the last one of a clear while a
    pass is under way.
  * `counter_covers_live`: without such steps the counter never falls below the size of the map.
-/
import Ferrum.Lib.Threads
import Ferrum.Router.Bounded

namespace Ferrum.Router

open Lib

/-! ## The steps -/

/-- The map of a partition and its counter. -/
structure Cells (V : Type) where
  map : HMap Bytes V
  entries : ℕ

inductive CacheThread where
  | idle
  /-- a new key is in the map and not counted -/
  | inserted
  /-- in a pass, with so many entries removed and not subtracted -/
  | evicting (removed : ℕ)
  /-- in a clear, with the counter read -/
  | loaded (cleared : ℕ)
  /-- in a clear, with the map cleared -/
  | cleared (cleared : ℕ)
  deriving DecidableEq, Repr

/-- What a thread begins, the key that a pass removes next, or to go on. -/
inductive CacheChoice (V : Type) where
  | insert (key : Bytes) (entry : V)
  | evictSample
  | clearLookupCaches
  | remove (key : Bytes)
  | go

section
variable {V : Type}

def cacheStep (maxCacheEntries : ℕ) (g : Cells V) :
    CacheThread → CacheChoice V → Option (Cells V × CacheThread)
  | .idle, .insert key entry =>
    some ({ g with map := g.map.insert key entry },
      if (g.map.get key).isNone then .inserted else .idle)
  | .inserted, .go =>
    some ({ g with entries := g.entries + 1 },
      if maxCacheEntries < g.entries + 1 then .evicting 0 else .idle)
  | .idle, .evictSample => some (g, .evicting 0)
  | .evicting removed, .remove key =>
    if (g.map.get key).isSome then
      some ({ g with map := g.map.remove key }, .evicting (removed + 1))
    else some (g, .evicting removed)
  | .evicting removed, .go => some ({ g with entries := g.entries - removed }, .idle)
  | .idle, .clearLookupCaches => some (g, .loaded g.entries)
  | .loaded cleared, .go => some ({ g with map := .empty }, .cleared cleared)
  | .cleared cleared, .go =>
    some ({ g with entries := max (g.entries - cleared) g.map.len }, .idle)
  | _, _ => none

def cacheProgram (V : Type) (maxCacheEntries : ℕ) :
    Program (Cells V) CacheThread (CacheChoice V) Empty where
  step _ := cacheStep maxCacheEntries
  env _ := nofun

/-- All threads over an empty partition. -/
def cacheInit : Pool (Cells V) CacheThread := ⟨⟨.empty, 0⟩, fun _ => .idle⟩

/-! ## One thread alone -/

def CachePartition.cells (p : CachePartition V) : Cells V := ⟨p.map, p.entries⟩

def aloneStep (maxCacheEntries : ℕ) (x : Cells V × CacheThread) (c : CacheChoice V) :
    Option (Cells V × CacheThread) :=
  cacheStep maxCacheEntries x.1 x.2 c

variable {maxCacheEntries : ℕ}

theorem exec_remove (keys : List Bytes) (cs : List (CacheChoice V)) (entries : ℕ)
    (acc : HMap Bytes V × ℕ) :
    exec (aloneStep maxCacheEntries) (⟨acc.1, entries⟩, .evicting acc.2)
        (keys.map .remove ++ cs) =
      let r := keys.foldl (fun (map, removed) key =>
        if (map.get key).isSome then (map.remove key, removed + 1) else (map, removed)) acc
      exec (aloneStep maxCacheEntries) (⟨r.1, entries⟩, .evicting r.2) cs := by
  induction keys generalizing acc with
  | nil => rfl
  | cons key keys ih =>
    obtain ⟨map, removed⟩ := acc
    rw [List.map_cons, List.cons_append, exec, List.foldl_cons]
    simp only [aloneStep, cacheStep]
    split
    · exact ih (map.remove key, removed + 1)
    · exact ih (map, removed)

/-- A pass: its removals, and the subtraction. -/
theorem evict_alone (p : CachePartition V) (s : Sweep) (maxCacheEntries : ℕ) :
    ∃ keys : List Bytes,
      exec (aloneStep maxCacheEntries) (p.cells, .evicting 0) (keys.map .remove ++ [.go]) =
        some ((p.evictSample s maxCacheEntries).cells, .idle) := by
  obtain ⟨keys, hm, hc⟩ := frequencyAwareEvict_removes s p.map p.reservoir maxCacheEntries
    ((p.attempts + 1) % 2 ^ 64)
  refine ⟨keys, (exec_remove keys [.go] p.entries (p.map, 0)).trans ?_⟩
  show some (Cells.mk (removeKeys p.map keys).1 (p.entries - (removeKeys p.map keys).2), _) =
    some (Cells.mk _ (p.evictSample s maxCacheEntries).entries, _)
  rw [CachePartition.evictSample_entries, ← hm, ← hc]
  rfl

/-- **An insertion** that is not disturbed is that of the partition.  It goes on to count a new key,
    and with more entries than allowed to a pass that it ends. -/
theorem insert_alone (p : CachePartition V) (s : Sweep) (key : Bytes) (entry : V) :
    ∃ keys : List Bytes,
      exec (aloneStep maxCacheEntries) (p.cells, .idle) (.insert key entry ::
        if (p.map.get key).isSome then []
        else if maxCacheEntries < p.entries + 1 then .go :: (keys.map .remove ++ [.go])
        else [.go]) =
      some ((p.insert s maxCacheEntries key entry).cells, .idle) := by
  cases hget : p.map.get key with
  | some v =>
    refine ⟨[], ?_⟩
    simp [exec, aloneStep, cacheStep, CachePartition.cells, CachePartition.insert, hget]
  | none =>
    by_cases ho : maxCacheEntries < p.entries + 1
    · obtain ⟨keys, hks⟩ := evict_alone (p.inserted key entry) s maxCacheEntries
      refine ⟨keys, ?_⟩
      rw [CachePartition.insert_eq_evictSample ⟨hget, ho⟩, ← hks]
      simp only [exec, aloneStep, cacheStep, CachePartition.cells, CachePartition.inserted, hget, ho,
        Option.isSome_none, Option.isNone_none, Option.bind_some, Bool.false_eq_true, if_false, if_true]
    · refine ⟨[], ?_⟩
      simp only [exec, aloneStep, cacheStep, CachePartition.cells, CachePartition.insert, hget, ho,
        Option.isSome_none, Option.isNone_none, Option.bind_some, Bool.false_eq_true, if_false, if_true]

/-- **A clear** that is not disturbed is that of the partition. -/
theorem clear_alone (p : CachePartition V) :
    exec (aloneStep maxCacheEntries) (p.cells, .idle) [.clearLookupCaches, .go, .go] =
      some (p.clear.cells, .idle) := rfl

/-! ## Interleavings -/

/-- One, for a thread whose entry is not counted yet. -/
def CacheThread.uncounted : CacheThread → ℕ
  | .inserted => 1
  | _ => 0

/-- What a pass has removed and not subtracted yet. -/
def CacheThread.removed : CacheThread → ℕ
  | .evicting removed => removed
  | _ => 0

/-- A clear sets the counter only when no pass has anything left to subtract. -/
def NoPassPending (x : Pool (Cells V) CacheThread) : PoolAct (CacheChoice V) Empty → Prop
  | .run i _ => ∀ n, x.thread i = .cleared n → ∀ j, (x.thread j).removed = 0
  | .env _ => True

/-- **One step** keeps the map and the removals covered by the counter and the insertions. -/
theorem covered_step {g g' : Cells V} {l l' : CacheThread} {c : CacheChoice V} {a r a' r' : ℕ}
    (h : cacheStep maxCacheEntries g l c = some (g', l')) (hc : g.map.len + r ≤ g.entries + a)
    (hr : ∀ n, l = .cleared n → r = 0) (ha' : a' + l.uncounted = a + l'.uncounted)
    (hr' : r' + l.removed = r + l'.removed) : g'.map.len + r' ≤ g'.entries + a' := by
  cases l with
  | idle =>
    cases c with
    | insert key entry =>
      simp only [cacheStep, Option.some.injEq, Prod.mk.injEq] at h
      obtain ⟨rfl, rfl⟩ := h
      cases hget : g.map.get key with
      | none =>
        have hln := HMap.len_insert_none (v := entry) hget
        simp only [hget, Option.isNone_none, if_true, CacheThread.uncounted,
          CacheThread.removed] at ha' hr' ⊢
        omega
      | some v =>
        have hln := HMap.len_insert_some (v := entry) hget
        simp only [hget, Option.isNone_some, Bool.false_eq_true, if_false, CacheThread.uncounted,
          CacheThread.removed] at ha' hr' ⊢
        omega
    | evictSample =>
      cases h
      simp only [CacheThread.uncounted, CacheThread.removed] at ha' hr'
      omega
    | clearLookupCaches =>
      cases h
      simp only [CacheThread.uncounted, CacheThread.removed] at ha' hr'
      omega
    | remove key => cases h
    | go => cases h
  | inserted =>
    cases c with
    | go =>
      simp only [cacheStep, Option.some.injEq, Prod.mk.injEq] at h
      obtain ⟨rfl, rfl⟩ := h
      split_ifs at ha' hr' <;> simp only [CacheThread.uncounted, CacheThread.removed] at ha' hr' ⊢ <;>
        omega
    | _ => cases h
  | evicting removed =>
    cases c with
    | remove key =>
      simp only [cacheStep] at h
      split at h
      · next hk =>
        cases h
        obtain ⟨v, hv⟩ := Option.isSome_iff_exists.1 hk
        have hln := HMap.len_remove hv
        simp only [CacheThread.uncounted, CacheThread.removed] at ha' hr' ⊢
        omega
      · cases h
        simp only [CacheThread.uncounted, CacheThread.removed] at ha' hr'
        omega
    | go =>
      -- the subtraction stops at zero, above what it should give
      cases h
      simp only [CacheThread.uncounted, CacheThread.removed] at ha' hr' ⊢
      omega
    | _ => cases h
  | loaded cleared =>
    cases c with
    | go =>
      cases h
      have hln : (HMap.empty : HMap Bytes V).len = 0 := rfl
      simp only [CacheThread.uncounted, CacheThread.removed, hln] at ha' hr' ⊢
      omega
    | _ => cases h
  | cleared cleared =>
    cases c with
    | go =>
      -- the map is covered by the lower limit, and nothing is left to be subtracted
      cases h
      have hz := hr cleared rfl
      simp only [CacheThread.uncounted, CacheThread.removed] at ha' hr' ⊢
      omega
    | _ => cases h

/-- What the counter covers. -/
def Covered (x : Pool (Cells V) CacheThread) : Prop :=
  ∃ a r, x.Sums CacheThread.uncounted a ∧ x.Sums CacheThread.removed r ∧
    x.shared.map.len + r ≤ x.shared.entries + a

theorem covered_of_reach {x : Pool (Cells V) CacheThread}
    (hr : Reach (Pool.step (cacheProgram V maxCacheEntries)) NoPassPending cacheInit x) :
    Covered x := by
  refine hr.inv (I := Covered) ?_ ?_
  · exact ⟨0, 0, Pool.sums_zero fun _ => rfl, Pool.sums_zero fun _ => rfl, Nat.le_refl _⟩
  · rintro x act y - ⟨a, r, ha, hr, hc⟩ hok hst
    rcases Pool.step_some hst with ⟨i, c, l', rfl, hs, ht⟩ | ⟨e, -, -, -⟩
    · obtain ⟨a', hsm, ha'⟩ := ha.update ht
      obtain ⟨r', hsm', hr'⟩ := hr.update ht
      refine ⟨a', r', hsm, hsm', covered_step hs hc (fun n hn => ?_) ha' hr'⟩
      exact hr.eq_zero (hok n hn)
    · exact nomatch e

/-- **The counter covers the map.**  Whenever no insertion is between the map and the counter, the
    counter is not below the size of the map, if no clear sets the counter while a pass has
    removed entries that it has not subtracted. -/
theorem counter_covers_live {x : Pool (Cells V) CacheThread}
    (hr : Reach (Pool.step (cacheProgram V maxCacheEntries)) NoPassPending cacheInit x)
    (hcounted : ∀ i, x.thread i ≠ .inserted) : x.shared.map.len ≤ x.shared.entries := by
  obtain ⟨a, r, ha, -, hc⟩ := covered_of_reach hr
  have hz : a = 0 := by
    refine ha.eq_zero fun i => ?_
    have := hcounted i
    cases hi : x.thread i <;> simp_all [CacheThread.uncounted]
  omega

end

/-- `NoPassPending`, looking at the first two threads only. -/
def noPassPending {V : Type} (x : Pool (Cells V) CacheThread) :
    PoolAct (CacheChoice V) Empty → Bool
  | .run i _ => match x.thread i with
    | .cleared _ => (x.thread 0).removed = 0 ∧ (x.thread 1).removed = 0
    | _ => true
  | .env _ => true

theorem noPassPending_sound {V : Type} (x : Pool (Cells V) CacheThread)
    (a : PoolAct (CacheChoice V) Empty) (hr : ∀ j, 2 ≤ j → x.thread j = .idle)
    (h : noPassPending x a = true) : NoPassPending x a := by
  cases a with
  | env e => trivial
  | run i c =>
    intro n hn j
    simp only [noPassPending, hn, decide_eq_true_eq] at h
    match j with
    | 0 => exact h.1
    | 1 => exact h.2
    | j + 2 =>
      rw [hr (j + 2) (by omega)]
      rfl

/-- An insertion, and another one between the steps of a clear. -/
def insertInClear : List (PoolAct (CacheChoice Unit) Empty) :=
  [.run 0 (.insert [0x61] ()), .run 0 .go, .run 1 .clearLookupCaches, .run 1 .go,
    .run 0 (.insert [0x62] ()), .run 0 .go, .run 1 .go]

theorem insertInClear_isSome :
    (exec (guarded (fun x a => noPassPending x a = true) (Pool.step (cacheProgram Unit 1000)))
      cacheInit insertInClear).isSome := by
  decide +kernel

theorem counter_covers_insertInClear :
    ∃ x : Pool (Cells Unit) CacheThread, x.shared.entries = 1 ∧ x.shared.map.len = 1 ∧
      x.shared.map.len ≤ x.shared.entries := by
  obtain ⟨hr, hrs⟩ := Pool.reach_below NoPassPending noPassPending 2
    (Option.some_get insertInClear_isSome).symm rfl noPassPending_sound
  refine ⟨_, by decide +kernel, by decide +kernel, counter_covers_live hr fun i => ?_⟩
  match i with
  | 0 => decide +kernel
  | 1 => decide +kernel
  | i + 2 =>
    rw [hrs (i + 2) (by omega)]
    exact nofun

/-- Five insertions, the last one with a pass that removes an entry; a clear; another insertion;
    and the subtraction of the pass. -/
def evictAcrossClear : List (PoolAct (CacheChoice Unit) Empty) :=
  ([[0x61], [0x62], [0x63], [0x64], [0x65]].flatMap fun key =>
      [.run 0 (.insert key ()), .run 0 .go]) ++
    [.run 0 (.remove [0x61]),
      .run 1 .clearLookupCaches, .run 1 .go, .run 1 .go,
      .run 1 (.insert [0x66] ()), .run 1 .go,
      .run 0 .go]

theorem evictAcrossClear_isSome :
    (exec (guarded (fun _ _ => true = true) (Pool.step (cacheProgram Unit 4))) cacheInit
      evictAcrossClear).isSome := by
  decide +kernel

/-- **A clear within a pass.**  The counter is left at zero with an entry in the map. -/
theorem evict_across_clear_uncovered :
    ∃ x : Pool (Cells Unit) CacheThread,
      Reach (Pool.step (cacheProgram Unit 4)) anyStep cacheInit x ∧
      (∀ i, x.thread i = .idle) ∧ x.shared.entries = 0 ∧ x.shared.map.len = 1 := by
  obtain ⟨hr, hrs⟩ := Pool.reach_below anyStep (fun _ _ => true) 2
    (Option.some_get evictAcrossClear_isSome).symm rfl fun _ _ _ _ => trivial
  refine ⟨_, hr, fun i => ?_, by decide +kernel, by decide +kernel⟩
  match i with
  | 0 => decide +kernel
  | 1 => decide +kernel
  | i + 2 => exact hrs (i + 2) (by omega)

end Ferrum.Router
