/-
  Threads over a shared state, interleaved at atomic steps.

  * `Pool`: the shared state and the local state of every thread.
  * `Pool.step`: one atomic step of one thread, or of the environment.
  * `Pool.inv`: an invariant of the shared state together with an assertion for every thread
    holds in every state reached, if each step keeps the invariant, establishes the assertion of
    the thread that takes it, and keeps the assertions of all others.
  * `Pool.owed`: whatever is left to be done is left to some thread.
  * `Pool.Counts`: how many threads are at a point of their program.
  * `Pool.Sums`: what the threads hold, added up.
-/
import Ferrum.Lib.Runs
import Mathlib.Algebra.BigOperators.Group.Finset.Piecewise

namespace Ferrum.Lib

open Function Finset

variable {G L C E : Type*}

/-- A shared state and the local states of the threads. -/
structure Pool (G L : Type*) where
  shared : G
  thread : ℕ → L

/-- Thread `i` takes a step, resolving its choices by `c`; or the environment takes one. -/
inductive PoolAct (C E : Type*) where
  | run (i : ℕ) (c : C)
  | env (e : E)
  deriving DecidableEq, Repr

/-- The programs: a step of a thread, and of the environment. -/
structure Program (G L C E : Type*) where
  step : ℕ → G → L → C → Option (G × L)
  env : G → E → Option G

namespace Pool
variable (prog : Program G L C E)

def step (s : Pool G L) : PoolAct C E → Option (Pool G L)
  | .run i c => (prog.step i s.shared (s.thread i) c).map fun r =>
      ⟨r.1, update s.thread i r.2⟩
  | .env e => (prog.env s.shared e).map fun g => ⟨g, s.thread⟩

variable {prog}

variable {a : PoolAct C E} {s s' s₀ t : Pool G L} {I : G → Prop} {P : ℕ → G → L → Prop}
  {ok : Pool G L → PoolAct C E → Prop} {p : L → Bool} {i m : ℕ} {l' : L} {f : L → ℕ}
  {as : List (PoolAct C E)}

theorem step_some (h : s.step prog a = some s') :
    (∃ i c l', a = .run i c ∧ prog.step i s.shared (s.thread i) c = some (s'.shared, l') ∧
        s'.thread = update s.thread i l') ∨
      ∃ e, a = .env e ∧ prog.env s.shared e = some s'.shared ∧ s'.thread = s.thread := by
  cases a with
  | run i c =>
    simp only [step, Option.map_eq_some_iff] at h
    obtain ⟨⟨g, l⟩, hst, rfl⟩ := h
    exact Or.inl ⟨i, c, l, rfl, hst, rfl⟩
  | env e =>
    simp only [step, Option.map_eq_some_iff] at h
    obtain ⟨g, hst, rfl⟩ := h
    exact Or.inr ⟨e, rfl, hst, rfl⟩

/-- An invariant `I` of the shared state and an assertion `P i` of every thread. -/
structure Holds (I : G → Prop) (P : ℕ → G → L → Prop) (s : Pool G L) : Prop where
  shared : I s.shared
  thread : ∀ i, P i s.shared (s.thread i)

/-- One step keeps an invariant with assertions. -/
theorem Holds.step (h : Holds I P s) (hs : s.step prog a = some s')
    (hr : ∀ i c l', a = .run i c → prog.step i s.shared (s.thread i) c = some (s'.shared, l') →
      I s'.shared ∧ P i s'.shared l' ∧ ∀ j m, j ≠ i → P j s.shared m → P j s'.shared m)
    (he : ∀ e, a = .env e → prog.env s.shared e = some s'.shared →
      I s'.shared ∧ ∀ j m, P j s.shared m → P j s'.shared m) : Holds I P s' := by
  rcases step_some hs with ⟨i, c, l', ha, hst, ht⟩ | ⟨e, ha, hst, ht⟩
  · obtain ⟨hI, hi, hj⟩ := hr i c l' ha hst
    refine ⟨hI, fun j => ?_⟩
    rw [ht]
    by_cases hji : j = i
    · subst hji; rwa [update_self]
    · rw [update_of_ne hji]; exact hj j _ hji (h.thread j)
  · obtain ⟨hI, hj⟩ := he e ha hst
    refine ⟨hI, fun j => ?_⟩
    rw [ht]; exact hj j _ (h.thread j)

/-- **Invariants with assertions**, in every state reached by steps that satisfy `ok`. -/
theorem inv (hr : Reach (Pool.step prog) ok s₀ s) (h₀ : Holds I P s₀)
    (hrn : ∀ x i c g' l', Reach (Pool.step prog) ok s₀ x → ok x (.run i c) →
      I x.shared → P i x.shared (x.thread i) →
      prog.step i x.shared (x.thread i) c = some (g', l') →
      I g' ∧ P i g' l' ∧ ∀ j m, j ≠ i → P j x.shared m → P j g' m)
    (he : ∀ x e g', ok x (.env e) → I x.shared → prog.env x.shared e = some g' →
      I g' ∧ ∀ j m, P j x.shared m → P j g' m) : Holds I P s := by
  refine hr.inv h₀ fun x a y hx hI hok hst => hI.step hst ?_ ?_
  · rintro i c l' rfl hst'
    exact hrn x i c _ l' hx hok hI.shared (hI.thread i) hst'
  · rintro e rfl hst'
    exact he x e _ hok hI.shared hst'

/-- **Debts.**  If after every step a debt is owed by the thread that took it, or was there before
    and not owed by that thread, then in every state reached each debt is owed by a thread. -/
theorem owed {X : Type*} {debt : X → G → Prop} {owes : X → L → Prop}
    (hr : Reach (Pool.step prog) ok s₀ s) (h₀ : ∀ d, ¬ debt d s₀.shared)
    (hrn : ∀ x i c g' l', Reach (Pool.step prog) ok s₀ x → ok x (.run i c) →
      prog.step i x.shared (x.thread i) c = some (g', l') →
      ∀ d, debt d g' → owes d l' ∨ debt d x.shared ∧ ¬ owes d (x.thread i))
    (he : ∀ g e g', prog.env g e = some g' → ∀ d, debt d g' → debt d g) :
    ∀ d, debt d s.shared → ∃ i, owes d (s.thread i) := by
  refine hr.inv (I := fun s => ∀ d, debt d s.shared → ∃ i, owes d (s.thread i))
    (fun d hd => absurd hd (h₀ d)) fun x a y hx hI hok hst d hd => ?_
  rcases step_some hst with ⟨i, c, l', rfl, hst', ht⟩ | ⟨e, rfl, hst', ht⟩
  · rcases hrn x i c _ l' hx hok hst' d hd with h | ⟨h, hn⟩
    · exact ⟨i, by rw [ht, update_self]; exact h⟩
    · obtain ⟨j, hj⟩ := hI d h
      have hji : j ≠ i := by rintro rfl; exact hn hj
      exact ⟨j, by rw [ht, update_of_ne hji]; exact hj⟩
  · obtain ⟨j, hj⟩ := hI d (he _ e _ hst' d hd)
    exact ⟨j, by rw [ht]; exact hj⟩

/-- Exactly `m` threads satisfy `p`. -/
def Counts (s : Pool G L) (p : L → Bool) (m : ℕ) : Prop :=
  ∃ ts : Finset ℕ, (∀ i, i ∈ ts ↔ p (s.thread i) = true) ∧ ts.card = m

theorem counts_zero (h : ∀ i, p (s.thread i) = false) : s.Counts p 0 :=
  ⟨∅, fun i => by simp [h i], rfl⟩

theorem Counts.eq_false (h : s.Counts p 0) (i : ℕ) : p (s.thread i) = false := by
  obtain ⟨ts, hts, hc⟩ := h
  rw [card_eq_zero] at hc
  by_contra hp
  have := (hts i).2 (by simpa using hp)
  simp [hc] at this

/-- The count after a step of thread `i`. -/
theorem Counts.update (h : s.Counts p m) (ht : s'.thread = update s.thread i l') :
    ∃ m', s'.Counts p m' ∧ m' + (p (s.thread i)).toNat = m + (p l').toNat := by
  obtain ⟨ts, hts, rfl⟩ := h
  have hm (j : ℕ) : p (s'.thread j) = true ↔ if j = i then p l' = true else j ∈ ts := by
    rw [ht, update_apply, hts]
    split_ifs <;> rfl
  cases hold : p (s.thread i) <;> cases hn : p l'
  · refine ⟨_, ⟨ts, fun j => ?_, rfl⟩, rfl⟩
    rw [hm]
    split_ifs with hj
    · simp [hj, hts, hold, hn]
    · rfl
  · have hnt : i ∉ ts := by simp [hts, hold]
    refine ⟨_, ⟨insert i ts, fun j => ?_, rfl⟩, ?_⟩
    · rw [hm, mem_insert]
      split_ifs with hj <;> simp [hj, hn]
    · rw [card_insert_of_notMem hnt]
      rfl
  · have hin : i ∈ ts := (hts i).2 hold
    refine ⟨_, ⟨ts.erase i, fun j => ?_, rfl⟩, ?_⟩
    · rw [hm, mem_erase]
      split_ifs with hj <;> simp [hj, hn]
    · exact card_erase_add_one hin
  · refine ⟨_, ⟨ts, fun j => ?_, rfl⟩, rfl⟩
    rw [hm]
    split_ifs with hj
    · simp [hj, hts, hold, hn]
    · rfl

/-- The threads hold `m` in all, by `f`. -/
def Sums (s : Pool G L) (f : L → ℕ) (m : ℕ) : Prop :=
  ∃ ts : Finset ℕ, (∀ i, i ∉ ts → f (s.thread i) = 0) ∧ ∑ i ∈ ts, f (s.thread i) = m

theorem sums_zero (h : ∀ i, f (s.thread i) = 0) : s.Sums f 0 :=
  ⟨∅, fun i _ => h i, rfl⟩

theorem Sums.eq_zero (h : s.Sums f m) (hz : ∀ i, f (s.thread i) = 0) : m = 0 := by
  obtain ⟨ts, -, rfl⟩ := h
  exact sum_eq_zero fun i _ => hz i

/-- The sum after a step of thread `i`. -/
theorem Sums.update (h : s.Sums f m) (ht : s'.thread = update s.thread i l') :
    ∃ m', s'.Sums f m' ∧ m' + f (s.thread i) = m + f l' := by
  obtain ⟨ts, hts, rfl⟩ := h
  refine ⟨_, ⟨insert i ts, fun j hj => ?_, rfl⟩, ?_⟩
  · rw [mem_insert, not_or] at hj
    rw [ht, update_of_ne hj.1, hts j hj.2]
  · have hr : ∑ j ∈ (insert i ts).erase i, f (s'.thread j) =
        ∑ j ∈ (insert i ts).erase i, f (s.thread j) := by
      refine sum_congr rfl fun j hj => ?_
      rw [ht, update_of_ne (ne_of_mem_erase hj)]
    have hold : ∑ j ∈ ts, f (s.thread j) = ∑ j ∈ insert i ts, f (s.thread j) :=
      sum_subset (subset_insert i ts) fun j _ hj => hts j hj
    have hi : i ∈ insert i ts := mem_insert_self i ts
    rw [hold, ← sum_erase_add _ _ hi, ← sum_erase_add (insert i ts) _ hi, hr, ht, update_self]
    omega

/-- A schedule leaves alone the threads it does not name. -/
theorem thread_exec [∀ s a, Decidable (ok s a)]
    (h : exec (guarded ok (Pool.step prog)) s as = some t) (hi : ∀ a ∈ as, ∀ c, a ≠ .run i c) :
    t.thread i = s.thread i := by
  induction as generalizing s with
  | nil => cases h; rfl
  | cons a as ih =>
    simp only [exec, Option.bind_eq_some_iff, guarded, Option.ite_none_right_eq_some] at h
    obtain ⟨u, ⟨-, hu⟩, h⟩ := h
    rw [ih h fun b hb => hi b (List.mem_cons_of_mem a hb)]
    rcases step_some hu with ⟨j, c, l', rfl, -, ht⟩ | ⟨e, -, -, ht⟩
    · have hij : i ≠ j := fun h => hi _ (List.mem_cons_self ..) c (h ▸ rfl)
      rw [ht, update_of_ne hij]
    · rw [ht]

theorem exec_alone {cs : List C} {g' : G}
    (h : exec (fun x c => prog.step i x.1 x.2 c) (s.shared, s.thread i) cs = some (g', l')) :
    exec (Pool.step prog) s (cs.map (.run i)) = some ⟨g', update s.thread i l'⟩ := by
  induction cs generalizing s with
  | nil =>
    cases h
    rw [update_eq_self]
    rfl
  | cons c cs ih =>
    simp only [exec, Option.bind_eq_some_iff] at h
    obtain ⟨⟨g, l⟩, hst, h⟩ := h
    have hs : s.step prog (.run i c) = some ⟨g, update s.thread i l⟩ := by
      rw [step, hst]
      rfl
    have hr := @ih ⟨g, update s.thread i l⟩ (by dsimp only; rwa [update_self])
    rw [update_idem] at hr
    rw [List.map_cons, exec, hs]
    exact hr

/-- A step of one of the first `N` threads, or of the environment. -/
def below (N : ℕ) : PoolAct C E → Bool
  | .run i _ => i < N
  | .env _ => true

theorem thread_below {N j : ℕ} (h : s.step prog a = some s') (ha : below N a = true) (hj : N ≤ j) :
    s'.thread j = s.thread j := by
  rcases step_some h with ⟨i, c, l', rfl, -, ht⟩ | ⟨e, -, -, ht⟩
  · have hij : j ≠ i := by
      simp only [below, decide_eq_true_eq] at ha
      omega
    rw [ht, update_of_ne hij]
  · rw [ht]

/-- A schedule of the first `N` threads meets a condition on all of them, if it meets it where the
    others are as at the start. -/
theorem reach_below (ok : Pool G L → PoolAct C E → Prop) (test : Pool G L → PoolAct C E → Bool)
    (N : ℕ) (h : exec (guarded (fun x a => test x a = true) (Pool.step prog)) s as = some t)
    (hN : as.all (below N) = true)
    (hok : ∀ x a, (∀ j, N ≤ j → x.thread j = s.thread j) → test x a = true → ok x a) :
    Reach (Pool.step prog) ok s t ∧ ∀ j, N ≤ j → t.thread j = s.thread j := by
  have key : ∀ (as : List (PoolAct C E)) (x : Pool G L), Reach (Pool.step prog) ok s x →
      (∀ j, N ≤ j → x.thread j = s.thread j) → as.all (below N) = true →
      exec (guarded (fun x a => test x a = true) (Pool.step prog)) x as = some t →
      Reach (Pool.step prog) ok s t ∧ ∀ j, N ≤ j → t.thread j = s.thread j := by
    intro as
    induction as with
    | nil =>
      intro x hx hr _ h
      cases h
      exact ⟨hx, hr⟩
    | cons a as ih =>
      intro x hx hr hN h
      rw [List.all_cons, Bool.and_eq_true] at hN
      simp only [exec, guarded, Option.bind_eq_some_iff, Option.ite_none_right_eq_some] at h
      obtain ⟨y, ⟨ht, hy⟩, h⟩ := h
      exact ih y (hx.tail a (hok x a hr ht) hy)
        (fun j hj => (thread_below hy hN.1 hj).trans (hr j hj)) hN.2 h
  exact key as s .refl (fun _ _ => rfl) hN h

end Pool

/-- What the environment does to the clocks: the monotonic one advances, the wall clock is set. -/
inductive ClockAct where
  | advance (ms : ℕ)
  | setWall (epochMs : ℕ)
  deriving DecidableEq, Repr

end Ferrum.Lib
