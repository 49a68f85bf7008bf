/-
  Maps whose entries count their holders.

  The first holder of a key makes its entry and the last one removes it, each under the lock of the
  map.

  * `CountStep`: what a step does to the map and to what the thread that takes it holds.
  * `Tallied`: every entry counts the threads that hold its key, and only held keys have one.
  * `Tallied.step`: steps keep this.
  * `Arc`: a value and the number of handles to it, which is bounded.
-/
import Ferrum.Lib.HashMap
import Ferrum.Lib.Threads

namespace Ferrum.Lib

variable {G L K V : Type*} [DecidableEq K]

/-- A step on the map `m`, by a thread that holds a key before it or after it. -/
inductive CountStep (count : V → ℕ) (m : HMap K V) : HMap K V → Option K → Option K → Prop
  | keep (held : Option K) : CountStep count m m held held
  | take {k : K} {v : V} (h : count v = (m.get k).elim 0 count + 1) :
    CountStep count m (m.insert k v) none (some k)
  | leave {k : K} {v v' : V} (hget : m.get k = some v) (h : count v = count v' + 1)
    (hpos : 0 < count v') : CountStep count m (m.insert k v') (some k) none
  | last {k : K} {v : V} (hget : m.get k = some v) (h : count v = 1) :
    CountStep count m (m.remove k) (some k) none

/-- So many hold the key: what its entry counts, if there is one. -/
def tally (n : ℕ) : Option ℕ := if n = 0 then none else some n

theorem tally_pos {n : ℕ} (h : 0 < n) : tally n = some n := if_neg (by omega)

@[simp] theorem tally_eq_none {n : ℕ} : tally n = none ↔ n = 0 := by simp [tally]

theorem tally_eq_some {n c : ℕ} (h : tally n = some c) : c = n ∧ 0 < n := by
  rcases Nat.eq_zero_or_pos n with rfl | hn
  · cases h
  · rw [tally_pos hn, Option.some.injEq] at h
    exact ⟨h.symm, hn⟩

theorem elim_of_tally {o : Option V} {count : V → ℕ} {n : ℕ} (h : o.map count = tally n) :
    o.elim 0 count = n := by
  cases o with
  | none => exact (tally_eq_none.1 h.symm).symm
  | some v => exact (tally_eq_some h.symm).1

/-- The entries of `m` count the threads that hold their keys. -/
def Tallied (count : V → ℕ) (holds : L → Option K) (m : HMap K V) (s : Pool G L) : Prop :=
  ∀ k, ∃ n, s.Counts (fun l => decide (holds l = some k)) n ∧ (m.get k).map count = tally n

section
variable {count : V → ℕ} {holds : L → Option K} {m m' : HMap K V} {s s' : Pool G L} {i : ℕ}

theorem tallied_empty (h : ∀ i, holds (s.thread i) = none) : Tallied count holds .empty s :=
  fun _ => ⟨0, Pool.counts_zero fun i => by simp [h i], by simp [tally]⟩

theorem Tallied.held (h : Tallied count holds m s) {k : K} (hk : holds (s.thread i) = some k) :
    ∃ v, m.get k = some v ∧ 0 < count v := by
  obtain ⟨n, hn, hm⟩ := h k
  rcases Nat.eq_zero_or_pos n with rfl | hpos
  · have := hn.eq_false i
    simp [hk] at this
  · rw [tally_pos hpos, Option.map_eq_some_iff] at hm
    obtain ⟨v, hv, rfl⟩ := hm
    exact ⟨v, hv, hpos⟩

theorem Tallied.pos (h : Tallied count holds m s) {k : K} {v : V} (hget : m.get k = some v) :
    0 < count v := by
  obtain ⟨n, -, hm⟩ := h k
  rw [hget, Option.map_some] at hm
  obtain ⟨hc, hn⟩ := tally_eq_some hm.symm
  omega

/-- **Steps keep the tally.** -/
theorem Tallied.step (h : Tallied count holds m s) {l' : L}
    (ht : s'.thread = Function.update s.thread i l')
    (hst : CountStep count m m' (holds (s.thread i)) (holds l')) : Tallied count holds m' s' := by
  intro k
  obtain ⟨n, hn, hm⟩ := h k
  obtain ⟨n', hn', hs⟩ := hn.update ht
  refine ⟨n', hn', ?_⟩
  generalize holds (s.thread i) = held at hst hs
  generalize holds l' = held' at hst hs
  cases hst with
  | keep =>
    have : n' = n := by omega
    rw [this, hm]
  | @take k₀ v hv =>
    rw [HMap.get_insert_eq]
    by_cases hk : k = k₀
    · subst hk
      rw [elim_of_tally hm] at hv
      have : n' = n + 1 := by simpa using hs
      rw [if_pos rfl, Option.map_some, hv, this, tally_pos (Nat.succ_pos n)]
    · have : n' = n := by simpa [Ne.symm hk] using hs
      rw [if_neg hk, hm, this]
  | @leave k₀ v v' hget hv hpos =>
    rw [HMap.get_insert_eq]
    by_cases hk : k = k₀
    · subst hk
      rw [hget, Option.map_some] at hm
      obtain ⟨hc, -⟩ := tally_eq_some hm.symm
      have : n' + 1 = n := by simpa using hs
      rw [if_pos rfl, Option.map_some, tally_pos (by omega)]
      congr 1
      omega
    · have : n' = n := by simpa [Ne.symm hk] using hs
      rw [if_neg hk, hm, this]
  | @last k₀ v hget hv =>
    rw [HMap.get_remove_eq]
    by_cases hk : k = k₀
    · subst hk
      rw [hget, Option.map_some] at hm
      obtain ⟨hc, -⟩ := tally_eq_some hm.symm
      have : n' + 1 = n := by simpa using hs
      rw [if_pos rfl, Option.map_none, eq_comm, tally_eq_none]
      omega
    · have : n' = n := by simpa [Ne.symm hk] using hs
      rw [if_neg hk, hm, this]

end

/-! ## Handles -/

def isizeMax : ℕ := 2 ^ 63 - 1

/-- A value and the number of handles to it. -/
structure Arc (α : Type*) where
  strong : ℕ
  value : α
  deriving DecidableEq, Repr

namespace Arc
variable {α : Type*}

def new (value : α) : Arc α := ⟨1, value⟩

/-- `Arc::clone`, which aborts the process when there are too many handles. -/
def clone (a : Arc α) : Option (Arc α) :=
  if a.strong > isizeMax then none else some { a with strong := a.strong + 1 }

theorem clone_eq_some {a a' : Arc α} (h : a.clone = some a') :
    a.strong ≤ isizeMax ∧ a' = ⟨a.strong + 1, a.value⟩ := by
  unfold clone at h
  split_ifs at h with hle
  cases h
  exact ⟨not_lt.1 hle, rfl⟩

end Arc

end Ferrum.Lib
