/-
  Hash maps: association lists with distinct keys.

  The order of the entries is one order of iteration, which the program must not depend on.
-/
import Mathlib.Data.Finset.Card
import Mathlib.Data.List.AList

namespace Ferrum.Lib

open List

/-- A hash map from `K` to `V`. -/
abbrev HMap (K V : Type*) := AList (fun _ : K => V)

namespace HMap
variable {K V W : Type*}

/-- The entries, in one order of iteration. -/
def toList (m : HMap K V) : List (K × V) := m.entries.map fun e => (e.1, e.2)

def len (m : HMap K V) : ℕ := m.entries.length

def isEmpty (m : HMap K V) : Bool := m.entries.isEmpty

def empty : HMap K V := (∅ : AList (fun _ : K => V))

/-- Keep the entries that satisfy `p`. -/
def retain (p : K → V → Bool) (m : HMap K V) : HMap K V :=
  ⟨m.entries.filter fun e => p e.1 e.2, m.nodupKeys.sublist List.filter_sublist⟩

theorem len_retain_le {m : HMap K V} {p : K → V → Bool} : (m.retain p).len ≤ m.len :=
  length_filter_le _ _

theorem len_eq_keys (m : HMap K V) : m.len = (AList.keys m).length :=
  (length_map Sigma.fst).symm

theorem length_toList {m : HMap K V} : m.toList.length = m.len := length_map _

theorem nodup_toList_fst {m : HMap K V} : (m.toList.map Prod.fst).Nodup := by
  rw [toList, map_map]
  exact AList.keys_nodup m

section
variable [DecidableEq K]

/-- Maps with the same entries, in the same order. -/
instance [DecidableEq V] : DecidableEq (HMap K V) := fun m n =>
  decidable_of_iff (m.entries = n.entries) AList.ext_iff.symm

def get (m : HMap K V) (k : K) : Option V := AList.lookup k m

def insert (m : HMap K V) (k : K) (v : V) : HMap K V := AList.insert k v m

def remove (m : HMap K V) (k : K) : HMap K V := AList.erase k m

/-- `entry(k).or_default().push(v)` on a map of lists. -/
def push (m : HMap K (List V)) (k : K) (v : V) : HMap K (List V) :=
  m.insert k ((m.get k).getD [] ++ [v])

/-- `entry(k).or_insert(v)`. -/
def orInsert (m : HMap K V) (k : K) (v : V) : HMap K V :=
  if (m.get k).isSome then m else m.insert k v

/-- Apply `f` to the values. -/
def mapVal (f : K → V → W) (m : HMap K V) : HMap K W :=
  ⟨m.entries.map fun e => ⟨e.1, f e.1 e.2⟩, List.NodupKeys.map₂ f m.entries m.nodupKeys⟩

variable {m : HMap K V} {k k' : K} {v : V}

@[simp] theorem get_empty : (empty : HMap K V).get k = none := AList.lookup_empty k

theorem get_of_isEmpty (h : m.isEmpty = true) : m.get k = none := by
  rw [isEmpty, List.isEmpty_iff] at h
  rw [get, AList.lookup, h]
  rfl

@[simp] theorem get_insert : (m.insert k v).get k = some v := AList.lookup_insert m

theorem get_insert_ne (h : k' ≠ k) : (m.insert k v).get k' = m.get k' := AList.lookup_insert_ne h

@[simp] theorem get_remove : (m.remove k).get k = none := AList.lookup_erase k m

theorem get_remove_ne (h : k' ≠ k) : (m.remove k).get k' = m.get k' := AList.lookup_erase_ne h

theorem mem_toList : (k, v) ∈ m.toList ↔ m.get k = some v := by
  have := @AList.mem_lookup_iff _ _ _ k v m
  rw [Option.mem_def] at this
  rw [get, this, toList, mem_map]
  constructor
  · rintro ⟨⟨a, b⟩, h, he⟩; cases he; exact h
  · intro h; exact ⟨_, h, rfl⟩

theorem get_insert_eq : (m.insert k v).get k' = if k' = k then some v else m.get k' := by
  split_ifs with h
  · subst h; exact get_insert
  · exact get_insert_ne h

theorem get_remove_eq : (m.remove k).get k' = if k' = k then none else m.get k' := by
  split_ifs with h
  · subst h; exact get_remove
  · exact get_remove_ne h

theorem get_retain {p : K → V → Bool} : (m.retain p).get k = (m.get k).filter (p k) := by
  rcases h : m.get k with _ | v
  · rcases h' : (m.retain p).get k with _ | v'
    · rfl
    · rw [← mem_toList] at h'
      simp only [toList, retain, mem_map, mem_filter] at h'
      obtain ⟨e, ⟨he, -⟩, he'⟩ := h'
      have : m.get k = some v' := mem_toList.1 (mem_map.2 ⟨e, he, he'⟩)
      rw [h] at this; cases this
  · by_cases hp : p k v
    · rw [Option.filter_some, if_pos hp, ← mem_toList]
      have hm := mem_toList.2 h
      simp only [toList, mem_map] at hm
      obtain ⟨e, he, he'⟩ := hm
      cases he'
      exact mem_map.2 ⟨e, mem_filter.2 ⟨he, hp⟩, rfl⟩
    · rw [Option.filter_some, if_neg hp]
      rcases h' : (m.retain p).get k with _ | v'
      · rfl
      · rw [← mem_toList] at h'
        simp only [toList, retain, mem_map, mem_filter] at h'
        obtain ⟨e, ⟨he, hp'⟩, he'⟩ := h'
        have : m.get k = some v' := mem_toList.1 (mem_map.2 ⟨e, he, he'⟩)
        rw [h] at this; cases this; cases he'
        exact absurd hp' hp

theorem get_mapVal {f : K → V → W} : (m.mapVal f).get k = (m.get k).map (f k) :=
  dlookup_map₂ k

theorem mem_keys_iff : k ∈ AList.keys m ↔ (m.get k).isSome = true := by
  rw [← AList.mem_keys, ← AList.lookup_isSome]
  rfl

theorem len_insert_none (h : m.get k = none) : (m.insert k v).len = m.len + 1 := by
  have hk : k ∉ AList.keys m := by
    rw [← AList.mem_keys]; exact AList.lookup_eq_none.1 h
  rw [len_eq_keys, len_eq_keys, insert, AList.keys_insert, length_cons, erase_of_not_mem hk]

theorem len_insert_some {v' : V} (h : m.get k = some v') : (m.insert k v).len = m.len := by
  have hk : k ∈ AList.keys m := mem_keys_iff.2 (Option.isSome_iff_exists.2 ⟨v', h⟩)
  have hpos : 0 < (AList.keys m).length := length_pos_of_mem hk
  rw [len_eq_keys, len_eq_keys, insert, AList.keys_insert, length_cons, length_erase_of_mem hk]
  omega

theorem len_remove {v : V} (h : m.get k = some v) : (m.remove k).len + 1 = m.len := by
  have hk : k ∈ AList.keys m := mem_keys_iff.2 (Option.isSome_iff_exists.2 ⟨v, h⟩)
  have hpos : 0 < (AList.keys m).length := length_pos_of_mem hk
  rw [len_eq_keys, len_eq_keys, remove, AList.keys_erase, length_erase_of_mem hk]
  omega

/-- There are no more entries than keys to be had. -/
theorem len_le_card {keys : Finset K} (h : ∀ k, (m.get k).isSome = true → k ∈ keys) :
    m.len ≤ keys.card := by
  rw [len_eq_keys, ← toFinset_card_of_nodup (AList.keys_nodup m)]
  refine Finset.card_le_card fun k hk => h k ?_
  rwa [mem_toFinset, mem_keys_iff] at hk

/-- The values under `k` after a push. -/
theorem get_push {m : HMap K (List V)} :
    ((m.push k v).get k').getD [] = (m.get k').getD [] ++ if k = k' then [v] else [] := by
  rw [push, get_insert_eq]
  by_cases h : k' = k
  · subst h; simp
  · simp [h, Ne.symm h]

/-- After inserting the entries of a list, a key has the value of its last one. -/
theorem get_foldl_insert {α : Type*} (key : α → K) (val : α → V) (as : List α) :
    (as.foldl (fun m a => m.insert (key a) (val a)) m).get k =
      ((as.reverse.find? fun a => key a = k).map val).or (m.get k) := by
  induction as using reverseRecOn with
  | nil => rfl
  | append_singleton as a ih =>
    rw [foldl_append, foldl_cons, foldl_nil, get_insert_eq, reverse_append,
      reverse_singleton, singleton_append, find?_cons, ih]
    by_cases h : k = key a
    · simp [h]
    · simp [h, Ne.symm h]

/-- If the keys of a list differ, its entries are those of the map that is made of it. -/
theorem get_foldl_insert_iff {α : Type*} (key : α → K) (val : α → V) {as : List α}
    (h : (as.map key).Nodup) :
    (as.foldl (fun m a => m.insert (key a) (val a)) empty).get k = some v ↔
      ∃ a ∈ as, key a = k ∧ val a = v := by
  rw [get_foldl_insert, get_empty, Option.or_none, Option.map_eq_some_iff]
  constructor
  · rintro ⟨a, hf, rfl⟩
    exact ⟨a, mem_reverse.1 (mem_of_find?_eq_some hf),
      of_decide_eq_true (find?_some (p := fun a => decide (key a = k)) hf), rfl⟩
  · rintro ⟨a, ha, rfl, rfl⟩
    cases hf : as.reverse.find? fun a' => key a' = key a with
    | none => simpa using find?_eq_none.1 hf a (mem_reverse.2 ha)
    | some a' =>
      have hm := mem_reverse.1 (mem_of_find?_eq_some hf)
      have hk := find?_some hf
      rw [decide_eq_true_iff] at hk
      exact ⟨a', rfl, congrArg val (inj_on_of_nodup_map h hm ha hk)⟩

theorem get_orInsert : (m.orInsert k v).get k' = (m.get k').or (if k' = k then some v else none) := by
  rw [orInsert]
  by_cases hk : k' = k
  · subst hk
    cases h : m.get k' <;> simp [h]
  · cases m.get k <;> simp [get_insert_ne hk, hk]

theorem orInsert_of_get {w : V} (h : m.get k = some w) : m.orInsert k v = m :=
  if_pos (by rw [h]; rfl)

theorem insert_orInsert {w : V} : (m.orInsert k v).insert k w = m.insert k w := by
  unfold orInsert
  split_ifs
  · rfl
  · exact AList.insert_insert m

/-- After the entries of a list were offered, a key has the value of its first one. -/
theorem get_foldl_orInsert {α : Type*} (key : α → Option K) (val : α → V) (as : List α) :
    (as.foldl (fun m a => match key a with
      | some k => m.orInsert k (val a)
      | none => m) m).get k =
      (m.get k).or ((as.find? fun a => key a = some k).map val) := by
  induction as generalizing m with
  | nil => simp
  | cons a as ih =>
    rw [foldl_cons, ih, find?_cons]
    cases ha : key a with
    | none => simp
    | some k' =>
      rw [get_orInsert, Option.or_assoc]
      by_cases hk : k = k'
      · simp [hk]
      · simp [hk, Ne.symm hk]

theorem get_foldl_remove (ks : List K) :
    (ks.foldl (fun m k => m.remove k) m).get k = if k ∈ ks then none else m.get k := by
  induction ks generalizing m with
  | nil => simp
  | cons k' ks ih =>
    rw [foldl_cons, ih, get_remove_eq]
    by_cases h : k = k'
    · simp [h]
    · simp [h]

/-- Every entry satisfies `P`. -/
def All (P : K → V → Prop) (m : HMap K V) : Prop := ∀ k v, m.get k = some v → P k v

variable {P : K → V → Prop}

theorem All.empty : (empty : HMap K V).All P := by
  intro k v h
  rw [get_empty] at h
  cases h

theorem All.insert (h : m.All P) (hv : P k v) : (m.insert k v).All P := by
  intro k' v' h'
  rw [get_insert_eq] at h'
  split_ifs at h' with hk
  · cases h'
    rw [hk]
    exact hv
  · exact h k' v' h'

theorem All.remove (h : m.All P) : (m.remove k).All P := by
  intro k' v' h'
  rw [get_remove_eq] at h'
  split_ifs at h' with hk
  exact h k' v' h'

end

end HMap

end Ferrum.Lib
