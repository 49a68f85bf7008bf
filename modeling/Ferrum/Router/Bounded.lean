/-
  The bound on the lookup caches.

  An insertion that takes a partition over the limit starts an eviction pass.  The counter of the
  partition decides this, not the map, so that the bound rests on two facts: the counter is the size
  of the map, and a pass never comes back with nothing.

  * `frequencyAwareEvict_len`: what a pass counts as removed is what the map has lost.
  * `frequencyAwareEvict_pos`: a pass over a map that is not empty removes an entry, whatever the
    sketch, the reservoir and the order of the map.
  * `cache_bounded`: counters and limits after every operation of a run.
-/
import Ferrum.Router.Cache

namespace Ferrum.Router

open Lib List CachePartition RouterCache

section
variable {V : Type} {s : Sweep} {map : HMap Bytes V}

/-! ## What a pass removes -/

/-- The keys of a sample are keys of the map. -/
def Resident (map : HMap Bytes V) (sample : List (Bytes × ℕ)) : Prop :=
  ∀ e ∈ sample, (map.get e.1).isSome = true

variable {key : Bytes} {sample : List (Bytes × ℕ)} {budget sampleSize : ℕ}
  {reservoir keys : List Bytes}

theorem Resident.sampleKey (h : Resident map sample) (hk : (map.get key).isSome = true) :
    Resident map (sampleKey s sample key) := by
  intro e he
  unfold Router.sampleKey at he
  split at he
  · exact h e he
  · exact forall_mem_append.2 ⟨h, forall_mem_singleton.2 hk⟩ e he

theorem Resident.drainSample {pops : ℕ} (h : Resident map sample) :
    Resident map (drainSample s map budget pops reservoir sample).2 := by
  induction pops generalizing reservoir sample with
  | zero => exact h
  | succ pops ih =>
    unfold Router.drainSample
    split
    · exact h
    · cases reservoir with
      | nil => exact h
      | cons key reservoir =>
        dsimp only
        split
        · exact ih h
        · next hk => exact ih (h.sampleKey (by simpa [Option.isSome_iff_ne_none] using hk))

theorem Resident.foldl (h : Resident map sample) (hks : ∀ k ∈ keys, (map.get k).isSome = true) :
    Resident map (keys.foldl (Router.sampleKey s) sample) := by
  induction keys generalizing sample with
  | nil => exact h
  | cons k keys ih =>
    exact ih (h.sampleKey (hks k (mem_cons_self ..)))
      fun k' hk' => hks k' (mem_cons_of_mem k hk')

theorem iter_resident (h : key ∈ (s.order.iter map).map Prod.fst) :
    (map.get key).isSome = true := by
  obtain ⟨e, he, rfl⟩ := mem_map.1 h
  rw [HMap.mem_toList.1 ((s.order.perm map).mem_iff.1 he)]
  rfl

theorem Resident.blend {rotation : ℕ} (h : Resident map sample) :
    Resident map (blendResidentKeys s map sample rotation budget sampleSize) := by
  unfold blendResidentKeys
  split
  · exact h
  · exact h.foldl fun k hk => iter_resident (mem_of_mem_drop (mem_of_mem_take hk))

theorem evictionSample_resident (reservoir : List Bytes)
    (sampleSize targetRemovals blendRotation : ℕ) :
    Resident map (evictionSample s map reservoir sampleSize targetRemovals blendRotation).2 := by
  have hn : Resident map [] := fun _ h => (nomatch h)
  unfold evictionSample
  dsimp only
  split_ifs
  · exact hn.drainSample.blend.blend
  · exact hn.drainSample.blend
  · exact hn.drainSample.blend
  · exact hn.drainSample

theorem foldl_sampleKey_ne_nil (h : sample ≠ [] ∨ keys ≠ []) :
    keys.foldl (sampleKey s) sample ≠ [] := by
  induction keys generalizing sample with
  | nil => exact h.resolve_right fun h => h rfl
  | cons k keys ih =>
    refine ih (.inl ?_)
    unfold sampleKey
    split
    · next ha => rintro rfl; simp at ha
    · simp

/-- Without a rotation the blend starts at the front of the map. -/
theorem blendResidentKeys_ne_nil (hm : 0 < map.len) (hb : 0 < budget) :
    blendResidentKeys s map sample 0 budget sampleSize ≠ [] := by
  unfold blendResidentKeys
  rw [if_neg (by omega)]
  refine foldl_sampleKey_ne_nil (.inr ?_)
  have hln : (s.order.iter map).length = map.len :=
    (s.order.perm map).length_eq.trans HMap.length_toList
  have ho : 0 * budget % 2 ^ 64 % (sampleSize + 1) = 0 := by simp
  rw [ho, drop_zero, ← length_pos_iff, length_take, length_map, hln]
  exact Nat.lt_min.2 ⟨hb, hm⟩

/-- A sample below twice the target is filled up from the map, so it is not empty. -/
theorem evictionSample_ne_nil {targetRemovals : ℕ} (blendRotation : ℕ) (hm : 0 < map.len)
    (ht : 0 < targetRemovals) (hsz : targetRemovals * 2 ≤ sampleSize) :
    (evictionSample s map reservoir sampleSize targetRemovals blendRotation).2 ≠ [] := by
  have htp (sample : List (Bytes × ℕ)) :
      (if sample.length < targetRemovals * 2 then
        blendResidentKeys s map sample 0 (sampleSize - sample.length) sampleSize
      else sample) ≠ [] := by
    split_ifs with hs
    · exact blendResidentKeys_ne_nil hm (by omega)
    · exact length_pos_iff.1 (by omega)
  exact htp _

theorem removeKeys_len (keys : List Bytes) :
    (removeKeys map keys).1.len + (removeKeys map keys).2 = map.len := by
  refine removeKeys_inv (I := fun r => r.1.len + r.2 = map.len) keys (map, 0) rfl ?_
  intro m n key hk hln
  obtain ⟨v, hv⟩ := Option.isSome_iff_exists.1 hk
  have := HMap.len_remove hv
  dsimp only at hln ⊢
  omega

/-- The first of the keys is removed if it is there. -/
theorem removeKeys_pos (keys : List Bytes) (h : (map.get key).isSome = true) :
    0 < (removeKeys map (key :: keys)).2 := by
  unfold removeKeys
  rw [foldl_cons]
  refine removeKeys_inv (I := fun r => 0 < r.2) keys _ ?_ fun _ _ _ _ _ => Nat.succ_pos _
  simp [h]

/-- **What a pass counts** is what the map has lost. -/
theorem frequencyAwareEvict_len (s : Sweep) (map : HMap Bytes V) (reservoir : List Bytes)
    (maxEntries blendRotation : ℕ) :
    (frequencyAwareEvict s map reservoir maxEntries blendRotation).1.len +
      (frequencyAwareEvict s map reservoir maxEntries blendRotation).2.2 = map.len := by
  obtain ⟨keys, hm, hc⟩ :=
    frequencyAwareEvict_removes s map reservoir maxEntries blendRotation
  rw [hm, hc]
  exact removeKeys_len keys

/-- **No empty pass.**  A pass over a map with entries removes one. -/
theorem frequencyAwareEvict_pos {maxEntries : ℕ} (blendRotation : ℕ) (hm : 0 < map.len)
    (hmax : 4 ≤ maxEntries) :
    0 < (frequencyAwareEvict s map reservoir maxEntries blendRotation).2.2 := by
  unfold frequencyAwareEvict
  dsimp only
  have hs : 4 ≤ min maxEntries routerCacheEvictionSampleLimit :=
    Nat.le_min.2 ⟨hmax, by decide⟩
  generalize min maxEntries routerCacheEvictionSampleLimit = sampleSize at hs
  rw [if_neg (by omega)]
  have ht : 0 < min (max (sampleSize / 4) 1) routerCacheEvictionMaxRemovals :=
    Nat.lt_min.2 ⟨by omega, by decide⟩
  have hd : min (max (sampleSize / 4) 1) routerCacheEvictionMaxRemovals * 2 ≤ sampleSize := by
    omega
  generalize min (max (sampleSize / 4) 1) routerCacheEvictionMaxRemovals = target
    at ht hd
  have hr : Resident map
      (evictionSample s map reservoir sampleSize target blendRotation).2 :=
    evictionSample_resident reservoir sampleSize target blendRotation
  have hne : (evictionSample s map reservoir sampleSize target blendRotation).2 ≠ [] :=
    evictionSample_ne_nil blendRotation hm ht hd
  generalize evictionSample s map reservoir sampleSize target blendRotation = r at hr hne
  rw [if_neg (by simpa using hne)]
  -- whichever keys come first, they are keys of the sample
  have hf (l : List (Bytes × ℕ)) (hl : l.Perm r.2) :
      0 < (removeKeys map ((l.take (min r.2.length target)).map Prod.fst)).2 := by
    have hpos : 0 < min r.2.length target := Nat.lt_min.2 ⟨length_pos_iff.2 hne, ht⟩
    obtain ⟨n, hn⟩ := Nat.exists_eq_succ_of_ne_zero hpos.ne'
    cases l with
    | nil => exact absurd hl.symm.eq_nil hne
    | cons e l =>
      rw [hn, take_succ_cons, map_cons]
      exact removeKeys_pos _ (hr e (hl.mem_iff.1 (mem_cons_self ..)))
  split_ifs
  · exact hf _ (s.selectNth_perm ..)
  · exact hf _ (List.Perm.refl _)

end

/-! ## Partitions -/

namespace CachePartition
variable {V : Type}

/-- The partition with a new entry, counted. -/
def inserted (p : CachePartition V) (cacheKey : Bytes) (entry : V) : CachePartition V :=
  { p with
    map := p.map.insert cacheKey entry
    reservoir := forcePush p.reservoir cacheKey
    entries := p.entries + 1 }

/-- The pass of `evictSample`. -/
def pass (p : CachePartition V) (s : Sweep) (maxCacheEntries : ℕ) : HMap Bytes V × List Bytes × ℕ :=
  frequencyAwareEvict s p.map p.reservoir maxCacheEntries ((p.attempts + 1) % 2 ^ 64)

/-- An insertion of `cacheKey` starts a pass. -/
def Triggers (p : CachePartition V) (maxCacheEntries : ℕ) (cacheKey : Bytes) : Prop :=
  p.map.get cacheKey = none ∧ maxCacheEntries < p.entries + 1

/-- The counter is the size of the map, which keeps to the limit. -/
structure Bounded (p : CachePartition V) (maxCacheEntries : ℕ) : Prop where
  exact_count : p.entries = p.map.len
  le : p.map.len ≤ maxCacheEntries

variable {p : CachePartition V} {s : Sweep} {maxCacheEntries : ℕ} {cacheKey : Bytes} {entry : V}

theorem evictSample_map_len (p : CachePartition V) (s : Sweep) (maxCacheEntries : ℕ) :
    (p.evictSample s maxCacheEntries).map.len + (p.pass s maxCacheEntries).2.2 = p.map.len :=
  frequencyAwareEvict_len ..

theorem evictSample_entries :
    (p.evictSample s maxCacheEntries).entries = p.entries - (p.pass s maxCacheEntries).2.2 := by
  show (if 0 < (p.pass s maxCacheEntries).2.2 then p.entries - (p.pass s maxCacheEntries).2.2
    else p.entries) = _
  split_ifs
  · rfl
  · omega

theorem insert_eq_evictSample (h : p.Triggers maxCacheEntries cacheKey) :
    p.insert s maxCacheEntries cacheKey entry =
      (p.inserted cacheKey entry).evictSample s maxCacheEntries := by
  simp only [insert, h.1, Option.isNone_none, if_true]
  rw [if_pos h.2]
  rfl

/-- A pass that is started removes an entry. -/
theorem pass_pos (s : Sweep) (entry : V) (hmax : 4 ≤ maxCacheEntries)
    (h : p.Triggers maxCacheEntries cacheKey) :
    0 < ((p.inserted cacheKey entry).pass s maxCacheEntries).2.2 := by
  refine frequencyAwareEvict_pos _ ?_ hmax
  have : (p.inserted cacheKey entry).map.len = p.map.len + 1 := HMap.len_insert_none h.1
  omega

theorem Bounded.empty : Bounded (.empty : CachePartition V) maxCacheEntries :=
  ⟨rfl, Nat.zero_le _⟩

theorem Bounded.clear : p.clear.Bounded maxCacheEntries := by
  refine ⟨?_, Nat.zero_le _⟩
  show max (p.entries - p.entries) (HMap.len .empty) = _
  rw [Nat.sub_self]
  rfl

theorem Bounded.insert (h : p.Bounded maxCacheEntries) (hmax : 4 ≤ maxCacheEntries) :
    (p.insert s maxCacheEntries cacheKey entry).Bounded maxCacheEntries := by
  cases hget : p.map.get cacheKey with
  | some v =>
    have hln := HMap.len_insert_some (v := entry) hget
    simp only [CachePartition.insert, hget, Option.isNone_some, Bool.false_eq_true, if_false]
    exact ⟨h.exact_count.trans hln.symm, hln.trans_le h.le⟩
  | none =>
    have hln : (p.inserted cacheKey entry).map.len = p.map.len + 1 := HMap.len_insert_none hget
    have hc := h.exact_count
    by_cases ho : maxCacheEntries < p.entries + 1
    · -- the pass takes back at least what the insertion has added
      have ht : p.Triggers maxCacheEntries cacheKey := ⟨hget, ho⟩
      have hpos := pass_pos s entry hmax ht
      have hm := evictSample_map_len (p.inserted cacheKey entry) s maxCacheEntries
      have hle := h.le
      rw [insert_eq_evictSample ht]
      refine ⟨?_, by omega⟩
      rw [evictSample_entries]
      show p.entries + 1 - _ = _
      omega
    · simp only [CachePartition.insert, hget, Option.isNone_none, if_true, if_neg ho]
      refine ⟨?_, hln.trans_le (by omega)⟩
      show p.entries + 1 = (p.inserted cacheKey entry).map.len
      omega

end CachePartition

/-! ## Runs -/

/-- The operations that write the lookup caches, and anything that others do to the reservoirs. -/
inductive BoundAct where
  | insertPrefixCacheEntry (s : Sweep) (key : Bytes) (entry : PrefixCacheEntry)
  | insertRegexCacheEntry (s : Sweep) (key : Bytes) (entry : RegexCacheEntry)
  | clearLookupCaches
  | reservoirs (prefixReservoir regexReservoir : List Bytes)

def RouterCache.act (cache : RouterCache) : BoundAct → RouterCache
  | .insertPrefixCacheEntry s key entry => cache.insertPrefixCacheEntry s key entry
  | .insertRegexCacheEntry s key entry => cache.insertRegexCacheEntry s key entry
  | .clearLookupCaches => cache.clearLookupCaches
  | .reservoirs prefixReservoir regexReservoir =>
    { cache with
      prefixCache := { cache.prefixCache with reservoir := prefixReservoir }
      regexCache := { cache.regexCache with reservoir := regexReservoir } }

/-- Both partitions keep the limit of the cache. -/
structure RouterCache.Bounded (cache : RouterCache) (maxCacheEntries : ℕ) : Prop where
  limit : cache.maxCacheEntries = maxCacheEntries
  prefixCache : cache.prefixCache.Bounded maxCacheEntries
  regexCache : cache.regexCache.Bounded maxCacheEntries

theorem RouterCache.Bounded.act {cache : RouterCache} {maxCacheEntries : ℕ}
    (h : cache.Bounded maxCacheEntries) (hmax : 4 ≤ maxCacheEntries) (a : BoundAct) :
    (cache.act a).Bounded maxCacheEntries := by
  obtain ⟨rfl, hp, hr⟩ := h
  cases a with
  | insertPrefixCacheEntry s key entry => exact ⟨rfl, hp.insert hmax, hr⟩
  | insertRegexCacheEntry s key entry => exact ⟨rfl, hp, hr.insert hmax⟩
  | clearLookupCaches => exact ⟨rfl, .clear, .clear⟩
  | reservoirs _ _ => exact ⟨rfl, ⟨hp.1, hp.2⟩, ⟨hr.1, hr.2⟩⟩

theorem RouterCache.Bounded.run {maxCacheEntries : ℕ} (hmax : 4 ≤ maxCacheEntries)
    (acts : List BoundAct) :
    (acts.foldl RouterCache.act (.new maxCacheEntries)).Bounded maxCacheEntries := by
  induction acts using reverseRecOn with
  | nil => exact ⟨rfl, .empty, .empty⟩
  | append_singleton acts a ih =>
    rw [foldl_append]
    exact ih.act hmax a

/-- **The caches are bounded.**  After every run of operations the counters are the sizes of the
    maps, both maps keep the limit, and the pass that an insertion starts removes an entry. -/
theorem cache_bounded {maxCacheEntries : ℕ} (hmax : 1000 ≤ maxCacheEntries)
    (acts : List BoundAct) :
    let cache := acts.foldl RouterCache.act (.new maxCacheEntries)
    (cache.prefixCache.entries = cache.prefixCache.map.len ∧
      cache.prefixCache.map.len ≤ maxCacheEntries) ∧
    (cache.regexCache.entries = cache.regexCache.map.len ∧
      cache.regexCache.map.len ≤ maxCacheEntries) ∧
    (∀ s key entry, cache.prefixCache.Triggers maxCacheEntries key →
      cache.prefixCache.insert s maxCacheEntries key entry =
        (cache.prefixCache.inserted key entry).evictSample s maxCacheEntries ∧
      0 < ((cache.prefixCache.inserted key entry).pass s maxCacheEntries).2.2) ∧
    ∀ s key entry, cache.regexCache.Triggers maxCacheEntries key →
      cache.regexCache.insert s maxCacheEntries key entry =
        (cache.regexCache.inserted key entry).evictSample s maxCacheEntries ∧
      0 < ((cache.regexCache.inserted key entry).pass s maxCacheEntries).2.2 := by
  intro cache
  have hf : 4 ≤ maxCacheEntries := by omega
  obtain ⟨-, hp, hr⟩ := RouterCache.Bounded.run hf acts
  exact ⟨⟨hp.1, hp.2⟩, ⟨hr.1, hr.2⟩,
    fun s _ entry h => ⟨insert_eq_evictSample h,
      pass_pos s entry hf h⟩,
    fun s _ entry h => ⟨insert_eq_evictSample h,
      pass_pos s entry hf h⟩⟩

/-- Misses of `n` keys. -/
def misses (n : ℕ) : List BoundAct :=
  (range n).map fun i => .insertPrefixCacheEntry .sorted (replicate i 0x61) ⟨none, 0⟩

variable {limit : ℕ}

theorem misses_run {n : ℕ} (hn : n ≤ limit) : let cache := (misses n).foldl act (.new limit)
    cache.maxCacheEntries = limit ∧ cache.prefixCache.entries = n ∧
      ∀ i, n ≤ i → cache.prefixCache.map.get (replicate i 0x61) = none := by
  induction n with
  | zero => exact ⟨rfl, rfl, fun _ _ => rfl⟩
  | succ n ih =>
    obtain ⟨hl, he, hg⟩ := ih (Nat.le_of_succ_le hn)
    rw [misses, range_succ, map_append, foldl_append, ← misses]
    generalize (misses n).foldl act (.new limit) = cache at hl he hg
    refine ⟨hl, ?_, fun i hi => ?_⟩ <;>
      simp only [map_cons, map_nil, foldl_cons, foldl_nil, act,
        insertPrefixCacheEntry, CachePartition.insert, hg n le_rfl, hl, he,
        Option.isNone_none, if_true, if_neg (not_lt.2 hn)]
    have hne : replicate i (0x61 : UInt8) ≠ replicate n 0x61 := fun h => by
      have := congrArg length h
      simp at this
      omega
    rw [HMap.get_insert_ne hne]
    exact hg i (Nat.le_of_succ_le hi)

theorem misses_full : let cache := (misses limit).foldl act (.new limit)
    cache.prefixCache.entries = limit ∧ cache.prefixCache.Triggers limit (replicate limit 0x61) := by
  intro cache
  obtain ⟨-, he, hg⟩ := misses_run (le_refl limit)
  exact ⟨he, hg limit le_rfl, he.symm ▸ Nat.lt_succ_self _⟩

/-- A thousand misses fill the cache, and the next one starts a pass. -/
theorem full_cache_evicts : let cache := (misses 1000).foldl act (.new 1000)
    cache.prefixCache.map.len = 1000 ∧
      cache.prefixCache.insert .sorted 1000 (replicate 1000 0x61) ⟨none, 0⟩ =
        (cache.prefixCache.inserted (replicate 1000 0x61) ⟨none, 0⟩).evictSample .sorted 1000 ∧
      0 < ((cache.prefixCache.inserted (replicate 1000 0x61) ⟨none, 0⟩).pass .sorted 1000).2.2 := by
  obtain ⟨⟨hc, -⟩, -, hevict, -⟩ := cache_bounded (le_refl 1000) (misses 1000)
  exact ⟨hc.symm.trans misses_full.1, hevict .sorted _ ⟨none, 0⟩ misses_full.2⟩

end Ferrum.Router
