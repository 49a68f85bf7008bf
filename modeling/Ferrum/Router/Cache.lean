/-
  The lookup caches in front of a route table, and the eviction that bounds them.

  Matches of regular expressions and literal paths go to one cache, all other answers to another,
  misses included; both are keyed by the lookup and stamped with the generation of the table.

  * `frequencyAwareEvict`: one eviction pass.  What it reads besides the cache (the frequency
    estimates, the order of the map, the choice of the least frequent) is a parameter, `Sweep`.
  * `RouterCache.findProxyWithAdmission`: the cached lookup.
-/
import Ferrum.Router.Table

namespace Ferrum.Router

open Lib

/-! ## Eviction -/

def routerCacheEvictionSampleLimit : ℕ := 256
def routerCacheEvictionMaxRemovals : ℕ := 64
def headBlendPeriod : ℕ := 8
def routerCacheEvictionRingCapacity : ℕ := 4096

/-- What an eviction pass finds outside of the cache. -/
structure Sweep where
  /-- the frequency sketch -/
  estimate : Bytes → ℕ
  order : IterOrder
  /-- `select_nth_unstable_by_key`: the `n + 1` least frequent come first -/
  selectNth : List (Bytes × ℕ) → ℕ → List (Bytes × ℕ)
  selectNth_perm : ∀ l n, (selectNth l n).Perm l
  selectNth_le : ∀ l n, ∀ a ∈ (selectNth l n).take (n + 1), ∀ b ∈ (selectNth l n).drop (n + 1),
    a.2 ≤ b.2

/-- Select by sorting, with a sketch that has seen nothing. -/
def Sweep.sorted : Sweep where
  estimate _ := 0
  order := .stored
  selectNth l _ := sortByKey Prod.snd l
  selectNth_perm l _ := sortByKey_perm _ l
  selectNth_le l n a ha b hb := by
    have hsorted := sortByKey_pairwise Prod.snd l
    rw [← List.take_append_drop (n + 1) (sortByKey _ l), List.pairwise_append] at hsorted
    exact hsorted.2.2 a ha b hb

/-- `ArrayQueue::force_push`: a full ring loses its oldest key. -/
def forcePush (reservoir : List Bytes) (key : Bytes) : List Bytes :=
  if reservoir.length < routerCacheEvictionRingCapacity then reservoir ++ [key]
  else reservoir.tail ++ [key]

/-- `ArrayQueue::pop`, at most as often as the ring is long. -/
def drainReservoir (reservoir : List Bytes) : List Bytes :=
  reservoir.drop routerCacheEvictionRingCapacity

section
variable {V : Type} (s : Sweep) (map : HMap Bytes V)

/-- Take `key` into the sample, once. -/
def sampleKey (sample : List (Bytes × ℕ)) (key : Bytes) : List (Bytes × ℕ) :=
  if sample.any fun e => e.1 = key then sample else sample ++ [(key, s.estimate key)]

/-- The loop that pops candidates from the reservoir; keys that are gone are dropped. -/
def drainSample (budget : ℕ) : ℕ → List Bytes → List (Bytes × ℕ) → List Bytes × List (Bytes × ℕ)
  | 0, reservoir, sample => (reservoir, sample)
  | pops + 1, reservoir, sample =>
    if budget ≤ sample.length then (reservoir, sample)
    else match reservoir with
      | [] => ([], sample)
      | key :: reservoir =>
        if (map.get key).isNone then drainSample budget pops reservoir sample
        else drainSample budget pops reservoir (sampleKey s sample key)

/-- Sample keys of the map itself, from a rotating offset. -/
def blendResidentKeys (sample : List (Bytes × ℕ)) (rotation budget sampleSize : ℕ) :
    List (Bytes × ℕ) :=
  if budget = 0 then sample
  else
    let offset := rotation * budget % 2 ^ 64 % (sampleSize + 1)
    ((((s.order.iter map).map Prod.fst).drop offset).take budget).foldl (sampleKey s) sample

/-- Remove the keys that are there and count them. -/
def removeKeys (map : HMap Bytes V) (keys : List Bytes) : HMap Bytes V × ℕ :=
  keys.foldl (fun (map, removed) key =>
    if (map.get key).isSome then (map.remove key, removed + 1) else (map, removed)) (map, 0)

/-- What each removal keeps holds after all of them. -/
theorem removeKeys_inv {I : HMap Bytes V × ℕ → Prop} (keys : List Bytes) (acc : HMap Bytes V × ℕ)
    (h : I acc)
    (hs : ∀ m n key, (m.get key).isSome = true → I (m, n) → I (m.remove key, n + 1)) :
    I (keys.foldl (fun (map, removed) key =>
      if (map.get key).isSome then (map.remove key, removed + 1) else (map, removed)) acc) := by
  induction keys generalizing acc with
  | nil => exact h
  | cons key keys ih =>
    obtain ⟨m, n⟩ := acc
    rw [List.foldl_cons]
    apply ih
    dsimp only
    split_ifs with hk
    · exact hs m n key hk h
    · exact h

/-- The candidates of a pass, and what is left of the reservoir: keys from the reservoir, every
    eighth time some of the map, and more of these if there are too few. -/
def evictionSample (reservoir : List Bytes) (sampleSize targetRemovals blendRotation : ℕ) :
    List Bytes × List (Bytes × ℕ) :=
  let blendActive := blendRotation ≠ 0 ∧ blendRotation % headBlendPeriod = 0
  let headReserve := if blendActive then max (sampleSize / 4) 1 else 0
  let (reservoir, sample) :=
    drainSample s map (sampleSize - headReserve) (sampleSize * 2) reservoir []
  let sample := if blendActive then
      blendResidentKeys s map sample (blendRotation / headBlendPeriod)
        (min headReserve (sampleSize - sample.length)) sampleSize
    else sample
  let sample := if sample.length < targetRemovals * 2 then
      blendResidentKeys s map sample 0 (sampleSize - sample.length) sampleSize
    else sample
  (reservoir, sample)

/-- The map and the reservoir after a pass, and the number of entries removed. -/
def frequencyAwareEvict (reservoir : List Bytes) (maxEntries blendRotation : ℕ) :
    HMap Bytes V × List Bytes × ℕ :=
  let sampleSize := min maxEntries routerCacheEvictionSampleLimit
  if sampleSize < 4 then (map, reservoir, 0)
  else
    let targetRemovals := min (max (sampleSize / 4) 1) routerCacheEvictionMaxRemovals
    let (reservoir, sample) :=
      evictionSample s map reservoir sampleSize targetRemovals blendRotation
    if sample.isEmpty then (map, reservoir, 0)
    else
      let toRemove := min sample.length targetRemovals
      let sample := if 0 < toRemove ∧ toRemove < sample.length then
          s.selectNth sample (toRemove - 1)
        else sample
      let (map, removed) := removeKeys map ((sample.take toRemove).map Prod.fst)
      -- the survivors stay candidates
      (map, ((sample.drop toRemove).map Prod.fst).foldl forcePush reservoir, removed)

/-- A pass only removes keys, and counts them. -/
theorem frequencyAwareEvict_removes (reservoir : List Bytes) (maxEntries blendRotation : ℕ) :
    ∃ keys, (frequencyAwareEvict s map reservoir maxEntries blendRotation).1 =
        (removeKeys map keys).1 ∧
      (frequencyAwareEvict s map reservoir maxEntries blendRotation).2.2 =
        (removeKeys map keys).2 := by
  simp only [frequencyAwareEvict]
  split_ifs <;> first | exact ⟨_, rfl, rfl⟩ | exact ⟨[], rfl, rfl⟩

end

/-! ## Partitions -/

/-- One of the two caches: the map, the counter of its entries, the candidates for eviction from
    the oldest, and the number of passes. -/
structure CachePartition (V : Type) where
  map : HMap Bytes V
  entries : ℕ
  reservoir : List Bytes
  attempts : ℕ

namespace CachePartition
variable {V : Type}

def empty : CachePartition V := ⟨.empty, 0, [], 0⟩

/-- `evict_prefix_sample` and `evict_regex_sample`. -/
def evictSample (p : CachePartition V) (s : Sweep) (maxCacheEntries : ℕ) : CachePartition V :=
  let pass := (p.attempts + 1) % 2 ^ 64
  let (map, reservoir, removed) :=
    frequencyAwareEvict s p.map p.reservoir maxCacheEntries pass
  { map, reservoir, attempts := pass
    entries := if 0 < removed then p.entries - removed else p.entries }

/-- `insert_prefix_cache_entry` and `insert_regex_cache_entry`. -/
def insert (p : CachePartition V) (s : Sweep) (maxCacheEntries : ℕ) (cacheKey : Bytes) (entry : V) :
    CachePartition V :=
  let isNew := (p.map.get cacheKey).isNone
  let p := { p with
    map := p.map.insert cacheKey entry
    reservoir := forcePush p.reservoir cacheKey }
  if isNew then
    let p := { p with entries := p.entries + 1 }
    if maxCacheEntries < p.entries then p.evictSample s maxCacheEntries else p
  else p

def clear (p : CachePartition V) : CachePartition V :=
  let cleared := p.entries
  let map : HMap Bytes V := .empty
  { p with
    map
    entries := max (p.entries - cleared) map.len
    reservoir := drainReservoir p.reservoir }

end CachePartition

/-! ## The cached lookup -/

/-- An answer without a regular expression; `none` is a miss. -/
structure PrefixCacheEntry where
  proxy : Option Proxy
  routeGeneration : UInt64
  deriving DecidableEq, Repr

structure RegexCacheEntry where
  proxy : Proxy
  pathParams : List (Bytes × Bytes)
  matchedLen : ℕ
  routeGeneration : UInt64
  deriving DecidableEq, Repr

/-- The answer rebuilt from an entry: the length is that of the path of the proxy. -/
def PrefixCacheEntry.routeMatch (entry : PrefixCacheEntry) : Option RouteMatch :=
  entry.proxy.map fun proxy => ⟨proxy, [], (proxy.listenPath.map List.length).getD 0⟩

def RegexCacheEntry.routeMatch (entry : RegexCacheEntry) : RouteMatch :=
  ⟨entry.proxy, entry.pathParams, entry.matchedLen⟩

def isRegexProxy (proxy : Proxy) : Bool := proxy.listenPath.any fun p => p.head? = some 0x7e

def isExactPathProxy (proxy : Proxy) : Bool := proxy.listenPath.any fun p => p.head? = some 0x3d

structure RouterCache where
  prefixCache : CachePartition PrefixCacheEntry
  regexCache : CachePartition RegexCacheEntry
  maxCacheEntries : ℕ

/-- A table and the listeners that may be served, with which lookups are made. -/
structure RouteSnapshot where
  table : HostRouteTable
  listenerAdmission : GatewayListenerAdmission

structure LookupRequest where
  host : Option Bytes
  path : Str
  frontendPort : Option UInt16
  frontendIsTls : Bool

/-- The path that is matched. -/
def LookupRequest.matched (r : LookupRequest) : Bytes := (normalizeEncodedSlashes r.path).get.bytes

def LookupRequest.cacheKey (r : LookupRequest) : Bytes :=
  writeCacheKey r.host r.matched r.frontendPort r.frontendIsTls

/-- The search of the table, with no cache. -/
def RouteSnapshot.search (rx : RegexCrate) (snapshot : RouteSnapshot) (r : LookupRequest) :
    Option RouteMatch :=
  searchRouteTable rx snapshot.table r.host r.matched .unfiltered
    (snapshot.table.portContext r.frontendPort r.frontendIsTls snapshot.listenerAdmission)

/-- What a lookup should return. -/
def RouteSnapshot.findUncached (rx : RegexCrate) (snapshot : RouteSnapshot) (r : LookupRequest) :
    Option RouteMatch :=
  if r.frontendPort.any snapshot.listenerAdmission.explicitlyRefuses then none
  else snapshot.search rx r

namespace RouterCache

def new (maxCacheEntries : ℕ) : RouterCache := ⟨.empty, .empty, maxCacheEntries⟩

/-- A cached answer of this generation; the listener of a cached proxy must still be allowed. -/
def prefixHit (cache : RouterCache) (routeGeneration : UInt64)
    (admission : GatewayListenerAdmission) (key : Bytes) : Option (Option RouteMatch) :=
  (cache.prefixCache.map.get key).bind fun entry =>
    if entry.routeGeneration = routeGeneration ∧
        entry.proxy.all (fun proxy => proxy.listenPort.all admission.allows) then
      some entry.routeMatch
    else none

def regexHit (cache : RouterCache) (routeGeneration : UInt64)
    (admission : GatewayListenerAdmission) (key : Bytes) : Option (Option RouteMatch) :=
  (cache.regexCache.map.get key).bind fun entry =>
    if entry.routeGeneration = routeGeneration ∧ entry.proxy.listenPort.all admission.allows then
      some (some entry.routeMatch)
    else none

def hit (cache : RouterCache) (routeGeneration : UInt64) (admission : GatewayListenerAdmission)
    (key : Bytes) : Option (Option RouteMatch) :=
  cache.prefixHit routeGeneration admission key <|> cache.regexHit routeGeneration admission key

def insertPrefixCacheEntry (cache : RouterCache) (s : Sweep) (key : Bytes)
    (entry : PrefixCacheEntry) : RouterCache :=
  { cache with prefixCache := cache.prefixCache.insert s cache.maxCacheEntries key entry }

def insertRegexCacheEntry (cache : RouterCache) (s : Sweep) (key : Bytes)
    (entry : RegexCacheEntry) : RouterCache :=
  { cache with regexCache := cache.regexCache.insert s cache.maxCacheEntries key entry }

/-- Put the answer of a search into the cache for it. -/
def store (cache : RouterCache) (s : Sweep) (routeGeneration : UInt64) (key : Bytes) :
    Option RouteMatch → RouterCache
  | some m =>
    if !m.pathParams.isEmpty || isRegexProxy m.proxy || isExactPathProxy m.proxy then
      cache.insertRegexCacheEntry s key
        ⟨m.proxy, m.pathParams, m.matchedPrefixLen, routeGeneration⟩
    else cache.insertPrefixCacheEntry s key ⟨some m.proxy, routeGeneration⟩
  | none => cache.insertPrefixCacheEntry s key ⟨none, routeGeneration⟩

/-- The answer and the cache after it; `s` is for the pass that an insertion may trigger. -/
def findProxyWithAdmission (rx : RegexCrate) (s : Sweep) (cache : RouterCache)
    (snapshot : RouteSnapshot) (routeGeneration : UInt64) (r : LookupRequest) :
    Option RouteMatch × RouterCache :=
  if r.frontendPort.any snapshot.listenerAdmission.explicitlyRefuses then (none, cache)
  else
    match cache.hit routeGeneration snapshot.listenerAdmission r.cacheKey with
    | some answer => (answer, cache)
    | none =>
      let result := snapshot.search rx r
      (result, cache.store s routeGeneration r.cacheKey result)

def clearLookupCaches (cache : RouterCache) : RouterCache :=
  { cache with prefixCache := cache.prefixCache.clear, regexCache := cache.regexCache.clear }

end RouterCache

/-! ## Runs -/

inductive CacheAct where
  | lookup (routeGeneration : UInt64) (r : LookupRequest) (s : Sweep)
  | evictPrefixSample (s : Sweep)
  | evictRegexSample (s : Sweep)
  | clearLookupCaches

/-- One act on a cache whose generations stand for the tables and admissions of `snapshots`. -/
def RouterCache.step (rx : RegexCrate) (snapshots : UInt64 → RouteSnapshot) (cache : RouterCache) :
    CacheAct → RouterCache
  | .lookup g r s => (cache.findProxyWithAdmission rx s (snapshots g) g r).2
  | .evictPrefixSample s =>
    { cache with prefixCache := cache.prefixCache.evictSample s cache.maxCacheEntries }
  | .evictRegexSample s =>
    { cache with regexCache := cache.regexCache.evictSample s cache.maxCacheEntries }
  | .clearLookupCaches => cache.clearLookupCaches

def RouterCache.answers (rx : RegexCrate) (snapshots : UInt64 → RouteSnapshot) :
    RouterCache → List CacheAct → List (Option RouteMatch)
  | _, [] => []
  | cache, .lookup g r s :: acts =>
    (cache.findProxyWithAdmission rx s (snapshots g) g r).1 ::
      answers rx snapshots (cache.step rx snapshots (.lookup g r s)) acts
  | cache, act :: acts => answers rx snapshots (cache.step rx snapshots act) acts

end Ferrum.Router
