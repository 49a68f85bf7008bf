/-
  The caches do not change answers.

  The invariant is that an entry holds the answer of the search for its key and generation
  (`CacheOk`).  It is stated for a relation `Used` between generations and snapshots, so that it can
  be kept while new snapshots come into use.

  * `find_ok`: a lookup with the only snapshot of its generation is answered as without a cache, and
    keeps the invariant.
  * `cache_transparent`: so is every lookup of a run.
-/
import Ferrum.Router.Cache
import Ferrum.Router.Search

namespace Ferrum.Router

open Lib

/-! ## Entries that stay -/

section
variable {V : Type} {P : Bytes → V → Prop} {s : Sweep} {map : HMap Bytes V}

theorem removeKeys_all (h : map.All P) (keys : List Bytes) : (removeKeys map keys).1.All P :=
  removeKeys_inv (I := fun r => r.1.All P) keys (map, 0) h fun _ _ _ _ hm => hm.remove

theorem evictSample_all {p : CachePartition V} (h : p.map.All P) (maxCacheEntries : ℕ) :
    (p.evictSample s maxCacheEntries).map.All P := by
  obtain ⟨keys, hk, -⟩ := frequencyAwareEvict_removes s p.map p.reservoir maxCacheEntries
    ((p.attempts + 1) % 2 ^ 64)
  show (frequencyAwareEvict s p.map p.reservoir maxCacheEntries _).1.All P
  rw [hk]
  exact removeKeys_all h keys

theorem insert_all {p : CachePartition V} (h : p.map.All P) (maxCacheEntries : ℕ) {key : Bytes}
    {entry : V} (he : P key entry) : (p.insert s maxCacheEntries key entry).map.All P := by
  have hm : (p.map.insert key entry).All P := h.insert he
  simp only [CachePartition.insert]
  split_ifs
  · exact evictSample_all hm maxCacheEntries
  · exact hm
  · exact hm

end

/-! ## The invariant -/

/-- Hosts that are given are not empty, and hosts and paths have no NUL. -/
def LookupRequest.Ok (r : LookupRequest) : Prop := KeyOk r.host r.path.bytes

def RouteSnapshot.Built (rx : RegexCrate) (snapshot : RouteSnapshot) : Prop :=
  ∃ order config, snapshot.table = buildRouteTable rx order config

/-- In every snapshot of the generation, `answer` is what a lookup with this key finds. -/
def AnswersFor (rx : RegexCrate) (Used : UInt64 → RouteSnapshot → Prop) (key : Bytes) (g : UInt64)
    (answer : Option RouteMatch) : Prop :=
  (∃ snapshot, Used g snapshot) ∧ ∀ snapshot, Used g snapshot → ∀ r : LookupRequest, r.Ok →
    r.cacheKey = key → snapshot.search rx r = answer

structure CacheOk (rx : RegexCrate) (Used : UInt64 → RouteSnapshot → Prop) (cache : RouterCache) :
    Prop where
  prefixCache : cache.prefixCache.map.All fun key entry =>
    AnswersFor rx Used key entry.routeGeneration entry.routeMatch
  regexCache : cache.regexCache.map.All fun key entry =>
    AnswersFor rx Used key entry.routeGeneration (some entry.routeMatch)

section
variable {rx : RegexCrate} {Used : UInt64 → RouteSnapshot → Prop} {cache : RouterCache}
variable {snapshot : RouteSnapshot} {g : UInt64} {r r' : LookupRequest}

theorem LookupRequest.Ok.keyOk (h : r.Ok) : KeyOk r.host r.matched := by
  refine ⟨h.host_ne, h.host_nul, fun hm => ?_⟩
  rw [LookupRequest.matched, normalizeEncodedSlashes_bytes] at hm
  rcases mem_foldSlashes hm with hm | hm
  · exact h.path_nul hm
  · cases hm

theorem search_eq_of_cacheKey (h : r.Ok) (h' : r'.Ok) (hk : r.cacheKey = r'.cacheKey) :
    snapshot.search rx r = snapshot.search rx r' := by
  obtain ⟨hh, hp, hpr, ht⟩ := writeCacheKey_inj h.keyOk h'.keyOk hk
  rw [RouteSnapshot.search, RouteSnapshot.search, hh, hp, hpr, ht]

theorem answersFor_search (hu : Used g snapshot) (hun : ∀ s, Used g s → s = snapshot)
    (hr : r.Ok) : AnswersFor rx Used r.cacheKey g (snapshot.search rx r) := by
  refine ⟨⟨snapshot, hu⟩, fun s hs r' hr' hk => ?_⟩
  rw [hun s hs]
  exact search_eq_of_cacheKey hr' hr hk

/-- A match that is neither for a regular expression nor for a literal path is that of its proxy. -/
theorem routeMatch_eq_proxy {config : GatewayConfig} {c : Candidate} {path : Bytes}
    (hc : c ∈ config.candidates rx) (hrg : isRegexProxy c.candidate.proxy = false)
    (he : isExactPathProxy c.candidate.proxy = false) :
    c.routeMatch rx path =
      ⟨c.candidate.proxy, [], (c.candidate.proxy.listenPath.map List.length).getD 0⟩ := by
  obtain ⟨p, -, -, hr, -, rfl⟩ := mem_candidates hc
  rw [Proxy.route] at hr
  split at hr <;> simp_all [Candidate.routeMatch, isRegexProxy, isExactPathProxy]

theorem RouteSnapshot.Built.routeMatch (h : snapshot.Built rx) {m : RouteMatch}
    (hm : snapshot.search rx r = some m) (hr : isRegexProxy m.proxy = false)
    (he : isExactPathProxy m.proxy = false) :
    PrefixCacheEntry.routeMatch ⟨some m.proxy, g⟩ = some m := by
  obtain ⟨order, config, ht⟩ := h
  rw [RouteSnapshot.search, ht] at hm
  obtain ⟨c, hc, rfl⟩ := search_mem hm
  rw [routeMatch_proxy] at hr he ⊢
  rw [routeMatch_eq_proxy hc hr he]
  rfl

/-! ## Steps -/

section
variable (h : CacheOk rx Used cache)
include h

theorem hit_ok (hu : Used g snapshot) (hr : r.Ok) {admission : GatewayListenerAdmission}
    {answer : Option RouteMatch} (hh : cache.hit g admission r.cacheKey = some answer) :
    snapshot.search rx r = answer := by
  rw [RouterCache.hit] at hh
  cases hf : cache.prefixHit g admission r.cacheKey with
  | some answer' =>
    rw [hf] at hh
    cases hh
    obtain ⟨entry, hget, he⟩ := Option.bind_eq_some_iff.1 hf
    split_ifs at he with hgn
    cases he
    exact (h.prefixCache _ _ hget).2 snapshot (hgn.1 ▸ hu) r hr rfl
  | none =>
    rw [hf] at hh
    obtain ⟨entry, hget, he⟩ := Option.bind_eq_some_iff.1 hh
    split_ifs at he with hgn
    cases he
    exact (h.regexCache _ _ hget).2 snapshot (hgn.1 ▸ hu) r hr rfl

theorem store_ok (hu : Used g snapshot) (hun : ∀ s, Used g s → s = snapshot)
    (hb : snapshot.Built rx) (hr : r.Ok) (s : Sweep) :
    CacheOk rx Used (cache.store s g r.cacheKey (snapshot.search rx r)) := by
  have ha : AnswersFor rx Used r.cacheKey g _ := answersFor_search hu hun hr
  cases hm : snapshot.search rx r with
  | none =>
    rw [hm] at ha
    exact ⟨insert_all h.prefixCache _ ha, h.regexCache⟩
  | some m =>
    rw [hm] at ha
    rw [RouterCache.store]
    split_ifs with hk
    · exact ⟨h.prefixCache, insert_all h.regexCache _ ha⟩
    · simp only [Bool.or_eq_true, not_or, Bool.not_eq_true] at hk
      rw [← hb.routeMatch hm hk.1.2 hk.2] at ha
      exact ⟨insert_all h.prefixCache _ ha, h.regexCache⟩

/-- **A lookup is answered as without a cache.** -/
theorem find_ok (hu : Used g snapshot) (hun : ∀ s, Used g s → s = snapshot) (hb : snapshot.Built rx)
    (hr : r.Ok) (s : Sweep) :
    (cache.findProxyWithAdmission rx s snapshot g r).1 = snapshot.findUncached rx r ∧
      CacheOk rx Used (cache.findProxyWithAdmission rx s snapshot g r).2 := by
  rw [RouterCache.findProxyWithAdmission, RouteSnapshot.findUncached]
  split_ifs with hrf
  · exact ⟨rfl, h⟩
  · cases hh : cache.hit g snapshot.listenerAdmission r.cacheKey with
    | some answer => exact ⟨(hit_ok h hu hr hh).symm, h⟩
    | none => exact ⟨rfl, store_ok h hu hun hb hr s⟩

/-- New snapshots may come into use for new generations. -/
theorem CacheOk.mono {Used' : UInt64 → RouteSnapshot → Prop} (hu : ∀ g s, Used g s → Used' g s)
    (hn : ∀ g s s', Used g s → Used' g s' → Used g s') : CacheOk rx Used' cache := by
  have ha : ∀ key g answer, AnswersFor rx Used key g answer →
      AnswersFor rx Used' key g answer := by
    rintro key g answer ⟨⟨s, hs⟩, hal⟩
    exact ⟨⟨s, hu g s hs⟩, fun s' hs' => hal s' (hn g s s' hs hs')⟩
  exact ⟨fun key entry hget => ha _ _ _ (h.prefixCache key entry hget),
    fun key entry hget => ha _ _ _ (h.regexCache key entry hget)⟩

theorem CacheOk.evictPrefixSample (s : Sweep) :
    CacheOk rx Used
      { cache with prefixCache := cache.prefixCache.evictSample s cache.maxCacheEntries } :=
  ⟨evictSample_all h.prefixCache _, h.regexCache⟩

theorem CacheOk.evictRegexSample (s : Sweep) :
    CacheOk rx Used
      { cache with regexCache := cache.regexCache.evictSample s cache.maxCacheEntries } :=
  ⟨h.prefixCache, evictSample_all h.regexCache _⟩

end

theorem cacheOk_clear (cache : RouterCache) : CacheOk rx Used cache.clearLookupCaches :=
  ⟨.empty, .empty⟩

theorem cacheOk_new (maxCacheEntries : ℕ) : CacheOk rx Used (.new maxCacheEntries) :=
  ⟨.empty, .empty⟩

end

/-! ## Runs -/

/-- The lookups of a run are well formed. -/
def CacheAct.Ok : CacheAct → Prop
  | .lookup _ r _ => r.Ok
  | _ => True

/-- What a lookup should return, for an act that is one. -/
def CacheAct.uncached (rx : RegexCrate) (snapshots : UInt64 → RouteSnapshot) :
    CacheAct → Option (Option RouteMatch)
  | .lookup g r _ => some ((snapshots g).findUncached rx r)
  | _ => none

section
variable {rx : RegexCrate} {snapshots : UInt64 → RouteSnapshot}

theorem answers_eq (hbl : ∀ g, (snapshots g).Built rx) {cache : RouterCache}
    (h : CacheOk rx (fun g s => s = snapshots g) cache) {acts : List CacheAct}
    (ha : ∀ a ∈ acts, a.Ok) :
    cache.answers rx snapshots acts = acts.filterMap (CacheAct.uncached rx snapshots) := by
  induction acts generalizing cache with
  | nil => rfl
  | cons a acts ih =>
    have ht : ∀ a ∈ acts, a.Ok := fun b hb => ha b (List.mem_cons_of_mem _ hb)
    cases a with
    | lookup g r s =>
      have hf := find_ok h rfl (fun _ hs => hs) (hbl g) (ha _ List.mem_cons_self) s
      rw [RouterCache.answers, hf.1, RouterCache.step, ih hf.2 ht]
      rfl
    | evictPrefixSample s => exact ih (h.evictPrefixSample s) ht
    | evictRegexSample s => exact ih (h.evictRegexSample s) ht
    | clearLookupCaches => exact ih (cacheOk_clear cache) ht

end

/-- **The caches are transparent.**  If every generation stands for one table and one admission, the
    lookups of every run return what the search of that table returns. -/
theorem cache_transparent (rx : RegexCrate) (snapshots : UInt64 → RouteSnapshot)
    (hbuilt : ∀ g, (snapshots g).Built rx) (maxCacheEntries : ℕ) (acts : List CacheAct)
    (hacts : ∀ a ∈ acts, a.Ok) :
    (RouterCache.new maxCacheEntries).answers rx snapshots acts =
      acts.filterMap (CacheAct.uncached rx snapshots) :=
  answers_eq hbuilt (cacheOk_new maxCacheEntries) hacts

/-- A miss that is stored, the same lookup again, a sweep, and a lookup that finds no route. -/
def exampleActs : List CacheAct :=
  let r (host path : Bytes) (h : IsUtf8 path) : LookupRequest := ⟨some host, ⟨path, h⟩, some 80, false⟩
  [.lookup 1 (r (lit "a.example.com") (lit "/api%2Fusers/7") (by decide +kernel)) .sorted,
    .lookup 1 (r (lit "a.example.com") (lit "/api/users/7") (by decide +kernel)) .sorted,
    .evictPrefixSample .sorted,
    .lookup 2 (r (lit "a.example.com") (lit "*") (by decide +kernel)) .sorted]

theorem exampleActs_ok : ∀ a ∈ exampleActs, a.Ok := by
  intro a ha
  simp only [exampleActs, List.mem_cons, List.not_mem_nil, or_false] at ha
  rcases ha with rfl | rfl | rfl | rfl
  · exact ⟨by decide +kernel, by decide +kernel, by decide +kernel⟩
  · exact ⟨by decide +kernel, by decide +kernel, by decide +kernel⟩
  · trivial
  · exact ⟨by decide +kernel, by decide +kernel, by decide +kernel⟩

theorem cache_transparent_example :
    (RouterCache.new 16).answers .literal
      (fun _ => ⟨buildRouteTable .literal .stored exampleConfig, .pending⟩) exampleActs =
    let deep : Proxy :=
      ⟨lit "deep", lit "ns", [lit "*.example.com"], some (lit "/api/users"), none, .httpPool⟩
    [some ⟨deep, [], 10⟩, some ⟨deep, [], 10⟩, none] := by
  refine (cache_transparent .literal
    (fun _ => ⟨buildRouteTable .literal .stored exampleConfig, .pending⟩)
    (fun _ => ⟨_, _, rfl⟩) 16 exampleActs exampleActs_ok).trans ?_
  decide +kernel

end Ferrum.Router
