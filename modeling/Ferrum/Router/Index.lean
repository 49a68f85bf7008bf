/-
  What the indexes of a route table hold.

  The meaning of the tiers of one kind is a function from host keys to entries (`RawTiers.entries`).

  * `rawTable_holds`: under a key stand the candidates of that key and kind, in the order of the
    configuration.
  * `findExact_index`, `findWildcard_index`: the search of a tier in terms of the entries.
-/
import Ferrum.Router.Spec

namespace Ferrum.Router

open Lib List Route

/-! ## Tiers -/

namespace RawTiers
variable {E I : Type} (t : RawTiers E)

def entries : HostKey → List E
  | .exact host => (t.exactHosts.get host).getD []
  | .wildcard pattern => (t.wildcardHosts.get pattern).getD []
  | .catchAll => t.catchAll

theorem entries_push (e : E) (k k' : HostKey) :
    (t.push e k).entries k' = t.entries k' ++ if k = k' then [e] else [] := by
  cases k <;> cases k' <;> simp [push, entries, HMap.get_push]

theorem entries_add (e : E) (hosts : List Bytes) (k : HostKey) :
    (t.add hosts e).entries k =
      t.entries k ++ ((hostKeys hosts).filter fun k' => k' = k).map fun _ => e := by
  rw [add]
  induction hostKeys hosts generalizing t with
  | nil => simp
  | cons k' ks ih =>
    rw [foldl_cons, ih, entries_push, append_assoc]
    by_cases h : k' = k
    · simp [h]
    · simp [h]

@[simp] theorem entries_empty (k : HostKey) : (empty : RawTiers E).entries k = [] := by
  cases k <;> rfl

/-- The keys of the map of wildcard hosts are wildcard patterns. -/
def WildcardKeys : Prop :=
  ∀ pattern, (t.wildcardHosts.get pattern).isSome = true → isWildcard pattern = true

variable {t} in
theorem WildcardKeys.add (h : t.WildcardKeys) (e : E) (hosts : List Bytes) :
    (t.add hosts e).WildcardKeys := by
  have hks : ∀ k ∈ hostKeys hosts, ∀ pattern, k = .wildcard pattern → isWildcard pattern = true := by
    rintro k hk pattern rfl
    rw [hostKeys] at hk
    split_ifs at hk
    · cases mem_singleton.1 hk
    · obtain ⟨host, -, hh⟩ := mem_map.1 hk
      split_ifs at hh with hw
      cases hh
      exact hw
  rw [RawTiers.add]
  generalize hostKeys hosts = ks at hks
  induction ks generalizing t with
  | nil => exact h
  | cons k ks ih =>
    rw [foldl_cons]
    refine ih ?_ fun k' hk' => hks k' (mem_cons_of_mem _ hk')
    cases k with
    | exact host => exact h
    | catchAll => exact h
    | wildcard pattern =>
      intro pattern' hp
      simp only [push, HMap.push, HMap.get_insert_eq] at hp
      split_ifs at hp with heq
      · rw [heq]
        exact hks _ mem_cons_self pattern rfl
      · exact h pattern' hp

variable {t} (order : IterOrder) (f : List E → I) {find : I → Option RouteMatch}

/-- The wildcard patterns from the longest. -/
def patterns (t : RawTiers E) : List Bytes :=
  (sortByKey (fun e => OrderDual.toDual e.1.length) (order.iter t.wildcardHosts)).map Prod.fst

theorem mem_iter {pattern : Bytes} {es : List E} :
    (pattern, es) ∈ sortByKey (fun e => OrderDual.toDual e.1.length) (order.iter t.wildcardHosts) ↔
      t.wildcardHosts.get pattern = some es := by
  rw [(sortByKey_perm _ _).mem_iff, (order.perm _).mem_iff, HMap.mem_toList]

theorem mem_patterns {pattern : Bytes} (h : t.entries (.wildcard pattern) ≠ []) :
    pattern ∈ t.patterns order := by
  cases hget : t.wildcardHosts.get pattern with
  | none => simp [entries, hget] at h
  | some es => exact mem_map.2 ⟨(pattern, es), (mem_iter order).2 hget, rfl⟩

theorem WildcardKeys.patterns {pattern : Bytes} (h : t.WildcardKeys)
    (hp : pattern ∈ t.patterns order) : isWildcard pattern = true := by
  obtain ⟨⟨_, es⟩, hm, rfl⟩ := mem_map.1 hp
  refine h _ ?_
  rw [(mem_iter order).1 hm]
  rfl

theorem patterns_pairwise : (t.patterns order).Pairwise fun a b => b.length ≤ a.length := by
  rw [patterns, pairwise_map]
  exact sortByKey_pairwise (fun e : Bytes × List E => OrderDual.toDual e.1.length) _

theorem findExact_index (hn : find (f []) = none) (host : Bytes) :
    (t.index order f).findExact host find = find (f (t.entries (.exact host))) := by
  rw [HostTiers.findExact, index, HMap.get_mapVal, entries]
  cases t.exactHosts.get host with
  | none => exact hn.symm
  | some es => rfl

theorem findWildcard_index (host : Bytes) :
    (t.index order f).findWildcard host find =
      ((t.patterns order).filter fun pattern => wildcardMatches pattern host).findSome?
        fun pattern => find (f (t.entries (.wildcard pattern))) := by
  have hget : ∀ x ∈ sortByKey (fun e => OrderDual.toDual e.1.length) (order.iter t.wildcardHosts),
      t.entries (.wildcard x.1) = x.2 := by
    intro x hx
    rw [entries, (mem_iter order).1 hx, Option.getD_some]
  simp only [HostTiers.findWildcard, index, patterns]
  generalize sortByKey (fun e => OrderDual.toDual e.1.length) (order.iter t.wildcardHosts) = l at hget
  induction l with
  | nil => rfl
  | cons x l ih =>
    specialize ih fun y hy => hget y (mem_cons_of_mem _ hy)
    simp only [map_cons, findSome?_cons] at ih ⊢
    by_cases hm : wildcardMatches x.1 host
    · simp only [filter_cons, hm, if_true, findSome?_cons, hget x mem_cons_self, ih]
    · simp only [filter_cons, hm, if_false, ih, Bool.false_eq_true]

end RawTiers

/-! ## Building -/

/-- The path, prefix or pattern of a route. -/
def Route.text : Route → Bytes
  | .exactPath text | .pathPrefix text | .regex text => text
  | .hostOnly => []

namespace Route
variable {r : Route}

theorem eq_exactPath (h : r.kind = 0) : r = .exactPath r.text := by cases r <;> first | rfl | cases h

theorem eq_pathPrefix (h : r.kind = 1) : r = .pathPrefix r.text := by cases r <;> first | rfl | cases h

theorem eq_regex (h : r.kind = 2) : r = .regex r.text := by cases r <;> first | rfl | cases h

theorem eq_hostOnly (h : r.kind = 3) : r = .hostOnly := by cases r <;> first | rfl | cases h

end Route

def Candidate.pathEntry (c : Candidate) : RouteEntry := ⟨c.route.text, c.candidate⟩

def Candidate.regexEntry (rx : RegexCrate) (c : Candidate) : RegexRouteEntry :=
  ⟨c.route.text, rx.captureNames c.route.text, c.candidate⟩

/-- Under every key stand the candidates of `l` of that key and kind, in their order. -/
structure RawTiers.Holds {E : Type} (t : RawTiers E) (kind : ℕ) (entry : Candidate → E)
    (l : List Candidate) : Prop where
  entries : ∀ k, t.entries k = (l.filter fun c => c.key = k ∧ c.route.kind = kind).map entry
  wildcardKeys : t.WildcardKeys

structure RawTable.Holds (rx : RegexCrate) (t : RawTable) (l : List Candidate) : Prop where
  exactPaths : t.exactPaths.Holds 0 Candidate.pathEntry l
  prefixes : t.prefixes.Holds 1 Candidate.pathEntry l
  regexes : t.regexes.Holds 2 (Candidate.regexEntry rx) l
  hostOnly : t.hostOnly.Holds 3 Candidate.candidate l

section
variable {E : Type} {t : RawTiers E} {kind : ℕ} {entry : Candidate → E} {l : List Candidate}
variable {route : Route} {candidate : PortScopedProxy}

theorem RawTiers.Holds.empty : (RawTiers.empty : RawTiers E).Holds kind entry [] :=
  ⟨fun _ => entries_empty _, fun _ h => by simp [RawTiers.empty] at h⟩

theorem RawTiers.Holds.add {e : E} (h : t.Holds kind entry l) (hk : route.kind = kind)
    (he : ∀ key, entry ⟨key, route, candidate⟩ = e) (hosts : List Bytes) :
    (t.add hosts e).Holds kind entry
      (l ++ (hostKeys hosts).map fun key => ⟨key, route, candidate⟩) := by
  refine ⟨fun k => ?_, h.wildcardKeys.add e hosts⟩
  rw [entries_add, h.entries k, filter_append, map_append, filter_map, map_map]
  simp [Function.comp_def, hk, he]

theorem RawTiers.Holds.other (h : t.Holds kind entry l) (hk : route.kind ≠ kind)
    (keys : List HostKey) :
    t.Holds kind entry (l ++ keys.map fun key => ⟨key, route, candidate⟩) := by
  refine ⟨fun k => ?_, h.wildcardKeys⟩
  rw [h.entries k, filter_append, filter_map]
  simp [Function.comp_def, hk]

end

section
variable {rx : RegexCrate} {config : GatewayConfig}

theorem isNone_listenPath (rx : RegexCrate) (p : Proxy) :
    p.listenPath.isNone = decide (p.route rx = .hostOnly) := by
  rw [Proxy.route]
  split <;> simp_all

theorem RawTable.Holds.add {t : RawTable} {l : List Candidate} (h : t.Holds rx l) (p : Proxy) :
    (t.add rx config p).Holds rx (l ++ p.candidates rx config) := by
  rw [RawTable.add, Proxy.candidates]
  by_cases hs : (meshSiblingSkipIds config).contains (p.namespace_, p.id)
  · rw [if_pos hs, hs, Bool.true_or, if_pos rfl, append_nil]
    exact h
  · rw [if_neg hs, Bool.eq_false_iff.2 hs, Bool.false_or, Proxy.hostKeys, isNone_listenPath rx]
    cases hr : p.route rx with
    | hostOnly =>
      by_cases hh : p.hosts.isEmpty
      · simpa [hh] using h
      · simp only [hh, decide_true, Bool.true_and, Bool.false_eq_true, if_false]
        exact ⟨h.exactPaths.other (by simp [kind]) _,
          h.prefixes.other (by simp [kind]) _, h.regexes.other (by simp [kind]) _,
          h.hostOnly.add rfl (fun _ => rfl) _⟩
    | exactPath path =>
      exact ⟨h.exactPaths.add rfl (fun _ => rfl) _, h.prefixes.other (by simp [kind]) _,
        h.regexes.other (by simp [kind]) _, h.hostOnly.other (by simp [kind]) _⟩
    | pathPrefix path =>
      exact ⟨h.exactPaths.other (by simp [kind]) _, h.prefixes.add rfl (fun _ => rfl) _,
        h.regexes.other (by simp [kind]) _, h.hostOnly.other (by simp [kind]) _⟩
    | regex pattern =>
      by_cases hv : rx.valid pattern
      · simp only [compiles, hv, Bool.not_true, Bool.false_eq_true, if_false]
        exact ⟨h.exactPaths.other (by simp [kind]) _,
          h.prefixes.other (by simp [kind]) _, h.regexes.add rfl (fun _ => rfl) _,
          h.hostOnly.other (by simp [kind]) _⟩
      · simpa [compiles, hv] using h

/-- **The tiers hold the candidates of the configuration.** -/
theorem rawTable_holds (rx : RegexCrate) (config : GatewayConfig) :
    (rawTable rx config).Holds rx (config.candidates rx) := by
  have hr : ∀ (ps : List Proxy) (t : RawTable) (l : List Candidate), t.Holds rx l →
      (ps.foldl (RawTable.add rx config) t).Holds rx
        (l ++ ps.flatMap (Proxy.candidates rx config)) := by
    intro ps
    induction ps with
    | nil => intro t l h; simpa using h
    | cons p ps ih =>
      intro t l h
      rw [foldl_cons, flatMap_cons, ← append_assoc]
      exact ih _ _ (h.add p)
  exact hr _ _ [] ⟨.empty, .empty, .empty, .empty⟩

end

end Ferrum.Router
