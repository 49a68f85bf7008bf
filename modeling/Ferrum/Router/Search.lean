/-
  The search of the table that is built from a configuration, against the scan of its proxies.

  * `search_eq_find`, `find_eq_slots`: the search tries the tiers of the host, in each the kinds of paths, and for
    each kind the keys of the tier.
  * `slot_eq`: what it finds for one key and kind is the first least of the eligible candidates.
  * `search_least`: the search finds the first least of all eligible candidates.
-/
import Ferrum.Router.Matchers
import Mathlib.Tactic.IntervalCases

namespace Ferrum.Router

open Lib List Candidate OrderDual

/-! ## Tiers -/

/-- The search of one tier: exact hosts, wildcard hosts, all hosts. -/
def HostTiers.findTier {I : Type} (t : HostTiers I) (host : Option Bytes)
    (find : I → Option RouteMatch) : ℕ → Option RouteMatch
  | 0 => host.bind fun h => t.findExact h find
  | 1 => host.bind fun h => t.findWildcard h find
  | _ => find t.catchAll

/-- The keys of a tier that match the host, in the order in which they are tried. -/
def RawTiers.keys {E : Type} (order : IterOrder) (t : RawTiers E) (host : Option Bytes) :
    ℕ → List HostKey
  | 0 => host.toList.map .exact
  | 1 => host.toList.flatMap fun h =>
    ((t.patterns order).filter fun pattern => wildcardMatches pattern h).map .wildcard
  | _ => [.catchAll]

section
variable {E I : Type} {t : RawTiers E} {order : IterOrder} {f : List E → I}
variable {find : I → Option RouteMatch} {host : Option Bytes}

theorem findTier_index (hn : find (f []) = none) (n : ℕ) :
    (t.index order f).findTier host find n =
      (t.keys order host n).findSome? fun k => find (f (t.entries k)) := by
  match n with
  | 0 =>
    cases host with
    | none => rfl
    | some h =>
      simp only [HostTiers.findTier, RawTiers.keys, Option.bind_some, Option.toList_some,
        map_singleton, RawTiers.findExact_index order f hn]
      simp
  | 1 =>
    cases host with
    | none => rfl
    | some h =>
      simp only [HostTiers.findTier, RawTiers.keys, Option.bind_some, Option.toList_some,
        RawTiers.findWildcard_index]
      simp [findSome?_map, Function.comp_def]
  | n + 2 =>
    simp only [HostTiers.findTier, RawTiers.keys]
    simp [RawTiers.index, RawTiers.entries]

/-- The keys match the host, and the longer patterns come first. -/
theorem keys_pairwise (n : ℕ) : (t.keys order host n).Pairwise fun k k' =>
    toDual k.patternLength ≤ toDual k'.patternLength := by
  match n, host with
  | 0, none => exact List.Pairwise.nil
  | 0, some _ => exact pairwise_singleton _ _
  | 1, none => exact List.Pairwise.nil
  | 1, some h =>
    simp only [RawTiers.keys, Option.toList_some, flatMap_singleton, pairwise_map]
    exact (t.patterns_pairwise order).filter _
  | n + 2, _ => exact pairwise_singleton _ _

variable {k : HostKey}

theorem mem_keys {n : ℕ} (hn : n ≤ 2) (h : k ∈ t.keys order host n) :
    k.tier = n ∧ k.matchesHost host = true ∧
      ∀ pattern, k = .wildcard pattern → pattern ∈ t.patterns order := by
  obtain rfl | rfl | rfl : n = 0 ∨ n = 1 ∨ n = 2 := by omega
  · obtain ⟨h', hh', rfl⟩ := mem_map.1 h
    rw [Option.mem_toList.1 hh']
    exact ⟨rfl, by simp [HostKey.matchesHost], nofun⟩
  · obtain ⟨h', hh', hk⟩ := mem_flatMap.1 h
    obtain ⟨pattern, hp, rfl⟩ := mem_map.1 hk
    rw [mem_filter] at hp
    rw [Option.mem_toList.1 hh']
    refine ⟨rfl, hp.2, ?_⟩
    rintro _ ⟨⟩
    exact hp.1
  · rw [mem_singleton.1 h]
    exact ⟨rfl, rfl, nofun⟩

/-- A key of the tier that matches the host and has entries is tried. -/
theorem mem_keys_of_matchesHost (hm : k.matchesHost host = true) (hne : t.entries k ≠ []) :
    k ∈ t.keys order host k.tier := by
  cases k with
  | exact h =>
    rw [of_decide_eq_true hm]
    exact mem_singleton.2 rfl
  | wildcard pattern =>
    obtain ⟨h, rfl⟩ : ∃ h, host = some h := by
      cases host with
      | none => cases hm
      | some h => exact ⟨h, rfl⟩
    simp only [HostKey.tier, RawTiers.keys, Option.toList_some, flatMap_singleton]
    exact mem_map.2 ⟨pattern,
      mem_filter.2 ⟨RawTiers.mem_patterns order hne, hm⟩, rfl⟩
  | catchAll => exact mem_singleton.2 rfl

end

theorem isWildcard_iff {pattern : Bytes} :
    isWildcard pattern = true ↔ ∃ suffix, pattern = 0x2a :: 0x2e :: suffix := by
  have hli : lit "*." = [0x2a, 0x2e] := by decide +kernel
  rw [isWildcard, hli, isPrefixOf_iff_prefix]
  constructor
  · rintro ⟨suffix, rfl⟩
    exact ⟨suffix, rfl⟩
  · rintro ⟨suffix, rfl⟩
    exact ⟨suffix, rfl⟩

theorem suffix_of_wildcardMatches {suffix host : Bytes}
    (h : wildcardMatches (0x2a :: 0x2e :: suffix) host = true) : suffix <:+ host := by
  simp only [wildcardMatches] at h
  split_ifs at h
  rw [Bool.and_eq_true, isSuffixOf_iff_suffix] at h
  exact h.1

/-- Patterns of one length that match the same host are the same. -/
theorem key_eq_of_length {host : Option Bytes} {k k' : HostKey} (hk : k.matchesHost host = true)
    (hk' : k'.matchesHost host = true) (ht : k.tier = k'.tier)
    (hln : k.patternLength = k'.patternLength)
    (hw : ∀ pattern, k = .wildcard pattern → isWildcard pattern = true)
    (hw' : ∀ pattern, k' = .wildcard pattern → isWildcard pattern = true) : k = k' := by
  cases k with
  | exact h =>
    cases k' with
    | exact h' =>
      have := (of_decide_eq_true hk).symm.trans (of_decide_eq_true hk')
      cases this
      rfl
    | _ => cases ht
  | wildcard pattern =>
    cases k' with
    | wildcard pattern' =>
      obtain ⟨suffix, rfl⟩ := isWildcard_iff.1 (hw pattern rfl)
      obtain ⟨suffix', rfl⟩ := isWildcard_iff.1 (hw' pattern' rfl)
      cases host with
      | none => cases hk
      | some h =>
        have hs : suffix <:+ h := suffix_of_wildcardMatches hk
        have hs' : suffix' <:+ h := suffix_of_wildcardMatches hk'
        simp only [HostKey.patternLength, length_cons, Nat.add_right_cancel_iff] at hln
        rw [suffix_iff_eq_drop.1 hs, suffix_iff_eq_drop.1 hs', hln]
    | _ => cases ht
  | catchAll =>
    cases k' with
    | catchAll => rfl
    | _ => cases ht

/-! ## One key and kind -/

section
variable {rx : RegexCrate} {config : GatewayConfig} {host : Option Bytes} {path : Bytes}
variable {ctx : HttpPortMatchContext}

/-- What the search finds under one key, by the kind of the paths. -/
def slot (rx : RegexCrate) (path : Bytes) (ctx : HttpPortMatchContext) (raw : RawTable) (k : HostKey) :
    ℕ → Option RouteMatch
  | 0 => findExactPathMatchIndexed (PathIndex.fromEntries (raw.exactPaths.entries k)) path ctx
  | 1 => findPrefixMatchIndexed (PathIndex.fromEntries (sortByLength (raw.prefixes.entries k)))
    path ctx
  | 2 => findRegexMatchIndexed rx (IndexedRegexRoutes.new rx (raw.regexes.entries k)) path ctx
  | _ => hostOnlyMatch ctx (raw.hostOnly.entries k)

variable {c : Candidate} {k : HostKey} {kind : ℕ} {m : RouteMatch} {l : List Candidate}
  {table : HostRouteTable}

theorem mem_candidates (h : c ∈ config.candidates rx) :
    ∃ p ∈ config.proxies, c.key ∈ p.hostKeys ∧ c.route = p.route rx ∧
      c.route.compiles rx = true ∧ c.candidate.proxy = p := by
  obtain ⟨p, hp, hc⟩ := mem_flatMap.1 h
  rw [Proxy.candidates] at hc
  split_ifs at hc with hs
  · cases hc
  · obtain ⟨k, hk, rfl⟩ := mem_map.1 hc
    simp only [Bool.or_eq_true, Bool.not_eq_true', not_or, Bool.not_eq_false] at hs
    exact ⟨p, (mem_filter.1 hp).1, hk, rfl, hs.2, rfl⟩

theorem routeMatch_proxy (c : Candidate) (path : Bytes) :
    (c.routeMatch rx path).proxy = c.candidate.proxy := by
  rw [routeMatch]
  cases c.route <;> rfl

theorem valid_of_mem (hc : c ∈ config.candidates rx) (hk : c.route.kind = 2) :
    rx.valid c.route.text = true := by
  obtain ⟨p, -, -, -, hv, -⟩ := mem_candidates hc
  rw [Route.eq_regex hk] at hv
  exact hv

theorem ConfigOk.text_ne_nil (hcn : ConfigOk config) (hc : c ∈ config.candidates rx)
    (hk : c.route.kind = 1) : c.route.text ≠ [] := by
  obtain ⟨p, hp, -, hr, -⟩ := mem_candidates hc
  have hr' := hr.symm.trans (Route.eq_pathPrefix hk)
  intro hn
  rw [hn, Proxy.route] at hr'
  split at hr' <;> cases hr'
  have := hcn p hp [] ‹_›
  simp at this

theorem filter_eligible (hk : k.matchesHost host = true) (kind : ℕ) :
    matching rx path ctx ((config.candidates rx).filter fun c =>
      c.key = k ∧ c.route.kind = kind) =
      (eligibleCandidates rx config host path ctx).filter fun c =>
        c.key = k ∧ c.route.kind = kind := by
  rw [matching, eligibleCandidates, filter_filter, filter_filter]
  refine filter_congr fun c _ => ?_
  by_cases hke : c.key = k
  · simp [eligible, hke, hk, Bool.and_comm]
  · simp [hke]

/-- **Under one key and for one kind the search finds the first least eligible candidate.** -/
theorem slot_eq (hcn : ConfigOk config) (hk : k.matchesHost host = true) (hkn : kind ≤ 3) :
    slot rx path ctx (rawTable rx config) k kind =
      (((eligibleCandidates rx config host path ctx).filter fun c =>
        c.key = k ∧ c.route.kind = kind).argmin
        (pathRank ctx (eligibleCandidates rx config host path ctx))).map
        (routeMatch rx path) := by
  have hr := rawTable_holds rx config
  have hf := @filter_eligible rx config host path ctx k hk kind
  have hm : ∀ c ∈ (config.candidates rx).filter fun c => c.key = k ∧ c.route.kind = kind,
      c ∈ config.candidates rx ∧ c.key = k ∧ c.route.kind = kind := by
    intro c hc
    rw [mem_filter, decide_eq_true_iff] at hc
    exact hc
  rw [← hf]
  interval_cases kind
  · rw [slot, hr.exactPaths.entries]
    exact findExactPath_eq (holds_fromEntries _) fun c hc => (hm c hc).2.2
  · rw [slot, hr.prefixes.entries]
    exact findPrefix_eq (holds_fromSorted _) (fun c hc => (hm c hc).2.2)
      fun c hc => hcn.text_ne_nil (hm c hc).1 (hm c hc).2.2
  · rw [slot, hr.regexes.entries]
    refine findRegex_eq (fun c hc => (hm c hc).2.2)
      (fun a ha b hb => (hm a ha).2.1.trans (hm b hb).2.1.symm) hf (fun a b hab => ?_)
      fun c hc => valid_of_mem (hm c hc).1 (hm c hc).2.2
    rw [Prod.mk.injEq] at hab
    rw [hab.1, hab.2]
  · show hostOnlyMatch ctx _ = _
    rw [hr.hostOnly.entries]
    exact hostOnlyMatch_eq fun c hc => (hm c hc).2.2

/-- What is found comes from a candidate of the configuration. -/
theorem slot_mem (hk : kind ≤ 3) (h : slot rx path ctx (rawTable rx config) k kind = some m) :
    ∃ c ∈ config.candidates rx, c.routeMatch rx path = m := by
  have hr := rawTable_holds rx config
  generalize hl : ((config.candidates rx).filter fun c => c.key = k ∧ c.route.kind = kind) = l
  have hm : ∀ c ∈ l, c ∈ config.candidates rx ∧ c.key = k ∧ c.route.kind = kind := by
    intro c hc
    rw [← hl, mem_filter, decide_eq_true_iff] at hc
    exact hc
  have har : ∀ {β : Type} [LinearOrder β] {p : Candidate → Bool} {f : Candidate → β},
      ((l.filter p).argmin f).map (routeMatch rx path) = some m →
      ∃ c ∈ config.candidates rx, c.routeMatch rx path = m := by
    intro β _ p f h
    obtain ⟨c, hc, rfl⟩ := Option.map_eq_some_iff.1 h
    exact ⟨c, (hm c (mem_filter.1 (argmin_mem hc)).1).1, rfl⟩
  interval_cases kind
  · rw [slot, hr.exactPaths.entries, hl] at h
    rw [findExactPath_eq (holds_fromEntries l) fun c hc => (hm c hc).2.2] at h
    exact har (f := pathRank ctx []) h
  · rw [slot, hr.prefixes.entries, hl, findPrefixMatchIndexed_eq] at h
    obtain ⟨key, -, hp⟩ := exists_of_findSome?_eq_some h
    rw [(holds_fromSorted l).pick] at hp
    obtain ⟨c, hc, rfl⟩ := Option.map_eq_some_iff.1 hp
    have hc' := mem_filter.1 (argmin_mem hc)
    rw [Bool.and_eq_true, decide_eq_true_iff] at hc'
    refine ⟨c, (hm c hc'.1).1, ?_⟩
    rw [routeMatch, Route.eq_pathPrefix (hm c hc'.1).2.2, hc'.2.1]
  · rw [slot, hr.regexes.entries, hl] at h
    rw [findRegex_eq (fun c hc => (hm c hc).2.2)
      (fun a ha b hb => (hm a ha).2.1.trans (hm b hb).2.1.symm) (filter_true _).symm
      (fun _ _ _ => rfl) fun c hc => valid_of_mem (hm c hc).1 (hm c hc).2.2] at h
    exact har h
  · change hostOnlyMatch ctx _ = _ at h
    rw [hr.hostOnly.entries, hl, hostOnlyMatch_eq fun c hc => (hm c hc).2.2] at h
    exact har (f := pathRank ctx []) h

/-! ## One tier -/

/-- The keys of a tier, tried in their order, if under each the first least of the candidates in `l`
    is found. -/
theorem tier_eq {E β : Type} [LinearOrder β] {t : RawTiers E} {order : IterOrder}
    {entry : Candidate → E} (ht : t.Holds kind entry (config.candidates rx))
    (hl : ∀ c ∈ l, c ∈ config.candidates rx ∧ c.key.matchesHost host = true) {g : Candidate → β}
    {s : HostKey → Option RouteMatch} (hs : ∀ k : HostKey, k.matchesHost host = true → s k =
      ((l.filter fun c => c.key = k ∧ c.route.kind = kind).argmin g).map
        (routeMatch rx path)) {n : ℕ} (hn : n ≤ 2) :
    (t.keys order host n).findSome? s =
      (((l.filter fun c => c.key.tier = n).filter fun c => c.route.kind = kind).argmin fun c =>
        toLex (toDual c.key.patternLength, g c)).map (routeMatch rx path) := by
  generalize hM : ((l.filter fun c => c.key.tier = n).filter fun c => c.route.kind = kind) = M
  have hm : ∀ c ∈ M, c.key ∈ t.keys order host n := by
    intro c hc
    rw [← hM, mem_filter, mem_filter, decide_eq_true_iff, decide_eq_true_iff] at hc
    obtain ⟨⟨hc, htr⟩, hkn⟩ := hc
    obtain ⟨hc, hh⟩ := hl c hc
    rw [← htr]
    refine mem_keys_of_matchesHost hh ?_
    rw [ht.entries]
    exact ne_nil_of_mem (mem_map_of_mem (mem_filter.2 ⟨hc, by simp [hkn]⟩))
  have hw : ∀ k ∈ t.keys order host n, ∀ pattern, k = .wildcard pattern →
      isWildcard pattern = true := fun k hk pattern hp =>
    ht.wildcardKeys.patterns order ((mem_keys hn hk).2.2 pattern hp)
  have hks : ∀ k ∈ t.keys order host n, s k =
      ((M.filter fun c => c.key = k).argmin g).map (routeMatch rx path) := by
    intro k hk
    rw [hs k (mem_keys hn hk).2.1, ← hM, filter_filter, filter_filter]
    congr 2
    refine filter_congr fun c _ => ?_
    by_cases hke : c.key = k
    · simp [hke, (mem_keys hn hk).1]
    · simp [hke]
  rw [findSome_congr hks]
  calc _ = ((t.keys order host n).findSome? fun k => (M.filter fun c => c.key = k).argmin g).map
          (routeMatch rx path) := map_findSome?.symm
    _ = _ := by
      rw [findSome_argmin key (fun k => toDual k.patternLength) _
        (keys_pairwise n) hm]
      intro a ha k hk hln
      have ha' := hm a ha
      exact key_eq_of_length (mem_keys hn ha').2.1 (mem_keys hn hk).2.1
        ((mem_keys hn ha').1.trans (mem_keys hn hk).1.symm) hln (hw _ ha') (hw k hk)

/-! ## The table -/

/-- The search of one tier of the table, by the kind of the paths. -/
def HostRouteTable.find (rx : RegexCrate) (table : HostRouteTable) (host : Option Bytes)
    (path : Bytes) (ctx : HttpPortMatchContext) (n : ℕ) : ℕ → Option RouteMatch
  | 0 => table.exactPaths.findTier host (fun routes => findExactPathMatchIndexed routes path ctx) n
  | 1 => table.prefixes.findTier host (fun routes => findPrefixMatchIndexed routes path ctx) n
  | 2 => table.regexes.findTier host (fun routes => findRegexMatchIndexed rx routes path ctx) n
  | _ => table.hostOnly.findTier host (hostOnlyMatch ctx) n

/-- The same, where a match that does not pass the filter is dropped; without a path, none is. -/
def HostRouteTable.findPassing (rx : RegexCrate) (table : HostRouteTable) (host : Option Bytes)
    (path : Bytes) (filter : MeshRouteDirectionFilter) (ctx : HttpPortMatchContext) (n : ℕ) :
    ℕ → Option RouteMatch
  | 0 => table.exactPaths.findTier host
    (fun routes => (findExactPathMatchIndexed routes path ctx).filter filter.passes) n
  | 1 => table.prefixes.findTier host
    (fun routes => (findPrefixMatchIndexed routes path ctx).filter filter.passes) n
  | 2 => table.regexes.findTier host
    (fun routes => (findRegexMatchIndexed rx routes path ctx).filter filter.passes) n
  | _ => table.hostOnly.findTier host (hostOnlyMatch ctx) n

theorem filter_unfiltered (m : Option RouteMatch) :
    m.filter MeshRouteDirectionFilter.unfiltered.passes = m := by
  cases m <;> rfl

theorem findExact_of_isEmpty {I : Type} {t : HostTiers I} (h : t.exactHosts.isEmpty = true)
    (host : Bytes) (find : I → Option RouteMatch) : t.findExact host find = none := by
  rw [HostTiers.findExact, HMap.get_of_isEmpty h, Option.bind_none]

theorem findWildcard_of_isEmpty {I : Type} {t : HostTiers I} (h : t.wildcardHosts.isEmpty = true)
    (host : Bytes) (find : I → Option RouteMatch) : t.findWildcard host find = none := by
  rw [HostTiers.findWildcard, List.isEmpty_iff.1 h, findSome?_nil]

theorem ite_none {α : Type} {b : Bool} {x : Option α} (h : b = false → x = none) :
    (if b = true then x else none) = x := by
  cases b with
  | false => simp [h rfl]
  | true => rfl

/-- No candidate without a path is for all hosts. -/
theorem hostOnly_catchAll (rx : RegexCrate) (config : GatewayConfig) :
    (rawTable rx config).hostOnly.entries .catchAll = [] := by
  rw [(rawTable_holds rx config).hostOnly.entries, map_eq_nil_iff, filter_eq_nil_iff]
  rintro c hc h
  rw [decide_eq_true_iff] at h
  obtain ⟨p, -, hk, hr, -⟩ := mem_candidates hc
  have hn : p.listenPath.isNone = true := by
    rw [isNone_listenPath rx, ← hr, Route.eq_hostOnly h.2]
    rfl
  rw [Proxy.hostKeys, hn, Bool.true_and, h.1] at hk
  split_ifs at hk with hh
  · cases hk
  · rw [hostKeys, if_neg hh] at hk
    obtain ⟨host, -, hhs⟩ := mem_map.1 hk
    split_ifs at hhs

/-- The flags tell whether a kind has entries at all. -/
structure FlagsOk (rx : RegexCrate) (path : Bytes) (ctx : HttpPortMatchContext)
    (table : HostRouteTable) : Prop where
  exactPaths : table.hasExactPathRoutes = false → table.exactPaths.exactHosts.isEmpty = true ∧
    table.exactPaths.wildcardHosts.isEmpty = true ∧
    findExactPathMatchIndexed table.exactPaths.catchAll path ctx = none
  regexes : table.hasRegexRoutes = false → table.regexes.exactHosts.isEmpty = true ∧
    table.regexes.wildcardHosts.isEmpty = true ∧
    findRegexMatchIndexed rx table.regexes.catchAll path ctx = none
  hostOnly : table.hasHostOnlyRoutes = false → table.hostOnly.exactHosts.isEmpty = true ∧
    table.hostOnly.wildcardHosts.isEmpty = true
  catchAll : hostOnlyMatch ctx table.hostOnly.catchAll = none

theorem flagsOk_build (order : IterOrder) (config : GatewayConfig) :
    FlagsOk rx path ctx (buildRouteTable rx order config) := by
  refine ⟨fun h => ?_, fun h => ?_, fun h => ?_, ?_⟩
  · simp only [buildRouteTable, Bool.or_eq_false_iff, Bool.not_eq_false'] at h
    exact ⟨h.1.1, h.1.2, by rw [findExactPathMatchIndexed]; exact if_pos h.2⟩
  · simp only [buildRouteTable, Bool.or_eq_false_iff, Bool.not_eq_false'] at h
    exact ⟨h.1.1, h.1.2, by rw [findRegexMatchIndexed]; exact if_pos h.2⟩
  · simp only [buildRouteTable, Bool.or_eq_false_iff, Bool.not_eq_false'] at h
    exact h
  · show hostOnlyMatch ctx ((rawTable rx config).hostOnly.entries .catchAll) = none
    rw [hostOnly_catchAll]
    rfl

theorem findSome_cons {α β : Type} (f : α → Option β) (a : α) (l : List α) :
    (a :: l).findSome? f = (f a <|> l.findSome? f) := by
  rw [findSome?_cons]
  cases f a <;> rfl

/-- The search tries the tiers in order, and in each the kinds. -/
theorem search_eq_findPassing (h : FlagsOk rx path ctx table) (filter : MeshRouteDirectionFilter) :
    searchRouteTable rx table host path filter ctx = [0, 1, 2].findSome? fun n =>
      [0, 1, 2, 3].findSome? (table.findPassing rx host path filter ctx n) := by
  have he := ite_none fun hf =>
    congrArg (Option.filter filter.passes) (h.exactPaths hf).2.2
  have hr := ite_none fun hf => congrArg (Option.filter filter.passes) (h.regexes hf).2.2
  simp only [searchRouteTable, he, hr]
  cases host with
  | none =>
    simp only [findSome_cons, findSome?_nil, HostRouteTable.findPassing, HostTiers.findTier,
      h.catchAll, Option.bind_none]
    simp
  | some host =>
    rw [Option.bind_some]
    rw [ite_none fun hf => findExact_of_isEmpty (h.exactPaths hf).1 _ _,
      ite_none fun hf => findExact_of_isEmpty (h.regexes hf).1 _ _,
      ite_none fun hf => findExact_of_isEmpty (h.hostOnly hf).1 _ _,
      ite_none fun hf => findWildcard_of_isEmpty (h.exactPaths hf).2.1 _ _,
      ite_none fun hf => findWildcard_of_isEmpty (h.regexes hf).2.1 _ _,
      ite_none fun hf => findWildcard_of_isEmpty (h.hostOnly hf).2 _ _]
    simp only [findSome_cons, findSome?_nil, HostRouteTable.findPassing, HostTiers.findTier,
      h.catchAll, Option.bind_some]
    simp [Option.or_assoc]

theorem search_eq_find (h : FlagsOk rx path ctx table) :
    searchRouteTable rx table host path .unfiltered ctx =
      [0, 1, 2].findSome? fun n => [0, 1, 2, 3].findSome? (table.find rx host path ctx n) := by
  rw [search_eq_findPassing h]
  refine findSome_congr fun n _ => findSome_congr fun kind hk => ?_
  have hk : kind ≤ 3 := by simp at hk; omega
  interval_cases kind
  all_goals simp only [HostRouteTable.findPassing, HostRouteTable.find, filter_unfiltered]

/-- The keys that are tried for one kind. -/
def RawTable.keys (order : IterOrder) (raw : RawTable) (host : Option Bytes) (n : ℕ) :
    ℕ → List HostKey
  | 0 => raw.exactPaths.keys order host n
  | 1 => raw.prefixes.keys order host n
  | 2 => raw.regexes.keys order host n
  | _ => raw.hostOnly.keys order host n

theorem find_eq_slots (order : IterOrder) (n : ℕ) (hk : kind ≤ 3) :
    (buildRouteTable rx order config).find rx host path ctx n kind =
      ((rawTable rx config).keys order host n kind).findSome? fun k =>
        slot rx path ctx (rawTable rx config) k kind := by
  interval_cases kind
  all_goals exact findTier_index rfl n

theorem findPassing_eq_slots (order : IterOrder) (filter : MeshRouteDirectionFilter) (n : ℕ)
    (hk : kind ≤ 3) :
    (buildRouteTable rx order config).findPassing rx host path filter ctx n kind =
      ((rawTable rx config).keys order host n kind).findSome? fun k =>
        (slot rx path ctx (rawTable rx config) k kind).filter fun m =>
          kind = 3 || filter.passes m := by
  interval_cases kind
  · exact findTier_index rfl n
  · exact findTier_index rfl n
  · exact findTier_index rfl n
  · refine (findTier_index (f := id) rfl n).trans (findSome_congr fun k _ => ?_)
    show hostOnlyMatch ctx ((rawTable rx config).hostOnly.entries k) =
      (hostOnlyMatch ctx ((rawTable rx config).hostOnly.entries k)).filter fun m =>
        decide (3 = 3) || filter.passes m
    cases hostOnlyMatch ctx ((rawTable rx config).hostOnly.entries k) <;> rfl

/-- If under each key and for each kind the first least of the candidates in `l` is found, then the
    first least of them all is. -/
theorem slots_least {β : Type} [LinearOrder β]
    (hl : ∀ c ∈ l, c ∈ config.candidates rx ∧ c.key.matchesHost host = true) {g : Candidate → β}
    {s : HostKey → ℕ → Option RouteMatch}
    (hs : ∀ kind ≤ 3, ∀ k : HostKey, k.matchesHost host = true → s k kind =
      ((l.filter fun c => c.key = k ∧ c.route.kind = kind).argmin g).map
        (routeMatch rx path)) (order : IterOrder) :
    ([0, 1, 2].findSome? fun n => [0, 1, 2, 3].findSome? fun kind =>
      ((rawTable rx config).keys order host n kind).findSome? fun k => s k kind) =
    (l.argmin fun c => toLex (c.key.tier, toLex (c.route.kind,
      toLex (toDual c.key.patternLength, g c)))).map (routeMatch rx path) := by
  have hr := rawTable_holds rx config
  -- within a tier, by the kind
  have ht : ∀ n ∈ [0, 1, 2], ([0, 1, 2, 3].findSome? fun kind =>
      ((rawTable rx config).keys order host n kind).findSome? fun k => s k kind) =
      ((l.filter fun c => c.key.tier = n).argmin fun c => toLex (c.route.kind,
        toLex (toDual c.key.patternLength, g c))).map (routeMatch rx path) := by
    intro n hn
    have hn' : n ≤ 2 := by simp at hn; omega
    have hkn : ∀ kind ∈ [0, 1, 2, 3],
        (((rawTable rx config).keys order host n kind).findSome? fun k => s k kind) =
        (((l.filter fun c => c.key.tier = n).filter fun c => c.route.kind = kind).argmin fun c =>
          toLex (toDual c.key.patternLength, g c)).map (routeMatch rx path) := by
      intro kind hk
      have hk' : kind ≤ 3 := by simp at hk; omega
      have hsl := hs kind hk'
      interval_cases kind
      · exact tier_eq hr.exactPaths hl hsl hn'
      · exact tier_eq hr.prefixes hl hsl hn'
      · exact tier_eq hr.regexes hl hsl hn'
      · exact tier_eq hr.hostOnly hl hsl hn'
    rw [findSome_congr hkn]
    calc _ = (([0, 1, 2, 3] : List ℕ).findSome? fun kind =>
          ((l.filter fun c => c.key.tier = n).filter fun c => c.route.kind = kind).argmin fun c =>
          toLex (toDual c.key.patternLength, g c)).map
          (routeMatch rx path) := map_findSome?.symm
      _ = _ := by
        rw [findSome_argmin (fun c : Candidate => c.route.kind) id _ (by decide)
          (fun c _ => by cases c.route <;> simp [Route.kind]) fun _ _ _ _ h => h]
        rfl
  rw [findSome_congr ht]
  calc _ = (([0, 1, 2] : List ℕ).findSome? fun n =>
        (l.filter fun c => c.key.tier = n).argmin fun c => toLex (c.route.kind,
          toLex (toDual c.key.patternLength, g c))).map
        (routeMatch rx path) := map_findSome?.symm
    _ = _ := by
      rw [findSome_argmin (fun c : Candidate => c.key.tier) id _ (by decide)
        (fun c _ => by cases c.key <;> simp [HostKey.tier]) fun _ _ _ _ h => h]
      rfl

theorem mem_eligible (h : c ∈ eligibleCandidates rx config host path ctx) :
    c ∈ config.candidates rx ∧ c.key.matchesHost host = true := by
  rw [eligibleCandidates, mem_filter, eligible, Bool.and_eq_true, Bool.and_eq_true] at h
  exact ⟨h.1, h.2.1.1⟩

/-- What the search of a table finds comes from a candidate. -/
theorem search_mem {order : IterOrder}
    (h : searchRouteTable rx (buildRouteTable rx order config) host path .unfiltered ctx = some m) :
    ∃ c ∈ config.candidates rx, c.routeMatch rx path = m := by
  rw [search_eq_find (flagsOk_build order config)] at h
  obtain ⟨n, -, hn⟩ := exists_of_findSome?_eq_some h
  obtain ⟨kind, hk, hf⟩ := exists_of_findSome?_eq_some hn
  have hk' : kind ≤ 3 := by simp at hk; omega
  rw [find_eq_slots order n hk'] at hf
  obtain ⟨k, -, hs⟩ := exists_of_findSome?_eq_some hf
  exact slot_mem hk' hs

/-- **The search finds the first least eligible candidate.** -/
theorem search_least (hcn : ConfigOk config) (order : IterOrder) :
    searchRouteTable rx (buildRouteTable rx order config) host path .unfiltered ctx =
      (bestCandidate rx config host path ctx).map (routeMatch rx path) := by
  rw [search_eq_find (flagsOk_build order config), bestCandidate]
  refine Eq.trans ?_ (slots_least (fun c hc => mem_eligible hc)
    (fun kind hkn k hk => slot_eq hcn hk hkn) order)
  refine findSome_congr fun n _ => findSome_congr fun kind hkn => ?_
  exact find_eq_slots order n (by simp at hkn; omega)

end

/-- **A lookup is a scan.**  For every order of hash map iteration the search returns the first
    least of the eligible candidates, and nothing only if there is none. -/
theorem route_lookup_least (rx : RegexCrate) (order : IterOrder) (config : GatewayConfig)
    (hconfig : ConfigOk config) (host : Option Bytes) (path : Bytes)
    (frontendPort : Option UInt16) (frontendIsTls : Bool) (admission : GatewayListenerAdmission) :
    let table := buildRouteTable rx order config
    let found := searchRouteTable rx table host path .unfiltered
      (table.portContext frontendPort frontendIsTls admission)
    let ctx := config.portContext frontendPort frontendIsTls admission
    found = (bestCandidate rx config host path ctx).map (routeMatch rx path) ∧
      (found = none ↔ eligibleCandidates rx config host path ctx = []) := by
  intro table found ctx
  have hf : found = (bestCandidate rx config host path ctx).map
      (routeMatch rx path) := search_least hconfig order
  refine ⟨hf, ?_⟩
  rw [hf, Option.map_eq_none_iff, bestCandidate, argmin_eq_none]

/-- Proxies that differ in host, path and kind of path. -/
def exampleConfig : GatewayConfig where
  proxies := [
    ⟨lit "base", lit "ns", [], some (lit "/"), none, .httpPool⟩,
    ⟨lit "wide", lit "ns", [lit "*.com"], some (lit "/api/users"), none, .httpPool⟩,
    ⟨lit "pattern", lit "ns", [lit "*.example.com"], some (lit "~/api/users/7"), none, .httpPool⟩,
    ⟨lit "near", lit "ns", [lit "*.example.com"], some (lit "/api"), none, .httpPool⟩,
    ⟨lit "deep", lit "ns", [lit "*.example.com"], some (lit "/api/users"), none, .httpPool⟩]
  mesh := none
  httpTlsListenPorts := ∅

theorem exampleConfig_ok : ConfigOk exampleConfig := by
  have h : ∀ p ∈ exampleConfig.proxies, ∀ listenPath ∈ p.listenPath,
    listenPath.head? ∈ [some 0x2f, some 0x3d, some 0x7e] := by decide +kernel
  exact h

theorem route_lookup_least_example :
    searchRouteTable .literal (buildRouteTable .literal .stored exampleConfig)
      (some (lit "a.example.com")) (lit "/api/users/7?q") .unfiltered
      ((buildRouteTable .literal .stored exampleConfig).portContext (some 80) false .pending) =
    some ⟨⟨lit "deep", lit "ns", [lit "*.example.com"], some (lit "/api/users"), none, .httpPool⟩,
      [], 10⟩ := by
  refine (route_lookup_least .literal .stored exampleConfig exampleConfig_ok
    (some (lit "a.example.com")) (lit "/api/users/7?q") (some 80) false .pending).1.trans ?_
  decide +kernel

end Ferrum.Router
