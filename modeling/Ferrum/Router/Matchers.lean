/-
  What the search finds under one host key.

  The candidates `l` of the key are all of one kind; each matcher returns the first least of those
  that match the path and may serve the listener.

  * `findExactPath_eq`, `findPrefix_eq`, `findRegex_eq`, `hostOnlyMatch_eq`.
-/
import Ferrum.Router.Index

namespace Ferrum.Router

open Lib List Candidate Route

/-- The candidates that match the path and may serve the listener. -/
abbrev matching (rx : RegexCrate) (path : Bytes) (ctx : HttpPortMatchContext)
    (l : List Candidate) : List Candidate :=
  l.filter fun c => c.route.matchesPath rx path && c.served ctx

section
variable {rx : RegexCrate} {path : Bytes} {ctx : HttpPortMatchContext}

/-! ## Listeners -/

theorem selectPortAwareProxy_eq (l : List Candidate) :
    selectPortAwareProxy (l.map candidate) ctx =
      ((l.filter (served ctx)).argmin (priority ctx)).map
        fun c => c.candidate.proxy := by
  have h := @scanLeast_none PortScopedProxy (fun c => c.matchPriority ctx)
    (l.map candidate)
  rw [filter_map, argmin_map] at h
  calc selectPortAwareProxy (l.map candidate) ctx
      = (Option.map Prod.fst (scanLeast (fun c => c.matchPriority ctx)
          (l.map candidate) none)).map PortScopedProxy.proxy := by
        rw [Option.map_map]; rfl
    _ = _ := by rw [h, Option.map_map]; rfl

theorem pathRank_lt {place : List Candidate} {a b : Candidate}
    (hln : a.route.prefixLength = b.route.prefixLength)
    (hp : patternPlace place a = patternPlace place b) :
    pathRank ctx place a < pathRank ctx place b ↔ a.priority ctx < b.priority ctx := by
  simp [pathRank, Prod.Lex.toLex_lt_toLex, hln, hp]

theorem patternPlace_eq_zero {place : List Candidate} {c : Candidate}
    (h : ∀ text, c.route ≠ .regex text) : patternPlace place c = 0 := by
  rw [patternPlace]
  split
  · exact absurd ‹_› (h _)
  · rfl

/-- Of candidates of one route that is no regular expression only the listener matters. -/
theorem argmin_pathRank {l place : List Candidate} {r : Route} (hl : ∀ c ∈ l, c.route = r)
    (hr : ∀ text, r ≠ .regex text) :
    l.argmin (pathRank ctx place) = l.argmin (priority ctx) := by
  have hp : ∀ c ∈ l, patternPlace place c = 0 := fun c hc =>
    patternPlace_eq_zero (by rw [hl c hc]; exact hr)
  exact argmin_congr fun a ha b hb =>
    pathRank_lt (by rw [hl a ha, hl b hb]) (by rw [hp a ha, hp b hb])

theorem hostOnlyMatch_eq {l place : List Candidate} (hl : ∀ c ∈ l, c.route.kind = 3) :
    hostOnlyMatch ctx (l.map candidate) =
      ((matching rx path ctx l).argmin (pathRank ctx place)).map (routeMatch rx path) := by
  have hr : ∀ c ∈ l, c.route = .hostOnly := fun c hc => eq_hostOnly (hl c hc)
  have hf : matching rx path ctx l =
      l.filter (served ctx) :=
    filter_congr fun c hc => by rw [hr c hc]; rfl
  have hm : ∀ c ∈ l.filter (served ctx), c.route = .hostOnly := fun c hc =>
    hr c (mem_filter.1 hc).1
  rw [hostOnlyMatch, selectPortAwareProxy_eq, Option.map_map, hf, argmin_pathRank hm nofun]
  refine Option.map_congr fun c hc => ?_
  simp [routeMatch, hm c (argmin_mem hc)]

/-! ## Literal paths -/

theorem get_fromEntries (es : List RouteEntry) (key : Bytes) :
    ((PathIndex.fromEntries es).get key).getD [] =
      (es.filter fun e => e.listenPath = key).map RouteEntry.candidate := by
  have hr : ∀ (es : List RouteEntry) (m : PathIndex),
      ((es.foldl (fun m e => m.push e.listenPath e.candidate) m).get key).getD [] =
        (m.get key).getD [] ++ (es.filter fun e => e.listenPath = key).map RouteEntry.candidate := by
    intro es
    induction es with
    | nil => intro m; simp
    | cons e es ih =>
      intro m
      rw [foldl_cons, ih, HMap.get_push]
      by_cases h : e.listenPath = key
      · simp [h]
      · simp [h]
  rw [PathIndex.fromEntries, hr es .empty]
  simp

theorem filter_sortByLength (es : List RouteEntry) (key : Bytes) :
    ((sortByLength es).filter fun e => e.listenPath = key) =
      es.filter fun e => e.listenPath = key := by
  apply filter_sortByKey
  intro a b ha hb
  rw [of_decide_eq_true ha, of_decide_eq_true hb]

/-- An index that holds the candidates `l` by their paths. -/
def PathIndex.Holds (routes : PathIndex) (l : List Candidate) : Prop :=
  ∀ key, (routes.get key).getD [] = (l.filter fun c => c.route.text = key).map candidate

theorem holds_fromEntries (l : List Candidate) :
    (PathIndex.fromEntries (l.map pathEntry)).Holds l := by
  intro key
  rw [get_fromEntries, filter_map, map_map]
  rfl

theorem holds_fromSorted (l : List Candidate) :
    (PathIndex.fromEntries (sortByLength (l.map pathEntry))).Holds l := by
  intro key
  rw [get_fromEntries, filter_sortByLength, filter_map, map_map]
  rfl

variable {routes : PathIndex} {n : ℕ} {key : Bytes}

theorem pick_of_isEmpty (h : routes.isEmpty = true) (key : Bytes) : routes.pick ctx key = none := by
  rw [PathIndex.pick, HMap.get_of_isEmpty h, Option.bind_none]

theorem PathIndex.Holds.pick {l : List Candidate} (h : routes.Holds l) (key : Bytes) :
    routes.pick ctx key =
      ((l.filter fun c => decide (c.route.text = key) && c.served ctx).argmin
        (priority ctx)).map fun c => ⟨c.candidate.proxy, [], key.length⟩ := by
  have hs := @selectPortAwareProxy_eq ctx (l.filter fun c => c.route.text = key)
  rw [← h key, filter_filter] at hs
  have hm : (selectPortAwareProxy ((routes.get key).getD []) ctx).map
      (fun proxy => (⟨proxy, [], key.length⟩ : RouteMatch)) =
      ((l.filter fun c => decide (c.route.text = key) && c.served ctx).argmin
        (priority ctx)).map fun c => ⟨c.candidate.proxy, [], key.length⟩ := by
    rw [hs, Option.map_map]
    simp only [Bool.and_comm]
    rfl
  rw [← hm, PathIndex.pick]
  cases routes.get key <;> rfl

theorem findExactPath_eq {l place : List Candidate} (h : routes.Holds l)
    (hl : ∀ c ∈ l, c.route.kind = 0) :
    findExactPathMatchIndexed routes path ctx =
      ((matching rx path ctx l).argmin (pathRank ctx place)).map (routeMatch rx path) := by
  have hf : matching rx path ctx l =
      l.filter fun c => decide (c.route.text = matchPath path) && c.served ctx := by
    refine filter_congr fun c hc => ?_
    rw [eq_exactPath (hl c hc)]
    rfl
  have hm : ∀ c ∈ l.filter fun c => decide (c.route.text = matchPath path) && c.served ctx,
      c.route = .exactPath (matchPath path) := by
    intro c hc
    rw [mem_filter, Bool.and_eq_true, decide_eq_true_iff] at hc
    rw [eq_exactPath (hl c hc.1), hc.2.1]
  have hfn : findExactPathMatchIndexed routes path ctx = routes.pick ctx (matchPath path) := by
    rw [findExactPathMatchIndexed]
    split_ifs with he
    · exact (pick_of_isEmpty he _).symm
    · rfl
  rw [hf, argmin_pathRank hm nofun, hfn, h.pick]
  refine Option.map_congr fun c hc => ?_
  simp [routeMatch, hm c (argmin_mem hc)]

/-! ## Prefixes -/

/-- The keys that the walk back through the slashes looks up. -/
def walkKeys (path : Bytes) : ℕ → List Bytes
  | 0 => []
  | n + 1 =>
    if path[n]? = some 0x2f then
      if n = 0 then [lit "/"] else path.take (n + 1) :: path.take n :: walkKeys path n
    else walkKeys path n

theorem prefixWalk_eq (lookup : Bytes → Option RouteMatch) (path : Bytes) (n : ℕ) :
    prefixWalk lookup path n = (walkKeys path n).findSome? lookup := by
  induction n with
  | zero => rfl
  | succ n ih =>
    rw [prefixWalk, walkKeys]
    split_ifs with h h0
    · rw [findSome?_cons, findSome?_nil]
      cases lookup (lit "/") <;> rfl
    · rw [findSome?_cons, findSome?_cons, ← ih]
      cases lookup (path.take (n + 1)) with
      | none => cases lookup (path.take n) <;> rfl
      | some m => rfl
    · exact ih

theorem boundary_take_slash {path : Bytes} (h : path[n]? = some 0x2f) :
    isBoundaryPrefix (path.take (n + 1)) path = true := by
  have hls : (path.take (n + 1)).getLast? = some 0x2f := by
    rw [take_add_one, h]
    simp
  simp [isBoundaryPrefix, hls, take_prefix]

theorem boundary_take {path : Bytes} (h : path[n]? = some 0x2f) :
    isBoundaryPrefix (path.take n) path = true := by
  have hln : (path.take n).length = n := by
    rw [length_take]
    have := (List.getElem?_eq_some_iff.1 h).1
    omega
  simp [isBoundaryPrefix, hln, h, take_prefix]

theorem take_one_slash {path : Bytes} (h : path[0]? = some 0x2f) : path.take 1 = lit "/" := by
  have hli : lit "/" = [0x2f] := by decide +kernel
  rw [take_add_one, h, hli]
  rfl

theorem boundary_of_mem_walkKeys {path : Bytes} (h : key ∈ walkKeys path n) :
    isBoundaryPrefix key path = true := by
  induction n with
  | zero => cases h
  | succ n ih =>
    rw [walkKeys] at h
    split_ifs at h with hs h0
    · subst h0
      rw [mem_singleton.1 h, ← take_one_slash hs]
      exact boundary_take_slash hs
    · rcases mem_cons.1 h with rfl | h
      · exact boundary_take_slash hs
      · rcases mem_cons.1 h with rfl | h
        · exact boundary_take hs
        · exact ih h
    · exact ih h

theorem length_of_mem_walkKeys {path : Bytes} (h : key ∈ walkKeys path n) : key.length ≤ n := by
  induction n with
  | zero => cases h
  | succ n ih =>
    rw [walkKeys] at h
    split_ifs at h with hs h0
    · subst h0
      rw [mem_singleton.1 h, ← take_one_slash hs, length_take]
      exact Nat.min_le_left _ _
    · simp only [mem_cons] at h
      rcases h with rfl | rfl | h
      · exact length_take_le _ _
      · exact (length_take_le _ _).trans (Nat.le_succ n)
      · exact (ih h).trans (Nat.le_succ n)
    · exact (ih h).trans (Nat.le_succ n)

theorem walkKeys_pairwise (path : Bytes) (n : ℕ) :
    (walkKeys path n).Pairwise fun a b => b.length ≤ a.length := by
  induction n with
  | zero => exact List.Pairwise.nil
  | succ n ih =>
    rw [walkKeys]
    split_ifs with hs h0
    · exact pairwise_singleton _ _
    · have hn : n < path.length := (List.getElem?_eq_some_iff.1 hs).1
      have hln : (path.take n).length = n := length_take_of_le hn.le
      have hln' : (path.take (n + 1)).length = n + 1 := length_take_of_le hn
      refine pairwise_cons.2 ⟨fun key hk => ?_, pairwise_cons.2 ⟨fun key hk => ?_, ih⟩⟩
      · rw [hln']
        rcases mem_cons.1 hk with rfl | hk
        · rw [hln]; exact Nat.le_succ n
        · exact (length_of_mem_walkKeys hk).trans (Nat.le_succ n)
      · rw [hln]
        exact length_of_mem_walkKeys hk
    · exact ih

/-- The walk meets every prefix that ends with a slash or before one. -/
theorem mem_walkKeys {path : Bytes} (hne : key ≠ []) (hk : key <+: path)
    (h : key.getLast? = some 0x2f ∧ key.length ≤ n ∨
      path[key.length]? = some 0x2f ∧ key.length < n) : key ∈ walkKeys path n := by
  have ht : key = path.take key.length := prefix_iff_eq_take.1 hk
  have hpos : 0 < key.length := length_pos_iff.2 hne
  induction n with
  | zero => omega
  | succ n ih =>
    -- the last byte of the key is the byte of the path there
    have hls : key.length = n + 1 → key.getLast? = path[n]? := by
      intro hln
      rw [getLast?_eq_getElem?, hln, ht, hln]
      simp
    rw [walkKeys]
    split_ifs with hs h0
    · subst h0
      have hln : key.length = 1 := by omega
      rw [mem_singleton, ← take_one_slash hs, ← hln]
      exact ht
    · simp only [mem_cons]
      by_cases hln : key.length = n + 1
      · left; rw [← hln]; exact ht
      · by_cases hln' : key.length = n
        · right; left; rw [← hln']; exact ht
        · right; right
          exact ih (h.imp (fun h => ⟨h.1, by omega⟩) fun h => ⟨h.1, by omega⟩)
    · refine ih ?_
      rcases h with ⟨hl, hln⟩ | ⟨hn, hln⟩
      · refine Or.inl ⟨hl, Nat.le_of_lt_succ (lt_of_le_of_ne hln fun he => hs ?_)⟩
        rw [← hls he, hl]
      · refine Or.inr ⟨hn, lt_of_le_of_ne (Nat.le_of_lt_succ hln) fun he => hs ?_⟩
        rw [← he, hn]

/-- The keys of a path: the path itself, then those of the walk. -/
def prefixKeys (path : Bytes) : List Bytes := path :: walkKeys path path.length

theorem boundary_of_mem_prefixKeys {path : Bytes} (h : key ∈ prefixKeys path) :
    isBoundaryPrefix key path = true := by
  rcases mem_cons.1 h with rfl | h
  · simp [isBoundaryPrefix]
  · exact boundary_of_mem_walkKeys h

theorem mem_prefixKeys {path : Bytes} (hne : key ≠ []) (h : isBoundaryPrefix key path = true) :
    key ∈ prefixKeys path := by
  simp only [isBoundaryPrefix, Bool.and_eq_true, Bool.or_eq_true, decide_eq_true_iff,
    isPrefixOf_iff_prefix] at h
  obtain ⟨hk, (hln | hls) | hn⟩ := h
  · rw [hk.eq_of_length hln]
    exact mem_cons_self
  · exact mem_cons_of_mem _ (mem_walkKeys hne hk (Or.inl ⟨hls, hk.length_le⟩))
  · exact mem_cons_of_mem _ (mem_walkKeys hne hk
      (Or.inr ⟨hn, (List.getElem?_eq_some_iff.1 hn).1⟩))

theorem prefixKeys_pairwise (path : Bytes) :
    (prefixKeys path).Pairwise fun a b => b.length ≤ a.length :=
  pairwise_cons.2 ⟨fun _ h => length_of_mem_walkKeys h, walkKeys_pairwise path _⟩

theorem boundary_eq_of_length {path a b : Bytes} (ha : isBoundaryPrefix a path = true)
    (hb : isBoundaryPrefix b path = true) (h : a.length = b.length) : a = b := by
  simp only [isBoundaryPrefix, Bool.and_eq_true, isPrefixOf_iff_prefix] at ha hb
  rw [prefix_iff_eq_take.1 ha.1, prefix_iff_eq_take.1 hb.1, h]

theorem findPrefixMatchIndexed_eq (routes : PathIndex) :
    findPrefixMatchIndexed routes path ctx =
      (prefixKeys (matchPath path)).findSome? (routes.pick ctx) := by
  rw [findPrefixMatchIndexed]
  split_ifs with h
  · symm
    rw [findSome?_eq_none_iff]
    exact fun key _ => pick_of_isEmpty h key
  · rw [prefixKeys, findSome?_cons, prefixWalk_eq]
    cases routes.pick ctx (matchPath path) <;> rfl

theorem findPrefix_eq {l place : List Candidate} (h : routes.Holds l)
    (hl : ∀ c ∈ l, c.route.kind = 1) (hne : ∀ c ∈ l, c.route.text ≠ []) :
    findPrefixMatchIndexed routes path ctx =
      ((matching rx path ctx l).argmin (pathRank ctx place)).map (routeMatch rx path) := by
  have hm : ∀ c ∈ l,
      c.route.matchesPath rx path = isBoundaryPrefix c.route.text (matchPath path) := by
    intro c hc
    rw [eq_pathPrefix (hl c hc)]
    rfl
  generalize hM : matching rx path ctx l = M
  have hmm : ∀ c ∈ M, c ∈ l ∧ isBoundaryPrefix c.route.text (matchPath path) = true := by
    intro c hc
    rw [← hM, mem_filter, Bool.and_eq_true] at hc
    exact ⟨hc.1, hm c hc.1 ▸ hc.2.1⟩
  -- what is picked at a key are the matching candidates of that path
  have hp : ∀ key ∈ prefixKeys (matchPath path), routes.pick ctx key =
      ((M.filter fun c => c.route.text = key).argmin (priority ctx)).map
        (routeMatch rx path) := by
    intro key hk
    have hf : (M.filter fun c => c.route.text = key) =
        l.filter fun c => decide (c.route.text = key) && c.served ctx := by
      rw [← hM, filter_filter]
      refine filter_congr fun c hc => ?_
      by_cases ht : c.route.text = key
      · simp [ht, hm c hc, boundary_of_mem_prefixKeys hk]
      · simp [ht]
    rw [h.pick, hf]
    refine Option.map_congr fun c hc => ?_
    have hc' := mem_filter.1 (argmin_mem hc)
    rw [Bool.and_eq_true, decide_eq_true_iff] at hc'
    rw [routeMatch, eq_pathPrefix (hl c hc'.1), hc'.2.1]
  have hrn : ∀ a ∈ M, pathRank ctx place a =
      toLex (OrderDual.toDual a.route.text.length, toLex (0, a.priority ctx)) := by
    intro a ha
    have hr := eq_pathPrefix (hl a (hmm a ha).1)
    rw [pathRank, patternPlace_eq_zero (by rw [hr]; nofun)]
    rw [hr]
    rfl
  calc findPrefixMatchIndexed routes path ctx
      = ((prefixKeys (matchPath path)).findSome? fun key =>
          (M.filter fun c => c.route.text = key).argmin (priority ctx)).map
          (routeMatch rx path) := by
        rw [findPrefixMatchIndexed_eq, findSome_congr hp, map_findSome?]
        rfl
    _ = (M.argmin fun c => toLex (OrderDual.toDual c.route.text.length, c.priority ctx)).map
          (routeMatch rx path) := by
        rw [findSome_argmin (fun c : Candidate => c.route.text)
          (fun key => OrderDual.toDual key.length) (priority ctx)
          (prefixKeys_pairwise (matchPath path))]
        · exact fun c hc => mem_prefixKeys (hne c (hmm c hc).1) (hmm c hc).2
        · exact fun c hc key hk hln =>
            boundary_eq_of_length (hmm c hc).2 (boundary_of_mem_prefixKeys hk) hln
    _ = (M.argmin (pathRank ctx place)).map (routeMatch rx path) := by
        refine congrArg _ (argmin_congr fun a ha b hb => ?_)
        rw [hrn a ha, hrn b hb]
        simp [Prod.Lex.toLex_lt_toLex]

/-! ## Regular expressions -/

theorem regexScan_filter (isMatch : RegexRouteEntry → Bool) (es : List RegexRouteEntry)
    (best : Option (RegexRouteEntry × ℕ)) :
    regexScan isMatch ctx es best = regexScan (fun _ => true) ctx (es.filter isMatch) best := by
  induction es generalizing best with
  | nil => rfl
  | cons e es ih =>
    by_cases h : isMatch e
    · rw [filter_cons_of_pos h, regexScan, regexScan]
      simp only [h, ih]
    · rw [filter_cons_of_neg h, regexScan, ih]
      simp only [h, ih]
      cases e.candidate.matchPriority ctx <;> rfl

/-- Once there is a best entry, only those of its pattern count. -/
theorem regexScan_some (es : List RegexRouteEntry) (e : RegexRouteEntry) (n : ℕ) :
    regexScan (fun _ => true) ctx es (some (e, n)) =
      scanLeast (fun e => e.candidate.matchPriority ctx) (es.filter fun e' => e'.pattern = e.pattern)
        (some (e, n)) := by
  induction es generalizing e n with
  | nil => rfl
  | cons e' es ih =>
    by_cases h : e'.pattern = e.pattern
    · rw [filter_cons_of_pos (by simpa using h), regexScan, scanLeast]
      cases e'.candidate.matchPriority ctx with
      | none => exact ih e n
      | some m =>
        simp only [Bool.not_true, Bool.false_eq_true, if_false, Option.any_some, h,
          bne_self_eq_false, Option.all_some, decide_eq_true_iff]
        split_ifs
        · rfl
        · rw [ih e' m, h]
        · exact ih e n
    · rw [filter_cons_of_neg (by simpa using h), regexScan, ← ih]
      cases e'.candidate.matchPriority ctx with
      | none => rfl
      | some m => simp [Ne.symm h]

/-- The first entry that may serve the listener decides the pattern. -/
theorem regexScan_none (es : List RegexRouteEntry) :
    regexScan (fun _ => true) ctx es none =
      (es.find? fun e => (e.candidate.matchPriority ctx).isSome).bind fun e =>
        scanLeast (fun e => e.candidate.matchPriority ctx)
          (es.filter fun e' => e'.pattern = e.pattern) none := by
  induction es with
  | nil => rfl
  | cons e es ih =>
    rw [regexScan, find?_cons]
    cases hp : e.candidate.matchPriority ctx with
    | none =>
      simp only [Option.isSome_none, ih]
      refine Option.bind_congr fun e' _ => ?_
      by_cases h : e.pattern = e'.pattern
      · rw [filter_cons_of_pos (by simpa using h), scanLeast, hp]
      · rw [filter_cons_of_neg (by simpa using h)]
    | some n =>
      simp only [Option.isSome_some, Option.bind_some, Bool.not_true, Bool.false_eq_true, if_false,
        Option.any_none, Option.all_none, if_true]
      rw [filter_cons_of_pos (by simp), scanLeast, hp]
      simp only [Option.all_none, if_true, regexScan_some]

/-- Both ways to test the patterns try the entries that match, in order. -/
theorem findRegexMatchIndexed_eq (es : List RegexRouteEntry) :
    findRegexMatchIndexed rx (IndexedRegexRoutes.new rx es) path ctx =
      ((regexScan (fun _ => true) ctx (es.filter fun e => rx.isMatch e.pattern path) none).map
        Prod.fst).bind fun entry =>
        (rx.captures entry.pattern path).map fun captures =>
          { proxy := entry.candidate.proxy
            pathParams := entry.captureNames.filterMap fun name =>
              (captures.name name).map fun value => (name, value)
            matchedPrefixLen := captures.matchEnd } := by
  rw [Option.bind_map]
  cases hes : es with
  | nil => rfl
  | cons e es' =>
    rw [← hes, findRegexMatchIndexed, if_neg (by simp [IndexedRegexRoutes.new, hes])]
    by_cases hv : rx.setValid (es.map RegexRouteEntry.pattern)
    · have hs : (rx.setMatches (es.map RegexRouteEntry.pattern) path).filterMap (fun i => es[i]?) =
          es.filter fun e => rx.isMatch e.pattern path := by
        rw [rx.setMatches_eq _ _ hv, length_map]
        simp only [getElem?_map, Option.any_map]
        exact filterMap_getElem_range _ es
      simp only [IndexedRegexRoutes.new, if_pos hv, hs]
      rfl
    · simp only [IndexedRegexRoutes.new, if_neg hv]
      rw [regexScan_filter]
      rfl

section
variable {l place : List Candidate} {p : Candidate → Bool}

/-- Of candidates for regular expressions of one host, those of the first expression count. -/
theorem argmin_pathRank_regex {M : List Candidate} (hM : ∀ c ∈ M, c.route.kind = 2)
    (hk : ∀ a ∈ M, ∀ b ∈ M, a.key = b.key) (hpl : M = place.filter p)
    (hp : ∀ a b, (a.key, a.route) = (b.key, b.route) → p a = p b) {a : Candidate}
    (ha : M.head? = some a) :
    M.argmin (pathRank ctx place) =
      (M.filter fun c => c.route.text = a.route.text).argmin (priority ctx) := by
  obtain ⟨M', hcn⟩ := head?_eq_some_iff.1 ha
  have hrn : ∀ c ∈ M, pathRank ctx place c = toLex (OrderDual.toDual 0,
      toLex (place.findIdx (fun c' => (c'.key, c'.route) = (c.key, c.route)), c.priority ctx)) := by
    intro c hc
    obtain ⟨text, hr⟩ : ∃ text, c.route = .regex text := ⟨_, eq_regex (hM c hc)⟩
    simp only [pathRank, patternPlace, hr, Prod.mk.injEq]
    rfl
  calc M.argmin (pathRank ctx place)
      = M.argmin fun c => toLex (place.findIdx (fun c' => (c'.key, c'.route) = (c.key, c.route)),
          c.priority ctx) := by
        refine argmin_congr fun a ha b hb => ?_
        rw [hrn a ha, hrn b hb]
        simp [Prod.Lex.toLex_lt_toLex]
    _ = (M.filter fun c => (c.key, c.route) = (a.key, a.route)).argmin (priority ctx) := by
        rw [hpl] at hcn ⊢
        exact argmin_place hp hcn
    _ = (M.filter fun c => c.route.text = a.route.text).argmin (priority ctx) := by
        refine congrArg _ (filter_congr fun c hc => ?_)
        have ha' : a ∈ M := mem_of_head? ha
        rw [decide_eq_decide, Prod.mk.injEq, eq_regex (hM c hc), eq_regex (hM a ha')]
        simp [hk c hc a ha', text]

section
variable (hl : ∀ c ∈ l, c.route.kind = 2) (hk : ∀ a ∈ l, ∀ b ∈ l, a.key = b.key)
  (hpl : matching rx path ctx l = place.filter p)
  (hp : ∀ a b, (a.key, a.route) = (b.key, b.route) → p a = p b)
include hl hk hpl hp

/-- The candidate that the loop over the entries ends with. -/
theorem regexScan_eq :
    (regexScan (fun _ => true) ctx
      ((l.map (regexEntry rx)).filter fun e => rx.isMatch e.pattern path) none).map
        Prod.fst =
      ((matching rx path ctx l).argmin (pathRank ctx place)).map (regexEntry rx) := by
  -- the entries that match, and among them those that may serve the listener
  have he : ((l.map (regexEntry rx)).filter fun e => rx.isMatch e.pattern path) =
      (l.filter fun c => c.route.matchesPath rx path).map (regexEntry rx) := by
    rw [filter_map]
    refine congrArg _ (filter_congr fun c hc => ?_)
    obtain ⟨text, hr⟩ : ∃ text, c.route = .regex text := ⟨_, Route.eq_regex (hl c hc)⟩
    simp [regexEntry, Route.matchesPath, Route.text, hr]
  generalize hL : (l.filter fun c => c.route.matchesPath rx path) = L at he
  have hs : matching rx path ctx l = L.filter fun c => c.served ctx := by
    simp only [matching, ← hL, filter_filter, Bool.and_comm]
  have hf : ((L.map (regexEntry rx)).find? fun e =>
      (e.candidate.matchPriority ctx).isSome) =
      (L.filter fun c => c.served ctx).head?.map (regexEntry rx) := by
    rw [find?_map, head?_filter]
    rfl
  have hm : ∀ c ∈ L.filter fun c => c.served ctx, c ∈ l := fun c hc =>
    (mem_filter.1 (hL ▸ (mem_filter.1 hc).1)).1
  rw [he, regexScan_none, hf, hs]
  rw [hs] at hpl
  cases hh : (L.filter fun c => c.served ctx).head? with
  | none =>
    rw [head?_eq_none_iff] at hh
    rw [hh]
    rfl
  | some a =>
    rw [argmin_pathRank_regex (fun c hc => hl c (hm c hc))
      (fun a ha b hb => hk a (hm a ha) b (hm b hb)) hpl hp hh]
    simp only [Option.map_some, Option.bind_some]
    rw [scanLeast_none, filter_map, filter_map, argmin_map, filter_filter, filter_filter]
    exact congrArg (fun l => (l.argmin (priority ctx)).map (regexEntry rx))
      (filter_congr fun c _ => Bool.and_comm _ _)

theorem findRegex_eq (hv : ∀ c ∈ l, rx.valid c.route.text = true) :
    findRegexMatchIndexed rx (IndexedRegexRoutes.new rx (l.map (regexEntry rx))) path ctx =
      ((matching rx path ctx l).argmin (pathRank ctx place)).map (routeMatch rx path) := by
  rw [findRegexMatchIndexed_eq, regexScan_eq hl hk hpl hp, Option.bind_map]
  cases hm : (matching rx path ctx l).argmin
    (pathRank ctx place) with
  | none => rfl
  | some c =>
    have hc := mem_filter.1 (argmin_mem hm)
    rw [Bool.and_eq_true] at hc
    have hr := eq_regex (hl c hc.1)
    have hs : (rx.captures c.route.text path).isSome = true := by
      rw [rx.captures_isSome _ _ (hv c hc.1)]
      have := hc.2.1
      rwa [hr] at this
    obtain ⟨captures, hcap⟩ := Option.isSome_iff_exists.1 hs
    rw [Option.bind_some, Option.map_some, routeMatch, hr]
    simp [regexEntry, hcap]

end

end

end

end Ferrum.Router
