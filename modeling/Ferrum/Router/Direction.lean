/-
  Lookups that leave out the mesh routes of the wrong direction.

  The search drops the match of a host entry and kind of path if it has the wrong direction, and goes
  on to the next.  Candidates that lost to a dropped match are not tried, and matches without a path
  are not dropped.

  * `candidates_facing`: the candidates of a configuration without the wrong direction.
  * `passing_search_least`: the search finds the first least of the winners that are not dropped.
  * `wrong_direction_removed`: that is what is found without the routes of the wrong direction, if
    none of these comes before it in its entry.
-/
import Ferrum.Router.Search

namespace Ferrum.Router

open Lib List Candidate

def resolveRouteExcludingWrongDirection (rx : RegexCrate) (table : HostRouteTable)
    (host : Option Bytes) (path : Str) (reqDirection : Option MeshTrafficDirection)
    (frontendPort : Option UInt16) (frontendIsTls : Bool)
    (listenerAdmission : GatewayListenerAdmission) : Option RouteMatch :=
  searchRouteTable rx table host (normalizeEncodedSlashes path).get.bytes
    (.matchingDirection reqDirection)
    (table.portContext frontendPort frontendIsTls listenerAdmission)

/-! ## Configurations without the wrong direction -/

/-- The proxy is not scoped to a direction, or to this one. -/
def Proxy.faces (d : Option MeshTrafficDirection) (p : Proxy) : Bool :=
  match meshRouteDirection p.id with
  | none => true
  | some direction => d == some direction

/-- The configuration without the mesh routes of the wrong direction. -/
def GatewayConfig.facing (config : GatewayConfig) (d : Option MeshTrafficDirection) :
    GatewayConfig :=
  { config with proxies := config.proxies.filter (Proxy.faces d) }

section
variable {rx : RegexCrate} {config : GatewayConfig} {d : Option MeshTrafficDirection}

theorem ConfigOk.facing (h : ConfigOk config) : ConfigOk (config.facing d) :=
  fun p hp => h p (mem_filter.1 hp).1

variable {q : Proxy} {id : Bytes}

theorem faces_congr {p : Proxy} (h : p.id = q.id) : p.faces d = q.faces d := by
  rw [Proxy.faces, Proxy.faces, h]

theorem isPrefixOf_inbound_outbound (h : isMeshInboundRouteId id = true) :
    isMeshOutboundRouteId id = false := by
  have hin : meshInboundProxyIdPrefix[7]? = some 0x69 ∧ meshIngressProxyIdPrefix[7]? = some 0x69 ∧
      meshOutboundProxyIdPrefix[7]? = some 0x6f := by decide +kernel
  have hat : ∀ {front : Bytes} {b : UInt8}, front[7]? = some b → front.isPrefixOf id = true →
      id[7]? = some b := by
    intro front b hb hf
    obtain ⟨rest, rfl⟩ := isPrefixOf_iff_prefix.1 hf
    rw [getElem?_append_left (List.getElem?_eq_some_iff.1 hb).1, hb]
  have h7 : id[7]? = some 0x69 := by
    rw [isMeshInboundRouteId, Bool.or_eq_true] at h
    exact h.elim (hat hin.1) (hat hin.2.1)
  by_contra ho
  rw [Bool.not_eq_false] at ho
  have := hat hin.2.2 ho
  rw [h7] at this
  cases this

theorem meshRouteDirection_outbound (h : isMeshOutboundRouteId id = true) :
    meshRouteDirection id = some .outbound := by
  rw [meshRouteDirection]
  split_ifs with hin
  · rw [isPrefixOf_inbound_outbound hin] at h
    cases h
  · rfl

theorem meshRouteDirection_inbound (h : isMeshInboundRouteId id = true) :
    meshRouteDirection id = some .inbound := by
  rw [meshRouteDirection, if_pos h]

theorem mem_proxiesById {proxies : List Proxy} {p : Proxy → Bool} {key : Bytes × Bytes}
    (h : (proxiesById proxies p).get key = some q) : p q = true := by
  have hget := (HMap.get_foldl_insert (m := HMap.empty) (k := key)
    (fun q : Proxy => (q.namespace_, q.id)) (fun q => q) (proxies.filter p)).symm.trans h
  rw [HMap.get_empty, Option.or_none, Option.map_id'] at hget
  exact (mem_filter.1 (mem_reverse.1 (mem_of_find?_eq_some hget))).2

/-- The siblings of routes of one direction, seen by a proxy that is kept. -/
theorem mem_skippedSiblings_facing {f : Proxy → Bool} {direction : MeshTrafficDirection}
    (hf : ∀ p, f p = true → meshRouteDirection p.id = some direction)
    {groups : List MeshServiceGroup} (hq : q.faces d = true) :
    (q.namespace_, q.id) ∈
        groups.flatMap (skippedSiblings (proxiesById (config.facing d).proxies f)) ↔
      (q.namespace_, q.id) ∈ groups.flatMap (skippedSiblings (proxiesById config.proxies f)) := by
  have hid : ∀ {proxies : List Proxy},
      (q.namespace_, q.id) ∈ groups.flatMap (skippedSiblings (proxiesById proxies f)) →
      meshRouteDirection q.id = some direction := by
    intro proxies h
    obtain ⟨group, -, h⟩ := mem_flatMap.1 h
    obtain ⟨⟨port, p⟩, hp, heq⟩ := mem_map.1 h
    have hm := (sortByKey_perm _ _).subset (mem_of_mem_tail hp)
    obtain ⟨sibling, -, hget⟩ := mem_filterMap.1 hm
    obtain ⟨p', hp', heq'⟩ := Option.map_eq_some_iff.1 hget
    cases heq'
    rw [← (Prod.mk.inj heq).2]
    exact hf _ (mem_proxiesById hp')
  by_cases hd : d = some direction
  · -- the routes of the direction are all there
    have heq : proxiesById (config.facing d).proxies f = proxiesById config.proxies f := by
      rw [proxiesById, proxiesById, GatewayConfig.facing, filter_filter]
      congr 1
      refine filter_congr fun p _ => ?_
      cases hp : f p with
      | false => simp
      | true => simp [Proxy.faces, hf _ hp, hd]
    rw [heq]
  · have hn : meshRouteDirection q.id ≠ some direction := by
      intro hdr
      rw [Proxy.faces, hdr] at hq
      exact hd (by simpa using hq)
    exact ⟨fun h => absurd (hid h) hn, fun h => absurd (hid h) hn⟩

theorem mem_meshSiblingSkipIds_facing {q : Proxy} (hq : q.faces d = true) :
    (q.namespace_, q.id) ∈ meshSiblingSkipIds (config.facing d) ↔
      (q.namespace_, q.id) ∈ meshSiblingSkipIds config := by
  have hw : (q.namespace_, q.id) ∈ ((config.facing d).proxies.filter fun p =>
        isMeshOutboundHttpBywlRouteId p.id).map (fun p => (p.namespace_, p.id)) ↔
      (q.namespace_, q.id) ∈ (config.proxies.filter fun p =>
        isMeshOutboundHttpBywlRouteId p.id).map (fun p => (p.namespace_, p.id)) := by
    simp only [GatewayConfig.facing, mem_map, mem_filter]
    constructor
    · rintro ⟨p, ⟨⟨hp, -⟩, hid⟩, heq⟩
      exact ⟨p, ⟨hp, hid⟩, heq⟩
    · rintro ⟨p, ⟨hp, hid⟩, heq⟩
      exact ⟨p, ⟨⟨hp, (faces_congr (Prod.mk.inj heq).2).trans hq⟩, hid⟩, heq⟩
  rw [meshSiblingSkipIds, meshSiblingSkipIds, mem_append, mem_append, hw]
  refine or_congr_left ?_
  rw [show (config.facing d).mesh = config.mesh from rfl]
  cases config.mesh with
  | none => exact Iff.rfl
  | some mesh =>
    simp only [mem_append]
    refine or_congr (or_congr ?_ ?_) ?_
    · exact mem_skippedSiblings_facing
        (fun p hp => meshRouteDirection_outbound (Bool.and_eq_true_iff.1 hp).2) hq
    · exact mem_skippedSiblings_facing
        (fun p hp => meshRouteDirection_inbound (Bool.and_eq_true_iff.1 hp).2) hq
    · refine mem_skippedSiblings_facing (fun p hp => meshRouteDirection_inbound ?_) hq
      rw [isMeshInboundRouteId, Bool.or_eq_true]
      exact .inr (Bool.and_eq_true_iff.1 hp).2

/-- Removing the routes of the wrong direction removes their candidates, and nothing else. -/
theorem candidates_facing : (config.facing d).candidates rx =
    (config.candidates rx).filter fun c => c.candidate.proxy.faces d := by
  have hpr : ∀ p : Proxy, (p.candidates rx config).filter (fun c => c.candidate.proxy.faces d) =
      if p.faces d then p.candidates rx (config.facing d) else [] := by
    intro p
    have hs : ∀ c ∈ p.candidates rx config, c.candidate.proxy = p := by
      intro c hc
      rw [Proxy.candidates] at hc
      split_ifs at hc
      · cases hc
      · obtain ⟨key, -, rfl⟩ := mem_map.1 hc
        rfl
    cases hp : p.faces d with
    | false =>
      refine filter_eq_nil_iff.2 fun c hc => ?_
      rw [hs c hc, hp]
      exact Bool.false_ne_true
    | true =>
      rw [if_pos rfl, filter_eq_self.2 fun c hc => by rw [hs c hc, hp]]
      have hsk := @mem_meshSiblingSkipIds_facing config d p hp
      rw [Proxy.candidates, Proxy.candidates, contains_eq_mem, contains_eq_mem,
        decide_eq_decide.2 hsk]
      rfl
  have hcm : ((config.facing d).proxies.filter fun p => !p.dispatchKind.isStream) =
      (config.proxies.filter fun p => !p.dispatchKind.isStream).filter (Proxy.faces d) := by
    rw [GatewayConfig.facing, filter_filter, filter_filter]
    exact filter_congr fun p _ => Bool.and_comm _ _
  rw [GatewayConfig.candidates, GatewayConfig.candidates, hcm, filter_flatMap]
  simp only [hpr]
  induction config.proxies.filter fun p => !p.dispatchKind.isStream with
  | nil => rfl
  | cons p proxies ih =>
    rw [filter_cons, flatMap_cons, ← ih]
    split_ifs <;> simp

end

/-! ## What the search with the filter finds -/

/-- The place of a host entry and kind of path in the search. -/
def Candidate.entryRank (c : Candidate) : ℕ ×ₗ ℕ ×ₗ ℕᵒᵈ :=
  toLex (c.key.tier, toLex (c.route.kind, OrderDual.toDual c.key.patternLength))

/-- The candidate is the first least of `l` for its host entry and kind of path. -/
def Candidate.wins (ctx : HttpPortMatchContext) (l : List Candidate) (c : Candidate) : Bool :=
  (l.filter fun c' => c'.key = c.key ∧ c'.route.kind = c.route.kind).argmin (pathRank ctx l) = some c

section
variable (rx : RegexCrate) (config : GatewayConfig) (d : Option MeshTrafficDirection)
  (host : Option Bytes) (path : Bytes) (ctx : HttpPortMatchContext)

/-- The winners that are not dropped. -/
def survivors : List Candidate :=
  let l := eligibleCandidates rx config host path ctx
  l.filter fun c => c.wins ctx l && (c.route.kind = 3 || c.candidate.proxy.faces d)

/-- What the search with the filter finds. -/
abbrev leastSurvivor : Option RouteMatch :=
  ((survivors rx config d host path ctx).argmin
    (rank ctx (eligibleCandidates rx config host path ctx))).map (routeMatch rx path)

/-- Of two candidates, the search comes to `c` before it comes to `v`. -/
def Candidate.beats (ctx : HttpPortMatchContext) (l : List Candidate) (c v : Candidate) : Prop :=
  (l.filter fun x => x = c ∨ x = v).argmin (rank ctx l) = some c

/-- No route of the wrong direction hides what is found without them.  They make no difference to the
    listeners of the others, and each of them comes after what is found, or it has a path and is in
    an entry that is searched before. -/
structure Unhidden (ctx' : HttpPortMatchContext) : Prop where
  listeners : ∀ c ∈ (config.facing d).candidates rx,
    c.candidate.matchPriority ctx' = c.candidate.matchPriority ctx
  after : ∀ v ∈ eligibleCandidates rx config host path ctx, v.candidate.proxy.faces d = false →
    (∃ c ∈ bestCandidate rx (config.facing d) host path ctx',
      c.beats ctx (eligibleCandidates rx config host path ctx) v) ∨
    v.route.kind ≠ 3 ∧
      ∀ c ∈ bestCandidate rx (config.facing d) host path ctx', v.entryRank < c.entryRank

instance (ctx' : HttpPortMatchContext) : Decidable (Unhidden rx config d host path ctx ctx') :=
  have (l : List Candidate) (c v : Candidate) : Decidable (c.beats ctx l v) :=
    inferInstanceAs (Decidable (_ = _))
  decidable_of_iff (_ ∧ _) ⟨fun h => ⟨h.1, h.2⟩, fun h => ⟨h.listeners, h.after⟩⟩

end

section
variable {rx : RegexCrate} {config : GatewayConfig} {d : Option MeshTrafficDirection}
  {host : Option Bytes} {path : Bytes} {ctx ctx' : HttpPortMatchContext}

theorem argmin_survivors (k : HostKey) (kind : ℕ) :
    ((survivors rx config d host path ctx).filter fun c => c.key = k ∧ c.route.kind = kind).argmin
      (pathRank ctx (eligibleCandidates rx config host path ctx)) =
    (((eligibleCandidates rx config host path ctx).filter fun c =>
      c.key = k ∧ c.route.kind = kind).argmin
      (pathRank ctx (eligibleCandidates rx config host path ctx))).filter fun c =>
        kind = 3 || c.candidate.proxy.faces d := by
  generalize hE : eligibleCandidates rx config host path ctx = l
  -- a survivor of the entry is its winner
  have hm : ∀ c, c ∈ (survivors rx config d host path ctx).filter (fun c =>
      c.key = k ∧ c.route.kind = kind) ↔ (l.filter fun c => c.key = k ∧ c.route.kind = kind).argmin
        (pathRank ctx l) = some c ∧ (kind = 3 || c.candidate.proxy.faces d) = true := by
    intro c
    rw [survivors, hE, mem_filter, mem_filter, decide_eq_true_iff, Bool.and_eq_true]
    constructor
    · rintro ⟨⟨-, hw, hp⟩, rfl, rfl⟩
      exact ⟨of_decide_eq_true hw, hp⟩
    · rintro ⟨hw, hp⟩
      obtain ⟨hc, hk⟩ := mem_filter.1 (argmin_mem hw)
      obtain ⟨rfl, rfl⟩ := of_decide_eq_true hk
      exact ⟨⟨hc, decide_eq_true hw, hp⟩, rfl, rfl⟩
  cases hs : ((survivors rx config d host path ctx).filter fun c =>
      c.key = k ∧ c.route.kind = kind).argmin (pathRank ctx l) with
  | some c =>
    obtain ⟨hw, hp⟩ := (hm c).1 (argmin_mem hs)
    rw [hw, Option.filter_some, if_pos hp]
  | none =>
    rw [argmin_eq_none] at hs
    symm
    rw [Option.filter_eq_none_iff]
    intro c hw hp
    have := (hm c).2 ⟨hw, hp⟩
    rw [hs] at this
    cases this

/-- **With the filter, the search finds the first least of the winners that are not dropped.** -/
theorem passing_search_least (hcn : ConfigOk config) (order : IterOrder) :
    searchRouteTable rx (buildRouteTable rx order config) host path (.matchingDirection d) ctx =
      leastSurvivor rx config d host path ctx := by
  rw [search_eq_findPassing (flagsOk_build order config)]
  refine Eq.trans ?_ (slots_least (l := survivors rx config d host path ctx)
    (s := fun k kind => (slot rx path ctx (rawTable rx config) k kind).filter fun m =>
      kind = 3 || (MeshRouteDirectionFilter.matchingDirection d).passes m)
    (fun c hc => mem_eligible (mem_filter.1 hc).1) (fun kind hkn k hk => ?_) order)
  · refine findSome_congr fun n _ => findSome_congr fun kind hkn => ?_
    exact findPassing_eq_slots order _ n (by simp at hkn; omega)
  · rw [argmin_survivors, slot_eq hcn hk hkn, Option.filter_map]
    congr 2
    funext c
    rw [Function.comp_apply, MeshRouteDirectionFilter.passes, routeMatch_proxy]
    rfl

/-! ## Against the search without the wrong direction -/

theorem exists_winner {l : List Candidate} {c : Candidate} (hc : c ∈ l) :
    ∃ w ∈ l, w.wins ctx l = true ∧ w.key = c.key ∧ w.route.kind = c.route.kind := by
  cases hw : (l.filter fun c' => c'.key = c.key ∧ c'.route.kind = c.route.kind).argmin
      (pathRank ctx l) with
  | none =>
    have hm : c ∈ l.filter fun c' => c'.key = c.key ∧ c'.route.kind = c.route.kind :=
      mem_filter.2 ⟨hc, by simp⟩
    rw [argmin_eq_none.1 hw] at hm
    cases hm
  | some w =>
    obtain ⟨hwl, hke⟩ := mem_filter.1 (argmin_mem hw)
    obtain ⟨hke, hk⟩ := of_decide_eq_true hke
    refine ⟨w, hwl, decide_eq_true ?_, hke, hk⟩
    rw [hke, hk, hw]

variable {c a b : Candidate} {l : List Candidate} {p : Candidate → Bool}

theorem isWildcard_of_mem (hc : c ∈ config.candidates rx) (pattern : Bytes)
    (hk : c.key = .wildcard pattern) : isWildcard pattern = true := by
  obtain ⟨p, -, hm, -⟩ := mem_candidates hc
  rw [hk, Proxy.hostKeys] at hm
  split_ifs at hm with hn
  · cases hm
  · rw [hostKeys] at hm
    split_ifs at hm with he
    · cases mem_singleton.1 hm
    · obtain ⟨h, -, heq⟩ := mem_map.1 hm
      split_ifs at heq with hw
      cases heq
      exact hw

/-- A host entry and kind of path has one winner. -/
theorem winner_unique (hl : eligibleCandidates rx config host path ctx = l) (ha : a ∈ l)
    (hb : b ∈ l) (hwa : a.wins ctx l = true) (hwb : b.wins ctx l = true)
    (hr : a.entryRank = b.entryRank) : a = b := by
  subst hl
  obtain ⟨ht, hrs⟩ := Prod.mk.inj (toLex.injective hr)
  obtain ⟨hk, hln⟩ := Prod.mk.inj (toLex.injective hrs)
  have hke : a.key = b.key := key_eq_of_length (mem_eligible ha).2 (mem_eligible hb).2 ht
    (OrderDual.toDual.injective hln) (isWildcard_of_mem (mem_eligible ha).1)
    (isWildcard_of_mem (mem_eligible hb).1)
  have hwa := of_decide_eq_true hwa
  have hwb := of_decide_eq_true hwb
  rw [hke, hk, hwb] at hwa
  exact (Option.some.inj hwa).symm

theorem rank_lt_of_entryRank (h : a.entryRank < b.entryRank) : rank ctx l a < rank ctx l b := by
  simp only [entryRank, rank, Prod.Lex.toLex_lt_toLex] at h ⊢
  rcases h with h | ⟨h, h' | ⟨h', h''⟩⟩
  · exact .inl h
  · exact .inr ⟨h, .inl h'⟩
  · exact .inr ⟨h, .inr ⟨h', .inl h''⟩⟩

theorem rank_lt_iff (hke : a.key = b.key) (hk : a.route.kind = b.route.kind) :
    rank ctx l a < rank ctx l b ↔ pathRank ctx l a < pathRank ctx l b := by
  simp [rank, Prod.Lex.toLex_lt_toLex, hke, hk]

theorem findIdx_filter_lt {α : Type} {f p q : α → Bool} {l : List α}
    (h : l.findIdx p < l.findIdx q) (hf : ∀ a, l[l.findIdx p]? = some a → f a = true) :
    (l.filter f).findIdx p < (l.filter f).findIdx q := by
  induction l with
  | nil => cases h
  | cons a l ih =>
    rw [findIdx_cons, findIdx_cons] at h
    rw [findIdx_cons] at hf
    cases hq : q a <;> cases hp : p a <;> simp only [hq, hp, cond_true, cond_false] at h hf
    · have := ih (Nat.lt_of_add_lt_add_right h) hf
      rw [filter_cons]
      split_ifs
      · simpa [findIdx_cons, hp, hq] using this
      · exact this
    · rw [filter_cons_of_pos (hf a rfl), findIdx_cons, findIdx_cons, hp, hq]
      exact Nat.succ_pos _
    · cases h
    · cases h

/-- Two candidates of an entry, one of which comes first with the routes that `p` leaves out, the
    other one without them. -/
theorem patternPlace_eq {w : Candidate} (hw : w ∈ l) (hke : w.key = c.key)
    (hk : w.route.kind = c.route.kind) (hl : patternPlace l w ≤ patternPlace l c)
    (hf : patternPlace (l.filter p) c ≤ patternPlace (l.filter p) w)
    (ha : ∀ v ∈ l, p v = false → v.key = c.key → v.route.kind = c.route.kind →
      pathRank ctx l c ≤ pathRank ctx l v) (place : List Candidate) :
    patternPlace place w = patternPlace place c := by
  by_cases hr : w.route = c.route
  · rw [patternPlace, patternPlace, hr, hke]
  · cases hwr : w.route with
    | regex text =>
      cases hcr : c.route with
      | regex text' =>
        exfalso
        have hwp : patternPlace l w =
            l.findIdx fun x => decide (x.key = w.key ∧ x.route = .regex text) := by
          rw [patternPlace, hwr]
        have hcp : patternPlace l c =
            l.findIdx fun x => decide (x.key = c.key ∧ x.route = .regex text') := by
          rw [patternPlace, hcr]
        -- where the pattern of `w` comes first
        obtain ⟨y, hY⟩ : ∃ y, l[patternPlace l w]? = some y := by
          refine ⟨_, getElem?_eq_getElem ?_⟩
          rw [hwp]
          exact findIdx_lt_length_of_exists ⟨w, hw, by simp [hwr]⟩
        obtain ⟨hyl, hye⟩ := List.getElem?_eq_some_iff.1 hY
        have hat : ∀ {k : HostKey} {t : Bytes}, patternPlace l w =
            l.findIdx (fun x => decide (x.key = k ∧ x.route = .regex t)) →
            y.key = k ∧ y.route = .regex t := by
          intro k t heq
          subst hye
          have hy := findIdx_getElem (w := heq ▸ hyl)
          simp only [← heq] at hy
          exact of_decide_eq_true hy
        obtain ⟨hyk, hyr⟩ := hat hwp
        have hlt : patternPlace l w < patternPlace l c := by
          refine lt_of_le_of_ne hl fun heq => hr ?_
          rw [hwr, hcr, ← hyr, (hat (heq.trans hcp)).2]
        cases hpy : p y with
        | false =>
          have hle := ha y (mem_of_getElem? hY) hpy (hyk.trans hke) (by rw [hyr, hcr]; rfl)
          have hyw : patternPlace l y = patternPlace l w := by
            rw [patternPlace, patternPlace, hyr, hyk, hwr]
          simp only [pathRank, Prod.Lex.toLex_le_toLex, hyr, hcr, Route.prefixLength, hyw,
            lt_self_iff_false, true_and, false_or] at hle
          omega
        | true =>
          rw [hwp, hcp] at hlt
          have hflt := findIdx_filter_lt (f := p) hlt fun a ha => by
            rw [← hwp, hY] at ha
            exact Option.some.inj ha ▸ hpy
          simp only [patternPlace, hwr, hcr] at hf
          omega
      | _ => rw [hwr, hcr] at hk; cases hk
    | _ =>
      rw [patternPlace_eq_zero (by simp [hwr]), patternPlace_eq_zero fun text hc => ?_]
      rw [hwr, hc] at hk
      cases hk

/-- What comes first without the routes that `p` leaves out wins its entry, if none of these comes
    before it there. -/
theorem wins_of_beats (hc : (l.filter p).argmin (rank ctx (l.filter p)) = some c)
    (hb : ∀ v ∈ l, p v = false → v.key = c.key → v.route.kind = c.route.kind → c.beats ctx l v) :
    c.wins ctx l = true := by
  obtain ⟨hcl, hcp⟩ := mem_filter.1 (argmin_mem hc)
  obtain ⟨w, hwl, hw, hke, hk⟩ := @exists_winner ctx l c hcl
  suffices heq : w = c from heq ▸ hw
  replace hw := of_decide_eq_true hw
  rw [hke, hk] at hw
  have hin : ∀ x, x = c ∨ x = w → x.key = c.key ∧ x.route.kind = c.route.kind := by
    rintro x (rfl | rfl)
    · exact ⟨rfl, rfl⟩
    · exact ⟨hke, hk⟩
  -- of the two, the winner comes first
  have hpair : (l.filter fun x => x = c ∨ x = w).argmin (pathRank ctx l) = some w := by
    have := argmin_filter (p := fun x => x = c ∨ x = w) hw (by simp)
    rw [filter_filter] at this
    rw [← this]
    congr 1
    refine filter_congr fun x _ => ?_
    by_cases hx : x = c ∨ x = w
    · simp [hx, hin x hx]
    · simp [hx]
  have hbl : ∀ v ∈ l, p v = false → v.key = c.key → v.route.kind = c.route.kind →
      pathRank ctx l c ≤ pathRank ctx l v := by
    intro v hv hpv hvk hvr
    refine not_lt.1 fun hlt => absurd ((rank_lt_iff hvk hvr).2 hlt) (not_lt.2 ?_)
    exact le_of_mem_argmin (mem_filter.2 ⟨hv, by simp⟩) (hb v hv hpv hvk hvr)
  cases hp : p w with
  | false =>
    have hbw := hb w hwl hp hke hk
    rw [beats, argmin_pair_congr (rank_lt_iff hke.symm hk.symm) (rank_lt_iff hke hk), hpair] at hbw
    exact Option.some.inj hbw
  | true =>
    -- without the others it is `c`, and both have the same path and place
    have hf := argmin_filter (p := fun x => x = c ∨ x = w) hc (by simp)
    have hle := le_of_mem_argmin (mem_filter.2 ⟨hcl, by simp⟩) hw
    have hle' := not_lt.1 (mt (rank_lt_iff hke hk).2
      (not_lt.2 (le_of_mem_argmin (mem_filter.2 ⟨hwl, hp⟩) hc)))
    simp only [pathRank, Prod.Lex.toLex_le_toLex, OrderDual.toDual_lt_toDual,
      EmbeddingLike.apply_eq_iff_eq] at hle hle'
    have hln : w.route.prefixLength = c.route.prefixLength := by omega
    have hplace := patternPlace_eq (p := p) hwl hke hk (by omega) (by omega) hbl
    have hcmp (place : List Candidate) := argmin_pair_congr (l := l)
      (@pathRank_lt ctx _ _ _ hln.symm (hplace place).symm) (pathRank_lt hln (hplace place))
    have heq : (l.filter p).filter (fun x => x = c ∨ x = w) = l.filter fun x => x = c ∨ x = w := by
      rw [filter_filter]
      refine filter_congr fun x _ => ?_
      by_cases hx : x = c ∨ x = w
      · rcases hx with rfl | rfl <;> simp [hcp, hp]
      · simp [hx]
    rw [heq, argmin_pair_congr (rank_lt_iff hke.symm hk.symm) (rank_lt_iff hke hk), hcmp, ← hcmp l,
      hpair] at hf
    exact Option.some.inj hf

/-- Without the wrong direction, the same candidates of the right one are eligible. -/
theorem bestCandidate_facing (h : ∀ c ∈ (config.facing d).candidates rx,
      c.candidate.matchPriority ctx' = c.candidate.matchPriority ctx) :
    bestCandidate rx (config.facing d) host path ctx' =
      ((eligibleCandidates rx config host path ctx).filter fun c => c.candidate.proxy.faces d).argmin
        (rank ctx ((eligibleCandidates rx config host path ctx).filter fun c =>
          c.candidate.proxy.faces d)) := by
  have he : eligibleCandidates rx (config.facing d) host path ctx' =
      (eligibleCandidates rx config host path ctx).filter fun c => c.candidate.proxy.faces d := by
    rw [eligibleCandidates, eligibleCandidates, filter_comm, ← candidates_facing]
    refine filter_congr fun c hc => ?_
    rw [eligible, eligible, served, served, h c hc]
  have hm : ∀ c ∈ eligibleCandidates rx (config.facing d) host path ctx', ∀ l,
      rank ctx' l c = rank ctx l c := by
    intro c hc l
    rw [rank, rank, pathRank, pathRank, priority, priority, h c (mem_eligible hc).1]
  rw [← he, bestCandidate]
  exact argmin_congr fun a ha b hb => by rw [hm a ha, hm b hb]

/-- If nothing is hidden, the least survivor is what is found without the wrong direction. -/
theorem leastSurvivor_eq (h : Unhidden rx config d host path ctx ctx') :
    leastSurvivor rx config d host path ctx =
      (bestCandidate rx (config.facing d) host path ctx').map (routeMatch rx path) := by
  have hafter := h.after
  rw [bestCandidate_facing h.listeners] at hafter ⊢
  rw [leastSurvivor]
  congr 1
  generalize hE : eligibleCandidates rx config host path ctx = l at hafter ⊢
  have hsv : ∀ {b}, b ∈ survivors rx config d host path ctx → b ∈ l ∧ b.wins ctx l = true ∧
      (b.route.kind = 3 ∨ b.candidate.proxy.faces d = true) := by
    intro b hb
    rw [survivors, hE, mem_filter, Bool.and_eq_true, Bool.or_eq_true, decide_eq_true_iff] at hb
    exact hb
  cases hc : (l.filter fun c => c.candidate.proxy.faces d).argmin
      (rank ctx (l.filter fun c => c.candidate.proxy.faces d)) with
  | none =>
    rw [argmin_eq_none, eq_nil_iff_forall_not_mem]
    intro b hb
    obtain ⟨hbl, -, hbs⟩ := hsv hb
    have hf : b.candidate.proxy.faces d = false := by
      simpa using filter_eq_nil_iff.1 (argmin_eq_none.1 hc) b hbl
    rw [hc] at hafter
    rcases hafter b hbl hf with ⟨c, ⟨⟩, -⟩ | ⟨hk, -⟩
    rcases hbs with h3 | hfc
    · exact hk h3
    · rw [hf] at hfc
      cases hfc
  | some c =>
    rw [hc] at hafter
    obtain ⟨hcl, hcf⟩ := mem_filter.1 (argmin_mem hc)
    have hbf : ∀ v ∈ l, v.candidate.proxy.faces d = false →
        c.beats ctx l v ∨ v.route.kind ≠ 3 ∧ v.entryRank < c.entryRank := by
      intro v hv hvf
      rcases hafter v hv hvf with ⟨c', ⟨⟩, hb⟩ | ⟨hk, hlt⟩
      · exact .inl hb
      · exact .inr ⟨hk, hlt c rfl⟩
    have hwin : c.wins ctx l = true := by
      refine wins_of_beats hc fun v hv hvf hke hk => (hbf v hv hvf).resolve_right fun hlt => ?_
      rw [entryRank, entryRank, hke, hk] at hlt
      exact lt_irrefl _ hlt.2
    have hcs : c ∈ survivors rx config d host path ctx := by
      rw [survivors, hE]
      exact mem_filter.2 ⟨hcl, by simp [hwin, hcf]⟩
    -- every other survivor is in an entry that comes later
    have hlater : ∀ b ∈ survivors rx config d host path ctx, b ≠ c → rank ctx l c < rank ctx l b := by
      intro b hb hne
      obtain ⟨hbl, hbw, hbs⟩ := hsv hb
      refine rank_lt_of_entryRank (lt_of_le_of_ne (not_lt.1 fun hlt => ?_) fun heq => hne ?_)
      · cases hf : b.candidate.proxy.faces d with
        | false =>
          rcases hbf b hbl hf with hbt | ⟨hk, -⟩
          · exact absurd (rank_lt_of_entryRank hlt)
              (not_lt.2 (le_of_mem_argmin (mem_filter.2 ⟨hbl, by simp⟩) hbt))
          · rcases hbs with h3 | hfc
            · exact hk h3
            · rw [hf] at hfc
              cases hfc
        | true =>
          exact absurd (rank_lt_of_entryRank hlt)
            (not_lt.2 (le_of_mem_argmin (mem_filter.2 ⟨hbl, hf⟩) hc))
      · exact (winner_unique hE hcl hbl hwin hbw heq).symm
    cases hm : (survivors rx config d host path ctx).argmin (rank ctx l) with
    | none =>
      rw [argmin_eq_none.1 hm] at hcs
      cases hcs
    | some m =>
      by_contra hne
      exact absurd (hlater m (argmin_mem hm) fun heq => hne (heq ▸ rfl))
        (not_lt.2 (le_of_mem_argmin hcs hm))

end

/-- **Routes of the wrong direction.**  The lookup that drops their matches finds what is found in the
    configuration without them, if they do not hide it. -/
theorem wrong_direction_removed (rx : RegexCrate) (order order' : IterOrder)
    (config : GatewayConfig) (hconfig : ConfigOk config) (host : Option Bytes) (path : Str)
    (d : Option MeshTrafficDirection) (frontendPort : Option UInt16) (frontendIsTls : Bool)
    (admission : GatewayListenerAdmission)
    (hunhidden : Unhidden rx config d host (normalizeEncodedSlashes path).get.bytes
      (config.portContext frontendPort frontendIsTls admission)
      ((config.facing d).portContext frontendPort frontendIsTls admission)) :
    let table := buildRouteTable rx order config
    let removed := buildRouteTable rx order' (config.facing d)
    resolveRouteExcludingWrongDirection rx table host path d frontendPort frontendIsTls admission =
      searchRouteTable rx removed host (normalizeEncodedSlashes path).get.bytes .unfiltered
        (removed.portContext frontendPort frontendIsTls admission) := by
  intro table removed
  have hp : resolveRouteExcludingWrongDirection rx table host path d frontendPort frontendIsTls
      admission = _ := passing_search_least hconfig order
  have hr : searchRouteTable rx removed host (normalizeEncodedSlashes path).get.bytes .unfiltered
      (removed.portContext frontendPort frontendIsTls admission) = _ :=
    search_least hconfig.facing order'
  rw [hp, hr]
  exact leastSurvivor_eq hunhidden

def rootPath : Str := ⟨lit "/", by decide +kernel⟩

def apiPath : Str := ⟨lit "/api", by decide +kernel⟩

def meshProxy (id host : Bytes) : Proxy := ⟨id, lit "default", [host], some (lit "/"), none, .httpPool⟩

def inboundReviews : Proxy := meshProxy (lit "__mesh-inbound-default-reviews-8080") (lit "reviews")

def outboundReviews : Proxy := meshProxy (lit "__mesh-outbound-default-reviews-8080") (lit "reviews")

/-- A route for all hosts, one of a service for inbound requests, and one for a path of its host. -/
def inboundConfig : GatewayConfig where
  proxies := [⟨lit "base", lit "ns", [], some (lit "/"), none, .httpPool⟩, inboundReviews,
    ⟨lit "api", lit "ns", [lit "reviews"], some (lit "/api"), none, .httpPool⟩]
  mesh := none
  httpTlsListenPorts := ∅

theorem wrong_direction_removed_base :
    resolveRouteExcludingWrongDirection .literal (buildRouteTable .literal .stored inboundConfig)
      (some (lit "reviews")) rootPath (some .outbound) none false .pending =
    some ⟨⟨lit "base", lit "ns", [], some (lit "/"), none, .httpPool⟩, [], 1⟩ ∧
    resolveRouteExcludingWrongDirection .literal (buildRouteTable .literal .stored inboundConfig)
      (some (lit "reviews")) apiPath (some .outbound) none false .pending =
    some ⟨⟨lit "api", lit "ns", [lit "reviews"], some (lit "/api"), none, .httpPool⟩, [], 4⟩ := by
  have hc : ConfigOk inboundConfig := by
    have h : ∀ p ∈ inboundConfig.proxies, ∀ listenPath ∈ p.listenPath,
      listenPath.head? ∈ [some 0x2f, some 0x3d, some 0x7e] := by decide +kernel
    exact h
  constructor
  · refine (wrong_direction_removed .literal .stored .stored inboundConfig hc
      (some (lit "reviews")) rootPath (some .outbound) none false .pending ?_).trans ?_ <;>
      decide +kernel
  · refine (wrong_direction_removed .literal .stored .stored inboundConfig hc
      (some (lit "reviews")) apiPath (some .outbound) none false .pending ?_).trans ?_ <;>
      decide +kernel

/-- The routes of a service for requests of both directions. -/
def bothConfig : GatewayConfig where
  proxies := [inboundReviews, outboundReviews]
  mesh := none
  httpTlsListenPorts := ∅

/-- The inbound route wins the host and is dropped, and the outbound route is not found. -/
theorem outbound_hidden :
    resolveRouteExcludingWrongDirection .literal (buildRouteTable .literal .stored bothConfig)
      (some (lit "reviews")) rootPath (some .outbound) none false .pending = none ∧
    searchRouteTable .literal (buildRouteTable .literal .stored (bothConfig.facing (some .outbound)))
      (some (lit "reviews")) (normalizeEncodedSlashes rootPath).get.bytes .unfiltered
      ((buildRouteTable .literal .stored (bothConfig.facing (some .outbound))).portContext none false
        .pending) = some ⟨outboundReviews, [], 1⟩ := by
  decide +kernel

end Ferrum.Router
