/-
  Lookups under old and new epochs.

  The cache tells epochs apart by their route generation only.  So answers are right as long as
  epochs with one route generation have the same table and the same admission.

  * `unchanged_reload_disagrees`: a reload that leaves the routes unchanged takes the admission back
    and keeps the route generation, so it breaks this unless the admission was pending.
  * `stale_miss`: and then a request is refused a route that its epoch has.
  * `epoch_lookup_uncached`: without such reloads, every lookup of every run under any published
    epoch is answered as without a cache.
-/
import Ferrum.Epoch.Store
import Ferrum.Lib.Runs
import Ferrum.Router.Transparent

namespace Ferrum.Epoch

open Lib Router List

variable {Lb Trust : Type}

/-! ## Steps of the gateway -/

/-- A reload that gives another table says so, tables are those of configurations, route generations
    do not run out, and requests are well formed. -/
def StepOk (rx : RegexCrate) (g : Gateway Lb Trust) : GatewayAct Lb Trust → Prop
  | .updateConfig _ build => ∀ staged, build g.current = .ok (some staged) →
      (∃ order config, staged.routeTable = buildRouteTable rx order config) ∧
      (staged.routeChanged = false → staged.routeTable = g.current.routeTable) ∧
      (staged.routeChanged = true → g.current.routeGeneration.toNat + 1 < 2 ^ 64)
  | .publishAdmission i listenerAdmission => ∀ expected next, g.published[i]? = some expected →
      publishGatewayListenerAdmission expected listenerAdmission g.current = some next →
      next.gatewayListenerAdmission ≠ g.current.gatewayListenerAdmission →
      g.current.routeGeneration.toNat + 1 < 2 ^ 64
  | .lookup _ r _ => r.Ok
  | _ => True

/-- A reload that leaves the routes unchanged comes while the admission is pending. -/
def PendingReload (g : Gateway Lb Trust) : GatewayAct Lb Trust → Prop
  | .updateConfig _ build => ∀ staged, build g.current = .ok (some staged) →
      staged.routeChanged = false → g.current.gatewayListenerAdmission = .pending
  | _ => True

/-! ## What writers publish -/

/-- The lookups of `next` are those of `current`, or have a generation of their own. -/
def Follows (current next : RequestEpoch Lb Trust) : Prop :=
  next.routeGeneration = current.routeGeneration ∧ next.snapshot = current.snapshot ∨
    current.routeGeneration < next.routeGeneration

section
variable {current next : RequestEpoch Lb Trust}

theorem lt_saturatingSucc {n : UInt64} (h : n.toNat + 1 < 2 ^ 64) : n < saturatingSucc n := by
  rw [saturatingSucc, if_pos h, UInt64.lt_iff_toNat_lt, UInt64.toNat_add]
  simp only [UInt64.toNat_one]
  omega

theorem updateConfig_effects {fenced : Trust → Trust} {trust : GatewayTrustStaging}
    {build : RequestEpoch Lb Trust → Except String (Option (StagedRequestEpoch Lb))}
    (h : Gateway.toPublish (updateConfigWithTrust fenced trust build current) = some next) :
    ∃ staged, build current = .ok (some staged) ∧ next.snapshot = ⟨staged.routeTable, .pending⟩ ∧
      next.routeGeneration = if staged.routeChanged then saturatingSucc current.routeGeneration
        else current.routeGeneration := by
  unfold updateConfigWithTrust at h
  cases hb : build current with
  | error e =>
    rw [hb] at h
    cases h
  | ok o =>
    rw [hb] at h
    cases o with
    | none => cases h
    | some staged =>
      refine ⟨staged, rfl, ?_⟩
      cases hlb : (if staged.lbChanged then nextLbGeneration current.lbGeneration
          else .ok current.lbGeneration : Except String UInt64) with
      | error e =>
        simp only [bind, Except.bind, hlb] at h
        cases h
      | ok lbGeneration =>
        simp only [bind, Except.bind, hlb] at h
        cases h
        exact ⟨rfl, rfl⟩

theorem publishAdmission_follows {expected : RequestEpoch Lb Trust}
    {listenerAdmission : GatewayListenerAdmission}
    (h : publishGatewayListenerAdmission expected listenerAdmission current = some next)
    (hf : next.gatewayListenerAdmission ≠ current.gatewayListenerAdmission →
      current.routeGeneration.toNat + 1 < 2 ^ 64) :
    next.routeTable = current.routeTable ∧ Follows current next := by
  rw [publishGatewayListenerAdmission] at h
  split_ifs at h with _ hs
  · cases h
    exact ⟨rfl, .inl ⟨rfl, rfl⟩⟩
  · cases h
    exact ⟨rfl, .inr (lt_saturatingSucc (hf (Ne.symm hs)))⟩

theorem updateGatewayTrust_effects {build : RequestEpoch Lb Trust → Option Trust}
    (h : updateGatewayTrust build current = some next) :
    next.routeGeneration = current.routeGeneration ∧ next.snapshot = current.snapshot := by
  obtain ⟨trust, -, rfl⟩ := Option.map_eq_some_iff.1 h
  exact ⟨rfl, rfl⟩

theorem updateLoadBalancer_effects {build : RequestEpoch Lb Trust → Option Lb}
    (h : Gateway.toPublish (updateLoadBalancer build current) = some next) :
    next.routeGeneration = current.routeGeneration ∧ next.snapshot = current.snapshot := by
  rw [updateLoadBalancer] at h
  cases hb : build current with
  | none =>
    rw [hb] at h
    cases h
  | some loadBalancer =>
    rw [hb] at h
    cases hlb : nextLbGeneration current.lbGeneration with
    | error e =>
      simp only [bind, Except.bind, hlb] at h
      cases h
    | ok lbGeneration =>
      simp only [bind, Except.bind, hlb] at h
      cases h
      exact ⟨rfl, rfl⟩

end

/-! ## The invariant -/

namespace Gateway

/-- The snapshots that lookups use with a generation. -/
def Used (g : Gateway Lb Trust) (generation : UInt64) (snapshot : RouteSnapshot) : Prop :=
  ∃ e ∈ g.published, e.routeGeneration = generation ∧ e.snapshot = snapshot

structure Inv (rx : RegexCrate) (g : Gateway Lb Trust) : Prop where
  current_mem : g.current ∈ g.published
  built : ∀ e ∈ g.published, e.snapshot.Built rx
  le_current : ∀ e ∈ g.published, e.routeGeneration ≤ g.current.routeGeneration
  agree : ∀ e ∈ g.published, ∀ e' ∈ g.published, e.routeGeneration = e'.routeGeneration →
    e.snapshot = e'.snapshot
  cacheOk : CacheOk rx g.Used g.cache

section
variable {rx : RegexCrate} {g g' : Gateway Lb Trust} {e : RequestEpoch Lb Trust}
variable {r : LookupRequest}

theorem Inv.start {initial : RequestEpoch Lb Trust} (h : initial.snapshot.Built rx)
    (maxCacheEntries : ℕ) : Inv rx (start initial maxCacheEntries) where
  current_mem := mem_singleton_self _
  built := by
    intro e he
    rwa [mem_singleton.1 he]
  le_current := by
    intro e he
    rw [mem_singleton.1 he]
    exact UInt64.le_refl _
  agree := by
    intro e he e' he' _
    rw [mem_singleton.1 he, mem_singleton.1 he']
  cacheOk := cacheOk_new maxCacheEntries

/-- An epoch with the generation of one that was published before has its snapshot. -/
theorem Inv.snapshot_eq (h : Inv rx g) {next : RequestEpoch Lb Trust} (hn : Follows g.current next)
    (he : e ∈ g.published) (hgn : e.routeGeneration = next.routeGeneration) :
    e.snapshot = next.snapshot := by
  rcases hn with ⟨hsm, hs⟩ | hlt
  · rw [hs]
    exact h.agree e he _ h.current_mem (hgn.trans hsm)
  · have hle := h.le_current e he
    rw [hgn] at hle
    exact absurd hlt (UInt64.not_lt.2 hle)

theorem Inv.publish (h : Inv rx g) {o : Option (RequestEpoch Lb Trust)}
    (ho : ∀ next ∈ o, next.snapshot.Built rx ∧ Follows g.current next) : Inv rx (g.publish o) := by
  cases o with
  | none => exact h
  | some next =>
    obtain ⟨hb, hf⟩ := ho next rfl
    have hm : ∀ e ∈ g.published ++ [next], e ∈ g.published ∨ e = next := by
      intro e he
      rwa [mem_append, mem_singleton] at he
    refine ⟨?_, ?_, ?_, ?_, ?_⟩
    · exact mem_append_right _ (mem_singleton_self _)
    · intro e he
      rcases hm e he with he | rfl
      · exact h.built e he
      · exact hb
    · have hc : g.current.routeGeneration ≤ next.routeGeneration := by
        rcases hf with ⟨hsm, -⟩ | hlt
        · exact UInt64.le_of_eq hsm.symm
        · exact UInt64.le_of_lt hlt
      intro e he
      rcases hm e he with he | rfl
      · exact UInt64.le_trans (h.le_current e he) hc
      · exact UInt64.le_refl _
    · intro e he e' he' hgn
      rcases hm e he with hold | rfl <;> rcases hm e' he' with hold' | rfl
      · exact h.agree e hold e' hold' hgn
      · exact h.snapshot_eq hf hold hgn
      · exact (h.snapshot_eq hf hold' hgn.symm).symm
      · rfl
    · -- the entries of the cache are for generations that have been published
      refine h.cacheOk.mono ?_ ?_
      · rintro generation s ⟨e, he, hgn, hs⟩
        exact ⟨e, mem_append_left _ he, hgn, hs⟩
      · rintro generation s s' ⟨e, he, hgn, -⟩ ⟨e', he', hgn', rfl⟩
        rcases hm e' he' with he' | rfl
        · exact ⟨e', he', hgn', rfl⟩
        · exact ⟨e, he, hgn, h.snapshot_eq hf he (hgn.trans hgn'.symm)⟩

/-- A lookup under a published epoch is answered as without a cache. -/
theorem Inv.find (h : Inv rx g) (he : e ∈ g.published) (hr : r.Ok) (s : Sweep) :
    (findProxyInEpoch rx s g.cache e r).1 = e.snapshot.findUncached rx r ∧
      CacheOk rx g.Used (findProxyInEpoch rx s g.cache e r).2 := by
  refine find_ok h.cacheOk ⟨e, he, rfl, rfl⟩ ?_ (h.built e he) hr s
  rintro snapshot ⟨e', he', hgn, rfl⟩
  exact h.agree e' he' e he hgn

theorem Inv.withCache (h : Inv rx g) {cache : RouterCache} (hc : CacheOk rx g.Used cache) :
    Inv rx { g with cache := cache } :=
  ⟨h.current_mem, h.built, h.le_current, h.agree, hc⟩

theorem Inv.step {fenced : Trust → Trust} {a : GatewayAct Lb Trust} (h : Inv rx g)
    (hok : StepOk rx g a) (hp : PendingReload g a) (hs : step rx fenced g a = some g') :
    Inv rx g' := by
  have hcr : g.current.snapshot.Built rx := h.built _ h.current_mem
  cases a with
  | updateConfig trust build =>
    cases hs
    refine h.publish fun next hn => ?_
    obtain ⟨staged, hbl, hsn, hgn⟩ := updateConfig_effects hn
    obtain ⟨hb, hsm, hft⟩ := hok staged hbl
    rw [hsn]
    refine ⟨hb, ?_⟩
    cases hc : staged.routeChanged with
    | true =>
      rw [hc, if_pos rfl] at hgn
      refine .inr ?_
      rw [hgn]
      exact lt_saturatingSucc (hft hc)
    | false =>
      rw [hc, if_neg Bool.false_ne_true] at hgn
      refine .inl ⟨hgn, ?_⟩
      rw [hsn, hsm hc, ← hp staged hbl hc]
      rfl
  | publishAdmission i listenerAdmission =>
    obtain ⟨expected, hep, rfl⟩ := Option.map_eq_some_iff.1 hs
    refine h.publish fun next hn => ?_
    obtain ⟨ht, hf⟩ :=
      publishAdmission_follows hn (hok expected next hep hn)
    refine ⟨?_, hf⟩
    obtain ⟨order, config, hb⟩ := hcr
    exact ⟨order, config, ht.trans hb⟩
  | updateLoadBalancer build =>
    cases hs
    refine h.publish fun next hn => ?_
    have hef := updateLoadBalancer_effects hn
    exact ⟨hef.2 ▸ hcr, .inl hef⟩
  | updateGatewayTrust build =>
    cases hs
    refine h.publish fun next hn => ?_
    have hef := updateGatewayTrust_effects hn
    exact ⟨hef.2 ▸ hcr, .inl hef⟩
  | lookup i r s =>
    obtain ⟨e, he, rfl⟩ := Option.map_eq_some_iff.1 hs
    exact h.withCache (h.find (mem_of_getElem? he) hok s).2
  | evictPrefixSample s =>
    cases hs
    exact h.withCache (h.cacheOk.evictPrefixSample s)
  | evictRegexSample s =>
    cases hs
    exact h.withCache (h.cacheOk.evictRegexSample s)
  | clearLookupCaches =>
    cases hs
    exact h.withCache (cacheOk_clear g.cache)

end

end Gateway

/-! ## Reloads that take the admission back -/

/-- **A reload without route changes takes the admission back under the old generation.** -/
theorem unchanged_reload_disagrees {current next : RequestEpoch Lb Trust} {fenced : Trust → Trust}
    {trust : GatewayTrustStaging} {staged : StagedRequestEpoch Lb}
    {build : RequestEpoch Lb Trust → Except String (Option (StagedRequestEpoch Lb))}
    (hb : build current = .ok (some staged)) (hsm : staged.routeChanged = false)
    (hd : current.gatewayListenerAdmission ≠ .pending)
    (h : Gateway.toPublish (updateConfigWithTrust fenced trust build current) = some next) :
    next.routeGeneration = current.routeGeneration ∧ next.snapshot ≠ current.snapshot := by
  obtain ⟨staged', hb', hs, hgn⟩ := updateConfig_effects h
  rw [hb] at hb'
  cases hb'
  rw [hsm, if_neg Bool.false_ne_true] at hgn
  refine ⟨hgn, fun heq => hd ?_⟩
  rw [hs] at heq
  exact (congrArg RouteSnapshot.listenerAdmission heq).symm

/-- One proxy, for the listener on port 80. -/
def scopedProxy : Proxy := ⟨lit "scoped", lit "ns", [], some (lit "/"), some 80, .httpPool⟩

def scopedTable : HostRouteTable :=
  buildRouteTable .literal .stored ⟨[scopedProxy], none, ∅⟩

theorem isUtf8_slash : IsUtf8 (lit "/") := by decide +kernel

def scopedRequest : LookupRequest :=
  ⟨some (lit "a.example.com"), ⟨lit "/", isUtf8_slash⟩, some 80, false⟩

theorem scopedRequest_ok : scopedRequest.Ok :=
  ⟨by decide +kernel, by decide +kernel, by decide +kernel⟩

/-- A reload to the configuration at `config`, with the same routes. -/
def reload (config : ℕ) (routeChanged : Bool) : GatewayAct Unit Unit :=
  .updateConfig .carry fun current =>
    .ok (some ⟨config, current.routeTable, (), routeChanged, false⟩)

def scopedStart : Gateway Unit Unit := .start (fromRuntimeParts 0 scopedTable () ()) 16

/-- The listeners are admitted, the configuration is reloaded, and a request under the new epoch
    comes before the listeners are admitted again. -/
def reloadActs (routeChanged : Bool) : List (GatewayAct Unit Unit) :=
  [.publishAdmission 0 (.decided ∅), reload 1 routeChanged, .lookup 2 scopedRequest .sorted]

theorem reloadActs_isSome (routeChanged : Bool) :
    (exec (Gateway.step .literal id) scopedStart (reloadActs routeChanged)).isSome := by
  cases routeChanged <;> decide +kernel

def reloaded (routeChanged : Bool) : Gateway Unit Unit :=
  (exec (Gateway.step .literal id) scopedStart (reloadActs routeChanged)).get
    (reloadActs_isSome routeChanged)

theorem reach_reloaded (routeChanged : Bool) :
    Reach (Gateway.step .literal id)
      (fun g a => StepOk .literal g a ∧ (routeChanged = true → PendingReload g a)) scopedStart
      (reloaded routeChanged) := by
  have hf : (1 : UInt64).toNat + 1 < 2 ^ 64 := by decide
  have ha : Reach (Gateway.step .literal id)
      (fun g a => StepOk .literal g a ∧ (routeChanged = true → PendingReload g a)) scopedStart _ :=
    .tail (.publishAdmission 0 (.decided ∅)) .refl ⟨fun _ _ _ _ _ => hf, fun _ => trivial⟩ rfl
  refine (ha.tail (reload 1 routeChanged) ⟨?_, ?_⟩ rfl).tail
    (.lookup 2 scopedRequest .sorted) ⟨scopedRequest_ok, fun _ => trivial⟩ rfl
  · rintro staged ⟨⟩
    exact ⟨⟨_, _, rfl⟩, fun _ => rfl, fun _ => by decide +kernel⟩
  · rintro rfl staged ⟨⟩ ⟨⟩

/-- The epoch under which the listeners are admitted. -/
def admitted (routeChanged : Bool) : RequestEpoch Unit Unit :=
  (reloaded routeChanged).published.get ⟨1, by cases routeChanged <;> decide +kernel⟩

/-- A request that has loaded its epoch before the reload gets the answer of the new epoch. -/
theorem stale_miss :
    Reach (Gateway.step .literal id) (StepOk .literal) scopedStart (reloaded false) ∧
      admitted false ∈ (reloaded false).published ∧
      (admitted false).routeGeneration = (reloaded false).current.routeGeneration ∧
      (admitted false).gatewayListenerAdmission ≠
        (reloaded false).current.gatewayListenerAdmission ∧
      (findProxyInEpoch .literal .sorted (reloaded false).cache (admitted false) scopedRequest).1 =
        none ∧
      (admitted false).snapshot.findUncached .literal scopedRequest =
        some ⟨scopedProxy, [], 1⟩ :=
  ⟨(reach_reloaded false).mono fun _ _ h => h.1, get_mem _ _, by decide +kernel,
    by decide +kernel, by decide +kernel, by decide +kernel⟩

/-- **Lookups under any published epoch.**  If no reload takes an admission back under the same
    generation, epochs with one route generation agree, and every lookup is answered from the table
    and the admission of its own epoch. -/
theorem epoch_lookup_uncached (rx : RegexCrate) (fenced : Trust → Trust)
    (initial : RequestEpoch Lb Trust) (hinitial : initial.snapshot.Built rx) (maxCacheEntries : ℕ)
    {g : Gateway Lb Trust}
    (h : Reach (Gateway.step rx fenced) (fun g a => StepOk rx g a ∧ PendingReload g a)
      (.start initial maxCacheEntries) g) :
    (∀ e ∈ g.published, ∀ r : LookupRequest, r.Ok → ∀ s : Sweep,
      (findProxyInEpoch rx s g.cache e r).1 =
        RouteSnapshot.findUncached rx ⟨e.routeTable, e.gatewayListenerAdmission⟩ r) ∧
    ∀ e ∈ g.published, ∀ e' ∈ g.published, e.routeGeneration = e'.routeGeneration →
      e.routeTable = e'.routeTable ∧
        e.gatewayListenerAdmission = e'.gatewayListenerAdmission := by
  have hi : g.Inv rx := h.inv (.start hinitial maxCacheEntries)
    fun _ _ _ _ hx hok hs => hx.step hok.1 hok.2 hs
  refine ⟨fun e he r hr s => (hi.find he hr s).1, fun e he e' he' hgn => ?_⟩
  have ha := hi.agree e he e' he' hgn
  exact ⟨congrArg RouteSnapshot.table ha, congrArg RouteSnapshot.listenerAdmission ha⟩

theorem epoch_lookup_uncached_reloaded :
    admitted true ∈ (reloaded true).published ∧
      (findProxyInEpoch .literal .sorted (reloaded true).cache (admitted true) scopedRequest).1 =
        some ⟨scopedProxy, [], 1⟩ := by
  have hm : admitted true ∈ (reloaded true).published := get_mem _ _
  have hr := (reach_reloaded true).mono fun _ _ h => And.intro h.1 (h.2 rfl)
  refine ⟨hm, ?_⟩
  rw [(epoch_lookup_uncached .literal id _ ⟨_, _, rfl⟩ 16 hr).1 _ hm _ scopedRequest_ok .sorted]
  decide +kernel

end Ferrum.Epoch
