/-
  The route table: how it is built from the configuration and how it is searched.

  The table has one index for every kind of path (literal, longest prefix, regular expression,
  none at all) and every tier of hosts (exact, wildcard, all); `HostTiers` is the three tiers of
  one kind.  The order in which a hash map is iterated is a parameter, `IterOrder`, and so is the
  regular expression engine, `RegexCrate`.

  * `buildRouteTable`, `searchRouteTable`.
-/
import Ferrum.Router.Config

namespace Ferrum.Router

open Lib

/-! ## Parameters -/

/-- The captures of a match: where it ends, and its named groups. -/
structure Captures where
  matchEnd : ℕ
  name : Bytes → Option Bytes

/-- The regular expression engine; a compiled expression is its pattern. -/
structure RegexCrate where
  /-- does the pattern compile? -/
  valid : Bytes → Bool
  isMatch : Bytes → Bytes → Bool
  captures : Bytes → Bytes → Option Captures
  captureNames : Bytes → List Bytes
  /-- do the patterns compile to a set? -/
  setValid : List Bytes → Bool
  /-- the indexes of the matching patterns of a set -/
  setMatches : List Bytes → Bytes → List ℕ
  captures_isSome : ∀ pattern text, valid pattern →
    (captures pattern text).isSome = isMatch pattern text
  setMatches_eq : ∀ patterns text, setValid patterns → setMatches patterns text =
    (List.range patterns.length).filter fun i => (patterns[i]?).any fun p => isMatch p text

/-- The order in which a hash map yields its entries. -/
structure IterOrder where
  iter : {V : Type} → HMap Bytes V → List (Bytes × V)
  perm : ∀ {V : Type} (m : HMap Bytes V), (iter m).Perm m.toList

/-- An engine for expressions without operators: an anchored text matches itself. -/
def RegexCrate.literal : RegexCrate where
  valid _ := true
  isMatch pattern text := decide (pattern = lit "^(?:" ++ text ++ lit ")$")
  captures pattern text :=
    if pattern = lit "^(?:" ++ text ++ lit ")$" then some ⟨text.length, fun _ => none⟩ else none
  captureNames _ := []
  setValid _ := true
  setMatches patterns text := (List.range patterns.length).filter fun i =>
    (patterns[i]?).any fun p => decide (p = lit "^(?:" ++ text ++ lit ")$")
  captures_isSome pattern text _ := by
    split_ifs with h
    · exact (decide_eq_true h).symm
    · exact (decide_eq_false h).symm
  setMatches_eq _ _ _ := rfl

def IterOrder.stored : IterOrder where
  iter m := m.toList
  perm _ := List.Perm.refl _

/-! ## Patterns -/

/-- `*.example.com` matches the names below `example.com`. -/
def wildcardMatches (pattern hostname : Bytes) : Bool :=
  match pattern with
  | 0x2a :: 0x2e :: suffix =>
    if hostname = suffix then false
    else suffix.isSuffixOf hostname &&
      (let rest := hostname.take (hostname.length - suffix.length)
      rest.getLast? == some 0x2e && decide (1 < rest.length))
  | _ => pattern == hostname

def isWildcard (host : Bytes) : Bool := (lit "*.").isPrefixOf host

/-- Is the last byte a `$` that no backslash escapes? -/
def hasUnescapedTrailingDollar (pattern : Bytes) : Bool :=
  match pattern.reverse with
  | 0x24 :: before => (before.takeWhile (· == 0x5c)).length % 2 == 0
  | _ => false

def anchorRegexPattern (rx : RegexCrate) (pattern : Bytes) : Bytes :=
  let core := match pattern with
    | 0x5e :: stripped => stripped
    | _ => pattern
  let core := if hasUnescapedTrailingDollar core then core.dropLast else core
  let wrapped := lit "^(?:" ++ core ++ lit ")$"
  let newlineWrapped := lit "^(?:" ++ core ++ [0x0a] ++ lit ")$"
  -- a trailing comment of a verbose pattern swallows the closing parenthesis
  if !rx.valid wrapped && rx.valid newlineWrapped then newlineWrapped else wrapped

/-! ## Entries and indexes -/

structure RouteEntry where
  listenPath : Bytes
  candidate : PortScopedProxy
  deriving DecidableEq, Repr

structure RegexRouteEntry where
  pattern : Bytes
  captureNames : List Bytes
  candidate : PortScopedProxy
  deriving DecidableEq, Repr

structure RouteMatch where
  proxy : Proxy
  pathParams : List (Bytes × Bytes)
  matchedPrefixLen : ℕ
  deriving DecidableEq, Repr

abbrev PathIndex := HMap Bytes (List PortScopedProxy)

/-- `from_entries`, and `from_sorted` for entries sorted by length. -/
def PathIndex.fromEntries (entries : List RouteEntry) : PathIndex :=
  entries.foldl (fun m e => m.push e.listenPath e.candidate) .empty

def sortByLength (entries : List RouteEntry) : List RouteEntry :=
  sortByKey (fun e => OrderDual.toDual e.listenPath.length) entries

/-- Regular expressions in the order of the configuration, with a set of them all if it compiles. -/
structure IndexedRegexRoutes where
  entries : List RegexRouteEntry
  regexSet : Option (List Bytes)

def IndexedRegexRoutes.new (rx : RegexCrate) (entries : List RegexRouteEntry) : IndexedRegexRoutes :=
  let patterns := entries.map (·.pattern)
  ⟨entries, if rx.setValid patterns then some patterns else none⟩

/-- The tiers of one kind of route while the table is built. -/
structure RawTiers (E : Type) where
  exactHosts : HMap Bytes (List E)
  wildcardHosts : HMap Bytes (List E)
  catchAll : List E

/-- The tiers of one kind of route: by host, by pattern from the longest, and for all hosts. -/
structure HostTiers (I : Type) where
  exactHosts : HMap Bytes I
  wildcardHosts : List (Bytes × I)
  catchAll : I

/-- The tier and key an entry is stored under. -/
inductive HostKey where
  | exact (host : Bytes)
  | wildcard (pattern : Bytes)
  | catchAll
  deriving DecidableEq, Repr

def hostKeys (hosts : List Bytes) : List HostKey :=
  if hosts.isEmpty then [.catchAll]
  else hosts.map fun host => if isWildcard host then .wildcard host else .exact host

namespace RawTiers
variable {E I : Type}

def empty : RawTiers E := ⟨.empty, .empty, []⟩

def push (t : RawTiers E) (e : E) : HostKey → RawTiers E
  | .exact host => { t with exactHosts := t.exactHosts.push host e }
  | .wildcard pattern => { t with wildcardHosts := t.wildcardHosts.push pattern e }
  | .catchAll => { t with catchAll := t.catchAll ++ [e] }

/-- Enter `e` under every host. -/
def add (t : RawTiers E) (hosts : List Bytes) (e : E) : RawTiers E :=
  (hostKeys hosts).foldl (fun t key => t.push e key) t

def index (order : IterOrder) (f : List E → I) (t : RawTiers E) : HostTiers I where
  exactHosts := t.exactHosts.mapVal fun _ => f
  wildcardHosts := (sortByKey (fun e => OrderDual.toDual e.1.length) (order.iter t.wildcardHosts)).map
    fun (pattern, entries) => (pattern, f entries)
  catchAll := f t.catchAll

end RawTiers

/-! ## The table -/

/-- What the path of a proxy asks for. -/
inductive Route where
  | exactPath (path : Bytes)
  | pathPrefix (path : Bytes)
  | regex (pattern : Bytes)
  | hostOnly
  deriving DecidableEq, Repr

def Proxy.route (rx : RegexCrate) (proxy : Proxy) : Route :=
  match proxy.listenPath with
  | none => .hostOnly
  | some (0x7e :: pattern) => .regex (anchorRegexPattern rx pattern)
  | some (0x3d :: exactPath) => .exactPath exactPath
  | some listenPath => .pathPrefix listenPath

structure RawTable where
  exactPaths : RawTiers RouteEntry
  prefixes : RawTiers RouteEntry
  regexes : RawTiers RegexRouteEntry
  hostOnly : RawTiers PortScopedProxy

def RawTable.empty : RawTable := ⟨.empty, .empty, .empty, .empty⟩

/-- Enter one proxy. -/
def RawTable.add (rx : RegexCrate) (config : GatewayConfig) (t : RawTable) (proxy : Proxy) :
    RawTable :=
  if (meshSiblingSkipIds config).contains (proxy.namespace_, proxy.id) then t
  else
    let candidate := PortScopedProxy.new proxy config.httpTlsListenPorts
    match proxy.route rx with
    | .hostOnly =>
      if proxy.hosts.isEmpty then t else { t with hostOnly := t.hostOnly.add proxy.hosts candidate }
    | .regex pattern =>
      if !rx.valid pattern then t
      else { t with
        regexes := t.regexes.add proxy.hosts ⟨pattern, rx.captureNames pattern, candidate⟩ }
    | .exactPath path => { t with exactPaths := t.exactPaths.add proxy.hosts ⟨path, candidate⟩ }
    | .pathPrefix path => { t with prefixes := t.prefixes.add proxy.hosts ⟨path, candidate⟩ }

structure HostRouteTable where
  exactPaths : HostTiers PathIndex
  prefixes : HostTiers PathIndex
  regexes : HostTiers IndexedRegexRoutes
  hostOnly : HostTiers (List PortScopedProxy)
  hasExactPathRoutes : Bool
  hasRegexRoutes : Bool
  hasHostOnlyRoutes : Bool
  singleNontlsListenPort : Option UInt16
  singleTlsListenPort : Option UInt16

/-- The listen port of a class, if the proxies have just one; dedicated ingress listeners do not
    count. -/
def singleListenPort (config : GatewayConfig) (tls : Bool) : Option UInt16 :=
  let ports := config.proxies.filterMap fun proxy =>
    if proxy.dispatchKind.isStream || isMeshIngressBindRouteId proxy.id then none
    else proxy.listenPort.filter fun port =>
      decide ((proxy.namespace_, port) ∈ config.httpTlsListenPorts) == tls
  match ports.dedup with
  | [port] => some port
  | _ => none

/-- All proxies but the stream proxies, entered in the order of the configuration. -/
def rawTable (rx : RegexCrate) (config : GatewayConfig) : RawTable :=
  (config.proxies.filter fun p => !p.dispatchKind.isStream).foldl (RawTable.add rx config) .empty

def buildRouteTable (rx : RegexCrate) (order : IterOrder) (config : GatewayConfig) :
    HostRouteTable :=
  let raw := rawTable rx config
  let exactPaths := raw.exactPaths.index order PathIndex.fromEntries
  let prefixes := raw.prefixes.index order (PathIndex.fromEntries ∘ sortByLength)
  let regexes := raw.regexes.index order (IndexedRegexRoutes.new rx)
  let hostOnly := raw.hostOnly.index order id
  { exactPaths, prefixes, regexes, hostOnly
    hasExactPathRoutes := !exactPaths.exactHosts.isEmpty || !exactPaths.wildcardHosts.isEmpty ||
      !exactPaths.catchAll.isEmpty
    hasRegexRoutes := !regexes.exactHosts.isEmpty || !regexes.wildcardHosts.isEmpty ||
      !regexes.catchAll.entries.isEmpty
    hasHostOnlyRoutes := !hostOnly.exactHosts.isEmpty || !hostOnly.wildcardHosts.isEmpty
    singleNontlsListenPort := singleListenPort config false
    singleTlsListenPort := singleListenPort config true }

/-! ## The search -/

def selectPortAwareProxy (candidates : List PortScopedProxy) (ctx : HttpPortMatchContext) :
    Option Proxy :=
  (scanLeast (fun c => c.matchPriority ctx) candidates none).map fun best => best.1.proxy

/-- The path without its query. -/
def matchPath (path : Bytes) : Bytes := path.takeWhile (· != 0x3f)

/-- The match at a path of the index. -/
def PathIndex.pick (routes : PathIndex) (ctx : HttpPortMatchContext) (path : Bytes) :
    Option RouteMatch :=
  (routes.get path).bind fun candidates =>
    (selectPortAwareProxy candidates ctx).map fun proxy => ⟨proxy, [], path.length⟩

def findExactPathMatchIndexed (routes : PathIndex) (path : Bytes) (ctx : HttpPortMatchContext) :
    Option RouteMatch :=
  if routes.isEmpty then none else routes.pick ctx (matchPath path)

/-- The loop back through the slashes of a path: find the last one before `searchEnd`, look up the
    path up to it, and go on from there. -/
def prefixWalk (lookup : Bytes → Option RouteMatch) (path : Bytes) : ℕ → Option RouteMatch
  | 0 => none
  | slashPos + 1 =>
    if path[slashPos]? = some 0x2f then
      if slashPos = 0 then lookup (lit "/")
      else
        -- with the slash, then without
        lookup (path.take (slashPos + 1)) <|> lookup (path.take slashPos) <|>
          prefixWalk lookup path slashPos
    else prefixWalk lookup path slashPos

def findPrefixMatchIndexed (routes : PathIndex) (path : Bytes) (ctx : HttpPortMatchContext) :
    Option RouteMatch :=
  if routes.isEmpty then none
  else
    routes.pick ctx (matchPath path) <|>
      prefixWalk (routes.pick ctx) (matchPath path) (matchPath path).length

/-- The loop over the entries: the first eligible match decides the pattern, then the priority
    among the entries of that pattern. -/
def regexScan (isMatch : RegexRouteEntry → Bool) (ctx : HttpPortMatchContext) :
    List RegexRouteEntry → Option (RegexRouteEntry × ℕ) → Option (RegexRouteEntry × ℕ)
  | [], best => best
  | entry :: entries, best =>
    match entry.candidate.matchPriority ctx with
    | none => regexScan isMatch ctx entries best
    | some priority =>
      if !isMatch entry then regexScan isMatch ctx entries best
      else if best.any fun current => current.1.pattern != entry.pattern then
        regexScan isMatch ctx entries best
      else if best.all fun current => priority < current.2 then
        if priority = 0 then some (entry, priority)
        else regexScan isMatch ctx entries (some (entry, priority))
      else regexScan isMatch ctx entries best

def findRegexMatchIndexed (rx : RegexCrate) (routes : IndexedRegexRoutes) (path : Bytes)
    (ctx : HttpPortMatchContext) : Option RouteMatch :=
  if routes.entries.isEmpty then none
  else
    let best := match routes.regexSet with
      | some regexSet =>
        regexScan (fun _ => true) ctx
          ((rx.setMatches regexSet path).filterMap fun i => routes.entries[i]?) none
      | none => regexScan (fun entry => rx.isMatch entry.pattern path) ctx routes.entries none
    best.bind fun (entry, _) =>
      (rx.captures entry.pattern path).map fun captures =>
        { proxy := entry.candidate.proxy
          pathParams := entry.captureNames.filterMap fun name =>
            (captures.name name).map fun value => (name, value)
          matchedPrefixLen := captures.matchEnd }

inductive MeshRouteDirectionFilter where
  | unfiltered
  | matchingDirection (direction : Option MeshTrafficDirection)
  deriving DecidableEq, Repr

/-- May a match be served in this direction? -/
def MeshRouteDirectionFilter.passes : MeshRouteDirectionFilter → RouteMatch → Bool
  | .unfiltered, _ => true
  | .matchingDirection requested, m =>
    match meshRouteDirection m.proxy.id with
    | none => true
    | some direction => requested == some direction

namespace HostTiers
variable {I : Type}

def findExact (t : HostTiers I) (host : Bytes) (find : I → Option RouteMatch) : Option RouteMatch :=
  (t.exactHosts.get host).bind find

def findWildcard (t : HostTiers I) (host : Bytes) (find : I → Option RouteMatch) :
    Option RouteMatch :=
  t.wildcardHosts.findSome? fun (pattern, routes) =>
    if wildcardMatches pattern host then find routes else none

end HostTiers

def hostOnlyMatch (ctx : HttpPortMatchContext) (candidates : List PortScopedProxy) :
    Option RouteMatch :=
  (selectPortAwareProxy candidates ctx).map fun proxy => ⟨proxy, [], 0⟩

def searchRouteTable (rx : RegexCrate) (table : HostRouteTable) (host : Option Bytes) (path : Bytes)
    (filter : MeshRouteDirectionFilter) (ctx : HttpPortMatchContext) : Option RouteMatch :=
  let exactPath (routes : PathIndex) :=
    (findExactPathMatchIndexed routes path ctx).filter filter.passes
  let byPrefix (routes : PathIndex) := (findPrefixMatchIndexed routes path ctx).filter filter.passes
  let regex (routes : IndexedRegexRoutes) :=
    (findRegexMatchIndexed rx routes path ctx).filter filter.passes
  let hostOnly := hostOnlyMatch ctx
  let byHost := host.bind fun host =>
    -- 1. exact host
    (if table.hasExactPathRoutes then table.exactPaths.findExact host exactPath else none) <|>
    table.prefixes.findExact host byPrefix <|>
    (if table.hasRegexRoutes then table.regexes.findExact host regex else none) <|>
    (if table.hasHostOnlyRoutes then table.hostOnly.findExact host hostOnly else none) <|>
    -- 2. wildcard host
    (if table.hasExactPathRoutes then table.exactPaths.findWildcard host exactPath else none) <|>
    table.prefixes.findWildcard host byPrefix <|>
    (if table.hasRegexRoutes then table.regexes.findWildcard host regex else none) <|>
    (if table.hasHostOnlyRoutes then table.hostOnly.findWildcard host hostOnly else none)
  -- 3. all hosts
  byHost <|>
    (if table.hasExactPathRoutes then exactPath table.exactPaths.catchAll else none) <|>
    byPrefix table.prefixes.catchAll <|>
    (if table.hasRegexRoutes then regex table.regexes.catchAll else none)

/-- The frontend of a request, with what the table says about its listeners. -/
def HostRouteTable.portContext (table : HostRouteTable) (frontendPort : Option UInt16)
    (frontendIsTls : Bool) (listenerAdmission : GatewayListenerAdmission) : HttpPortMatchContext :=
  ⟨frontendPort, frontendIsTls, table.singleNontlsListenPort, table.singleTlsListenPort,
    listenerAdmission⟩

end Ferrum.Router
