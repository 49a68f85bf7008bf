/-
  What a route lookup is for: a scan of the proxies, with no table.

  A proxy stands for one candidate for every host it names.  Of the candidates that match the host,
  the path and the listener of a request, the lookup takes the least in rank, and of several of
  one rank the first in the configuration.

  * `Candidate.eligible`: the candidate matches the request.
  * `rank`: tier of the host, kind of the path, length of the host pattern, length of the path
    prefix, place of the regular expression, listener.
  * `bestCandidate`: the first least of the eligible candidates.
-/
import Ferrum.Router.Table

namespace Ferrum.Router

open Lib

/-! ## Candidates -/

/-- A proxy as it stands under one of its hosts. -/
structure Candidate where
  key : HostKey
  route : Route
  candidate : PortScopedProxy
  deriving DecidableEq, Repr

/-- A proxy without a path is for the hosts it names, and without hosts for no request at all. -/
def Proxy.hostKeys (proxy : Proxy) : List HostKey :=
  if proxy.listenPath.isNone && proxy.hosts.isEmpty then [] else Router.hostKeys proxy.hosts

def Route.compiles (rx : RegexCrate) : Route → Bool
  | .regex pattern => rx.valid pattern
  | _ => true

/-- A sibling of a represented mesh route is no candidate, nor is a pattern that does not compile. -/
def Proxy.candidates (rx : RegexCrate) (config : GatewayConfig) (proxy : Proxy) : List Candidate :=
  if (meshSiblingSkipIds config).contains (proxy.namespace_, proxy.id) ||
      !(proxy.route rx).compiles rx then []
  else proxy.hostKeys.map fun key =>
    ⟨key, proxy.route rx, PortScopedProxy.new proxy config.httpTlsListenPorts⟩

/-- The candidates of a configuration, in its order. -/
def GatewayConfig.candidates (rx : RegexCrate) (config : GatewayConfig) : List Candidate :=
  (config.proxies.filter fun p => !p.dispatchKind.isStream).flatMap (Proxy.candidates rx config)

/-! ## Eligibility -/

def HostKey.matchesHost (host : Option Bytes) : HostKey → Bool
  | .exact h => decide (host = some h)
  | .wildcard pattern => host.any fun h => wildcardMatches pattern h
  | .catchAll => true

/-- A prefix of the path that ends where a segment does. -/
def isBoundaryPrefix (listenPath path : Bytes) : Bool :=
  listenPath.isPrefixOf path &&
    (decide (listenPath.length = path.length) || decide (listenPath.getLast? = some 0x2f) ||
      decide (path[listenPath.length]? = some 0x2f))

/-- Literal paths and prefixes are compared without the query, regular expressions with it. -/
def Route.matchesPath (rx : RegexCrate) (path : Bytes) : Route → Bool
  | .exactPath literal => decide (literal = matchPath path)
  | .pathPrefix listenPath => isBoundaryPrefix listenPath (matchPath path)
  | .regex pattern => rx.isMatch pattern path
  | .hostOnly => true

/-- May the candidate serve the listener of the request? -/
def Candidate.served (ctx : HttpPortMatchContext) (c : Candidate) : Bool :=
  (c.candidate.matchPriority ctx).isSome

/-- May the candidate serve the request? -/
def Candidate.eligible (rx : RegexCrate) (host : Option Bytes) (path : Bytes)
    (ctx : HttpPortMatchContext) (c : Candidate) : Bool :=
  c.key.matchesHost host && c.route.matchesPath rx path && c.served ctx

/-! ## Rank -/

def HostKey.tier : HostKey → ℕ
  | .exact _ => 0
  | .wildcard _ => 1
  | .catchAll => 2

def HostKey.patternLength : HostKey → ℕ
  | .wildcard pattern => pattern.length
  | _ => 0

def Route.kind : Route → ℕ
  | .exactPath _ => 0
  | .pathPrefix _ => 1
  | .regex _ => 2
  | .hostOnly => 3

def Route.prefixLength : Route → ℕ
  | .pathPrefix listenPath => listenPath.length
  | _ => 0

/-- Where the host and regular expression of `c` come first. -/
def patternPlace (l : List Candidate) (c : Candidate) : ℕ :=
  match c.route with
  | .regex _ => l.findIdx fun c' => c'.key = c.key ∧ c'.route = c.route
  | _ => 0

def Candidate.priority (ctx : HttpPortMatchContext) (c : Candidate) : ℕ :=
  (c.candidate.matchPriority ctx).getD 0

/-- The rank among the candidates of one host and kind; a longer prefix comes first. -/
def pathRank (ctx : HttpPortMatchContext) (l : List Candidate) (c : Candidate) : ℕᵒᵈ ×ₗ ℕ ×ₗ ℕ :=
  toLex (OrderDual.toDual c.route.prefixLength, toLex (patternPlace l c, c.priority ctx))

/-- The rank; a longer host pattern comes first. -/
def rank (ctx : HttpPortMatchContext) (l : List Candidate) (c : Candidate) :
    ℕ ×ₗ ℕ ×ₗ ℕᵒᵈ ×ₗ ℕᵒᵈ ×ₗ ℕ ×ₗ ℕ :=
  toLex (c.key.tier, toLex (c.route.kind, toLex (OrderDual.toDual c.key.patternLength,
    pathRank ctx l c)))

/-! ## The lookup -/

section
variable (rx : RegexCrate) (config : GatewayConfig) (host : Option Bytes) (path : Bytes)

def eligibleCandidates (ctx : HttpPortMatchContext) : List Candidate :=
  (config.candidates rx).filter fun c => c.eligible rx host path ctx

def bestCandidate (ctx : HttpPortMatchContext) : Option Candidate :=
  let l := eligibleCandidates rx config host path ctx
  l.argmin (rank ctx l)

/-- What is reported for a candidate: of a regular expression the named groups and the end of the
    match, else the length of the path. -/
def Candidate.routeMatch (c : Candidate) : RouteMatch :=
  match c.route with
  | .exactPath text | .pathPrefix text => ⟨c.candidate.proxy, [], text.length⟩
  | .regex pattern =>
    let captures := rx.captures pattern path
    { proxy := c.candidate.proxy
      pathParams := (rx.captureNames pattern).filterMap fun name =>
        (captures.bind (·.name name)).map fun value => (name, value)
      matchedPrefixLen := (captures.map (·.matchEnd)).getD 0 }
  | .hostOnly => ⟨c.candidate.proxy, [], 0⟩

/-- The frontend of a request, with what the configuration says about its listeners. -/
def GatewayConfig.portContext (frontendPort : Option UInt16) (frontendIsTls : Bool)
    (listenerAdmission : GatewayListenerAdmission) : HttpPortMatchContext :=
  ⟨frontendPort, frontendIsTls, singleListenPort config false, singleListenPort config true,
    listenerAdmission⟩

end

/-- What validation grants: a path begins with `/`, `=` or `~`. -/
def ConfigOk (config : GatewayConfig) : Prop :=
  ∀ p ∈ config.proxies, ∀ listenPath, p.listenPath = some listenPath →
    listenPath.head? ∈ [some 0x2f, some 0x3d, some 0x7e]

end Ferrum.Router
