/-
  The configuration a route table is built from, as far as routing reads it.

  * `Proxy`, `MeshConfig`, `GatewayConfig`.
  * `meshSiblingSkipIds`: the proxies that are reached only by the port of a matched sibling, and
    so stay out of the table.
  * `portMatchPriority`: whether a route may serve the listener a request came in by.
-/
import Ferrum.Lib.Argmin
import Ferrum.Lib.HashMap
import Ferrum.Router.Keys

namespace Ferrum.Router

open Lib

/-! ## Proxies -/

inductive DispatchKind where
  | httpPool | httpsPool | tcpRaw | tcpTls | udpRaw | udpDtls
  deriving DecidableEq, Repr

def DispatchKind.isStream : DispatchKind → Bool
  | .tcpRaw | .tcpTls | .udpRaw | .udpDtls => true
  | .httpPool | .httpsPool => false

structure Proxy where
  id : Bytes
  namespace_ : Bytes
  hosts : List Bytes
  listenPath : Option Bytes
  listenPort : Option UInt16
  dispatchKind : DispatchKind
  deriving DecidableEq, Repr

/-! ## The mesh -/

inductive AppProtocol where
  | http | http2 | grpc | tcp | tls | udp | dtls | mongo | redis | mysql | postgres | unknown
  deriving DecidableEq, Repr

def isHttpFamilyMeshProtocol : AppProtocol → Bool
  | .http | .http2 | .grpc | .unknown => true
  | _ => false

/-- Unlike a service port, a listener of unknown protocol is not HTTP. -/
def isHttpFamilyAppProtocol : AppProtocol → Bool
  | .http | .http2 | .grpc => true
  | _ => false

structure ServicePort where
  port : UInt16
  protocol : AppProtocol

structure MeshService where
  name : Bytes
  namespace_ : Bytes
  ports : List ServicePort
  protocolOverrides : HMap UInt16 AppProtocol

structure ResolvedIngressListener where
  port : UInt16
  protocol : AppProtocol
  ownerNamespace : Bytes
  ownerService : Bytes

structure MeshConfig where
  services : List MeshService
  localInboundServices : Option (List MeshService)
  localIngressListeners : List ResolvedIngressListener

structure GatewayConfig where
  proxies : List Proxy
  mesh : Option MeshConfig
  httpTlsListenPorts : Finset (Bytes × UInt16)

def meshInboundProxyIdPrefix : Bytes := lit "__mesh-inbound-"
def meshIngressProxyIdPrefix : Bytes := lit "__mesh-ingress-"
def meshIngressBindProxyIdPrefix : Bytes := lit "__mesh-ingress-bind:"
def meshOutboundProxyIdPrefix : Bytes := lit "__mesh-outbound-"
def meshOutboundHttpBywlProxyIdPrefix : Bytes := lit "__mesh-outbound-http-bywl-"

def isMeshInboundRouteId (id : Bytes) : Bool :=
  meshInboundProxyIdPrefix.isPrefixOf id || meshIngressProxyIdPrefix.isPrefixOf id

def isMeshIngressRouteId (id : Bytes) : Bool := meshIngressProxyIdPrefix.isPrefixOf id
def isMeshIngressBindRouteId (id : Bytes) : Bool := meshIngressBindProxyIdPrefix.isPrefixOf id
def isMeshOutboundRouteId (id : Bytes) : Bool := meshOutboundProxyIdPrefix.isPrefixOf id

def isMeshOutboundHttpBywlRouteId (id : Bytes) : Bool :=
  meshOutboundHttpBywlProxyIdPrefix.isPrefixOf id

inductive MeshTrafficDirection where
  | inbound | outbound
  deriving DecidableEq, Repr

def meshRouteDirection (id : Bytes) : Option MeshTrafficDirection :=
  if isMeshInboundRouteId id then some .inbound
  else if isMeshOutboundRouteId id then some .outbound
  else none

/-- `{prefix}{namespace}-{name}-{port}`, with the characters of `folded` replaced by `-`. -/
def meshProxyId (idPrefix folded : Bytes) (namespace_ name : Bytes) (port : UInt16) : Bytes :=
  (idPrefix ++ namespace_ ++ lit "-" ++ name ++ lit "-" ++ decimal port.toNat).map fun b =>
    if folded.contains b then 0x2d else b

def meshInboundProxyId : Bytes → Bytes → UInt16 → Bytes :=
  meshProxyId meshInboundProxyIdPrefix (lit "/.")

def meshIngressProxyId : Bytes → Bytes → UInt16 → Bytes :=
  meshProxyId meshIngressProxyIdPrefix (lit "/.:")

def meshOutboundProxyId : Bytes → Bytes → UInt16 → Bytes :=
  meshProxyId meshOutboundProxyIdPrefix (lit "/.")

/-- The expected sibling routes of one service, by port. -/
structure MeshServiceGroup where
  namespace_ : Bytes
  siblings : List (UInt16 × Bytes)

def serviceHttpFamilyPorts (service : MeshService) : List ServicePort :=
  service.ports.filter fun sp =>
    isHttpFamilyMeshProtocol ((service.protocolOverrides.get sp.port).getD sp.protocol)

/-- The groups of the services, with ids from `proxyId`. -/
def meshServiceGroups (proxyId : Bytes → Bytes → UInt16 → Bytes) (services : List MeshService) :
    List MeshServiceGroup :=
  services.filterMap fun service =>
    let httpPorts := serviceHttpFamilyPorts service
    if httpPorts.isEmpty then none
    else some ⟨service.namespace_,
      httpPorts.map fun sp => (sp.port, proxyId service.namespace_ service.name sp.port)⟩

def meshOutboundServiceGroups (mesh : MeshConfig) : List MeshServiceGroup :=
  meshServiceGroups meshOutboundProxyId mesh.services

def meshInboundServiceGroups (mesh : MeshConfig) : List MeshServiceGroup :=
  meshServiceGroups meshInboundProxyId (mesh.localInboundServices.getD mesh.services)

/-- All HTTP listeners of a workload are one group, owned by the first. -/
def meshIngressListenerGroups (mesh : MeshConfig) : List MeshServiceGroup :=
  let httpListeners := mesh.localIngressListeners.filter fun l => isHttpFamilyAppProtocol l.protocol
  match httpListeners with
  | [] => []
  | first :: _ =>
    [⟨first.ownerNamespace, httpListeners.map fun l =>
      (l.port, meshIngressProxyId l.ownerNamespace l.ownerService l.port)⟩]

/-- The proxies that satisfy `p`, by namespace and id; the last of several wins. -/
def proxiesById (proxies : List Proxy) (p : Proxy → Bool) : HMap (Bytes × Bytes) Proxy :=
  (proxies.filter p).foldl (fun m proxy => m.insert (proxy.namespace_, proxy.id) proxy) .empty

/-- The materialized siblings of a group but the one of the lowest port, which represents them. -/
def skippedSiblings (byId : HMap (Bytes × Bytes) Proxy) (group : MeshServiceGroup) :
    List (Bytes × Bytes) :=
  let members := group.siblings.filterMap fun (port, id) =>
    (byId.get (group.namespace_, id)).map fun proxy => (port, proxy)
  (sortByKey (fun m => m.1.toNat) members).tail.map fun (_, proxy) => (proxy.namespace_, proxy.id)

/-- Namespace and id of the proxies that are not entered into the table. -/
def meshSiblingSkipIds (config : GatewayConfig) : List (Bytes × Bytes) :=
  let siblings := match config.mesh with
    | none => []
    | some mesh =>
      let materialized (isRouteId : Bytes → Bool) :=
        proxiesById config.proxies fun p => !p.dispatchKind.isStream && isRouteId p.id
      (meshOutboundServiceGroups mesh).flatMap (skippedSiblings (materialized isMeshOutboundRouteId)) ++
        (meshInboundServiceGroups mesh).flatMap (skippedSiblings (materialized isMeshInboundRouteId)) ++
        (meshIngressListenerGroups mesh).flatMap (skippedSiblings (materialized isMeshIngressRouteId))
  siblings ++ (config.proxies.filter fun p => isMeshOutboundHttpBywlRouteId p.id).map fun p =>
    (p.namespace_, p.id)

/-! ## Listeners -/

/-- Which listener ports may serve routes: none while pending, then all but the refused. -/
structure GatewayListenerAdmission where
  pending_ : Bool
  refusedPorts : Finset UInt16
  deriving DecidableEq

namespace GatewayListenerAdmission

def pending : GatewayListenerAdmission := ⟨true, ∅⟩

def decided (refusedPorts : Finset UInt16) : GatewayListenerAdmission := ⟨false, refusedPorts⟩

def allows (a : GatewayListenerAdmission) (port : UInt16) : Bool :=
  !a.pending_ && decide (port ∉ a.refusedPorts)

def explicitlyRefuses (a : GatewayListenerAdmission) (port : UInt16) : Bool :=
  decide (port ∈ a.refusedPorts)

end GatewayListenerAdmission

structure HttpPortMatchContext where
  frontendPort : Option UInt16
  frontendIsTls : Bool
  singleNontlsListenPort : Option UInt16
  singleTlsListenPort : Option UInt16
  listenerAdmission : GatewayListenerAdmission

/-- The rank of a route for the frontend of a request, lower first; `none` if it is refused. -/
def portMatchPriority (listenPort : Option UInt16) (listenPortTls allowServiceRemap : Bool)
    (ctx : HttpPortMatchContext) : Option ℕ :=
  match listenPort with
  | none => some 2
  | some port =>
    if !ctx.listenerAdmission.allows port then none
    else if listenPortTls != ctx.frontendIsTls then none
    else if ctx.frontendPort = some port then some 0
    else if !allowServiceRemap then none
    else
      let singleForClass :=
        if ctx.frontendIsTls then ctx.singleTlsListenPort else ctx.singleNontlsListenPort
      if singleForClass = some port then some 1 else none

/-- A proxy with its listener scope. -/
structure PortScopedProxy where
  proxy : Proxy
  listenPort : Option UInt16
  listenPortTls : Bool
  allowServiceRemap : Bool
  deriving DecidableEq, Repr

namespace PortScopedProxy

def new (proxy : Proxy) (tlsListenPorts : Finset (Bytes × UInt16)) : PortScopedProxy :=
  let listenPort := if proxy.dispatchKind.isStream then none else proxy.listenPort
  { proxy, listenPort
    listenPortTls := listenPort.any fun port => decide ((proxy.namespace_, port) ∈ tlsListenPorts)
    allowServiceRemap := !isMeshIngressBindRouteId proxy.id }

def matchPriority (c : PortScopedProxy) (ctx : HttpPortMatchContext) : Option ℕ :=
  portMatchPriority c.listenPort c.listenPortTls c.allowServiceRemap ctx

end PortScopedProxy

end Ferrum.Router
