import Ferrum.Datagram.Unambiguous
import Ferrum.Policy.Canonical
import Ferrum.Breaker.Timeout
import Ferrum.Health.Ejection
import Ferrum.Health.Windowed
import Ferrum.Epoch.Lookups
import Ferrum.Mesh.Evidence
import Ferrum.RateLimit.Guarantee
import Ferrum.Json.Correct
import Ferrum.Framing.Order
import Ferrum.Balancer.Cache
import Ferrum.Balancer.Agree
import Ferrum.Balancer.Sticky
import Ferrum.Router.Direction
import Ferrum.Plugins.Kept
import Ferrum.Plugins.Snapshot
import Ferrum.Sni.Records
import Ferrum.Mesh.Glob
import Ferrum.Mesh.Scope
import Ferrum.ClientIp.Forwarded
import Ferrum.Router.Counter
import Ferrum.RateLimit.Tokens
import Ferrum.Replay.Bounds
import Ferrum.Conn.Exact
import Ferrum.Mesh.Frames
import Ferrum.Pending.Keys
import Ferrum.Adaptive.Recovery
