import QuickTunnel.Core.Bytes
import QuickTunnel.Error

/-!
# Per-request framing (`stream.rs`)

The decoded `ConnectRequest` and the writes `write_connect_response` makes
on the edge's stream. The Cap'n Proto encoding of the response message is
the `capnp` crate's: a message is the value that was encoded.
-/
namespace QuickTunnel.Stream

/-- mirrors src/stream.rs:47-52 -/
inductive ConnectionType
  | http
  | websocket
  | tcp
  deriving DecidableEq, Repr

/-- mirrors src/stream.rs:57-65 -/
structure ConnectRequest where
  dest : Bytes
  connType : ConnectionType
  metadata : List (Bytes × Bytes)
  deriving DecidableEq, Repr

/-- mirrors src/stream.rs:69-74 -/
def ConnectRequest.meta (req : ConnectRequest) (key : Bytes) : Option Bytes :=
  (req.metadata.find? fun kv => kv.1 == key).map Prod.snd

/-! mirrors src/stream.rs:79-82 -/

def HTTP_METHOD_KEY : Bytes := ascii "HttpMethod"
def HTTP_HOST_KEY : Bytes := ascii "HttpHost"
def HTTP_HEADER_KEY : Bytes := ascii "HttpHeader"
def HTTP_STATUS_KEY : Bytes := ascii "HttpStatus"

/-- The name of the HTTP header a metadata key stands for:
`k.strip_prefix(&format!("{HTTP_HEADER_KEY}:"))`. -/
def headerName (key : Bytes) : Option Bytes := stripPrefix (HTTP_HEADER_KEY ++ ascii ":") key

/-- One completed write on the edge's stream: the parts of a
`ConnectResponse` frame, or body bytes. -/
inductive EdgeWrite
  | signature
  | version
  | message (error : String) (metadata : List (Bytes × Bytes))
  | data (bytes : Bytes)
  deriving DecidableEq, Repr

/-- The writes of `write_connect_response`, each one `await`; a flush follows
the last.
mirrors src/stream.rs:164-200 -/
def writeConnectResponse (error : String) (metadata : List (Bytes × Bytes)) : List EdgeWrite :=
  [.signature, .version, .message error metadata]

/-- The error of a failed write of `write_connect_response`; `none` is the
flush.
mirrors src/stream.rs:172-198 -/
def writeConnectResponseError (e : String) : Option EdgeWrite → TunnelError
  | some .signature => .internal ("write signature: " ++ e)
  | some .version => .internal ("write version: " ++ e)
  | some _ => .internal ("write capnp: " ++ e)
  | none => .internal ("flush: " ++ e)

/-- The body bytes among completed writes. -/
def bodyBytes : List EdgeWrite → Bytes
  | [] => []
  | .data b :: ws => b ++ bodyBytes ws
  | _ :: ws => bodyBytes ws

@[simp] theorem bodyBytes_append (ws vs : List EdgeWrite) :
    bodyBytes (ws ++ vs) = bodyBytes ws ++ bodyBytes vs := by
  induction ws with
  | nil => rfl
  | cons w ws ih => cases w <;> simp [bodyBytes, ih]

@[simp] theorem bodyBytes_frame (error : String) (metadata : List (Bytes × Bytes)) :
    bodyBytes (writeConnectResponse error metadata) = [] := rfl

@[simp] theorem bodyBytes_data (b : Bytes) : bodyBytes [.data b] = b := by simp [bodyBytes]

end QuickTunnel.Stream
