import QuickTunnel.Http.Request
import QuickTunnel.Proxy.Shape

/-!
# The synthesised request head

`build_request_head` prints the request line, `Host`, every `HttpHeader`
entry in metadata order and, unless the metadata brought one, a
`Connection` field.
-/
namespace QuickTunnel.Proxy

open QuickTunnel.Stream

/-- mirrors src/proxy.rs:417-429 -/
def extractPath (dest : Bytes) : Bytes :=
  match find dest (ascii "://") with
  | some afterScheme =>
    let rest := dest.drop (afterScheme + 3)
    match find rest (ascii "/") with
    | some slash => rest.drop slash
    | none => ascii "/"
  | none => if (ascii "/").isPrefixOf dest then dest else ascii "/"

/-- One turn of the metadata loop: the head so far and `saw_connection`.
mirrors src/proxy.rs:391-404 -/
def pushHeader (acc : Bytes × Bool) (kv : Bytes × Bytes) : Bytes × Bool :=
  match headerName kv.1 with
  | none => acc
  | some name =>
    if eqIgnoreAsciiCase name (ascii "host") then acc
    else (acc.1 ++ name ++ ascii ": " ++ kv.2 ++ Http.crlf,
      acc.2 || eqIgnoreAsciiCase name (ascii "connection"))

/-- mirrors src/proxy.rs:374-415 -/
def buildRequestHead (req : ConnectRequest) (keepAlive : Bool) : Bytes :=
  let method := (req.meta HTTP_METHOD_KEY).getD (ascii "GET")
  let host := (req.meta HTTP_HOST_KEY).getD []
  let path := extractPath req.dest
  let head := method ++ ascii " " ++ path ++ ascii " HTTP/1.1\r\n"
  let head := if host ≠ [] then head ++ ascii "Host: " ++ host ++ Http.crlf else head
  let (head, sawConnection) := req.metadata.foldl pushHeader (head, false)
  let head :=
    if !sawConnection then
      head ++ (if keepAlive then ascii "Connection: keep-alive\r\n" else ascii "Connection: close\r\n")
    else head
  head ++ Http.crlf

/-- The method of the request line. -/
def requestMethod (req : ConnectRequest) : Bytes := (req.meta HTTP_METHOD_KEY).getD (ascii "GET")

example : buildRequestHead ⟨ascii "https://a/foo", .http,
      [(HTTP_METHOD_KEY, ascii "POST"), (HTTP_HOST_KEY, ascii "a"),
        (HTTP_HEADER_KEY ++ ascii ":X-Stuff", ascii "yo")]⟩ true =
    ascii "POST /foo HTTP/1.1\r\nHost: a\r\nX-Stuff: yo\r\nConnection: keep-alive\r\n\r\n" := by
  decide

end QuickTunnel.Proxy
