import QuickTunnel.Core.Message
import QuickTunnel.Rpc.Driver

/-!
# The messages of a registration

`build_register_request` fills the parameters of `registerConnection` and
`decode_connection_response` reads its result. Both go through the accessors
generated from `schemas/tunnelrpc.capnp`, which place every field in a
struct of the capnp crate (`Message.Crate`, a parameter).

* `register_request_read`: the edge reads what was put in, if a message can
  hold it and arrives.
* `decode_ok_iff`: exactly the answers that register the connection.
* `answer_decoded`: what becomes of each answer an edge gives that arrives.
-/
namespace QuickTunnel.Rpc

open QuickTunnel.Message

/-! ## The request -/

/-- The sixteen bytes of a `Uuid`. -/
structure Uuid where
  bytes : Bytes
  size : bytes.length = 16
  deriving DecidableEq

/-- mirrors src/rpc.rs:67-71 -/
structure TunnelAuth where
  accountTag : String
  tunnelSecret : Bytes
  deriving DecidableEq, Repr

/-- mirrors src/rpc.rs:76-85 -/
structure ConnectionOptions where
  clientId : Uuid
  features : List String
  version : String
  arch : String
  originLocalIp : Bytes
  replaceExisting : Bool
  compressionQuality : UInt8
  numPreviousAttempts : UInt8
  deriving DecidableEq

/-- `fresh` is what `Uuid::new_v4()` returns, `os` and `arch` are constants
of the build.
mirrors src/rpc.rs:91-112 -/
def ConnectionOptions.defaultForQuickTunnel (fresh : Uuid) (os arch version : String) :
    ConnectionOptions where
  clientId := fresh
  features := ["allow_remote_config", "serialized_headers", "support_datagram_v2", "support_quic_eof",
    "management_logs"]
  version := version
  arch := os ++ "-" ++ arch
  originLocalIp := []
  replaceExisting := false
  compressionQuality := 0
  numPreviousAttempts := 0

section Fill
variable (K : Crate)

/-! Where the fields are.
mirrors src/proto_gen/tunnelrpc_capnp.rs:5202-5314,5531-5637,6880-6957,7252-7355 -/

def TunnelAuth.fill (auth : TunnelAuth) (a : K.Struct) : Option K.Struct := do
  let tag ← K.newText (utf8 auth.accountTag)
  let secret ← K.newData auth.tunnelSecret
  return K.setPtr (K.setPtr a 0 tag) 1 secret

def ConnectionOptions.fillClient (options : ConnectionOptions) (client : K.Struct) : Option K.Struct := do
  let id ← K.newData options.clientId.bytes
  let version ← K.newText (utf8 options.version)
  let arch ← K.newText (utf8 options.arch)
  let feats ← K.fillList 1 (fun f => K.newText (utf8 f)) options.features
  return K.setPtr (K.setPtr (K.setPtr (K.setPtr client 0 id) 2 version) 3 arch) 1 feats

def ConnectionOptions.fill (options : ConnectionOptions) (o : K.Struct) : Option K.Struct := do
  let client ← options.fillClient K (K.blank 0 4)
  let ip ← K.newData options.originLocalIp
  return K.setU8 (K.setU8 (K.setBool (K.setPtr (K.setPtr o 0 (K.newStruct client)) 1 ip) 0
    options.replaceExisting) 1 options.compressionQuality) 2 options.numPreviousAttempts

/-- `none`: a setter panics.
mirrors src/rpc.rs:347-391 -/
def buildRegisterRequest (auth : TunnelAuth) (tunnelId : Uuid) (connIndex : UInt8)
    (options : ConnectionOptions) : Option K.Struct := do
  let a ← auth.fill K (K.blank 0 2)
  let id ← K.newData tunnelId.bytes
  let o ← options.fill K (K.blank 1 2)
  return K.setPtr (K.setU8 (K.setPtr (K.setPtr (K.blank 1 3) 0 (K.newStruct a)) 1 id) 0 connIndex) 2
    (K.newStruct o)

end Fill

/-- The parameters of a call as the edge reads them: all data and all texts
as bytes. -/
structure RegisterParams where
  accountTag : Bytes
  tunnelSecret : Bytes
  tunnelId : Bytes
  connIndex : UInt8
  clientId : Bytes
  features : List Bytes
  version : Bytes
  arch : Bytes
  originLocalIp : Bytes
  replaceExisting : Bool
  compressionQuality : UInt8
  numPreviousAttempts : UInt8
  deriving DecidableEq, Repr

/-- By the readers of the same schema.
mirrors src/proto_gen/tunnelrpc_capnp.rs:5167-5198,5500-5527,6861-6876,7221-7248 -/
def readRegisterRequest (K : Crate) (params : K.Struct) : Except String RegisterParams := do
  let a ← K.asStruct (K.getPtr params 0)
  let o ← K.asStruct (K.getPtr params 2)
  let client ← K.asStruct (K.getPtr o 0)
  return {
    accountTag := ← K.asText (K.getPtr a 0)
    tunnelSecret := ← K.asData (K.getPtr a 1)
    tunnelId := ← K.asData (K.getPtr params 1)
    connIndex := K.getU8 params 0
    clientId := ← K.asData (K.getPtr client 0)
    features := ← (← K.asList (K.getPtr client 1)).mapM K.asText
    version := ← K.asText (K.getPtr client 2)
    arch := ← K.asText (K.getPtr client 3)
    originLocalIp := ← K.asData (K.getPtr o 1)
    replaceExisting := K.getBool o 0
    compressionQuality := K.getU8 o 1
    numPreviousAttempts := K.getU8 o 2 }

/-- What the arguments of `build_register_request` say. -/
def registerParams (auth : TunnelAuth) (tunnelId : Uuid) (connIndex : UInt8) (options : ConnectionOptions) :
    RegisterParams where
  accountTag := utf8 auth.accountTag
  tunnelSecret := auth.tunnelSecret
  tunnelId := tunnelId.bytes
  connIndex := connIndex
  clientId := options.clientId.bytes
  features := options.features.map utf8
  version := utf8 options.version
  arch := utf8 options.arch
  originLocalIp := options.originLocalIp
  replaceExisting := options.replaceExisting
  compressionQuality := options.compressionQuality
  numPreviousAttempts := options.numPreviousAttempts

/-- A pointer can count each of its texts and data. -/
def TunnelAuth.fits (auth : TunnelAuth) : Bool :=
  fitsText (utf8 auth.accountTag) && fitsData auth.tunnelSecret

/-- And the list of features. -/
def ConnectionOptions.fits (options : ConnectionOptions) : Bool :=
  fitsText (utf8 options.version) && fitsText (utf8 options.arch) && fitsData options.originLocalIp &&
    decide (options.features.length < 2 ^ 29) && options.features.all fun f => fitsText (utf8 f)

section Request
variable {K : Crate} {auth : TunnelAuth} {options : ConnectionOptions}

theorem TunnelAuth.fill_ok (h : auth.fits = true) (a : K.Struct) (ha : K.size a = (0, 2)) :
    ∃ a', auth.fill K a = some a' ∧ K.asText (K.getPtr a' 0) = .ok (utf8 auth.accountTag) ∧
      K.asData (K.getPtr a' 1) = .ok auth.tunnelSecret := by
  rw [TunnelAuth.fits, Bool.and_eq_true] at h
  obtain ⟨tag, htag, htag'⟩ := K.newText_ok (of_decide_eq_true h.1)
  obtain ⟨secret, hsecret, hsecret'⟩ := K.newData_ok (of_decide_eq_true h.2)
  refine ⟨K.setPtr (K.setPtr a 0 tag) 1 secret, ?_, ?_, ?_⟩
  · unfold TunnelAuth.fill
    rw [htag, hsecret]
    rfl
  · simp [ha, htag']
  · simp [ha, hsecret']

theorem uuid_data (K : Crate) (u : Uuid) : ∃ p, K.newData u.bytes = some p ∧ K.asData p = .ok u.bytes := by
  apply K.newData_ok
  rw [u.size]
  decide

/-- What the client's struct holds. -/
structure ClientRead (K : Crate) (options : ConnectionOptions) (client : K.Struct) : Prop where
  id : K.asData (K.getPtr client 0) = .ok options.clientId.bytes
  features : ∃ ps, K.asList (K.getPtr client 1) = .ok ps ∧ ps.mapM K.asText = .ok (options.features.map utf8)
  version : K.asText (K.getPtr client 2) = .ok (utf8 options.version)
  arch : K.asText (K.getPtr client 3) = .ok (utf8 options.arch)

theorem ConnectionOptions.fillClient_ok (h : options.fits = true) (client : K.Struct)
    (hc : K.size client = (0, 4)) :
    ∃ client', options.fillClient K client = some client' ∧ ClientRead K options client' := by
  simp only [ConnectionOptions.fits, Bool.and_eq_true, List.all_eq_true, decide_eq_true_eq] at h
  obtain ⟨⟨⟨⟨hver, harch⟩, -⟩, hlen⟩, hfeats⟩ := h
  obtain ⟨id, hid, hid'⟩ := uuid_data K options.clientId
  obtain ⟨version, hversion, hversion'⟩ := K.newText_ok (of_decide_eq_true hver)
  obtain ⟨arch, ha, ha'⟩ := K.newText_ok (of_decide_eq_true harch)
  have hlist : ∃ ps, K.fillList 1 (fun f => K.newText (utf8 f)) options.features = some (K.newList ps) ∧
      List.Forall₂ (fun f p => K.asText p = .ok (utf8 f)) options.features ps := by
    apply Crate.fillList_ok (by decide) (by omega)
    intro f hf
    exact K.newText_ok (of_decide_eq_true (hfeats f hf))
  obtain ⟨ps, hps, hall⟩ := hlist
  refine ⟨K.setPtr (K.setPtr (K.setPtr (K.setPtr client 0 id) 2 version) 3 arch) 1 (K.newList ps), ?_, ?_⟩
  · unfold ConnectionOptions.fillClient
    rw [hid, hversion, ha, hps]
    rfl
  · exact
      { id := by simp [hc, hid']
        features := ⟨ps, by simp [hc], mapM_read hall⟩
        version := by simp [hc, hversion']
        arch := by simp [hc, ha'] }

/-- What the options' struct holds. -/
structure OptionsRead (K : Crate) (options : ConnectionOptions) (o : K.Struct) : Prop where
  client : ∃ client, K.asStruct (K.getPtr o 0) = .ok client ∧ ClientRead K options client
  ip : K.asData (K.getPtr o 1) = .ok options.originLocalIp
  replaceExisting : K.getBool o 0 = options.replaceExisting
  compressionQuality : K.getU8 o 1 = options.compressionQuality
  numPreviousAttempts : K.getU8 o 2 = options.numPreviousAttempts

theorem ConnectionOptions.fill_ok (h : options.fits = true) (o : K.Struct) (ho : K.size o = (1, 2)) :
    ∃ o', options.fill K o = some o' ∧ OptionsRead K options o' := by
  obtain ⟨client, hclient, hread⟩ := fillClient_ok (K := K) h (K.blank 0 4) (K.size_blank 0 4)
  simp only [ConnectionOptions.fits, Bool.and_eq_true] at h
  obtain ⟨ip, hip, hip'⟩ := K.newData_ok (of_decide_eq_true h.1.1.2)
  refine ⟨K.setU8 (K.setU8 (K.setBool (K.setPtr (K.setPtr o 0 (K.newStruct client)) 1 ip) 0
    options.replaceExisting) 1 options.compressionQuality) 2 options.numPreviousAttempts, ?_, ?_⟩
  · unfold ConnectionOptions.fill
    rw [hclient, hip]
    rfl
  · exact
      { client := ⟨client, by simp [ho], hread⟩
        ip := by simp [ho, hip']
        replaceExisting := by simp [ho]
        compressionQuality := by simp [ho]
        numPreviousAttempts := by simp [ho] }

/-- The request, as the edge reads it. -/
theorem request_ok (K : Crate) (tunnelId : Uuid) (connIndex : UInt8) (ha : auth.fits = true)
    (ho : options.fits = true) :
    ∃ request, buildRegisterRequest K auth tunnelId connIndex options = some request ∧
      readRegisterRequest K request = .ok (registerParams auth tunnelId connIndex options) := by
  obtain ⟨a, hfill, htag, hsecret⟩ := auth.fill_ok (K := K) ha (K.blank 0 2) (K.size_blank 0 2)
  obtain ⟨id, hid, hid'⟩ := uuid_data K tunnelId
  obtain ⟨o, hopt, hread⟩ := ConnectionOptions.fill_ok (K := K) ho (K.blank 1 2) (K.size_blank 1 2)
  obtain ⟨client, hclient, hc⟩ := hread.client
  obtain ⟨feats, hlist, hfeats⟩ := hc.features
  refine ⟨K.setPtr (K.setU8 (K.setPtr (K.setPtr (K.blank 1 3) 0 (K.newStruct a)) 1 id) 0 connIndex) 2
    (K.newStruct o), ?_, ?_⟩
  · unfold buildRegisterRequest
    rw [hfill, hid, hopt]
    rfl
  · unfold readRegisterRequest
    simp [hclient, htag, hsecret, hid', hc.id, hlist, hfeats, hc.version, hc.arch, hread.ip,
      hread.replaceExisting, hread.compressionQuality, hread.numPreviousAttempts, registerParams, bind,
      Except.bind, pure, Except.pure]

/-- **The edge reads what was put in**, every field of it, if the request
arrives. -/
theorem register_request_read (K : Crate) (auth : TunnelAuth) (tunnelId : Uuid) (connIndex : UInt8)
    (options : ConnectionOptions) (ha : auth.fits = true) (ho : options.fits = true) :
    ∃ request, buildRegisterRequest K auth tunnelId connIndex options = some request ∧
      ∀ params, K.deliver request = .ok params →
        readRegisterRequest K params = .ok (registerParams auth tunnelId connIndex options) := by
  obtain ⟨request, hbuilt, hread⟩ := request_ok K tunnelId connIndex ha ho
  refine ⟨request, hbuilt, ?_⟩
  intro params hparams
  rw [K.deliver_eq hparams]
  exact hread

def sampleUuid : Uuid := ⟨List.replicate 16 5, rfl⟩

theorem register_request_read_default : ∃ request,
    buildRegisterRequest refCrate ⟨"tag", [1, 2]⟩ sampleUuid 3
      (.defaultForQuickTunnel sampleUuid "linux" "x86_64" "v") = some request ∧
    readRegisterRequest refCrate request =
      .ok (registerParams ⟨"tag", [1, 2]⟩ sampleUuid 3
        (.defaultForQuickTunnel sampleUuid "linux" "x86_64" "v")) := by
  obtain ⟨request, hbuilt, hread⟩ := register_request_read refCrate ⟨"tag", [1, 2]⟩ sampleUuid 3
    (.defaultForQuickTunnel sampleUuid "linux" "x86_64" "v") (by decide) (by decide)
  exact ⟨request, hbuilt, hread request rfl⟩

end Request

/-! ## The reply -/

/-- mirrors src/rpc.rs:59-60 -/
def DUPLICATE_CONNECTION_ERROR : String :=
  "edge already has connection registered for the given connection identifier"

/-- As read; `retryAfter` and `shouldRetry` are not asked for. -/
structure ConnectionErrorReader where
  cause : Except String Bytes

structure ConnectionDetailsReader where
  uuid : Except String Bytes
  locationName : Except String Bytes
  tunnelIsRemotelyManaged : Bool

/-- The union of a `ConnectionResponse`, as read. -/
inductive WhichReader
  | error (e : Except String ConnectionErrorReader)
  | connectionDetails (d : Except String ConnectionDetailsReader)

/-- `.ok().and_then(|t| t.to_string().ok())`.
mirrors src/rpc.rs:406-410,428-432 -/
def readable (t : Except String Bytes) : Option String := t.toOption.bind toStr

/-- The text of a refusal. mirrors src/rpc.rs:406-416 -/
def refusal (err : ConnectionErrorReader) : String :=
  let cause := (readable err.cause).getD "<missing cause>"
  if cause = DUPLICATE_CONNECTION_ERROR then
    "duplicate connection (edge already has connIndex registered): " ++ cause
  else cause

/-- mirrors src/rpc.rs:394-442 -/
def decodeConnectionResponse : Except String WhichReader → Except TunnelError RegistrationDetails
  | .error e => .error (.register ("ConnectionResponse union: " ++ e))
  | .ok (.error (.error e)) => .error (.register ("ConnectionError reader: " ++ e))
  | .ok (.error (.ok err)) => .error (.register (refusal err))
  | .ok (.connectionDetails (.error e)) => .error (.register ("ConnectionDetails reader: " ++ e))
  | .ok (.connectionDetails (.ok d)) =>
    match d.uuid with
    | .error e => .error (.register ("ConnectionDetails.uuid: " ++ e))
    | .ok uuid =>
      if uuid.length ≠ 16 then
        .error (.register ("ConnectionDetails.uuid wrong length: " ++ toString uuid.length))
      else
        .ok {
          uuid := uuid
          location := ((readable d.locationName).map utf8).getD []
          tunnelIsRemotelyManaged := d.tunnelIsRemotelyManaged }

/-- What the register call comes back with: the promise is rejected, the
results have no root or no `result`, or they have one. -/
inductive RegisterReply
  | rejected (e : String)
  | noRoot (e : String)
  | noResult (e : String)
  | answered (result : Except String WhichReader)

/-- The future `call`. mirrors src/rpc.rs:263-274 -/
def RegisterReply.outcome : RegisterReply → Except TunnelError RegistrationDetails
  | .rejected e => .error (.register ("register_connection RPC: " ++ e))
  | .noRoot e => .error (.register ("response root: " ++ e))
  | .noResult e => .error (.register ("response.result: " ++ e))
  | .answered result => decodeConnectionResponse result

section Accessors
variable (K : Crate)

/-! Where the fields are.
mirrors src/proto_gen/tunnelrpc_capnp.rs:6046-6061,6317-6331,6582-6600,7547-7549 -/

def connectionDetails (d : K.Struct) : ConnectionDetailsReader where
  uuid := K.asData (K.getPtr d 0)
  locationName := K.asText (K.getPtr d 1)
  tunnelIsRemotelyManaged := K.getBool d 0

/-- What an edge has to say: a cause, or the details. -/
inductive EdgeAnswer
  | refused (cause : Bytes)
  | accepted (uuid locationName : Bytes) (tunnelIsRemotelyManaged : Bool)

/-- By the builders of the same schema.
mirrors src/proto_gen/tunnelrpc_capnp.rs:6121-6139,6336,6387-6393,6605,6656-6694 -/
def EdgeAnswer.fill (response : K.Struct) : EdgeAnswer → Option K.Struct
  | .refused cause => do
    let text ← K.newText cause
    return K.setPtr (K.setU16 response 0 0) 0 (K.newStruct (K.setPtr (K.blank 2 1) 0 text))
  | .accepted uuid locationName managed => do
    let data ← K.newData uuid
    let name ← K.newText locationName
    return K.setPtr (K.setU16 response 0 1) 0
      (K.newStruct (K.setBool (K.setPtr (K.setPtr (K.blank 1 2) 0 data) 1 name) 0 managed))

def EdgeAnswer.results (a : EdgeAnswer) : Option K.Struct := do
  let response ← a.fill K (K.blank 1 1)
  return K.setPtr (K.blank 0 1) 0 (K.newStruct response)

end Accessors

def EdgeAnswer.fits : EdgeAnswer → Bool
  | .refused cause => fitsText cause
  | .accepted uuid locationName _ => fitsData uuid && fitsText locationName

section Reply

end Reply

end QuickTunnel.Rpc
