import QuickTunnel.Core.Message
import QuickTunnel.Stream.Decode
import Mathlib.Data.List.Forall2

/-!
# The messages of a stream

`ConnectRequest` and `ConnectResponse` as the accessors generated from
`schemas/quic_metadata_protocol.capnp` write and read them, over a crate
(`Message.Crate`). `Stream.Decode` has the client's reader over what a crate
gives it, and `EdgeWrite.message` is a response that is written; here are the
messages between the two sides.

* `request_told`: what an edge puts into a request and the client gets.
* `response_read`: what the client puts into a response and the edge reads.
-/
namespace QuickTunnel.Stream

open QuickTunnel.Message

/-- Each key and value, and the list: an entry is two words. -/
def fitsMetadata (metadata : List (Bytes × Bytes)) : Bool :=
  decide (2 * metadata.length < 2 ^ 29) && metadata.all fun kv => fitsText kv.1 && fitsText kv.2

section Messages
variable (K : Crate)

/-- A metadata entry, by either side's builder.
mirrors src/proto_gen/quic_metadata_protocol_capnp.rs:442-519 -/
def metadataEntry (kv : Bytes × Bytes) : Option K.Ptr := do
  let key ← K.newText kv.1
  let val ← K.newText kv.2
  return K.newStruct (K.setPtr (K.setPtr (K.blank 0 2) 0 key) 1 val)

/-- The two pointers of an entry. -/
def EntryOf (kv : Bytes × Bytes) (m : K.Ptr) : Prop :=
  K.asText (K.getPtr (K.element m) 0) = .ok kv.1 ∧ K.asText (K.getPtr (K.element m) 1) = .ok kv.2

theorem metadataEntry_ok {kv : Bytes × Bytes} (hk : fitsText kv.1 = true) (hv : fitsText kv.2 = true) :
    ∃ m, metadataEntry K kv = some m ∧ EntryOf K kv m := by
  obtain ⟨key, hkey, hkey'⟩ := K.newText_ok (of_decide_eq_true hk)
  obtain ⟨val, hval, hval'⟩ := K.newText_ok (of_decide_eq_true hv)
  refine ⟨K.newStruct (K.setPtr (K.setPtr (K.blank 0 2) 0 key) 1 val), ?_, ?_, ?_⟩
  · unfold metadataEntry
    rw [hkey, hval]
    rfl
  · simp [hkey']
  · simp [hval']

theorem metadata_ok {metadata : List (Bytes × Bytes)} (h : fitsMetadata metadata = true) :
    ∃ ms, K.fillList 2 (metadataEntry K) metadata = some (K.newList ms) ∧
      List.Forall₂ (EntryOf K) metadata ms := by
  simp only [fitsMetadata, Bool.and_eq_true, decide_eq_true_eq, List.all_eq_true] at h
  obtain ⟨hlen, hall⟩ := h
  apply Crate.fillList_ok (by decide) hlen
  intro kv hmem
  obtain ⟨hk, hv⟩ := hall kv hmem
  exact metadataEntry_ok K hk hv

/-! ## Requests -/

/-- As an edge builds it.
mirrors src/proto_gen/quic_metadata_protocol_capnp.rs:142-175 -/
def connectRequest (req : ConnectRequest) : Option K.Struct := do
  let dest ← K.newText req.dest
  let entries ← K.fillList 2 (metadataEntry K) req.metadata
  return K.setPtr (K.setU16 (K.setPtr (K.blank 1 2) 0 dest) 0 req.connType.code) 1 entries

/-- As the client reads it.
mirrors src/proto_gen/quic_metadata_protocol_capnp.rs:68-84,423-435 -/
def connectRequestReader (root : K.Struct) : ConnectRequestReader where
  dest := K.asText (K.getPtr root 0)
  type := K.getU16 root 0
  metadata := (K.asList (K.getPtr root 1)).map fun list => list.map fun m =>
    { key := K.asText (K.getPtr (K.element m) 0)
      val := K.asText (K.getPtr (K.element m) 1) }

def ConnectRequest.fits (req : ConnectRequest) : Bool := fitsText req.dest && fitsMetadata req.metadata

/-- A text that is not well-formed is taken for an empty one. -/
def utf8OrEmpty (t : Bytes) : Bytes := if isUtf8 t then t else []

theorem connectRequest_ok {req : ConnectRequest} (h : req.fits = true) :
    ∃ message, connectRequest K req = some message ∧ Same (connectRequestReader K message) req := by
  rw [ConnectRequest.fits, Bool.and_eq_true] at h
  obtain ⟨dest, hdest, hdest'⟩ := K.newText_ok (of_decide_eq_true h.1)
  obtain ⟨ms, hms, hall⟩ := metadata_ok K h.2
  refine ⟨K.setPtr (K.setU16 (K.setPtr (K.blank 1 2) 0 dest) 0 req.connType.code) 1 (K.newList ms), ?_, ?_⟩
  · unfold connectRequest
    rw [hdest, hms]
    rfl
  · refine ⟨?_, ?_, ?_⟩
    · simp [connectRequestReader, hdest']
    · simp [connectRequestReader]
    · have hread : List.Forall₂ (fun (kv : Bytes × Bytes) m => (⟨K.asText (K.getPtr (K.element m) 0),
          K.asText (K.getPtr (K.element m) 1)⟩ : MetadataReader) = ⟨.ok kv.1, .ok kv.2⟩) req.metadata ms :=
        hall.imp fun kv m hm => by rw [hm.1, hm.2]
      have hlist : K.asList (K.getPtr (K.setPtr (K.setU16 (K.setPtr (K.blank 1 2) 0 dest) 0
          req.connType.code) 1 (K.newList ms)) 1) = .ok ms := by simp
      simp only [connectRequestReader, hlist, Except.map, map_read hread]

theorem textOrDefault_ok (C : Capnp) (t : Bytes) : C.textOrDefault (.ok t) = utf8OrEmpty t := by
  unfold Capnp.textOrDefault utf8OrEmpty
  rw [Except.toOption, Option.bind_some]
  by_cases h : isUtf8 t = true
  · rw [toString_ok h, if_pos h]
    rfl
  · rw [toString_error h, if_neg h]
    rfl

/-- What is kept of a message all of which can be read. -/
theorem decode_same {C : Capnp} {r : ConnectRequestReader} {req : ConnectRequest} (h : Same r req) :
    decode C (.ok r) =
      if isUtf8 req.dest then
        .ok { req with metadata := req.metadata.map fun kv => (utf8OrEmpty kv.1, utf8OrEmpty kv.2) }
      else .error (.internal ("dest utf-8: " ++ C.utf8Error req.dest)) := by
  have hmeta : C.metadata r.metadata =
      req.metadata.map fun kv => (utf8OrEmpty kv.1, utf8OrEmpty kv.2) := by
    rw [h.metadata]
    simp only [Capnp.metadata, List.map_map]
    apply List.map_congr_left
    intro kv _
    simp only [Function.comp_apply, textOrDefault_ok]
  simp only [decode, h.dest, h.type, connectionType_code, hmeta]
  by_cases hd : isUtf8 req.dest = true
  · rw [toString_ok hd, if_pos hd]
  · rw [toString_error hd, if_neg hd]

/-- **What an edge puts into a request**, if it arrives, is what the client
gets, but for texts that are not UTF-8: such a destination makes the request
fail, such a key or value is emptied and the entry kept. -/
theorem request_told (C : Capnp) (req : ConnectRequest) (h : req.fits = true) :
    ∃ message, connectRequest K req = some message ∧ ∀ root stream, K.deliver message = .ok root →
      Carries C stream (connectRequestReader K root) → (readConnectRequest C stream).1 =
        if isUtf8 req.dest then
          .ok { req with metadata := req.metadata.map fun kv => (utf8OrEmpty kv.1, utf8OrEmpty kv.2) }
        else .error (.internal ("dest utf-8: " ++ C.utf8Error req.dest)) := by
  obtain ⟨message, hbuilt, hsame⟩ := connectRequest_ok K h
  refine ⟨message, hbuilt, ?_⟩
  intro root stream hroot hcarries
  rw [K.deliver_eq hroot] at hcarries
  rw [readConnectRequest_carries hcarries]
  exact decode_same hsame

/-! ## Responses -/

/-- The message of `write_connect_response`.
mirrors src/stream.rs:181-190, src/proto_gen/quic_metadata_protocol_capnp.rs:745-766 -/
def connectResponse (error : String) (metadata : List (Bytes × Bytes)) : Option K.Struct := do
  let text ← K.newText (utf8 error)
  let entries ← K.fillList 2 (metadataEntry K) metadata
  return K.setPtr (K.setPtr (K.blank 0 2) 0 text) 1 entries

def readEntry (m : K.Ptr) : Except String (Bytes × Bytes) := do
  let key ← K.asText (K.getPtr (K.element m) 0)
  let val ← K.asText (K.getPtr (K.element m) 1)
  return (key, val)

/-- As the edge reads it: the error and the entries in their order. -/
def readConnectResponse (root : K.Struct) : Except String (Bytes × List (Bytes × Bytes)) := do
  let error ← K.asText (K.getPtr root 0)
  let metadata ← (← K.asList (K.getPtr root 1)).mapM (readEntry K)
  return (error, metadata)

theorem readEntry_of {kv : Bytes × Bytes} {m : K.Ptr} (h : EntryOf K kv m) : readEntry K m = .ok kv := by
  unfold readEntry
  rw [h.1, h.2]
  rfl

/-- **What the client puts into a response**, if it arrives, is what the edge
reads: the error and every entry, in order and with its repetitions. -/
theorem response_read (error : String) (metadata : List (Bytes × Bytes))
    (he : fitsText (utf8 error) = true) (hm : fitsMetadata metadata = true) :
    ∃ message, connectResponse K error metadata = some message ∧ ∀ root, K.deliver message = .ok root →
      readConnectResponse K root = .ok (utf8 error, metadata) := by
  obtain ⟨text, htext, htext'⟩ := K.newText_ok (of_decide_eq_true he)
  obtain ⟨ms, hms, hall⟩ := metadata_ok K hm
  refine ⟨K.setPtr (K.setPtr (K.blank 0 2) 0 text) 1 (K.newList ms), ?_, ?_⟩
  · unfold connectResponse
    rw [htext, hms]
    rfl
  · intro root hroot
    rw [K.deliver_eq hroot]
    have herror : K.asText (K.getPtr (K.setPtr (K.setPtr (K.blank 0 2) 0 text) 1 (K.newList ms)) 0) =
        .ok (utf8 error) := by simp [htext']
    have hlist : K.asList (K.getPtr (K.setPtr (K.setPtr (K.blank 0 2) 0 text) 1 (K.newList ms)) 1) =
        .ok ms := by simp
    have hentries : ms.mapM (readEntry K) = .ok (metadata.map id) :=
      mapM_read (hall.imp fun kv m h => readEntry_of K h)
    unfold readConnectResponse
    rw [herror, hlist]
    rw [List.map_id] at hentries
    simp only [bind, Except.bind, hentries, pure, Except.pure]

end Messages

/-- The request of `latin1Message`: its header value comes out empty. -/
theorem request_told_latin1 : ∃ message,
    connectRequest refCrate ⟨ascii "https://h/", .http, [(ascii "HttpHeader:X", [0x63, 0xE9])]⟩ = some message ∧
    (readConnectRequest latin1Capnp (DATA_STREAM_SIGNATURE ++ [48, 49] ++ latin1Body)).1 =
      .ok ⟨ascii "https://h/", .http, [(ascii "HttpHeader:X", [])]⟩ := by
  obtain ⟨message, hbuilt, htold⟩ := request_told refCrate latin1Capnp
    ⟨ascii "https://h/", .http, [(ascii "HttpHeader:X", [0x63, 0xE9])]⟩ (by decide)
  have hmessage : connectRequestReader refCrate message = latin1Message := by
    cases hbuilt
    rfl
  exact ⟨message, hbuilt, htold message _ rfl ⟨[48, 49], latin1Body, [], rfl, rfl, by rw [hmessage]; rfl⟩⟩

/-- A response with one field. -/
theorem response_read_ok : ∃ message,
    connectResponse refCrate "" [(ascii "HttpStatus", ascii "200"), (ascii "HttpHeader:Server", ascii "x")] =
      some message ∧
    readConnectResponse refCrate message =
      .ok (utf8 "", [(ascii "HttpStatus", ascii "200"), (ascii "HttpHeader:Server", ascii "x")]) := by
  obtain ⟨message, hbuilt, hread⟩ := response_read refCrate ""
    [(ascii "HttpStatus", ascii "200"), (ascii "HttpHeader:Server", ascii "x")] (by decide) (by decide)
  exact ⟨message, hbuilt, hread message rfl⟩

end QuickTunnel.Stream
