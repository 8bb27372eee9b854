import QuickTunnel.Core.Utf8
import QuickTunnel.Stream

/-!
# Decoding a `ConnectRequest`

`read_connect_request` checks the signature, skips the version and hands the
rest to the capnp reader. It refuses a message whose `dest` or `type` it
cannot read; of the metadata it keeps what it can.

The capnp crates are a parameter: for each pointer it follows the reader
gives the stored bytes or list, or an error.

* `decode_ok`, `decode_refused`: the outcome on every message.
* `readConnectRequest_foreign`: streams of another kind.
* `lossless_iff`: the streams whose decoding loses nothing.
-/
namespace QuickTunnel.Stream

/-! mirrors src/stream.rs:36-42 -/

def DATA_STREAM_SIGNATURE : Bytes := [0x0A, 0x36, 0xCD, 0x12, 0xA1, 0x3E]
def RPC_STREAM_SIGNATURE : Bytes := [0x52, 0xBB, 0x82, 0x5C, 0xDB, 0x65]

/-- An entry of the metadata list, as read. -/
structure MetadataReader where
  key : Except String Bytes
  val : Except String Bytes

/-- A message, as read. mirrors schemas/quic_metadata_protocol.capnp:8-23 -/
structure ConnectRequestReader where
  dest : Except String Bytes
  type : UInt16
  metadata : Except String (List MetadataReader)

/-- The capnp crates: `read_message` and the `get_root` behind it, with what
is left unread, and the texts of the errors for invalid text and for a value
that is not in the schema. -/
structure Capnp where
  readMessage : Bytes → Except String (Except String ConnectRequestReader) × Bytes
  utf8Error : Bytes → String
  notInSchema : UInt16 → String

/-- `text::Reader::to_string`. -/
def Capnp.toString (C : Capnp) (t : Bytes) : Except String Bytes :=
  if isUtf8 t then .ok t else .error (C.utf8Error t)

/-- The enumerants of the schema. mirrors schemas/quic_metadata_protocol.capnp:14-18 -/
def ConnectionType.code : ConnectionType → UInt16
  | .http => 0
  | .websocket => 1
  | .tcp => 2

/-- mirrors src/stream.rs:121-128 -/
def Capnp.connectionType (C : Capnp) (type : UInt16) : Except String ConnectionType :=
  if type = 0 then .ok .http
  else if type = 1 then .ok .websocket
  else if type = 2 then .ok .tcp
  else .error (C.notInSchema type)

/-- `.ok().and_then(|t| t.to_string().ok()).unwrap_or_default()`.
mirrors src/stream.rs:133-142 -/
def Capnp.textOrDefault (C : Capnp) (t : Except String Bytes) : Bytes :=
  (t.toOption.bind fun t => (C.toString t).toOption).getD []

/-- mirrors src/stream.rs:129-145 -/
def Capnp.metadata (C : Capnp) : Except String (List MetadataReader) → List (Bytes × Bytes)
  | .ok list => list.map fun m => (C.textOrDefault m.key, C.textOrDefault m.val)
  | .error _ => []

/-- mirrors src/stream.rs:112-150 -/
def decode (C : Capnp) : Except String ConnectRequestReader → Except TunnelError ConnectRequest
  | .error e => .error (.internal ("capnp root: " ++ e))
  | .ok root =>
    match root.dest with
    | .error e => .error (.internal ("dest: " ++ e))
    | .ok dest =>
      match C.toString dest with
      | .error e => .error (.internal ("dest utf-8: " ++ e))
      | .ok dest =>
        match C.connectionType root.type with
        | .error e => .error (.internal ("type: " ++ e))
        | .ok connType => .ok { dest, connType, metadata := C.metadata root.metadata }

/-- `read_exact` of `n` bytes, and what is left. -/
def readExact (n : Nat) (stream : Bytes) : Except String Bytes × Bytes :=
  if n ≤ stream.length then (.ok (stream.take n), stream.drop n)
  else (.error "unexpected end of file", [])

def hexDigit (n : Nat) : Char := (Nat.toDigits 16 n).headD '0'

/-- The format `:02x?` of a byte array. -/
def debugHex (s : Bytes) : String :=
  "[" ++ ", ".intercalate (s.map fun b =>
    String.ofList [hexDigit (b.toNat / 16), hexDigit (b.toNat % 16)]) ++ "]"

/-- With what is left of the stream.
mirrors src/stream.rs:88-151 -/
def readConnectRequest (C : Capnp) (stream : Bytes) : Except TunnelError ConnectRequest × Bytes :=
  match readExact 6 stream with
  | (.error e, rest) => (.error (.internal ("read signature: " ++ e)), rest)
  | (.ok sig, rest) =>
    if sig ≠ DATA_STREAM_SIGNATURE then
      (.error (.internal ("unexpected stream signature: " ++ debugHex sig)), rest)
    else
      match readExact 2 rest with
      | (.error e, rest) => (.error (.internal ("read version: " ++ e)), rest)
      | (.ok _, rest) =>
        match C.readMessage rest with
        | (.error e, rest) => (.error (.internal ("read capnp message: " ++ e)), rest)
        | (.ok msg, rest) => (decode C msg, rest)

example (C : Capnp) : readConnectRequest C (RPC_STREAM_SIGNATURE ++ [48, 49]) =
    (.error (.internal "unexpected stream signature: [52, bb, 82, 5c, db, 65]"), [48, 49]) := by rfl

/-! ## What is lost -/

/-- The stream is the signature, two bytes and the message `r`. -/
def Carries (C : Capnp) (stream : Bytes) (r : ConnectRequestReader) : Prop :=
  ∃ ver body rest, ver.length = 2 ∧ stream = DATA_STREAM_SIGNATURE ++ ver ++ body ∧
    C.readMessage body = (.ok (.ok r), rest)

/-- Field by field and entry by entry. -/
structure Same (r : ConnectRequestReader) (req : ConnectRequest) : Prop where
  dest : r.dest = .ok req.dest
  type : r.type = req.connType.code
  metadata : r.metadata = .ok (req.metadata.map fun kv => ⟨.ok kv.1, .ok kv.2⟩)

structure Lossless (C : Capnp) (stream : Bytes) : Prop where
  carried : ∀ r, Carries C stream r → (∃ e, (readConnectRequest C stream).1 = .error e) ∨
    ∃ req, (readConnectRequest C stream).1 = .ok req ∧ Same r req
  foreign : ¬ DATA_STREAM_SIGNATURE <+: stream →
    (∃ e, (readConnectRequest C stream).1 = .error e) ∧ (readConnectRequest C stream).2 = stream.drop 6

/-- It can be read, and is UTF-8. -/
def IsText (t : Except String Bytes) : Prop := ∃ b, t = .ok b ∧ isUtf8 b = true

/-- `dest` is no text, or `type` none of the schema's. -/
def ConnectRequestReader.Refused (r : ConnectRequestReader) : Prop :=
  ¬ IsText r.dest ∨ ∀ t : ConnectionType, r.type ≠ t.code

/-- The list can be read, and all its keys and values are text. -/
def ConnectRequestReader.Readable (r : ConnectRequestReader) : Prop :=
  ∃ list, r.metadata = .ok list ∧ ∀ m ∈ list, IsText m.key ∧ IsText m.val

section Decode
variable {C : Capnp} {r : ConnectRequestReader}

theorem toString_ok {t : Bytes} (h : isUtf8 t = true) : C.toString t = .ok t := by
  unfold Capnp.toString
  rw [if_pos h]

theorem toString_error {t : Bytes} (h : ¬ isUtf8 t = true) : C.toString t = .error (C.utf8Error t) := by
  unfold Capnp.toString
  rw [if_neg h]

theorem connectionType_code (t : ConnectionType) : C.connectionType t.code = .ok t := by
  cases t <;> rfl

theorem connectionType_cases (type : UInt16) :
    (∃ t : ConnectionType, type = t.code) ∨
      (∀ t : ConnectionType, type ≠ t.code) ∧ C.connectionType type = .error (C.notInSchema type) := by
  unfold Capnp.connectionType
  split
  · exact .inl ⟨.http, ‹_›⟩
  · split
    · exact .inl ⟨.websocket, ‹_›⟩
    · split
      · exact .inl ⟨.tcp, ‹_›⟩
      · refine .inr ⟨fun t => ?_, rfl⟩
        cases t <;> assumption

/-- What is kept of a key or a value is text. -/
theorem textOrDefault_isUtf8 (t : Except String Bytes) : isUtf8 (C.textOrDefault t) = true := by
  unfold Capnp.textOrDefault
  cases t with
  | error e => rfl
  | ok b =>
    rw [Except.toOption, Option.bind_some]
    by_cases hb : isUtf8 b = true
    · rw [toString_ok hb]
      exact hb
    · rw [toString_error hb]
      rfl

theorem textOrDefault_eq_iff {t : Except String Bytes} : t = .ok (C.textOrDefault t) ↔ IsText t := by
  constructor
  · intro h
    exact ⟨_, h, textOrDefault_isUtf8 t⟩
  · intro ⟨b, ht, hb⟩
    rw [ht, Capnp.textOrDefault, Except.toOption, Option.bind_some, toString_ok hb]
    rfl

theorem metadata_eq_iff :
    r.metadata = .ok ((C.metadata r.metadata).map fun kv => ⟨.ok kv.1, .ok kv.2⟩) ↔ r.Readable := by
  unfold ConnectRequestReader.Readable
  cases hm : r.metadata with
  | error e => simp
  | ok list =>
    have hentry : ∀ m : MetadataReader, m = ⟨.ok (C.textOrDefault m.key), .ok (C.textOrDefault m.val)⟩ ↔
        IsText m.key ∧ IsText m.val := by
      intro m
      rw [← textOrDefault_eq_iff (C := C), ← textOrDefault_eq_iff (C := C)]
      constructor
      · intro h
        exact ⟨congrArg MetadataReader.key h, congrArg MetadataReader.val h⟩
      · intro ⟨hk, hv⟩
        rw [← hk, ← hv]
    rw [Capnp.metadata, List.map_map, Except.ok.injEq]
    nth_rewrite 1 [← List.map_id list]
    rw [List.map_inj_left]
    constructor
    · intro h
      exact ⟨list, rfl, fun m hmem => (hentry m).1 (h m hmem)⟩
    · intro ⟨list', heq, hall⟩ m hmem
      cases heq
      exact (hentry m).2 (hall m hmem)

theorem decode_refused (h : r.Refused) : ∃ e, decode C (.ok r) = .error e := by
  cases hd : r.dest with
  | error e => exact ⟨.internal ("dest: " ++ e), by simp only [decode, hd]⟩
  | ok d =>
    by_cases hutf : isUtf8 d = true
    · rcases h with hno | hno
      · exact absurd ⟨d, hd, hutf⟩ hno
      · obtain ⟨t, ht⟩ | ⟨-, herr⟩ := @connectionType_cases C r.type
        · exact absurd ht (hno t)
        · exact ⟨.internal ("type: " ++ C.notInSchema r.type), by
            simp only [decode, hd, toString_ok hutf, herr]⟩
    · exact ⟨.internal ("dest utf-8: " ++ C.utf8Error d), by simp only [decode, hd, toString_error hutf]⟩

theorem decode_ok (h : ¬ r.Refused) : ∃ d t, r.dest = .ok d ∧ r.type = ConnectionType.code t ∧
    decode C (.ok r) = .ok ⟨d, t, C.metadata r.metadata⟩ := by
  unfold ConnectRequestReader.Refused at h
  rw [not_or, Classical.not_not, not_forall] at h
  obtain ⟨⟨d, hd, hutf⟩, t, ht⟩ := h
  rw [Classical.not_not] at ht
  refine ⟨d, t, hd, ht, ?_⟩
  simp only [decode, hd, toString_ok hutf, ht, connectionType_code]

/-- A message is decoded as it is, or refused, unless it is metadata that
cannot be read. -/
theorem decode_same_iff :
    ((∃ e, decode C (.ok r) = .error e) ∨ ∃ req, decode C (.ok r) = .ok req ∧ Same r req) ↔
      r.Refused ∨ r.Readable := by
  by_cases hrefused : r.Refused
  · exact ⟨fun _ => .inl hrefused, fun _ => .inl (decode_refused hrefused)⟩
  · obtain ⟨d, t, hd, ht, hok⟩ := @decode_ok C r hrefused
    rw [hok, or_iff_right hrefused, ← metadata_eq_iff (C := C)]
    constructor
    · intro h
      obtain ⟨e, he⟩ | ⟨req, hreq, hsame⟩ := h
      · cases he
      · cases hreq
        exact hsame.metadata
    · intro h
      exact .inr ⟨_, rfl, hd, ht, h⟩

end Decode

/-! ## The stream -/

section Stream
variable {C : Capnp} {stream : Bytes}

theorem signature_prefix_iff :
    DATA_STREAM_SIGNATURE <+: stream ↔ 6 ≤ stream.length ∧ stream.take 6 = DATA_STREAM_SIGNATURE := by
  constructor
  · intro h
    obtain ⟨t, rfl⟩ := h
    exact ⟨by simp [DATA_STREAM_SIGNATURE], rfl⟩
  · intro ⟨_, h⟩
    exact h ▸ List.take_prefix 6 stream

/-- **Foreign streams** are refused on their first six bytes. -/
theorem readConnectRequest_foreign (h : ¬ DATA_STREAM_SIGNATURE <+: stream) :
    (∃ e, (readConnectRequest C stream).1 = .error e) ∧ (readConnectRequest C stream).2 = stream.drop 6 := by
  rw [signature_prefix_iff] at h
  by_cases hlen : 6 ≤ stream.length
  · have hsig : stream.take 6 ≠ DATA_STREAM_SIGNATURE := fun heq => h ⟨hlen, heq⟩
    have heq : readConnectRequest C stream =
        (.error (.internal ("unexpected stream signature: " ++ debugHex (stream.take 6))),
          stream.drop 6) := by
      simp only [readConnectRequest, readExact, if_pos hlen, if_pos hsig]
    rw [heq]
    exact ⟨⟨_, rfl⟩, rfl⟩
  · have heq : readConnectRequest C stream =
        (.error (.internal ("read signature: " ++ "unexpected end of file")), []) := by
      simp only [readConnectRequest, readExact, if_neg hlen]
    rw [heq]
    exact ⟨⟨_, rfl⟩, (List.drop_eq_nil_of_le (by omega)).symm⟩

theorem readConnectRequest_carries {r : ConnectRequestReader} (h : Carries C stream r) :
    (readConnectRequest C stream).1 = decode C (.ok r) := by
  obtain ⟨ver, body, rest, hver, rfl, hread⟩ := h
  have hsix : (DATA_STREAM_SIGNATURE ++ ver ++ body).length = 6 + (2 + body.length) := by
    simp [DATA_STREAM_SIGNATURE, hver]
    omega
  have htake : (DATA_STREAM_SIGNATURE ++ ver ++ body).take 6 = DATA_STREAM_SIGNATURE := rfl
  have hdrop : (DATA_STREAM_SIGNATURE ++ ver ++ body).drop 6 = ver ++ body := rfl
  have hbody : (ver ++ body).drop 2 = body := by
    rw [← hver, List.drop_left]
  have htwo : 2 ≤ (ver ++ body).length := by
    rw [List.length_append]
    omega
  simp only [readConnectRequest, readExact, hsix, Nat.le_add_right, if_true, htake, hdrop, ne_eq,
    not_true_eq_false, if_false, htwo, hbody, hread]

/-- **Nothing is lost silently** from exactly the streams whose message is
refused or has metadata that can all be read. -/
theorem lossless_iff (C : Capnp) (stream : Bytes) :
    Lossless C stream ↔ ∀ r, Carries C stream r → r.Refused ∨ r.Readable := by
  constructor
  · intro h r hr
    have := h.carried r hr
    rwa [readConnectRequest_carries hr, decode_same_iff] at this
  · intro h
    refine ⟨fun r hr => ?_, readConnectRequest_foreign⟩
    rw [readConnectRequest_carries hr, decode_same_iff]
    exact h r hr

end Stream

/-- A request for `https://h/` with the one header `X`, whose value is `cé` in
Latin-1. -/
def latin1Message : ConnectRequestReader where
  dest := .ok (ascii "https://h/")
  type := 0
  metadata := .ok [⟨.ok (ascii "HttpHeader:X"), .ok [0x63, 0xE9]⟩]

/-- The same in capnp: the segment table and twelve words. -/
def latin1Body : Bytes :=
  [0, 0, 0, 0, 12, 0, 0, 0] ++
  [0, 0, 0, 0, 1, 0, 2, 0] ++ [0, 0, 0, 0, 0, 0, 0, 0] ++ [5, 0, 0, 0, 90, 0, 0, 0] ++
  [9, 0, 0, 0, 23, 0, 0, 0] ++
  [104, 116, 116, 112, 115, 58, 47, 47] ++ [104, 47, 0, 0, 0, 0, 0, 0] ++
  [4, 0, 0, 0, 0, 0, 2, 0] ++ [5, 0, 0, 0, 106, 0, 0, 0] ++ [9, 0, 0, 0, 26, 0, 0, 0] ++
  [72, 116, 116, 112, 72, 101, 97, 100] ++ [101, 114, 58, 88, 0, 0, 0, 0] ++ [0x63, 0xE9, 0, 0, 0, 0, 0, 0]

/-- The capnp crates on a stream that is `latin1Body`. -/
def latin1Capnp : Capnp where
  readMessage body :=
    if body = latin1Body then (.ok (.ok latin1Message), []) else (.error "Premature end of file", [])
  utf8Error _ := "incomplete utf-8 byte sequence from index 1"
  notInSchema type :=
    "Enum value or union discriminant " ++ toString type.toNat ++ " was not present in the schema."

/-- The request comes out with an empty header value. -/
theorem latin1_value_lost :
    ¬ Lossless latin1Capnp (DATA_STREAM_SIGNATURE ++ [48, 49] ++ latin1Body) ∧
    (readConnectRequest latin1Capnp (DATA_STREAM_SIGNATURE ++ [48, 49] ++ latin1Body)).1 =
      .ok ⟨ascii "https://h/", .http, [(ascii "HttpHeader:X", [])]⟩ := by
  have hread : (readConnectRequest latin1Capnp (DATA_STREAM_SIGNATURE ++ [48, 49] ++ latin1Body)).1 =
      .ok ⟨ascii "https://h/", .http, [(ascii "HttpHeader:X", [])]⟩ := rfl
  refine ⟨fun h => ?_, hread⟩
  obtain ⟨e, he⟩ | ⟨req, hreq, hsame⟩ := h.carried latin1Message ⟨[48, 49], latin1Body, [], rfl, rfl, rfl⟩
  · rw [hread] at he
    cases he
  · rw [hread] at hreq
    cases hreq
    exact absurd hsame.metadata (by simp [latin1Message])

end QuickTunnel.Stream
