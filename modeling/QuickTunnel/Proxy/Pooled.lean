import QuickTunnel.Core.LTS
import QuickTunnel.Proxy.Head
import QuickTunnel.Proxy.Io

/-!
# The pooled path (`run_pooled`)

One request and one response over a keep-alive socket: forward the request
body up to its Content-Length, read the response head, answer the edge,
forward the bytes read behind the head, then either the rest of a
Content-Length body and `pool.release`, or everything until the end of the
file.

`runPooled P req` is the machine of one call: a label is what the awaited
operation returned. `Inv` ties every program point to the bytes that have
been read and written; what the later modules say about single properties
(body lengths, delimiting, pooling) is read off it.

* `inv_reachable`: `Inv` holds at every program point of every run.
* `finished_of_release`: a run that reaches `pool.release` has read one
  head and `total - leftover.len()` body bytes and written them all.
-/
namespace QuickTunnel.Proxy.Pooled

open QuickTunnel.Stream

/-- The awaits of `run_pooled`.
mirrors src/proxy.rs:245-313 -/
inductive Pc
  | reqBody (p : Pump)
  | head (buf : Bytes)
  | respond (h : ResponseHead) (rest : List EdgeWrite)
  | leftover (h : ResponseHead)
  | respBody (h : ResponseHead) (p : Pump)
  | closePooled (h : ResponseHead)
  | release (h : ResponseHead)
  | drain (h : ResponseHead) (p : Pump)
  | closeDrain (h : ResponseHead)
  | done (r : Except TunnelError Unit)

/-- `released`: `pool.release(socket)` has run. -/
structure St where
  pc : Pc
  wire : Wire
  released : Bool := false

/-- `meta` of step 3: the status, then one entry per header.
mirrors src/proxy.rs:263-266 -/
def responseMeta (h : ResponseHead) : List (Bytes × Bytes) :=
  (HTTP_STATUS_KEY, decimal h.status) ::
    h.headers.map fun nv => (HTTP_HEADER_KEY ++ ascii ":" ++ nv.1, nv.2)

/-- The frame of step 3. -/
def frame (h : ResponseHead) : List EdgeWrite := writeConnectResponse "" (responseMeta h)

/-- `resp_shape.content_length.filter(|_| resp_shape.poolable())`.
mirrors src/proxy.rs:278 -/
def pooledLength (h : ResponseHead) : Option Nat :=
  let shape := analyseResponse h.status h.headers
  shape.contentLength.filter fun _ => shape.responsePoolable

/-- Step 5: which of the two bodies.
mirrors src/proxy.rs:278-284,302-306 -/
def afterLeftover (h : ResponseHead) : Pc :=
  match pooledLength h with
  | some total =>
    match pumpTop (some (total - h.leftover.length)) with
    | .next p => .respBody h p
    | _ => .closePooled h
  | none => .drain h (.read none)

/-- Step 4: flush the bytes read behind the head, if any.
mirrors src/proxy.rs:270-276 -/
def afterRespond (h : ResponseHead) : Pc :=
  if h.leftover ≠ [] then .leftover h else afterLeftover h

theorem afterLeftover_ne_done (h : ResponseHead) (r : Except TunnelError Unit) :
    afterLeftover h ≠ .done r := by
  unfold afterLeftover
  split
  · split <;> simp
  · simp

theorem afterRespond_ne_done (h : ResponseHead) (r : Except TunnelError Unit) :
    afterRespond h ≠ .done r := by
  unfold afterRespond
  split
  · simp
  · exact afterLeftover_ne_done h r

/-- The request body length of step 1: zero bytes without a Content-Length.
mirrors src/proxy.rs:245-249 -/
def bodyLen (req : ConnectRequest) : Nat := (analyseRequest req).contentLength.getD 0

/-- Where a call starts: the head has been written (by `proxy_http`).
mirrors src/proxy.rs:228-249 -/
def start (req : ConnectRequest) : St where
  pc := match pumpTop (some (bodyLen req)) with
    | .next p => .reqBody p
    | _ => .head []
  wire := { toOrigin := buildRequestHead req true }

def failed (s : St) (w : Wire) (e : TunnelError) : St := { s with pc := .done (.error e), wire := w }

/-- mirrors src/proxy.rs:245-313 -/
def step (P : Httparse) (s : St) (e : Ev) : Option St :=
  match s.pc with
  | .reqBody p =>
    (pumpNFuturesToTokio p e).map fun o => match o with
      | .next p' => { s with pc := .reqBody p', wire := s.wire.up p e }
      | .returned => { s with pc := .head [], wire := s.wire.up p e }
      | .failed err => failed s (s.wire.up p e) err
  | .head buf =>
    (readHttpResponseHead P buf e).map fun o =>
      let w := match e with
        | .read tmp => s.wire.gotOrigin tmp
        | _ => s.wire
      match o with
      | .more buf' => { s with pc := .head buf', wire := w }
      | .returned h => { s with pc := .respond h (frame h), wire := w }
      | .failed err => failed s w err
  | .respond h rest =>
    match e with
    | .fail msg => some (failed s s.wire (writeConnectResponseError msg rest.head?))
    | .ok =>
      match rest with
      | x :: rest =>
        some { s with pc := .respond h rest, wire := { s.wire with toEdge := s.wire.toEdge ++ [x] } }
      | [] => some { s with pc := afterRespond h }
    | .read _ => none
  | .leftover h =>
    match e with
    | .ok => some { s with pc := afterLeftover h, wire := s.wire.sentBody h.leftover }
    | .fail msg => some (failed s s.wire (.internal ("write leftover body: " ++ msg)))
    | .read _ => none
  | .respBody h p =>
    (pumpNTokioToFutures p e).map fun o => match o with
      | .next p' => { s with pc := .respBody h p', wire := s.wire.down p e }
      | .returned => { s with pc := .closePooled h, wire := s.wire.down p e }
      | .failed err => failed s (s.wire.down p e) err
  | .closePooled h =>
    match e with
    -- the halves come from one `into_split`, so `reunite` succeeds
    | .ok => some { s with pc := .release h, wire := { s.wire with edgeClosed := true } }
    | .fail msg => some (failed s s.wire (.internal ("close to_edge: " ++ msg)))
    | .read _ => none
  | .release _ =>
    match e with
    | .ok => some { s with pc := .done (.ok ()), released := true }
    | .read _ => none
    | .fail _ => none
  | .drain h p =>
    -- the pump's own result is dropped (`.ok()`)
    (pumpTokioToFuturesCounted p e).map fun o => match o with
      | .next p' => { s with pc := .drain h p', wire := s.wire.down p e }
      | _ => { s with pc := .closeDrain h, wire := s.wire.down p e }
  | .closeDrain _ =>
    match e with
    | .ok => some { s with pc := .done (.ok ()), wire := { s.wire with edgeClosed := true } }
    | .fail msg => some (failed s s.wire (.internal ("close to_edge: " ++ msg)))
    | .read _ => none
  | .done _ => none

def runPooled (P : Httparse) (req : ConnectRequest) : LTS St Ev := LTS.ofFn (· = start req) (step P)

/-! ## The invariant -/

/-- Nothing has come back yet. -/
structure Quiet (w : Wire) : Prop where
  fromOrigin : w.fromOrigin = []
  originEof : w.originEof = false
  toEdge : w.toEdge = []
  edgeClosed : w.edgeClosed = false
  bytesOut : w.bytesOut = 0

/-- The whole request has been written: the head, then exactly the bytes
taken from the edge. -/
structure Requested (req : ConnectRequest) (w : Wire) : Prop where
  toOrigin : w.toOrigin = buildRequestHead req true ++ w.fromEdge.flatten
  length : w.fromEdge.flatten.length = bodyLen req
  bytesIn : w.bytesIn = bodyLen req

/-- The reads of the head phase: they carry the head and `lo` behind it, and
no fewer of them would have carried the head. -/
structure HeadReads (raw lo : Bytes) (hs : List Bytes) : Prop where
  flatten : hs.flatten = raw ++ lo
  short : hs.dropLast.flatten.length < raw.length

/-- The head `h` has been read, as `hd` off the bytes `raw`; `body` are the
body bytes read so far (beginning with the leftover) and `out` those of them
written to the edge. -/
structure Relayed (P : Httparse) (req : ConnectRequest) (h : ResponseHead) (w : Wire)
    (raw : Bytes) (hd : Http.Head) (body out : Bytes) : Prop where
  requested : Requested req w
  got : GotHead P h raw hd
  fromOrigin : w.fromOrigin.flatten = raw ++ body
  reads : ∃ hs rest, w.fromOrigin = hs ++ rest ∧ HeadReads raw h.leftover hs
  leftover : h.leftover <+: body
  toEdge : ∃ ds : List Bytes, w.toEdge = frame h ++ ds.map .data ∧ ds.flatten = out
  bytesOut : w.bytesOut = out.length

/-- A pump of the response body, having forwarded `out` of the `body` read. -/
inductive Pumping : Pump → Option Nat → Bytes → Bytes → Prop
  | read (left : Option Nat) (out : Bytes) : Pumping (.read left) left out out
  | write (left : Option Nat) (chunk out : Bytes) : chunk ≠ [] → chunk.length ≤ want left →
      Pumping (.write left chunk) left (out ++ chunk) out

theorem Pumping.of_read {l left : Option Nat} {body out : Bytes}
    (h : Pumping (.read l) left body out) : l = left ∧ body = out := by
  cases h
  exact ⟨rfl, rfl⟩

theorem Pumping.of_write {l left : Option Nat} {chunk body out : Bytes}
    (h : Pumping (.write l chunk) left body out) :
    l = left ∧ chunk ≠ [] ∧ chunk.length ≤ want left ∧ body = out ++ chunk := by
  cases h with
  | write left chunk out hc hle => exact ⟨rfl, hc, hle, rfl⟩

theorem Pumping.out_prefix {p : Pump} {left : Option Nat} {body out : Bytes}
    (h : Pumping p left body out) : out <+: body := by
  cases h with
  | read => exact List.prefix_rfl
  | write chunk out _ _ => exact List.prefix_append _ _

/-- What a run that reaches `pool.release` has done: the announced length
has been forwarded, or more when the leftover alone was longer. -/
def Finished (P : Httparse) (req : ConnectRequest) (h : ResponseHead) (w : Wire) : Prop :=
  ∃ raw hd body total, Relayed P req h w raw hd body body ∧ pooledLength h = some total ∧
    body.length = max total h.leftover.length

def Inv (P : Httparse) (req : ConnectRequest) (s : St) : Prop :=
  match s.pc with
  | .reqBody p => s.released = false ∧ Quiet s.wire ∧
    ∃ sent, s.wire.toOrigin = buildRequestHead req true ++ sent ∧ sent.length < bodyLen req ∧
      s.wire.bytesIn = sent.length ∧
      Pumping p (some (bodyLen req - sent.length)) s.wire.fromEdge.flatten sent
  | .head buf => s.released = false ∧ Requested req s.wire ∧ s.wire.fromOrigin.flatten = buf ∧
    s.wire.originEof = false ∧ s.wire.toEdge = [] ∧ s.wire.edgeClosed = false ∧
    s.wire.bytesOut = 0 ∧ (buf = [] ∨ P.parse buf = .incomplete ∧ buf.length ≤ MAX_HEADER_BYTES)
  | .respond h rest => s.released = false ∧ s.wire.originEof = false ∧ s.wire.edgeClosed = false ∧
    s.wire.bytesOut = 0 ∧ Requested req s.wire ∧ s.wire.toEdge ++ rest = frame h ∧
    ∃ raw hd, GotHead P h raw hd ∧ HeadReads raw h.leftover s.wire.fromOrigin
  | .leftover h => s.released = false ∧ s.wire.originEof = false ∧ s.wire.edgeClosed = false ∧
    ∃ raw hd, Relayed P req h s.wire raw hd h.leftover []
  | .respBody h p => s.released = false ∧ s.wire.originEof = false ∧ s.wire.edgeClosed = false ∧
    ∃ raw hd body out total, Relayed P req h s.wire raw hd body out ∧ pooledLength h = some total ∧
      out.length < total ∧ Pumping p (some (total - out.length)) body out
  | .closePooled h => s.released = false ∧ s.wire.originEof = false ∧ s.wire.edgeClosed = false ∧
    Finished P req h s.wire
  | .release h => s.released = false ∧ s.wire.originEof = false ∧ s.wire.edgeClosed = true ∧
    Finished P req h s.wire
  | .drain h p => s.released = false ∧ s.wire.originEof = false ∧ s.wire.edgeClosed = false ∧
    pooledLength h = none ∧
    ∃ raw hd body out, Relayed P req h s.wire raw hd body out ∧ Pumping p none body out
  | .closeDrain h => s.released = false ∧ s.wire.edgeClosed = false ∧ pooledLength h = none ∧
    ∃ raw hd body out, Relayed P req h s.wire raw hd body out
  | .done (.error _) => s.released = false
  | .done (.ok _) => s.wire.edgeClosed = true ∧
    ∃ h, (s.released = true ∧ s.wire.originEof = false ∧ Finished P req h s.wire) ∨
      (s.released = false ∧ pooledLength h = none ∧
        ∃ raw hd body out, Relayed P req h s.wire raw hd body out)

theorem inv_start (P : Httparse) (req : ConnectRequest) : Inv P req (start req) := by
  unfold start
  rcases pumpTop_cases (some (bodyLen req)) with ⟨h0, hp⟩ | ⟨h0, hp⟩
  · rw [Option.some.injEq] at h0
    simp only [hp, Inv]
    exact ⟨trivial, ⟨by simp, by simp [h0], h0.symm⟩, rfl, trivial, trivial, trivial, trivial,
      .inl trivial⟩
  · have hpos : 0 < bodyLen req := Nat.pos_of_ne_zero fun h => h0 (by rw [h])
    simp only [hp, Inv]
    exact ⟨trivial, ⟨rfl, rfl, rfl, rfl, rfl⟩, [], by simp, hpos, rfl, .read _ _⟩

/-! ## Preservation -/

section Step
variable {P : Httparse} {req : ConnectRequest} {s s' : St} {e : Ev}

theorem inv_reqBody {p : Pump} (hpc : s.pc = .reqBody p) (hi : Inv P req s)
    (hs : step P s e = some s') : Inv P req s' := by
  simp only [Inv, hpc] at hi
  obtain ⟨hrel, hq, sent, hto, hlt, hin, hp⟩ := hi
  simp only [step, hpc, Option.map_eq_some_iff] at hs
  obtain ⟨o, ho, rfl⟩ := hs
  rcases pumpStep_cases ho with ⟨limit, b, rfl, rfl, hb, hle, rfl⟩ | ⟨rfl, -, -⟩ |
    ⟨n, -, -, rfl⟩ | ⟨limit, chunk, rfl, rfl, rfl⟩ | ⟨msg, err, -, rfl⟩
  · obtain ⟨rfl, hfe⟩ := hp.of_read
    simp only [Inv, Wire.up, if_neg hb]
    refine ⟨hrel, ⟨hq.1, hq.2, hq.3, hq.4, hq.5⟩, sent, hto, hlt, hin, ?_⟩
    simpa [hfe] using .write _ b sent hb hle
  · cases hp.of_read.1
  · simp only [Inv, failed, hrel]
  · obtain ⟨rfl, hc, hle, hfe⟩ := hp.of_write
    have hle' := Nat.le_trans hle (want_le _)
    have hlim : bodyLen req - sent.length - chunk.length = bodyLen req - (sent ++ chunk).length := by
      rw [List.length_append]
      omega
    simp only [Option.map_some]
    rcases pumpTop_cases (some (bodyLen req - sent.length - chunk.length)) with ⟨h0, hp'⟩ | ⟨h0, hp'⟩
    · rw [Option.some.injEq] at h0
      simp only [hp', Inv, Wire.up]
      exact ⟨hrel, ⟨by simp [hto, hfe], by simp [hfe]; omega, by simp [hin]; omega⟩,
        by simp [hq.1], hq.2, hq.3, hq.4, hq.5, .inl trivial⟩
    · have : bodyLen req - sent.length - chunk.length ≠ 0 := fun h => h0 (by rw [h])
      simp only [hp', Inv, Wire.up]
      refine ⟨hrel, ⟨hq.1, hq.2, hq.3, hq.4, hq.5⟩, sent ++ chunk, by simp [hto],
        by simp; omega, by simp [hin], ?_⟩
      rw [hfe, hlim]
      exact .read _ _
  · simp only [Inv, failed, hrel]

theorem inv_head {buf : Bytes} (hpc : s.pc = .head buf) (hi : Inv P req s)
    (hs : step P s e = some s') : Inv P req s' := by
  simp only [Inv, hpc] at hi
  obtain ⟨hrel, hreq, hfrom, heof, hto, hcl, hout, hbuf⟩ := hi
  simp only [step, hpc, Option.map_eq_some_iff] at hs
  obtain ⟨o, ho, rfl⟩ := hs
  rcases readHead_cases ho with ⟨err, rfl, -⟩ | ⟨tmp, rfl, ht, rfl, hp, hm⟩ |
    ⟨tmp, r, raw, hd, rfl, ht, rfl, hg, hsplit⟩
  · simp only [Inv, failed, hrel]
  · simp only [Inv, Wire.gotOrigin, if_neg ht]
    exact ⟨hrel, ⟨hreq.1, hreq.2, hreq.3⟩, by simp [hfrom], heof, hto, hcl, hout, .inr ⟨hp, hm⟩⟩
  · simp only [Inv, Wire.gotOrigin, if_neg ht]
    exact ⟨hrel, heof, hcl, hout, ⟨hreq.1, hreq.2, hreq.3⟩, by simp [hto], raw, hd, hg,
      by simp [hfrom, hsplit], by simpa [hfrom] using hg.buf_short hbuf hsplit⟩

/-- Step 5 begins with everything read so far written to the edge. -/
theorem inv_afterLeftover {h : ResponseHead} {w : Wire} (hrel : s.released = false)
    (heof : w.originEof = false) (hcl : w.edgeClosed = false) {raw : Bytes} {hd : Http.Head}
    (hr : Relayed P req h w raw hd h.leftover h.leftover) :
    Inv P req { s with pc := afterLeftover h, wire := w } := by
  unfold afterLeftover
  cases hl : pooledLength h with
  | none =>
    simp only [Inv]
    exact ⟨hrel, heof, hcl, hl, raw, hd, _, _, hr, .read _ _⟩
  | some total =>
    rcases pumpTop_cases (some (total - h.leftover.length)) with ⟨h0, hp⟩ | ⟨h0, hp⟩
    · rw [Option.some.injEq] at h0
      simp only [hp, Inv]
      exact ⟨hrel, heof, hcl, raw, hd, _, total, hr, hl, by omega⟩
    · have : total - h.leftover.length ≠ 0 := fun h => h0 (by rw [h])
      simp only [hp, Inv]
      exact ⟨hrel, heof, hcl, raw, hd, _, _, total, hr, hl, by omega, .read _ _⟩

theorem inv_respond {h : ResponseHead} {rest : List EdgeWrite} (hpc : s.pc = .respond h rest)
    (hi : Inv P req s) (hs : step P s e = some s') : Inv P req s' := by
  simp only [Inv, hpc] at hi
  obtain ⟨hrel, heof, hcl, hout, hreq, hto, raw, hd, hg, hfrom⟩ := hi
  cases e with
  | read b => simp [step, hpc] at hs
  | fail msg =>
    simp only [step, hpc, Option.some.injEq] at hs
    subst hs
    simp only [Inv, failed, hrel]
  | ok =>
    cases rest with
    | cons x rest =>
      simp only [step, hpc, Option.some.injEq] at hs
      subst hs
      simp only [Inv]
      exact ⟨hrel, heof, hcl, hout, ⟨hreq.1, hreq.2, hreq.3⟩, by simpa using hto, raw, hd, hg, hfrom⟩
    | nil =>
      simp only [step, hpc, Option.some.injEq] at hs
      subst hs
      have hr : Relayed P req h s.wire raw hd h.leftover [] :=
        ⟨hreq, hg, hfrom.flatten, ⟨_, [], by simp, hfrom⟩, List.prefix_rfl,
          ⟨[], by simpa using hto, rfl⟩, by simpa using hout⟩
      unfold afterRespond
      split
      · simp only [Inv]
        exact ⟨hrel, heof, hcl, raw, hd, hr⟩
      · rename_i hl
        rw [ne_eq, not_not] at hl
        rw [hl] at hr
        exact inv_afterLeftover hrel heof hcl (by rw [hl]; exact hr)

theorem inv_leftover {h : ResponseHead} (hpc : s.pc = .leftover h) (hi : Inv P req s)
    (hs : step P s e = some s') : Inv P req s' := by
  simp only [Inv, hpc] at hi
  obtain ⟨hrel, heof, hcl, raw, hd, hr⟩ := hi
  cases e with
  | read b => simp [step, hpc] at hs
  | fail msg =>
    simp only [step, hpc, Option.some.injEq] at hs
    subst hs
    simp only [Inv, failed, hrel]
  | ok =>
    simp only [step, hpc, Option.some.injEq] at hs
    subst hs
    obtain ⟨ds, hds, hfl⟩ := hr.toEdge
    have hrel' : Relayed P req h (s.wire.sentBody h.leftover) raw hd h.leftover h.leftover := by
      refine ⟨⟨hr.1.1, hr.1.2, hr.1.3⟩, hr.got, hr.fromOrigin, hr.reads, hr.leftover,
        ⟨ds ++ [h.leftover], ?_, ?_⟩, ?_⟩
      · simp [Wire.sentBody, hds]
      · simp [hfl]
      · simp [Wire.sentBody, hr.bytesOut]
    exact inv_afterLeftover hrel heof hcl hrel'

/-- Reading a chunk of the body. -/
theorem Relayed.read {h : ResponseHead} {w : Wire} {raw body out : Bytes} {hd : Http.Head}
    (hr : Relayed P req h w raw hd body out) {b : Bytes} (hb : b ≠ []) :
    Relayed P req h (w.gotOrigin b) raw hd (body ++ b) out := by
  unfold Wire.gotOrigin
  rw [if_neg hb]
  exact ⟨⟨hr.1.1, hr.1.2, hr.1.3⟩, hr.got, by simp [hr.fromOrigin],
    by obtain ⟨hs, rest, he, h⟩ := hr.reads; exact ⟨hs, rest ++ [b], by simp [he], h⟩,
    hr.leftover.trans (List.prefix_append _ _), hr.toEdge, hr.bytesOut⟩

/-- Writing a chunk of the body. -/
theorem Relayed.write {h : ResponseHead} {w : Wire} {raw body out : Bytes} {hd : Http.Head}
    (hr : Relayed P req h w raw hd body out) (chunk : Bytes) :
    Relayed P req h (w.sentBody chunk) raw hd body (out ++ chunk) := by
  obtain ⟨ds, hds, hfl⟩ := hr.toEdge
  exact ⟨⟨hr.1.1, hr.1.2, hr.1.3⟩, hr.got, hr.fromOrigin, hr.reads, hr.leftover,
    ⟨ds ++ [chunk], by simp [Wire.sentBody, hds], by simp [hfl]⟩, by simp [Wire.sentBody, hr.bytesOut]⟩

theorem inv_respBody {h : ResponseHead} {p : Pump} (hpc : s.pc = .respBody h p)
    (hi : Inv P req s) (hs : step P s e = some s') : Inv P req s' := by
  simp only [Inv, hpc] at hi
  obtain ⟨hrel, heof, hcl, raw, hd, body, out, total, hr, hl, hlt, hp⟩ := hi
  simp only [step, hpc, Option.map_eq_some_iff] at hs
  obtain ⟨o, ho, rfl⟩ := hs
  rcases pumpStep_cases ho with ⟨limit, b, rfl, rfl, hb, hle, rfl⟩ | ⟨rfl, -, -⟩ |
    ⟨n, -, -, rfl⟩ | ⟨limit, chunk, rfl, rfl, rfl⟩ | ⟨msg, err, -, rfl⟩
  · obtain ⟨rfl, rfl⟩ := hp.of_read
    have hr' := hr.read hb
    simp only [Wire.gotOrigin, if_neg hb] at hr'
    simp only [Inv, Wire.down, Wire.gotOrigin, if_neg hb]
    exact ⟨hrel, heof, hcl, raw, hd, _, _, total, hr', hl, hlt, .write _ b _ hb hle⟩
  · cases hp.of_read.1
  · simp only [Inv, failed, hrel]
  · obtain ⟨rfl, hc, hle, rfl⟩ := hp.of_write
    have hle' := Nat.le_trans hle (want_le _)
    have hr' := hr.write chunk
    have hlen : h.leftover.length ≤ (out ++ chunk).length := hr.leftover.length_le
    rw [List.length_append] at hlen
    simp only [Option.map_some]
    rcases pumpTop_cases (some (total - out.length - chunk.length)) with ⟨h0, hp'⟩ | ⟨h0, hp'⟩
    · rw [Option.some.injEq] at h0
      simp only [hp', Inv, Wire.down]
      exact ⟨hrel, heof, hcl, raw, hd, _, total, hr', hl, by rw [List.length_append]; omega⟩
    · have : total - out.length - chunk.length ≠ 0 := fun h => h0 (by rw [h])
      simp only [hp', Inv, Wire.down]
      refine ⟨hrel, heof, hcl, raw, hd, _, _, total, hr', hl, by rw [List.length_append]; omega, ?_⟩
      rw [List.length_append, show total - (out.length + chunk.length) =
        total - out.length - chunk.length by omega]
      exact .read _ _
  · simp only [Inv, failed, hrel]

theorem inv_drain {h : ResponseHead} {p : Pump} (hpc : s.pc = .drain h p) (hi : Inv P req s)
    (hs : step P s e = some s') : Inv P req s' := by
  simp only [Inv, hpc] at hi
  obtain ⟨hrel, heof, hcl, hl, raw, hd, body, out, hr, hp⟩ := hi
  simp only [step, hpc, Option.map_eq_some_iff] at hs
  obtain ⟨o, ho, rfl⟩ := hs
  rcases pumpStep_cases ho with ⟨limit, b, rfl, rfl, hb, hle, rfl⟩ | ⟨rfl, rfl, rfl⟩ |
    ⟨n, rfl, -, -⟩ | ⟨limit, chunk, rfl, rfl, rfl⟩ | ⟨msg, err, rfl, rfl⟩
  · obtain ⟨rfl, rfl⟩ := hp.of_read
    have hr' := hr.read hb
    simp only [Wire.gotOrigin, if_neg hb] at hr'
    simp only [Inv, Wire.down, Wire.gotOrigin, if_neg hb]
    exact ⟨hrel, heof, hcl, hl, raw, hd, _, _, hr', .write _ b _ hb hle⟩
  · simp only [Inv, Wire.down, Wire.gotOrigin, if_true]
    exact ⟨hrel, hcl, hl, raw, hd, body, out,
      ⟨hr.1.1, hr.1.2, hr.1.3⟩, hr.got, hr.fromOrigin, hr.reads, hr.leftover, hr.toEdge, hr.bytesOut⟩
  · cases hp.of_read.1
  · obtain ⟨rfl, hc, hle, rfl⟩ := hp.of_write
    have hr' := hr.write chunk
    simp only [Option.map_none, pumpTop, reduceCtorEq, if_false, Inv, Wire.down]
    exact ⟨hrel, heof, hcl, hl, raw, hd, _, _, hr', .read _ _⟩
  · have hw : s.wire.down p (.fail msg) = s.wire := by cases p <;> rfl
    simp only [Inv, hw]
    exact ⟨hrel, hcl, hl, raw, hd, body, out, hr⟩

theorem inv_step (hi : Inv P req s) (hs : step P s e = some s') : Inv P req s' := by
  cases hpc : s.pc with
  | reqBody p => exact inv_reqBody hpc hi hs
  | head buf => exact inv_head hpc hi hs
  | respond h rest => exact inv_respond hpc hi hs
  | leftover h => exact inv_leftover hpc hi hs
  | respBody h p => exact inv_respBody hpc hi hs
  | drain h p => exact inv_drain hpc hi hs
  | closePooled h =>
    simp only [Inv, hpc] at hi
    obtain ⟨hrel, heof, -, raw, hd, body, total, hr, hl, hlen⟩ := hi
    cases e <;> simp only [step, hpc, Option.some.injEq, reduceCtorEq] at hs <;> subst hs
    · simp only [Inv]
      exact ⟨hrel, heof, trivial, raw, hd, body, total,
        ⟨⟨hr.1.1, hr.1.2, hr.1.3⟩, hr.got, hr.fromOrigin, hr.reads, hr.leftover, hr.toEdge, hr.bytesOut⟩,
        hl, hlen⟩
    · simp only [Inv, failed, hrel]
  | release h =>
    simp only [Inv, hpc] at hi
    obtain ⟨-, heof, hcl, hf⟩ := hi
    cases e <;> simp only [step, hpc, Option.some.injEq, reduceCtorEq] at hs
    subst hs
    simp only [Inv]
    exact ⟨hcl, h, .inl ⟨trivial, heof, hf⟩⟩
  | closeDrain h =>
    simp only [Inv, hpc] at hi
    obtain ⟨hrel, -, hl, raw, hd, body, out, hr⟩ := hi
    cases e <;> simp only [step, hpc, Option.some.injEq, reduceCtorEq] at hs <;> subst hs
    · simp only [Inv]
      exact ⟨trivial, h, .inr ⟨hrel, hl, raw, hd, body, out,
        ⟨hr.1.1, hr.1.2, hr.1.3⟩, hr.got, hr.fromOrigin, hr.reads, hr.leftover, hr.toEdge, hr.bytesOut⟩⟩
    · simp only [Inv, failed, hrel]
  | done r => simp [step, hpc] at hs

end Step

theorem inv_inductive (P : Httparse) (req : ConnectRequest) :
    (runPooled P req).Inductive (Inv P req) where
  init s hs := by
    rw [hs]
    exact inv_start P req
  step _ _ _ hi hs := inv_step hi hs

theorem inv_reachable {P : Httparse} {req : ConnectRequest} {s : St}
    (h : (runPooled P req).Reachable s) : Inv P req s :=
  (inv_inductive P req).reachable h

/-- The state of a run that calls, or has called, `pool.release`. -/
def Released (s : St) : Prop := (∃ h, s.pc = .release h) ∨ s.released = true

/-- A run that reaches `pool.release` has read one head and forwarded the
body it announces. -/
theorem finished_of_release {P : Httparse} {req : ConnectRequest} {s : St} (hi : Inv P req s)
    (hrel : Released s) : ∃ h, Finished P req h s.wire := by
  rcases hrel with ⟨h, hpc⟩ | hrel
  · simp only [Inv, hpc] at hi
    exact ⟨h, hi.2.2.2⟩
  · unfold Inv at hi
    split at hi
    case h_10 =>
      rw [hrel] at hi
      cases hi
    case h_11 =>
      obtain ⟨-, h, ⟨-, -, hf⟩ | ⟨h0, -⟩⟩ := hi
      · exact ⟨h, hf⟩
      · rw [hrel] at h0
        cases h0
    all_goals
      have h0 := hi.1
      rw [hrel] at h0
      cases h0

end QuickTunnel.Proxy.Pooled
