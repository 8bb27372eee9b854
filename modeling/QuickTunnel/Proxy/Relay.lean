import QuickTunnel.Proxy.Answer

/-!
# What the two relays pass on

`run_bidi` from where the request head has been written, and `proxy_tcp`,
each with its two pumps in any interleaving and any read or write failing.

* `EdgeToOrigin`, `OriginToEdge`: the bytes completely written in each
  direction, and the counters.
* `bidi_reachable`, `tcp_reachable`: the invariant of each relay.
* `relays_transparent`: both directions, in every state of both relays.
-/
namespace QuickTunnel.Proxy.Inbound

open QuickTunnel.Stream
open Pooled (Pumping)

/-- Where `run_bidi` starts: the head has been written (by `proxy_http`). -/
def bidiStart (req : ConnectRequest) : St where
  pc := .bidi (.pump (.read none)) (.head [])
  wire := { toOrigin := buildRequestHead req false }
  connected := some true

def runBidi (P : Httparse) (req : ConnectRequest) : LTS St Label :=
  LTS.ofFn (· = bidiStart req) (step P req)

def proxyTcp (P : Httparse) (req : ConnectRequest) : LTS St Label :=
  LTS.ofFn (· = { pc := .connect }) (step P req)

/-! ## The two directions -/

/-- Behind `head`, the origin has been sent the edge's bytes, all of them
once the pump has returned at the end of the file. -/
def EdgeToOrigin (head : Bytes) (w : Wire) : Prop :=
  ∃ sent, w.toOrigin = head ++ sent ∧ sent <+: w.fromEdge.flatten ∧ w.bytesIn = sent.length ∧
    (w.edgeEof = true → sent = w.fromEdge.flatten)

/-- Of what the origin sent behind `front`, `body` has been read and `out`
written to the edge behind `frame`. -/
structure Delivery (front : Bytes) (frame : List EdgeWrite) (w : Wire) (body out : Bytes) : Prop where
  fromOrigin : w.fromOrigin.flatten = front ++ body
  toEdge : ∃ ds : List Bytes, w.toEdge = frame ++ ds.map .data ∧ ds.flatten = out
  bytesOut : w.bytesOut = out.length

/-- Nothing has been written to the edge; or the beginning of one frame; or
the frame and behind it the origin's bytes behind `front`, all of them once
the pump has returned at the end of the file. `Frame` says which frame goes
with which front. -/
inductive OriginToEdge (Frame : Bytes → List EdgeWrite → Prop) (w : Wire) : Prop
  | nothing : w.toEdge = [] → w.bytesOut = 0 → OriginToEdge Frame w
  | partly {front : Bytes} {frame : List EdgeWrite} : Frame front frame →
      front <+: w.fromOrigin.flatten → w.toEdge <+: frame → w.bytesOut = 0 → OriginToEdge Frame w
  | relayed {front : Bytes} {frame : List EdgeWrite} {body out : Bytes} : Frame front frame →
      Delivery front frame w body out → out <+: body → (w.originEof = true → out = body) →
      OriginToEdge Frame w

/-- The head that the origin sent, and the frame made from it. -/
def HeadFrame (P : Httparse) (front : Bytes) (frame : List EdgeWrite) : Prop :=
  ∃ h hd, GotHead P h front hd ∧ frame = Pooled.frame h

/-- A Tcp stream is answered before anything is read. -/
def TcpFrame (front : Bytes) (frame : List EdgeWrite) : Prop :=
  front = [] ∧ frame = writeConnectResponse "" []

/-- The bytes of the origin of which the pump has returned `Ok`. -/
def pumpedOut : Pc → Bool
  | .bidi _ (.done (.ok _)) => true
  | .tcp _ (.done (.ok _)) => true
  | .closeBidi => true
  | _ => false

theorem EdgeToOrigin.congr {head : Bytes} {w w' : Wire} (h : EdgeToOrigin head w)
    (hw : SameUp w w') : EdgeToOrigin head w' := by
  obtain ⟨sent, hto, hpre, hin, heof⟩ := h
  refine ⟨sent, hw.toOrigin ▸ hto, hw.fromEdge ▸ hpre, hw.bytesIn ▸ hin, fun he => ?_⟩
  rw [hw.fromEdge]
  exact heof (hw.edgeEof ▸ he)

theorem Delivery.congr {front : Bytes} {frame : List EdgeWrite} {w w' : Wire} {body out : Bytes}
    (h : Delivery front frame w body out) (hw : SameDown w w') : Delivery front frame w' body out :=
  ⟨hw.fromOrigin ▸ h.fromOrigin, hw.toEdge ▸ h.toEdge, hw.bytesOut ▸ h.bytesOut⟩

theorem OriginToEdge.congr {Frame : Bytes → List EdgeWrite → Prop} {w w' : Wire}
    (h : OriginToEdge Frame w) (hw : SameDown w w') : OriginToEdge Frame w' := by
  cases h with
  | nothing hte hout => exact .nothing (hw.toEdge ▸ hte) (hw.bytesOut ▸ hout)
  | partly hf hfr hte hout =>
    exact .partly hf (hw.fromOrigin ▸ hfr) (hw.toEdge ▸ hte) (hw.bytesOut ▸ hout)
  | relayed hf hd hpre heof =>
    exact .relayed hf (hd.congr hw) hpre fun he => heof (hw.originEof ▸ he)

/-! ## From the edge to the origin -/

/-- The edge-to-origin half, with `head` in front of its bytes. -/
def UpRelay (head : Bytes) (w : Wire) : Up → Prop
  | .pump p => w.edgeEof = false ∧ ∃ sent, w.toOrigin = head ++ sent ∧ w.bytesIn = sent.length ∧
      Pumping p none w.fromEdge.flatten sent
  | _ => EdgeToOrigin head w

theorem UpRelay.edgeToOrigin {head : Bytes} {w : Wire} {up : Up} (h : UpRelay head w up) :
    EdgeToOrigin head w := by
  cases up with
  | pump p =>
    obtain ⟨heof, sent, hto, hin, hp⟩ := h
    refine ⟨sent, hto, hp.out_prefix, hin, fun he => ?_⟩
    rw [heof] at he
    cases he
  | shutdown => exact h
  | done => exact h

theorem UpRelay.congr {head : Bytes} {w w' : Wire} {up : Up} (h : UpRelay head w up)
    (hw : SameUp w w') : UpRelay head w' up := by
  cases up with
  | pump p =>
    obtain ⟨heof, sent, hto, hin, hp⟩ := h
    exact ⟨hw.edgeEof ▸ heof, sent, hw.toOrigin ▸ hto, hw.bytesIn ▸ hin, hw.fromEdge ▸ hp⟩
  | shutdown => exact EdgeToOrigin.congr h hw
  | done => exact EdgeToOrigin.congr h hw

theorem UpRelay.of_ended {head : Bytes} {w : Wire} {up : Up} (hu : up.ended = true)
    (h : EdgeToOrigin head w) : UpRelay head w up := by
  cases up with
  | pump p => cases hu
  | shutdown => exact h
  | done => exact h

theorem UpRelay.unbounded {head : Bytes} {w : Wire} {up : Up} (h : UpRelay head w up) :
    up.unbounded = true := by
  cases up with
  | pump p =>
    obtain ⟨-, sent, -, -, hp⟩ := h
    exact hp.unbounded
  | shutdown => rfl
  | done => rfl

theorem ended_after (shut : Bool) : (if shut then Up.shutdown else Up.done).ended = true := by
  cases shut <;> rfl

theorem UpRelay.step {head : Bytes} {w : Wire} {shut : Bool} {up up' : Up} {e : Ev}
    (h : UpRelay head w up) (hs : up.step shut e = some up') : UpRelay head (up.wire w e) up' := by
  have hall := h.edgeToOrigin
  rcases Up.step_cases h.unbounded hs with ⟨b, rfl, rfl, hb, hle, rfl⟩ | ⟨c, rfl, rfl, rfl⟩ |
    ⟨rfl, rfl, rfl⟩ | ⟨p, msg, rfl, rfl, rfl⟩ | ⟨rfl, rfl, -⟩
  · obtain ⟨heof, sent, hto, hin, hp⟩ := h
    simp only [Up.wire, Wire.up, if_neg hb]
    refine ⟨heof, sent, hto, hin, ?_⟩
    have hfe := hp.of_read.2
    simpa [hfe] using Pumping.write none b sent hb hle
  · obtain ⟨heof, sent, hto, hin, hp⟩ := h
    obtain ⟨-, -, -, hfe⟩ := hp.of_write
    simp only [Up.wire, Wire.up]
    refine ⟨heof, sent ++ c, by simp [hto], by simp [hin], ?_⟩
    rw [hfe]
    exact .read none _
  · obtain ⟨heof, sent, hto, hin, hp⟩ := h
    have hfe := hp.of_read.2
    refine .of_ended (ended_after shut) ?_
    simp only [Up.wire, Wire.up, if_true]
    exact ⟨sent, hto, hfe ▸ List.prefix_rfl, hin, fun _ => hfe.symm⟩
  · refine .of_ended (ended_after shut) ?_
    cases p <;> exact hall
  · exact hall.congr ⟨rfl, rfl, rfl, rfl⟩

/-! ## From the origin to the edge -/

section Down
variable {P : Httparse} {front : Bytes} {frame : List EdgeWrite} {w : Wire} {body out : Bytes}

/-- The pump behind a frame: what it has forwarded stays exact, whatever the
step returns. -/
theorem Delivery.pump {p : Pump} {down' : Down} {e : Ev} (hd : Delivery front frame w body out)
    (hp : Pumping p none body out) (heof : w.originEof = false)
    (hs : (Down.pump p).step P e = some down') :
    (∃ p' body' out', down' = .pump p' ∧ Delivery front frame (w.down p e) body' out' ∧
      Pumping p' none body' out' ∧ (w.down p e).originEof = false) ∨
    (down' = .done (.ok ()) ∧ e = .read [] ∧ Delivery front frame (w.down p e) body body ∧
      (w.down p e).originEof = true) ∨
    (∃ err, down' = .done (.error err) ∧ Delivery front frame (w.down p e) body out ∧
      (w.down p e).originEof = false) := by
  rcases Down.pump_cases hp.unbounded hs with ⟨b, rfl, rfl, hb, hle, rfl⟩ | ⟨c, rfl, rfl, rfl⟩ |
    ⟨rfl, rfl, rfl⟩ | ⟨msg, err, rfl, rfl⟩
  · obtain ⟨-, rfl⟩ := hp.of_read
    refine .inl ⟨_, body ++ b, body, rfl, ?_, .write none b body hb hle, ?_⟩
    · simp only [Wire.down, Wire.gotOrigin, if_neg hb]
      exact ⟨by simp [hd.fromOrigin], hd.toEdge, hd.bytesOut⟩
    · simpa [Wire.down, Wire.gotOrigin, hb] using heof
  · obtain ⟨-, -, -, rfl⟩ := hp.of_write
    obtain ⟨ds, hds, rfl⟩ := hd.toEdge
    refine .inl ⟨_, _, ds.flatten ++ c, rfl, ?_, .read none _, heof⟩
    exact ⟨hd.fromOrigin, ⟨ds ++ [c], by simp [Wire.down, Wire.sentBody, hds], by simp⟩,
      by simp [Wire.down, Wire.sentBody, hd.bytesOut]⟩
  · obtain ⟨-, rfl⟩ := hp.of_read
    exact .inr (.inl ⟨rfl, rfl, ⟨hd.fromOrigin, hd.toEdge, hd.bytesOut⟩, rfl⟩)
  · refine .inr (.inr ⟨err, rfl, ?_⟩)
    cases p <;> exact ⟨hd, heof⟩

/-- The origin-to-edge half of `run_bidi`. -/
def BidiDown (P : Httparse) (w : Wire) : Down → Prop
  | .head buf => w.toEdge = [] ∧ w.bytesOut = 0 ∧ w.originEof = false ∧ w.fromOrigin.flatten = buf ∧
      (buf = [] ∨ P.parse buf = .incomplete ∧ buf.length ≤ MAX_HEADER_BYTES)
  | .respond h rest => w.originEof = false ∧ w.bytesOut = 0 ∧ w.toEdge ++ rest = Pooled.frame h ∧
      ∃ raw hd, GotHead P h raw hd ∧ w.fromOrigin.flatten = raw ++ h.leftover
  | .leftover h => w.originEof = false ∧
      ∃ raw hd, GotHead P h raw hd ∧ Delivery raw (Pooled.frame h) w h.leftover []
  | .pump p => w.originEof = false ∧ ∃ h raw hd body out, GotHead P h raw hd ∧
      Delivery raw (Pooled.frame h) w body out ∧ Pumping p none body out
  | .done (.ok _) => w.originEof = true ∧ ∃ h raw hd body, GotHead P h raw hd ∧
      Delivery raw (Pooled.frame h) w body body
  | .done (.error _) => OriginToEdge (HeadFrame P) w

/-- The origin-to-edge half of `proxy_tcp`. -/
def TcpRelay (w : Wire) : Down → Prop
  | .pump p => w.originEof = false ∧ ∃ body out,
      Delivery [] (writeConnectResponse "" []) w body out ∧ Pumping p none body out
  | .done (.ok _) => w.originEof = true ∧ ∃ body, Delivery [] (writeConnectResponse "" []) w body body
  | .done (.error _) => OriginToEdge TcpFrame w
  | _ => False

theorem OriginToEdge.of_body {Frame : Bytes → List EdgeWrite → Prop} (hf : Frame front frame)
    (hd : Delivery front frame w body out) (hpre : out <+: body) (heof : w.originEof = false) :
    OriginToEdge Frame w := by
  refine .relayed hf hd hpre fun he => ?_
  rw [heof] at he
  cases he

theorem BidiDown.originToEdge {down : Down} (h : BidiDown P w down) :
    OriginToEdge (HeadFrame P) w := by
  cases down with
  | head buf => exact .nothing h.1 h.2.1
  | respond r rest =>
    obtain ⟨-, hout, hte, raw, hd, hg, hfo⟩ := h
    exact .partly ⟨r, hd, hg, rfl⟩ (hfo ▸ List.prefix_append _ _) (hte ▸ List.prefix_append _ _) hout
  | leftover r =>
    obtain ⟨heof, raw, hd, hg, hb⟩ := h
    exact .of_body ⟨r, hd, hg, rfl⟩ hb List.nil_prefix heof
  | pump p =>
    obtain ⟨heof, r, raw, hd, body, out, hg, hb, hp⟩ := h
    exact .of_body ⟨r, hd, hg, rfl⟩ hb hp.out_prefix heof
  | done r =>
    cases r with
    | ok u =>
      obtain ⟨-, r, raw, hd, body, hg, hb⟩ := h
      exact .relayed ⟨r, hd, hg, rfl⟩ hb List.prefix_rfl fun _ => rfl
    | error e => exact h

theorem TcpRelay.originToEdge {down : Down} (h : TcpRelay w down) : OriginToEdge TcpFrame w := by
  cases down with
  | pump p =>
    obtain ⟨heof, body, out, hb, hp⟩ := h
    exact .of_body ⟨rfl, rfl⟩ hb hp.out_prefix heof
  | done r =>
    cases r with
    | ok u =>
      obtain ⟨-, body, hb⟩ := h
      exact .relayed ⟨rfl, rfl⟩ hb List.prefix_rfl fun _ => rfl
    | error e => exact h
  | head buf => exact h.elim
  | respond r rest => exact h.elim
  | leftover r => exact h.elim

theorem BidiDown.congr {w' : Wire} {down : Down} (h : BidiDown P w down) (hw : SameDown w w') :
    BidiDown P w' down := by
  cases down with
  | head buf =>
    obtain ⟨hte, hout, heof, hfo, hbuf⟩ := h
    exact ⟨hw.toEdge ▸ hte, hw.bytesOut ▸ hout, hw.originEof ▸ heof, hw.fromOrigin ▸ hfo, hbuf⟩
  | respond r rest =>
    obtain ⟨heof, hout, hte, raw, hd, hg, hfo⟩ := h
    exact ⟨hw.originEof ▸ heof, hw.bytesOut ▸ hout, hw.toEdge ▸ hte, raw, hd, hg, hw.fromOrigin ▸ hfo⟩
  | leftover r =>
    obtain ⟨heof, raw, hd, hg, hb⟩ := h
    exact ⟨hw.originEof ▸ heof, raw, hd, hg, hb.congr hw⟩
  | pump p =>
    obtain ⟨heof, r, raw, hd, body, out, hg, hb, hp⟩ := h
    exact ⟨hw.originEof ▸ heof, r, raw, hd, body, out, hg, hb.congr hw, hp⟩
  | done r =>
    cases r with
    | ok u =>
      obtain ⟨heof, r, raw, hd, body, hg, hb⟩ := h
      exact ⟨hw.originEof ▸ heof, r, raw, hd, body, hg, hb.congr hw⟩
    | error e => exact OriginToEdge.congr h hw

theorem TcpRelay.congr {w' : Wire} {down : Down} (h : TcpRelay w down) (hw : SameDown w w') :
    TcpRelay w' down := by
  cases down with
  | pump p =>
    obtain ⟨heof, body, out, hb, hp⟩ := h
    exact ⟨hw.originEof ▸ heof, body, out, hb.congr hw, hp⟩
  | done r =>
    cases r with
    | ok u =>
      obtain ⟨heof, body, hb⟩ := h
      exact ⟨hw.originEof ▸ heof, body, hb.congr hw⟩
    | error e => exact OriginToEdge.congr h hw
  | head buf => exact h.elim
  | respond r rest => exact h.elim
  | leftover r => exact h.elim

/-- The head reader of `run_bidi`. -/
theorem BidiDown.head_step {buf : Bytes} {down' : Down} {e : Ev} (h : BidiDown P w (.head buf))
    (hs : (Down.head buf).step P e = some down') : BidiDown P (Down.wire w (.head buf) e) down' := by
  obtain ⟨hte, hout, heof, hfo, hbuf⟩ := h
  simp only [Down.step, Option.map_eq_some_iff] at hs
  obtain ⟨o, ho, rfl⟩ := hs
  rcases readHead_cases ho with ⟨err, rfl, -⟩ | ⟨tmp, rfl, ht, rfl, hp, hm⟩ |
    ⟨tmp, r, raw, hd, rfl, ht, rfl, hg, hsplit⟩
  · refine .nothing ?_ ?_
    · cases e with
      | read b =>
        simp only [Down.wire, Wire.gotOrigin]
        split <;> exact hte
      | ok => exact hte
      | fail msg => exact hte
    · cases e with
      | read b =>
        simp only [Down.wire, Wire.gotOrigin]
        split <;> exact hout
      | ok => exact hout
      | fail msg => exact hout
  · simp only [BidiDown, Down.wire, Wire.gotOrigin, if_neg ht]
    exact ⟨hte, hout, heof, by simp [hfo], .inr ⟨hp, hm⟩⟩
  · simp only [BidiDown, Down.wire, Wire.gotOrigin, if_neg ht]
    exact ⟨heof, hout, by simp [hte], raw, hd, hg, by simp [hfo, hsplit]⟩

theorem BidiDown.step {down down' : Down} {e : Ev} (h : BidiDown P w down)
    (hs : down.step P e = some down') : BidiDown P (down.wire w e) down' := by
  cases down with
  | head buf => exact h.head_step hs
  | respond r rest =>
    obtain ⟨heof, hout, hte, raw, hd, hg, hfo⟩ := h
    cases e with
    | read b => cases rest <;> cases hs
    | fail msg =>
      obtain rfl : down' = .done (.error (writeConnectResponseError msg rest.head?)) := by
        cases rest <;> cases hs <;> rfl
      have hw : Down.wire w (.respond r rest) (.fail msg) = w := by cases rest <;> rfl
      rw [hw]
      exact .partly ⟨r, hd, hg, rfl⟩ (hfo ▸ List.prefix_append _ _) (hte ▸ List.prefix_append _ _) hout
    | ok =>
      cases rest with
      | cons x rest =>
        cases hs
        exact ⟨heof, hout, by simpa [Down.wire] using hte, raw, hd, hg, hfo⟩
      | nil =>
        have hb : Delivery raw (Pooled.frame r) w r.leftover [] :=
          ⟨hfo, ⟨[], by simpa using hte, rfl⟩, hout⟩
        cases hs
        split
        · exact ⟨heof, raw, hd, hg, hb⟩
        · rename_i hlo
          rw [not_not.1 hlo] at hb
          exact ⟨heof, r, raw, hd, [], [], hg, hb, .read _ _⟩
  | leftover r =>
    obtain ⟨heof, raw, hd, hg, hb⟩ := h
    cases e with
    | read b => cases hs
    | fail msg =>
      cases hs
      exact .of_body ⟨r, hd, hg, rfl⟩ hb List.nil_prefix heof
    | ok =>
      cases hs
      obtain ⟨ds, hds, hnil⟩ := hb.toEdge
      refine ⟨heof, r, raw, hd, r.leftover, r.leftover, hg, ⟨hb.fromOrigin, ⟨ds ++ [r.leftover], ?_, ?_⟩, ?_⟩,
        .read _ _⟩
      · simp [Down.wire, Wire.sentBody, hds]
      · simp [hnil]
      · simp [Down.wire, Wire.sentBody, hb.bytesOut]
  | pump p =>
    obtain ⟨heof, r, raw, hd, body, out, hg, hb, hp⟩ := h
    rcases hb.pump hp heof hs with ⟨p', body', out', rfl, hb', hp', heof'⟩ |
      ⟨rfl, -, hb', heof'⟩ | ⟨err, rfl, hb', heof'⟩
    · exact ⟨heof', r, raw, hd, body', out', hg, hb', hp'⟩
    · exact ⟨heof', r, raw, hd, body, hg, hb'⟩
    · exact .of_body ⟨r, hd, hg, rfl⟩ hb' hp.out_prefix heof'
  | done r => cases e <;> cases hs

theorem TcpRelay.step {down down' : Down} {e : Ev} (h : TcpRelay w down)
    (hs : down.step P e = some down') : TcpRelay (down.wire w e) down' := by
  cases down with
  | pump p =>
    obtain ⟨heof, body, out, hb, hp⟩ := h
    rcases hb.pump hp heof hs with ⟨p', body', out', rfl, hb', hp', heof'⟩ |
      ⟨rfl, -, hb', heof'⟩ | ⟨err, rfl, hb', heof'⟩
    · exact ⟨heof', body', out', hb', hp'⟩
    · exact ⟨heof', body, hb'⟩
    · exact .of_body ⟨rfl, rfl⟩ hb' hp.out_prefix heof'
  | done r => cases e <;> cases hs
  | head buf => exact h.elim
  | respond r rest => exact h.elim
  | leftover r => exact h.elim

end Down

/-! ## The two relays -/

/-- Every state of `run_bidi`. -/
def BidiInv (P : Httparse) (req : ConnectRequest) (s : St) : Prop :=
  match s.pc with
  | .bidi up down => UpRelay (buildRequestHead req false) s.wire up ∧ BidiDown P s.wire down
  | .closeBidi => EdgeToOrigin (buildRequestHead req false) s.wire ∧
      BidiDown P s.wire (.done (.ok ()))
  | .done _ => EdgeToOrigin (buildRequestHead req false) s.wire ∧ OriginToEdge (HeadFrame P) s.wire
  | _ => False

/-- Every state of `proxy_tcp`. -/
def TcpInv (s : St) : Prop :=
  match s.pc with
  | .connect => s.wire = {}
  | .accept rest => EdgeToOrigin [] s.wire ∧ s.wire.edgeEof = false ∧ s.wire.fromEdge = [] ∧
      s.wire.fromOrigin = [] ∧ s.wire.originEof = false ∧ s.wire.bytesOut = 0 ∧
      s.wire.toEdge ++ rest = writeConnectResponse "" []
  | .tcp up down => UpRelay [] s.wire up ∧ TcpRelay s.wire down
  | .done _ => EdgeToOrigin [] s.wire ∧ OriginToEdge TcpFrame s.wire
  | _ => False

section Machines
variable {P : Httparse} {req : ConnectRequest} {s s' : St}

theorem bidiInv_start (P : Httparse) (req : ConnectRequest) : BidiInv P req (bidiStart req) :=
  ⟨⟨rfl, [], (List.append_nil _).symm, rfl, .read none []⟩, rfl, rfl, rfl, rfl, .inl rfl⟩

theorem bidiInv_join {head : Bytes} {w : Wire} {up : Up} {down : Down}
    (hhead : head = buildRequestHead req false) (hu : UpRelay head w up) (hd : BidiDown P w down) :
    BidiInv P req { s with pc := joinBidi up down, wire := w } := by
  subst hhead
  rcases joinBidi_cases up down with ⟨h, -⟩ | ⟨-, u, rfl, h⟩ | ⟨-, e, rfl, h⟩
  · rw [h]
    exact ⟨hu, hd⟩
  · rw [h]
    exact ⟨hu.edgeToOrigin, hd⟩
  · rw [h]
    exact ⟨hu.edgeToOrigin, hd⟩

theorem bidiInv_step {l : Label} (hi : BidiInv P req s) (hs : step P req s l = some s') :
    BidiInv P req s' := by
  cases l with
  | timeout =>
    simp only [step] at hs
    split at hs
    · rename_i hpc
      simp only [BidiInv, hpc] at hi
    · cases hs
  | main e =>
    cases hpc : s.pc with
    | closeBidi =>
      simp only [BidiInv, hpc] at hi
      simp only [step, hpc] at hs
      obtain ⟨hu, hd⟩ := hi
      have hd' := hd.originToEdge
      cases e <;> cases hs
      · exact ⟨hu.congr ⟨rfl, rfl, rfl, rfl⟩, hd'.congr ⟨rfl, rfl, rfl, rfl⟩⟩
      · exact ⟨hu, hd'⟩
    | bidi up down => simp [step, hpc] at hs
    | done r => simp [step, hpc] at hs
    | _ => simp only [BidiInv, hpc] at hi
  | up e =>
    simp only [step] at hs
    split at hs
    · rename_i up down hpc
      simp only [BidiInv, hpc] at hi
      simp only [Option.map_eq_some_iff] at hs
      obtain ⟨up', hup, rfl⟩ := hs
      exact bidiInv_join rfl (hi.1.step hup) (hi.2.congr (Up.sameDown _ _ _))
    · rename_i up down hpc
      simp only [BidiInv, hpc] at hi
    · cases hs
  | down e =>
    simp only [step] at hs
    split at hs
    · rename_i up down hpc
      simp only [BidiInv, hpc] at hi
      simp only [Option.map_eq_some_iff] at hs
      obtain ⟨down', hdown, rfl⟩ := hs
      exact bidiInv_join rfl (hi.1.congr (Down.sameUp _ _ _)) (hi.2.step hdown)
    · rename_i up down hpc
      simp only [BidiInv, hpc] at hi
    · cases hs

theorem bidi_reachable (h : (runBidi P req).Reachable s) : BidiInv P req s := by
  refine LTS.Inductive.reachable (M := runBidi P req) ⟨?_, ?_⟩ h
  · intro s hs
    rw [hs]
    exact bidiInv_start P req
  · intro s l s' hi hs
    exact bidiInv_step hi hs

theorem tcpInv_join {w : Wire} {up : Up} {down : Down} (hu : UpRelay [] w up)
    (hd : TcpRelay w down) : TcpInv { s with pc := joinTcp up down, wire := w } := by
  rcases joinTcp_cases up down with ⟨h, -⟩ | ⟨-, r, rfl, h⟩
  · rw [h]
    exact ⟨hu, hd⟩
  · rw [h]
    exact ⟨hu.edgeToOrigin, hd.originToEdge⟩

theorem tcpInv_step {l : Label} (hi : TcpInv s) (hs : step P req s l = some s') : TcpInv s' := by
  have hempty : EdgeToOrigin [] {} := ⟨[], rfl, List.nil_prefix, rfl, fun _ => rfl⟩
  cases l with
  | timeout =>
    simp only [step] at hs
    split at hs
    · rename_i hpc
      simp only [TcpInv, hpc] at hi
    · cases hs
  | main e =>
    cases hpc : s.pc with
    | connect =>
      simp only [TcpInv, hpc] at hi
      simp only [step, hpc] at hs
      cases e <;> cases hs
      · simp only [TcpInv, hi]
        exact ⟨hempty, trivial, trivial, trivial, trivial, trivial, rfl⟩
      · simp only [TcpInv, hi]
        exact ⟨hempty, .nothing rfl rfl⟩
    | accept rest =>
      simp only [TcpInv, hpc] at hi
      obtain ⟨hu, hee, hfe, hfo, heof, hout, hte⟩ := hi
      simp only [step, hpc] at hs
      cases e with
      | read b => cases rest <;> cases hs
      | fail msg =>
        obtain rfl : s' = { s with pc := .done (.error (writeConnectResponseError msg rest.head?)) } := by
          cases rest <;> cases hs <;> rfl
        exact ⟨hu, .partly ⟨rfl, rfl⟩ List.nil_prefix (hte ▸ List.prefix_append _ _) hout⟩
      | ok =>
        cases rest with
        | cons x rest =>
          cases hs
          exact ⟨hu.congr ⟨rfl, rfl, rfl, rfl⟩, hee, hfe, hfo, heof, hout, by simpa using hte⟩
        | nil =>
          cases hs
          obtain ⟨sent, hto, hpre, hin, -⟩ := hu
          rw [hfe] at hpre
          obtain rfl : sent = [] := List.prefix_nil.1 hpre
          refine ⟨⟨hee, [], hto, hin, ?_⟩, heof, [], [], ⟨?_, ⟨[], ?_, rfl⟩, hout⟩, .read none []⟩
          · rw [hfe]
            exact .read none []
          · rw [hfo]
            rfl
          · simpa using hte
    | tcp up down => simp [step, hpc] at hs
    | done r => simp [step, hpc] at hs
    | _ => simp only [TcpInv, hpc] at hi
  | up e =>
    simp only [step] at hs
    split at hs
    · rename_i up down hpc
      simp only [TcpInv, hpc] at hi
    · rename_i up down hpc
      simp only [TcpInv, hpc] at hi
      simp only [Option.map_eq_some_iff] at hs
      obtain ⟨up', hup, rfl⟩ := hs
      exact tcpInv_join (hi.1.step hup) (hi.2.congr (Up.sameDown _ _ _))
    · cases hs
  | down e =>
    simp only [step] at hs
    split at hs
    · rename_i up down hpc
      simp only [TcpInv, hpc] at hi
    · rename_i up down hpc
      simp only [TcpInv, hpc] at hi
      simp only [Option.map_eq_some_iff] at hs
      obtain ⟨down', hdown, rfl⟩ := hs
      exact tcpInv_join (hi.1.congr (Down.sameUp _ _ _)) (hi.2.step hdown)
    · cases hs

theorem tcp_reachable (h : (proxyTcp P req).Reachable s) : TcpInv s := by
  refine LTS.Inductive.reachable (M := proxyTcp P req) ⟨?_, ?_⟩ h
  · intro s hs
    rw [hs]
    rfl
  · intro s l s' hi hs
    exact tcpInv_step hi hs

/-- Where the pump behind the frame has returned `Ok`, it was at the end of
the file. -/
theorem BidiInv.eof (hi : BidiInv P req s) (h : pumpedOut s.pc = true) :
    s.wire.originEof = true := by
  cases hpc : s.pc with
  | bidi up down =>
    simp only [BidiInv, hpc] at hi
    cases down with
    | done r =>
      cases r with
      | ok u => exact hi.2.1
      | error e => simp [pumpedOut, hpc] at h
    | _ => simp [pumpedOut, hpc] at h
  | closeBidi =>
    simp only [BidiInv, hpc] at hi
    exact hi.2.1
  | _ => simp [pumpedOut, hpc, BidiInv] at h hi

theorem TcpInv.eof (hi : TcpInv s) (h : pumpedOut s.pc = true) : s.wire.originEof = true := by
  cases hpc : s.pc with
  | tcp up down =>
    simp only [TcpInv, hpc] at hi
    cases down with
    | done r =>
      cases r with
      | ok u => exact hi.2.1
      | error e => simp [pumpedOut, hpc] at h
    | _ => simp [pumpedOut, hpc] at h
  | _ => simp [pumpedOut, hpc, TcpInv] at h hi

theorem BidiInv.directions (hi : BidiInv P req s) :
    EdgeToOrigin (buildRequestHead req false) s.wire ∧ OriginToEdge (HeadFrame P) s.wire := by
  cases hpc : s.pc with
  | bidi up down =>
    simp only [BidiInv, hpc] at hi
    exact ⟨hi.1.edgeToOrigin, hi.2.originToEdge⟩
  | closeBidi =>
    simp only [BidiInv, hpc] at hi
    exact ⟨hi.1, hi.2.originToEdge⟩
  | done r =>
    simp only [BidiInv, hpc] at hi
    exact hi
  | _ => simp only [BidiInv, hpc] at hi

theorem TcpInv.directions (hi : TcpInv s) :
    EdgeToOrigin [] s.wire ∧ OriginToEdge TcpFrame s.wire := by
  cases hpc : s.pc with
  | connect =>
    simp only [TcpInv, hpc] at hi
    rw [hi]
    exact ⟨⟨[], rfl, List.nil_prefix, rfl, fun _ => rfl⟩, .nothing rfl rfl⟩
  | accept rest =>
    simp only [TcpInv, hpc] at hi
    obtain ⟨hu, -, -, -, -, hout, hte⟩ := hi
    exact ⟨hu, .partly ⟨rfl, rfl⟩ List.nil_prefix (hte ▸ List.prefix_append _ _) hout⟩
  | tcp up down =>
    simp only [TcpInv, hpc] at hi
    exact ⟨hi.1.edgeToOrigin, hi.2.originToEdge⟩
  | done r =>
    simp only [TcpInv, hpc] at hi
    exact hi
  | _ => simp only [TcpInv, hpc] at hi

/-! ## `run_bidi` inside the stream -/

/-- The stream on its way to `run_bidi`. -/
def BeforeBidi (P : Httparse) (req : ConnectRequest) (s : St) : Prop :=
  match s.pc with
  | .acquire => s.wire = {} ∧ s.released = false
  | .writeHead => s.wire = {} ∧ s.released = false ∧ s.connected = some true
  | .bidi _ _ | .closeBidi => (runBidi P req).Reachable s
  | _ => True

theorem beforeBidi_of_bidi (h : (runBidi P req).Reachable s) : BeforeBidi P req s := by
  have hi := bidi_reachable h
  unfold BeforeBidi
  cases hpc : s.pc with
  | bidi up down => exact h
  | closeBidi => exact h
  | done r => trivial
  | _ => simp only [BidiInv, hpc] at hi

theorem beforeBidi_step {l : Label} (hi : BeforeBidi P req s) (hs : step P req s l = some s') :
    BeforeBidi P req s' := by
  cases hpc : s.pc with
  | acquire =>
    simp only [BeforeBidi, hpc] at hi
    cases l with
    | main e =>
      simp only [step, hpc] at hs
      cases e <;> cases hs
      · exact ⟨hi.1, hi.2, rfl⟩
      · trivial
    | timeout =>
      simp only [step, hpc] at hs
      cases hs
      trivial
    | up e => simp [step, hpc] at hs
    | down e => simp [step, hpc] at hs
  | writeHead =>
    simp only [BeforeBidi, hpc] at hi
    obtain ⟨hw, hr, hc⟩ := hi
    cases l with
    | main e =>
      simp only [step, hpc] at hs
      cases e <;> cases hs
      · unfold afterHead
        split
        · trivial
        · rename_i hp
          rw [Bool.not_eq_true] at hp
          apply LTS.Reachable.of_init
          simp [runBidi, LTS.ofFn, bidiStart, hw, hr, hc, hp]
      · trivial
    | timeout => simp [step, hpc] at hs
    | up e => simp [step, hpc] at hs
    | down e => simp [step, hpc] at hs
  | bidi up down =>
    simp only [BeforeBidi, hpc] at hi
    exact beforeBidi_of_bidi (hi.step hs)
  | closeBidi =>
    simp only [BeforeBidi, hpc] at hi
    exact beforeBidi_of_bidi (hi.step hs)
  | reject rest =>
    cases l with
    | main e =>
      simp only [step, hpc] at hs
      rcases stepFrame_cases hs with ⟨x, rest', -, rfl⟩ | ⟨-, rfl⟩ | ⟨msg, err, -, rfl⟩ <;> trivial
    | _ => simp [step, hpc] at hs
  | pooled pc =>
    cases l with
    | main e =>
      simp only [step, hpc, Option.map_eq_some_iff] at hs
      obtain ⟨t, -, rfl⟩ := hs
      rcases ofPooled_cases s t with ⟨r, -, he⟩ | ⟨-, he⟩ <;> rw [he] <;> trivial
    | _ => simp [step, hpc] at hs
  | connect =>
    cases l with
    | main e =>
      simp only [step, hpc] at hs
      cases e <;> cases hs <;> trivial
    | _ => simp [step, hpc] at hs
  | accept rest =>
    cases l with
    | main e =>
      simp only [step, hpc] at hs
      rcases stepFrame_cases hs with ⟨x, rest', -, rfl⟩ | ⟨-, rfl⟩ | ⟨msg, err, -, rfl⟩ <;> trivial
    | _ => simp [step, hpc] at hs
  | tcp up down =>
    have hjoin : ∀ up' down' w, BeforeBidi P req { s with pc := joinTcp up' down', wire := w } := by
      intro up' down' w
      rcases joinTcp_cases up' down' with ⟨h, -⟩ | ⟨-, r, -, h⟩ <;> rw [h] <;> trivial
    cases l with
    | up e =>
      simp only [step, hpc, Option.map_eq_some_iff] at hs
      obtain ⟨up', -, rfl⟩ := hs
      exact hjoin _ _ _
    | down e =>
      simp only [step, hpc, Option.map_eq_some_iff] at hs
      obtain ⟨down', -, rfl⟩ := hs
      exact hjoin _ _ _
    | _ => simp [step, hpc] at hs
  | done r => cases l <;> simp [step, hpc] at hs

/-- A stream in `run_bidi` is in a state of `runBidi`. -/
theorem runBidi_of_inbound (h : (inbound P req).Reachable s)
    (hpc : (∃ up down, s.pc = .bidi up down) ∨ s.pc = .closeBidi) : (runBidi P req).Reachable s := by
  have hi : BeforeBidi P req s := by
    refine LTS.Inductive.reachable (M := inbound P req) ⟨?_, ?_⟩ h
    · intro s hs
      rw [hs]
      cases hc : req.connType <;> simp [start, BeforeBidi, hc]
    · intro s l s' hi hs
      exact beforeBidi_step hi hs
  rcases hpc with ⟨up, down, hpc⟩ | hpc
  · simpa only [BeforeBidi, hpc] using hi
  · simpa only [BeforeBidi, hpc] using hi

end Machines

/-- A frame is written in three parts, so a failed write leaves a part of
one. -/
theorem signature_alone : ∃ s, (proxyTcp refHttparse ⟨ascii "127.0.0.1:22", .tcp, []⟩).Reachable s ∧
    s.wire.toEdge ≠ [] ∧ ∀ error metadata, ∀ ds : List Bytes,
      s.wire.toEdge ≠ writeConnectResponse error metadata ++ ds.map .data :=
  ⟨_, LTS.reachable_of_exec _ _ [.main .ok, .main .ok, .main (.fail "reset")] rfl, by decide,
    fun _ _ _ h => by cases h⟩

/-- **Byte transparency of both relays.** In every state of `run_bidi` and of
`proxy_tcp`, whatever has failed: the origin has been sent the request head
(none for a Tcp stream) and a prefix of the edge's bytes; the edge has been
sent a part of one frame, or the frame and a prefix of the origin's bytes
(those behind the response head); each counter has grown by these bytes; and
a pump that has returned `Ok` has forwarded everything. -/
theorem relays_transparent (P : Httparse) (req : ConnectRequest) :
    (∀ s, (runBidi P req).Reachable s →
      EdgeToOrigin (buildRequestHead req false) s.wire ∧ OriginToEdge (HeadFrame P) s.wire ∧
        (pumpedOut s.pc = true → s.wire.originEof = true)) ∧
    (∀ s, (proxyTcp P req).Reachable s →
      EdgeToOrigin [] s.wire ∧ OriginToEdge TcpFrame s.wire ∧
        (pumpedOut s.pc = true → s.wire.originEof = true)) := by
  constructor
  · intro s h
    have hi := bidi_reachable h
    exact ⟨hi.directions.1, hi.directions.2, hi.eof⟩
  · intro s h
    have hi := tcp_reachable h
    exact ⟨hi.directions.1, hi.directions.2, hi.eof⟩

end QuickTunnel.Proxy.Inbound
