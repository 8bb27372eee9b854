import QuickTunnel.Proxy.Talk
import QuickTunnel.Proxy.Relay

/-!
# The relays hold nothing back

`run_bidi` and `proxy_tcp` between two peers that talk to each other: each
peer may wait for what the other has said before it goes on. If every pause
of their dialogue ends once everything said so far has been passed on
(`Willing`), and each ends its side behind its last byte, then a relay
brings the dialogue to its end, in every interleaving and for every way to
cut the bytes.

* `relay_moves`: at a relay a step is possible, or everything said has been
  passed on.
* `bidi_completes`, `tcp_completes`: the two paths.
-/
namespace QuickTunnel.Proxy.Inbound

open QuickTunnel.Stream
open Pooled (Pumping readAs)

/-- What the origin has said and what the edge has been sent of it, where
`front` is not passed on but answered with `frame`. -/
def Passed (front : Bytes) (frame : List EdgeWrite) (said : Bytes) (te : List EdgeWrite) : Prop :=
  ∃ ds : List Bytes, said = front ++ ds.flatten ∧ te = frame ++ ds.map .data

/-- No pause is for good: when everything said has been passed on, either
all has been said or one of the peers goes on. -/
def Talk.Willing (X : Talk) (head front : Bytes) (frame : List EdgeWrite) : Prop :=
  ∀ u o te, u <+: X.up → o <+: X.down →
    (Passed front frame o te ∨ o.length < front.length ∧ te = []) →
    (u = X.up ∧ o = X.down) ∨ (u ≠ X.up ∧ X.edgeMay te) ∨ (o ≠ X.down ∧ X.originMay (head ++ u))

/-- Both sides have been sent everything, and the stream has returned. -/
structure Completed (X : Talk) (head front : Bytes) (frame : List EdgeWrite) (s : Sys) : Prop where
  returned : s.st.pc = .done (.ok ())
  toOrigin : s.st.wire.toOrigin = head ++ X.up
  toEdge : Passed front frame X.down s.st.wire.toEdge
  bytesIn : s.st.wire.bytesIn = X.up.length
  bytesOut : front.length + s.st.wire.bytesOut = X.down.length

/-! ## The half towards the origin -/

section Up
variable {X : Talk} {P : Httparse} {req : ConnectRequest} {s s' : Sys} {shut : Bool} {up up' : Up}
  {down : Down} {head : Bytes} {e : Ev}

/-- The edge-to-origin half of a dialogue in which nothing has failed. -/
structure UpSide (head : Bytes) (w : Wire) (up : Up) : Prop where
  relay : UpRelay head w up
  eof : up.ended = true → w.edgeEof = true

theorem UpSide.step {w : Wire} (h : UpSide head w up) (he : e.faultless = true)
    (hs : up.step shut e = some up') : UpSide head (up.wire w e) up' := by
  refine ⟨h.relay.step hs, fun hend => ?_⟩
  rcases Up.step_cases h.relay.unbounded hs with ⟨b, -, -, -, -, rfl⟩ | ⟨c, -, -, rfl⟩ |
    ⟨rfl, rfl, -⟩ | ⟨p, msg, -, rfl, -⟩ | ⟨rfl, -, -⟩
  · cases hend
  · cases hend
  · simp [Up.wire, Wire.up]
  · cases he
  · exact h.eof rfl

/-- What it has been told has all been sent on, when it is over. -/
theorem UpSide.all {w : Wire} (h : UpSide head w up) (hend : up.ended = true)
    (heof : w.edgeEof = true → w.fromEdge.flatten = X.up) :
    w.toOrigin = head ++ X.up ∧ w.bytesIn = X.up.length := by
  obtain ⟨sent, hto, -, hin, hall⟩ := h.relay.edgeToOrigin
  have he := h.eof hend
  have hsent := (hall he).trans (heof he)
  subst hsent
  exact ⟨hto, hin⟩

/-- It can move, or it has passed on everything said so far. -/
theorem up_moves_or (hs : X.Spoken s) (hpc : s.st.pc = relay shut up down)
    (h : UpSide head s.st.wire up) :
    (∃ l s', X.Own s l ∧ (sys P req).step s l s') ∨
      (s.st.wire.toOrigin = head ++ s.heardEdge ∧ (up = .done ∨ s.net.edge.fin = false)) := by
  have hu := h.relay.unbounded
  cases up with
  | shutdown => exact .inl ⟨.proxy (.up .ok), _, rfl, up_moves hpc rfl (by simp)⟩
  | done =>
    have hall := h.all rfl hs.edgeEof
    have hfe := hs.edgeEof (h.eof rfl)
    have hnil : s.net.edge.bytes = [] := by
      have := hs.edge.length_le
      rw [Sys.heardEdge, hfe, List.length_append] at this
      exact List.length_eq_zero_iff.mp (by omega)
    refine .inr ⟨?_, .inl rfl⟩
    rw [hall.1, Sys.heardEdge, hnil, List.append_nil, hfe]
  | pump p =>
    cases p with
    | write l c =>
      obtain rfl : l = none := by simpa [Up.unbounded, Pump.unbounded] using hu
      exact .inl ⟨.proxy (.up .ok), _, rfl, up_moves hpc (up_write_step c) (by simp)⟩
    | read l =>
      obtain rfl : l = none := by simpa [Up.unbounded, Pump.unbounded] using hu
      by_cases hb : s.net.edge.bytes = []
      · cases hf : s.net.edge.fin with
        | true => exact .inl ⟨.proxy (.up (.read [])), _, rfl,
            up_reads hpc up_eof_step (Queue.take_eof hb hf)⟩
        | false =>
          obtain ⟨-, sent, hto, -, hp⟩ := h.relay
          refine .inr ⟨?_, .inr rfl⟩
          rw [Sys.heardEdge, hb, List.append_nil, hp.of_read.2]
          exact hto
      · obtain ⟨b, q', hne, hle, hq, -⟩ := Queue.take_some hb
        exact .inl ⟨.proxy (.up (.read b)), _, rfl, up_reads hpc (up_read_step hne hle) hq⟩

end Up

/-! ## The half towards the edge -/

section Down
variable {X : Talk} {P : Httparse} {req : ConnectRequest} {s s' : Sys} {shut : Bool} {up : Up}
  {down down' : Down} {e : Ev} {front : Bytes} {frame : List EdgeWrite} {w : Wire}

/-- The pump behind the frame can move, or has passed on everything said so
far. -/
theorem pump_moves_or {p : Pump} {body out : Bytes} (hpc : s.st.pc = relay shut up (.pump p))
    (hd : Delivery front frame s.st.wire body out) (hp : Pumping p none body out) :
    (∃ l s', X.Own s l ∧ (sys P req).step s l s') ∨
      (Passed front frame s.heardOrigin s.st.wire.toEdge ∧ s.net.origin.fin = false) := by
  cases p with
  | write l c =>
    obtain ⟨rfl, -⟩ := hp.of_write
    exact .inl ⟨.proxy (.down .ok), _, rfl, down_moves hpc (down_write_step c) (by simp)⟩
  | read l =>
    obtain ⟨rfl, rfl⟩ := hp.of_read
    by_cases hb : s.net.origin.bytes = []
    · cases hf : s.net.origin.fin with
      | true => exact .inl ⟨.proxy (.down (.read [])), _, rfl,
          down_reads hpc down_eof_step (Queue.take_eof hb hf)⟩
      | false =>
        obtain ⟨ds, hte, hfl⟩ := hd.toEdge
        refine .inr ⟨⟨ds, ?_, hte⟩, rfl⟩
        rw [Sys.heardOrigin, hb, List.append_nil, hd.fromOrigin, hfl]
    · obtain ⟨b, q', hne, hle, hq, -⟩ := Queue.take_some hb
      exact .inl ⟨.proxy (.down (.read b)), _, rfl, down_reads hpc (down_read_step hne hle) hq⟩

/-- A pump that is done has passed on everything. -/
theorem done_passed {body : Bytes} (hs : X.Spoken s) (heof : s.st.wire.originEof = true)
    (hd : Delivery front frame s.st.wire body body) :
    Passed front frame s.heardOrigin s.st.wire.toEdge ∧ s.heardOrigin = X.down ∧
      front.length + s.st.wire.bytesOut = X.down.length := by
  have hfo := hs.originEof heof
  have hnil : s.net.origin.bytes = [] := by
    have := hs.origin.length_le
    rw [Sys.heardOrigin, hfo, List.length_append] at this
    exact List.length_eq_zero_iff.mp (by omega)
  have hall : s.heardOrigin = X.down := by rw [Sys.heardOrigin, hnil, List.append_nil, hfo]
  obtain ⟨ds, hte, hfl⟩ := hd.toEdge
  have hdown : X.down = front ++ body := hfo.symm.trans hd.fromOrigin
  refine ⟨⟨ds, ?_, hte⟩, hall, ?_⟩
  · rw [hall, hdown, hfl]
  · rw [hdown, hd.bytesOut, List.length_append]

/-- The origin-to-edge half of `run_bidi` in a dialogue: it can move, or has
passed on everything said so far. -/
theorem bidiDown_moves_or {raw content : Bytes} {hd : Http.Head} (hh : P.IsHead raw hd)
    (hs : X.Spoken s) (hX : X.down = raw ++ content) (hpc : s.st.pc = relay shut up down)
    (hd' : BidiDown P s.st.wire down) (hfine : ∀ err, down ≠ .done (.error err)) :
    (∃ l s', X.Own s l ∧ (sys P req).step s l s') ∨
      ((Passed raw (Pooled.frame (readAs hd [])) s.heardOrigin s.st.wire.toEdge ∨
        s.heardOrigin.length < raw.length ∧ s.st.wire.toEdge = []) ∧
        (down = .done (.ok ()) ∨ s.net.origin.fin = false)) := by
  have hpre : s.st.wire.fromOrigin.flatten <+: raw ++ content :=
    (List.prefix_append _ _).trans (hX ▸ hs.origin)
  cases down with
  | head buf =>
    obtain ⟨hte, -, -, hfo, hbuf⟩ := hd'
    by_cases hb : s.net.origin.bytes = []
    · have hshort := buf_in_head hh hbuf (hfo ▸ hpre)
      have hheard : s.heardOrigin = buf := by rw [Sys.heardOrigin, hb, List.append_nil, hfo]
      refine .inr ⟨.inr ⟨hheard ▸ hshort, hte⟩, .inr ?_⟩
      cases hf : s.net.origin.fin with
      | false => rfl
      | true =>
        have := hs.originFin hf
        rw [hheard, hX] at this
        rw [this, List.length_append] at hshort
        omega
    · obtain ⟨b, q, hne, hle, htake⟩ := Queue.take_piece (k := HEAD_BUF) (by decide) hb
      obtain ⟨d, hdn⟩ : ∃ d, (Down.head buf).step P (.read b) = some d := by
        simp [Down.step, readHttpResponseHead, hle]
      exact .inl ⟨.proxy (.down (.read b)), _, rfl, down_reads hpc hdn htake⟩
  | respond h rest =>
    cases rest with
    | nil => exact .inl ⟨.proxy (.down .ok), _, rfl, down_moves hpc rfl (by simp)⟩
    | cons x rest => exact .inl ⟨.proxy (.down .ok), _, rfl, down_moves hpc rfl (by simp)⟩
  | leftover h => exact .inl ⟨.proxy (.down .ok), _, rfl, down_moves hpc rfl (by simp)⟩
  | pump p =>
    obtain ⟨-, h, raw', hd'', body, out, hg, hdel, hp⟩ := hd'
    obtain ⟨rfl, hst, hf⟩ := gotHead_of_stream hg hh hdel.fromOrigin hpre
    rw [frame_of_head hst hf] at hdel
    rcases pump_moves_or hpc hdel hp with hmove | ⟨hpass, hfin⟩
    · exact .inl hmove
    · exact .inr ⟨.inl hpass, .inr hfin⟩
  | done r =>
    cases r with
    | error err => exact absurd rfl (hfine err)
    | ok u =>
      obtain ⟨heof, h, raw', hd'', body, hg, hdel⟩ := hd'
      obtain ⟨rfl, hst, hf⟩ := gotHead_of_stream hg hh hdel.fromOrigin hpre
      rw [frame_of_head hst hf] at hdel
      exact .inr ⟨.inl (done_passed hs heof hdel).1, .inl rfl⟩

/-- It does not fail by itself. -/
theorem bidiDown_fine {raw content : Bytes} {hd : Http.Head} (hh : P.IsHead raw hd)
    (hfits : raw.length + min content.length 2047 ≤ MAX_HEADER_BYTES) (hs : X.Spoken s)
    (hX : X.down = raw ++ content) (hd' : BidiDown P s.st.wire down) (he : e.faultless = true)
    (hdraw : Drawn e.got s.net.origin s'.net.origin) (h : down.step P e = some down') :
    ∀ err, down' ≠ .done (.error err) := by
  intro err heq
  subst heq
  cases down with
  | head buf =>
    obtain ⟨-, -, -, hfo, hbuf⟩ := hd'
    simp only [Down.step, Option.map_eq_some_iff] at h
    obtain ⟨o, ho, hoe⟩ := h
    rcases readHead_cases ho with ⟨err', rfl, ⟨msg, rfl⟩ | rfl | ⟨tmp, rfl, -, hbad⟩⟩ |
      ⟨tmp, -, -, rfl, -⟩ | ⟨tmp, r, raw', hd'', -, -, rfl, -⟩
    · cases he
    · obtain ⟨hb, hf⟩ := hdraw.eof rfl
      have hall := hs.originFin hf
      rw [Sys.heardOrigin, hb, List.append_nil, hfo, hX] at hall
      have hshort := buf_in_head hh hbuf ⟨[], by rw [hall, List.append_nil]⟩
      rw [hall, List.length_append] at hshort
      omega
    · have hle : tmp.length ≤ HEAD_BUF := by
        simp only [readHttpResponseHead] at ho
        split at ho
        · assumption
        · cases ho
      have h₁ := hs.origin
      rw [Sys.heardOrigin, hfo, hdraw.bytes, ← List.append_assoc, hX] at h₁
      have hpre : buf ++ tmp <+: raw ++ content := (List.prefix_append _ _).trans h₁
      exact head_usable hh hfits hbuf hle hpre hbad
    · cases hoe
    · cases hoe
  | respond r rest =>
    cases e with
    | ok =>
      cases rest with
      | nil =>
        simp only [Down.step, Option.some.injEq] at h
        split at h <;> cases h
      | cons x rest => cases h
    | read b => cases rest <;> cases h
    | fail msg => cases he
  | leftover r =>
    cases e with
    | fail msg => cases he
    | _ => cases h
  | pump p =>
    obtain ⟨-, r, raw', hd'', body, out, -, -, hp⟩ := hd'
    rcases Down.pump_cases hp.unbounded h with ⟨b, -, -, -, -, h⟩ | ⟨c, -, -, h⟩ | ⟨-, -, h⟩ |
      ⟨msg, err', rfl, -⟩
    · cases h
    · cases h
    · cases h
    · cases he
  | done r => cases e <;> cases h

end Down

/-! ## Between the halves -/

section Relay
variable {X : Talk} {P : Httparse} {req : ConnectRequest} {s s' : Sys} {shut : Bool} {up : Up}
  {down : Down} {head front : Bytes} {frame : List EdgeWrite}

/-- At a relay of a dialogue somebody can move: one of the halves, or a
peer. -/
theorem relay_moves (hs : X.Spoken s) (hw : X.Willing head front frame)
    (hpc : s.st.pc = relay shut up down) (hup : UpSide head s.st.wire up)
    (hdown : (∃ l s', X.Own s l ∧ (sys P req).step s l s') ∨
      ((Passed front frame s.heardOrigin s.st.wire.toEdge ∨
        s.heardOrigin.length < front.length ∧ s.st.wire.toEdge = []) ∧
        (down = .done (.ok ()) ∨ s.net.origin.fin = false))) :
    ∃ l s', X.Own s l ∧ (sys P req).step s l s' := by
  rcases up_moves_or hs hpc hup with hmove | ⟨hto, hupend⟩
  · exact hmove
  rcases hdown with hmove | ⟨hpass, hdnend⟩
  · exact hmove
  rcases hw _ _ _ hs.edge hs.origin hpass with ⟨hu, ho⟩ | ⟨hne, hmay⟩ | ⟨hne, hmay⟩
  · -- everything has been said: a side that is not over can still be ended
    rcases hupend with rfl | hfin
    · rcases hdnend with rfl | hfin
      · exact absurd ⟨rfl, rfl⟩ (hs.halves.relay hpc).2.2.1
      · exact ⟨.originEnds, ⟨s.st, { s.net with origin := { s.net.origin with fin := true } }⟩,
          ⟨hfin, ho⟩, rfl⟩
    · exact ⟨.edgeEnds, ⟨s.st, { s.net with edge := { s.net.edge with fin := true } }⟩, ⟨hfin, hu⟩, rfl⟩
  · exact hs.edge_speaks hmay hne
  · refine hs.origin_speaks ?_ hne
    rw [hto]
    exact hmay

/-- A step at a relay in which nothing fails, by the half that moves. -/
theorem relay_own {l : Label} (hpc : s.st.pc = relay shut up down) (hl : l.faultless = true)
    (h : (sys P req).step s (.proxy l) s') :
    (∃ e up', e.faultless = true ∧ up.step shut e = some up' ∧
      s'.st = { s.st with pc := join shut up' down, wire := up.wire s.st.wire e }) ∨
    (∃ e down', e.faultless = true ∧ down.step P e = some down' ∧
      Drawn e.got s.net.origin s'.net.origin ∧
      s'.st = { s.st with pc := join shut up down', wire := down.wire s.st.wire e }) := by
  obtain ⟨-, -, -, hdo⟩ := proxy_reads h
  rcases relay_step hpc h with ⟨e, up', rfl, hup, hst, -⟩ | ⟨e, down', rfl, hdn, hst, -⟩
  · exact .inl ⟨e, up', hl, hup, hst⟩
  · exact .inr ⟨e, down', hl, hdn, hdo, hst⟩

theorem upSide_start {w : Wire} (hto : w.toOrigin = head) (hfe : w.fromEdge = [])
    (heof : w.edgeEof = false) (hin : w.bytesIn = 0) : UpSide head w (.pump (.read none)) := by
  refine ⟨⟨heof, [], by rw [hto, List.append_nil], hin, ?_⟩, by simp [Up.ended]⟩
  rw [hfe]
  exact .read none []

theorem UpSide.congr {w w' : Wire} (h : UpSide head w up) (hw : SameUp w w') : UpSide head w' up :=
  ⟨h.relay.congr hw, fun hend => hw.edgeEof.trans (h.eof hend)⟩

end Relay

/-! ## `run_bidi` -/

/-- A request that is not pooled, and a dialogue behind its head: a response
head, and `content` behind it. -/
structure Bidi (P : Httparse) (req : ConnectRequest) where
  up : Bytes
  raw : Bytes
  hd : Http.Head
  content : Bytes
  edgeMay : List EdgeWrite → Prop
  originMay : Bytes → Prop
  http : req.connType ≠ .tcp
  relayed : (analyseRequest req).requestPoolable = false
  isHead : P.IsHead raw hd
  fits : raw.length + min content.length 2047 ≤ MAX_HEADER_BYTES

namespace Bidi
variable {P : Httparse} {req : ConnectRequest} (X : Bidi P req)

def talk : Talk := ⟨X.up, X.raw ++ X.content, X.edgeMay, X.originMay⟩

def head (_ : Bidi P req) : Bytes := buildRequestHead req false

def frame : List EdgeWrite := Pooled.frame (readAs X.hd [])

/-- The dialogue is over, and both sides have been closed. -/
structure Served (s : Sys) : Prop where
  completed : Completed X.talk X.head X.raw X.frame s
  edgeClosed : s.st.wire.edgeClosed = true
  originShut : s.st.wire.originShut = true

/-- The dialogue is on its way. -/
structure Serving (s : Sys) : Prop where
  spoken : X.talk.Spoken s
  at_pc : match s.st.pc with
    | .acquire | .writeHead => s.st.wire = {}
    | .bidi up down => UpSide X.head s.st.wire up ∧ BidiDown P s.st.wire down ∧
        ∀ err, down ≠ .done (.error err)
    | .closeBidi => UpSide X.head s.st.wire .done ∧ BidiDown P s.st.wire (.done (.ok ())) ∧
        s.st.wire.originShut = true
    | _ => False

section Steps
variable {X} {s s' : Sys}

/-- A half that is done behind `shutdown` has shut the origin's side. -/
theorem originShut_of_done {up : Up} {w : Wire} {e : Ev} (hu : up.unbounded = true)
    (h : up.step true e = some .done) : (up.wire w e).originShut = true := by
  rcases Up.step_cases hu h with ⟨b, -, -, -, -, h⟩ | ⟨c, -, -, h⟩ | ⟨-, -, h⟩ | ⟨p, msg, -, -, h⟩ |
    ⟨rfl, -, -⟩
  · cases h
  · cases h
  · cases h
  · cases h
  · rfl

theorem serving_relay {up : Up} {down : Down} {l : Label} (hs : X.Serving s)
    (hpc : s.st.pc = .bidi up down) (hl : l.faultless = true)
    (h : (sys P req).step s (.proxy l) s') : X.Serving s' := by
  have hspoken := (hs.spoken.proxy h).1
  have hat := hs.at_pc
  simp only [hpc] at hat
  obtain ⟨hup, hdown, hfine⟩ := hat
  have hpc' : s.st.pc = relay true up down := hpc
  have hshut : up = .done → s.st.wire.originShut = true := by
    have hh := hs.spoken.halves
    simp only [Halves, hpc] at hh
    exact hh.2.2.2.2.1
  refine ⟨hspoken, ?_⟩
  rcases relay_own hpc' hl h with ⟨e, up', he, hstep, hst⟩ | ⟨e, down', he, hstep, hdraw, hst⟩
  · have hup' := hup.step he hstep
    have hdown' := hdown.congr (Up.sameDown s.st.wire up e)
    rw [hst]
    simp only [join, if_true]
    rcases joinBidi_cases up' down with ⟨hj, -⟩ | ⟨rfl, u, rfl, hj⟩ | ⟨-, err, rfl, -⟩
    · rw [hj]
      exact ⟨hup', hdown', hfine⟩
    · rw [hj]
      exact ⟨hup', hdown', originShut_of_done hup.relay.unbounded hstep⟩
    · exact absurd rfl (hfine err)
  · have hup' := hup.congr (Down.sameUp s.st.wire down e)
    have hdown' := hdown.step hstep
    have hfine' := bidiDown_fine X.isHead X.fits hs.spoken rfl hdown he hdraw hstep
    rw [hst]
    simp only [join, if_true]
    rcases joinBidi_cases up down' with ⟨hj, -⟩ | ⟨rfl, u, rfl, hj⟩ | ⟨-, err, rfl, -⟩
    · rw [hj]
      exact ⟨hup', hdown', hfine'⟩
    · rw [hj]
      exact ⟨hup', hdown', (Down.wire_up s.st.wire down e).2.1.trans (hshut rfl)⟩
    · exact absurd rfl (hfine' err)

/-- Behind the join everything has been passed on. -/
theorem completed_of_done (hs : X.talk.Spoken s) (hup : UpSide X.head s.st.wire .done)
    (hdown : BidiDown P s.st.wire (.done (.ok ()))) :
    s.st.wire.toOrigin = X.head ++ X.up ∧ s.st.wire.bytesIn = X.up.length ∧
      Passed X.raw X.frame (X.raw ++ X.content) s.st.wire.toEdge ∧
      X.raw.length + s.st.wire.bytesOut = (X.raw ++ X.content).length := by
  obtain ⟨hto, hin⟩ := hup.all (X := X.talk) rfl hs.edgeEof
  obtain ⟨heof, r, raw', hd, body, hg, hdel⟩ := hdown
  obtain ⟨rfl, hst, hf⟩ := gotHead_of_stream hg X.isHead hdel.fromOrigin
    ((List.prefix_append _ _).trans hs.origin)
  rw [frame_of_head hst hf] at hdel
  obtain ⟨hpass, hall, hout⟩ := done_passed hs heof hdel
  rw [hall] at hpass
  exact ⟨hto, hin, hpass, hout⟩

theorem serving_own {l : SysLabel} (hs : X.Serving s) (ho : X.talk.Own s l)
    (h : (sys P req).step s l s') : X.Served s' ∨ X.Serving s' := by
  have hspoken := (hs.spoken.own ho h).1
  have hat := hs.at_pc
  have hpeer : s'.st = s.st → X.Served s' ∨ X.Serving s' := by
    intro hst
    refine .inr ⟨hspoken, ?_⟩
    rw [hst]
    exact hat
  cases l with
  | proxy l =>
    have hfine : l.faultless = true := ho
    obtain ⟨hst, -, -, -⟩ := proxy_reads h
    cases hpc : s.st.pc with
    | acquire =>
      simp only [hpc] at hat
      obtain rfl := plain_ok (by rw [hpc]; rfl) hfine hst
      simp only [Inbound.step, hpc, Option.some.injEq] at hst
      refine .inr ⟨hspoken, ?_⟩
      rw [← hst]
      exact hat
    | writeHead =>
      simp only [hpc] at hat
      obtain rfl := plain_ok (by rw [hpc]; rfl) hfine hst
      simp only [Inbound.step, hpc, Option.some.injEq] at hst
      refine .inr ⟨hspoken, ?_⟩
      rw [← hst]
      simp only [afterHead, X.relayed, Bool.false_eq_true, if_false, hat]
      exact ⟨upSide_start (by simp [head]) rfl rfl rfl, ⟨rfl, rfl, rfl, rfl, .inl rfl⟩, by simp⟩
    | bidi up down => exact .inr (serving_relay hs hpc hfine h)
    | closeBidi =>
      simp only [hpc] at hat
      obtain ⟨hup, hdown, hshut⟩ := hat
      obtain ⟨hto, hin, hpass, hout⟩ := completed_of_done hs.spoken hup hdown
      obtain rfl := plain_ok (by rw [hpc]; rfl) hfine hst
      simp only [Inbound.step, hpc, Option.some.injEq] at hst
      left
      refine ⟨⟨?_, ?_, ?_, ?_, ?_⟩, ?_, ?_⟩
      · rw [← hst]
      · rw [← hst]
        exact hto
      · rw [← hst]
        exact hpass
      · rw [← hst]
        exact hin
      · rw [← hst]
        exact hout
      · rw [← hst]
      · rw [← hst]
        exact hshut
    | _ => simp only [hpc] at hat
  | _ => exact hpeer (peer_st rfl h)

/-- Somebody can always move. -/
theorem serving_moves (hw : X.talk.Willing X.head X.raw X.frame) (hs : X.Serving s) :
    ∃ l s', X.talk.Own s l ∧ (sys P req).step s l s' := by
  have hat := hs.at_pc
  cases hpc : s.st.pc with
  | acquire => exact plain_moves (by rw [hpc]; rfl)
  | writeHead => exact plain_moves (by rw [hpc]; rfl)
  | bidi up down =>
    simp only [hpc] at hat
    have hpc' : s.st.pc = relay true up down := hpc
    exact relay_moves hs.spoken hw hpc' hat.1
      (bidiDown_moves_or X.isHead hs.spoken rfl hpc' hat.2.1 hat.2.2)
  | closeBidi => exact plain_moves (by rw [hpc]; rfl)
  | _ => simp only [hpc] at hat

/-- Every step leaves less to be done. -/
theorem serving_closer {l : SysLabel} (hs : X.Serving s) (ho : X.talk.Own s l)
    (h : (sys P req).step s l s') :
    X.Served s' ∨ X.Serving s' ∧ X.talk.left s' < X.talk.left s := by
  rcases serving_own hs ho h with hdone | hgo
  · exact .inl hdone
  · exact .inr ⟨hgo, (hs.spoken.own ho h).2⟩

theorem serving_start : X.Serving ⟨start req, {}⟩ := by
  refine ⟨X.talk.spoken_start req, ?_⟩
  cases hc : req.connType with
  | tcp => exact absurd hc X.http
  | _ => simp [start, hc]

end Steps

/-- **`run_bidi` holds nothing back.** -/
theorem bidi_completes (P : Httparse) (req : ConnectRequest) (X : Bidi P req)
    (hw : X.talk.Willing X.head X.raw X.frame) :
    (sys P req).Inevitable X.talk.Own X.Served ⟨start req, {}⟩ := by
  apply LTS.inevitable_of_measure (I := X.Serving) X.talk.left
  · intro s hs
    exact .inr (serving_moves hw hs)
  · intro s l s' hs ho h
    exact serving_closer hs ho h
  · exact serving_start

/-- An edge that goes on only once it has been answered. -/
def talkative : Bidi refHttparse closingGet where
  up := ascii "ping"
  raw := Pooled.fiveRaw
  hd := Pooled.fiveHead
  content := ascii "hello"
  edgeMay te := te ≠ []
  originMay b := buildRequestHead closingGet false <+: b
  http := by decide
  relayed := by decide
  isHead := Pooled.fiveHead_isHead
  fits := by decide

theorem talkative_willing :
    talkative.talk.Willing talkative.head talkative.raw talkative.frame := by
  intro u o te _ _ hpass
  by_cases ho : o = talkative.talk.down
  · by_cases hu : u = talkative.talk.up
    · exact .inl ⟨hu, ho⟩
    · refine .inr (.inl ⟨hu, ?_⟩)
      rcases hpass with ⟨ds, -, rfl⟩ | ⟨hlt, -⟩
      · simp [talkative, talk, frame, Pooled.frame, writeConnectResponse]
      · rw [ho] at hlt
        exact absurd hlt (by decide)
  · exact .inr (.inr ⟨ho, List.prefix_append _ _⟩)

theorem talkative_completes : (sys refHttparse closingGet).Inevitable talkative.talk.Own
    talkative.Served ⟨start closingGet, {}⟩ := bidi_completes _ _ talkative talkative_willing

end Bidi

/-! ## `proxy_tcp` -/

namespace Dial
variable {P : Httparse} {req : ConnectRequest} {X : Talk}

def accept : List EdgeWrite := writeConnectResponse "" []

/-- A Tcp stream's dialogue on its way. -/
structure Serving (X : Talk) (s : Sys) : Prop where
  spoken : X.Spoken s
  at_pc : match s.st.pc with
    | .connect => s.st.wire = {}
    | .accept rest => s.st.wire = { toEdge := s.st.wire.toEdge } ∧ s.st.wire.toEdge ++ rest = accept
    | .tcp up down => UpSide [] s.st.wire up ∧ TcpRelay s.st.wire down ∧
        ∀ err, down ≠ .done (.error err)
    | _ => False

section Steps
variable {s s' : Sys}

theorem tcpDown_moves_or {up : Up} {down : Down} (hs : X.Spoken s)
    (hpc : s.st.pc = relay false up down) (hd : TcpRelay s.st.wire down)
    (hfine : ∀ err, down ≠ .done (.error err)) :
    (∃ l s', X.Own s l ∧ (sys P req).step s l s') ∨
      ((Passed [] accept s.heardOrigin s.st.wire.toEdge ∨
        s.heardOrigin.length < ([] : Bytes).length ∧ s.st.wire.toEdge = []) ∧
        (down = .done (.ok ()) ∨ s.net.origin.fin = false)) := by
  cases down with
  | pump p =>
    obtain ⟨-, body, out, hdel, hp⟩ := hd
    rcases pump_moves_or hpc hdel hp with hmove | ⟨hpass, hfin⟩
    · exact .inl hmove
    · exact .inr ⟨.inl hpass, .inr hfin⟩
  | done r =>
    cases r with
    | error err => exact absurd rfl (hfine err)
    | ok u =>
      obtain ⟨heof, body, hdel⟩ := hd
      exact .inr ⟨.inl (done_passed hs heof hdel).1, .inl rfl⟩
  | head buf => exact hd.elim
  | respond r rest => exact hd.elim
  | leftover r => exact hd.elim

theorem tcpDown_fine {w : Wire} {down down' : Down} {e : Ev} (hd : TcpRelay w down)
    (he : e.faultless = true) (h : down.step P e = some down') : ∀ err, down' ≠ .done (.error err) := by
  intro err heq
  subst heq
  cases down with
  | pump p =>
    obtain ⟨-, body, out, -, hp⟩ := hd
    rcases Down.pump_cases hp.unbounded h with ⟨b, -, -, -, -, h⟩ | ⟨c, -, -, h⟩ | ⟨-, -, h⟩ |
      ⟨msg, err', rfl, -⟩
    · cases h
    · cases h
    · cases h
    · cases he
  | done r => cases e <;> cases h
  | head buf => exact hd.elim
  | respond r rest => exact hd.elim
  | leftover r => exact hd.elim

theorem serving_relay {up : Up} {down : Down} {l : Label} (hs : Serving X s)
    (hpc : s.st.pc = .tcp up down) (hl : l.faultless = true)
    (h : (sys P req).step s (.proxy l) s') : Completed X [] [] accept s' ∨ Serving X s' := by
  have hspoken := (hs.spoken.proxy h).1
  have hat := hs.at_pc
  simp only [hpc] at hat
  obtain ⟨hup, hdown, hfine⟩ := hat
  have hpc' : s.st.pc = relay false up down := hpc
  have hnext : ∀ {up' down' w'}, s'.st = { s.st with pc := joinTcp up' down', wire := w' } →
      UpSide [] w' up' → TcpRelay w' down' → (∀ err, down' ≠ .done (.error err)) →
      Completed X [] [] accept s' ∨ Serving X s' := by
    intro up' down' w' hst hup' hdown' hfine'
    have hw : s'.st.wire = w' := by rw [hst]
    rcases joinTcp_cases up' down' with ⟨hj, -⟩ | ⟨rfl, r, rfl, hj⟩
    · refine .inr ⟨hspoken, ?_⟩
      rw [hst, hj]
      exact ⟨hup', hdown', hfine'⟩
    · cases r with
      | error err => exact absurd rfl (hfine' err)
      | ok u =>
        subst hw
        obtain ⟨hto, hin⟩ := hup'.all (X := X) rfl hspoken.edgeEof
        obtain ⟨heof, body, hdel⟩ := hdown'
        obtain ⟨hpass, hall, hout⟩ := done_passed hspoken heof hdel
        rw [hall] at hpass
        exact .inl ⟨by rw [hst, hj], hto, hpass, hin, hout⟩
  rcases relay_own hpc' hl h with ⟨e, up', he, hstep, hst⟩ | ⟨e, down', he, hstep, -, hst⟩
  · exact hnext hst (hup.step he hstep) (hdown.congr (Up.sameDown s.st.wire up e)) hfine
  · exact hnext hst (hup.congr (Down.sameUp s.st.wire down e)) (hdown.step hstep)
      (tcpDown_fine hdown he hstep)

theorem serving_own {l : SysLabel} (hs : Serving X s) (ho : X.Own s l)
    (h : (sys P req).step s l s') : Completed X [] [] accept s' ∨ Serving X s' := by
  have hspoken := (hs.spoken.own ho h).1
  have hat := hs.at_pc
  have hpeer : s'.st = s.st → Completed X [] [] accept s' ∨ Serving X s' := by
    intro hst
    refine .inr ⟨hspoken, ?_⟩
    rw [hst]
    exact hat
  cases l with
  | proxy l =>
    have hfine : l.faultless = true := ho
    obtain ⟨hst, -, -, -⟩ := proxy_reads h
    cases hpc : s.st.pc with
    | connect =>
      simp only [hpc] at hat
      obtain rfl := plain_ok (by rw [hpc]; rfl) hfine hst
      simp only [Inbound.step, hpc, Option.some.injEq] at hst
      refine .inr ⟨hspoken, ?_⟩
      rw [← hst]
      simp only [hat]
      exact ⟨trivial, rfl⟩
    | accept rest =>
      simp only [hpc] at hat
      obtain ⟨hw, hte⟩ := hat
      cases l with
      | main e =>
        simp only [Inbound.step, hpc] at hst
        refine .inr ⟨hspoken, ?_⟩
        rcases stepFrame_cases hst with ⟨x, rest', rfl, he⟩ | ⟨rfl, he⟩ | ⟨msg, err, rfl, -⟩
        · rw [he]
          refine ⟨?_, by simpa using hte⟩
          rw [hw]
        · rw [he]
          simp only
          rw [hw]
          rw [List.append_nil] at hte
          exact ⟨upSide_start rfl rfl rfl rfl, ⟨rfl, [], [], ⟨rfl, ⟨[], by simpa [accept] using hte, rfl⟩,
            rfl⟩, .read none []⟩, by simp⟩
        · cases hfine
      | timeout => cases hfine
      | up e => simp [Inbound.step, hpc] at hst
      | down e => simp [Inbound.step, hpc] at hst
    | tcp up down => exact serving_relay hs hpc hfine h
    | _ => simp only [hpc] at hat
  | _ => exact hpeer (peer_st rfl h)

/-- Somebody can always move. -/
theorem serving_moves (hw : X.Willing [] [] accept) (hs : Serving X s) :
    ∃ l s', X.Own s l ∧ (sys P req).step s l s' := by
  have hat := hs.at_pc
  cases hpc : s.st.pc with
  | connect => exact plain_moves (by rw [hpc]; rfl)
  | accept rest =>
    cases rest with
    | nil => exact ⟨.proxy (.main .ok), ⟨_, s.net⟩, rfl,
        by simp only [sys, LTS.ofFn, Sys.step, Inbound.step, hpc, Net.take]; rfl⟩
    | cons x rest => exact ⟨.proxy (.main .ok), ⟨_, s.net⟩, rfl,
        by simp only [sys, LTS.ofFn, Sys.step, Inbound.step, hpc, Net.take]; rfl⟩
  | tcp up down =>
    simp only [hpc] at hat
    have hpc' : s.st.pc = relay false up down := hpc
    exact relay_moves hs.spoken hw hpc' hat.1 (tcpDown_moves_or hs.spoken hpc' hat.2.1 hat.2.2)
  | _ => simp only [hpc] at hat

/-- Every step leaves less to be done. -/
theorem serving_closer {l : SysLabel} (hs : Serving X s) (ho : X.Own s l)
    (h : (sys P req).step s l s') :
    Completed X [] [] accept s' ∨ Serving X s' ∧ X.left s' < X.left s := by
  rcases serving_own hs ho h with hdone | hgo
  · exact .inl hdone
  · exact .inr ⟨hgo, (hs.spoken.own ho h).2⟩

theorem serving_start (hc : req.connType = .tcp) : Serving X ⟨start req, {}⟩ := by
  refine ⟨X.spoken_start req, ?_⟩
  simp [start, hc]

end Steps

/-- **`proxy_tcp` holds nothing back.** -/
theorem tcp_completes (P : Httparse) (req : ConnectRequest) (X : Talk) (hc : req.connType = .tcp)
    (hw : X.Willing [] [] accept) :
    (sys P req).Inevitable X.Own (Completed X [] [] accept) ⟨start req, {}⟩ := by
  apply LTS.inevitable_of_measure (I := Serving X) X.left
  · intro s hs
    exact .inr (serving_moves hw hs)
  · intro s l s' hs ho h
    exact serving_closer hs ho h
  · exact serving_start hc

/-- A client that asks and a server that answers. -/
def pingPong : Talk where
  up := ascii "ping"
  down := ascii "pong"
  edgeMay te := te ≠ []
  originMay b := b = ascii "ping"

def plainTcp : ConnectRequest := ⟨ascii "/", .tcp, []⟩

theorem pingPong_willing : pingPong.Willing [] [] accept := by
  intro u o te _ _ hpass
  by_cases hu : u = pingPong.up
  · by_cases ho : o = pingPong.down
    · exact .inl ⟨hu, ho⟩
    · exact .inr (.inr ⟨ho, hu⟩)
  · refine .inr (.inl ⟨hu, ?_⟩)
    rcases hpass with ⟨ds, -, rfl⟩ | ⟨hlt, -⟩
    · simp [pingPong, accept, writeConnectResponse]
    · cases hlt

theorem pingPong_completes : (sys refHttparse plainTcp).Inevitable pingPong.Own
    (Completed pingPong [] [] accept) ⟨start plainTcp, {}⟩ :=
  tcp_completes _ _ pingPong rfl pingPong_willing

end Dial
end QuickTunnel.Proxy.Inbound
