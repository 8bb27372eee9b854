import QuickTunnel.Proxy.Pooled

/-!
# One inbound stream (`handle_inbound_stream`)

The machine of a stream whose `ConnectRequest` has been read: `proxy_http`
(acquire a socket, write the request head, then `run_pooled` or
`run_bidi`) or `proxy_tcp`. `run_bidi` and `proxy_tcp` run two pumps under
a join, so their states are pairs of an `Up` half (edge to origin) and a
`Down` half (origin to edge); either may move.
-/
namespace QuickTunnel.Proxy

open QuickTunnel.Stream

/-- The edge-to-origin half of a join; only `run_bidi` shuts the write half
down behind the pump.
mirrors src/proxy.rs:333-337,506 -/
inductive Up
  | pump (p : Pump)
  | shutdown
  | done
  deriving DecidableEq, Repr

/-- The origin-to-edge half of a join.
mirrors src/proxy.rs:338-361,507 -/
inductive Down
  | head (buf : Bytes)
  | respond (h : ResponseHead) (rest : List EdgeWrite)
  | leftover (h : ResponseHead)
  | pump (p : Pump)
  | done (r : Except TunnelError Unit)

/-- The pump's result is dropped, and so is that of `shutdown`. -/
def Up.step (shut : Bool) : Up → Ev → Option Up
  | .pump p, e => (pumpFuturesToTokioCounted p e).map fun o => match o with
    | .next p' => .pump p'
    | _ => if shut then .shutdown else .done
  | .shutdown, .ok => some .done
  | .shutdown, .fail _ => some .done
  | _, _ => none

/-- A `shutdown` that fails finds the connection gone already. -/
def Up.wire (w : Wire) : Up → Ev → Wire
  | .pump p, e => w.up p e
  | .shutdown, _ => { w with originShut := true }
  | .done, _ => w

def Down.step (P : Httparse) : Down → Ev → Option Down
  | .head buf, e => (readHttpResponseHead P buf e).map fun o => match o with
    | .more buf' => .head buf'
    | .returned h => .respond h (Pooled.frame h)
    | .failed err => .done (.error err)
  | .respond h (_ :: rest), .ok => some (.respond h rest)
  | .respond h [], .ok => some (if h.leftover ≠ [] then .leftover h else .pump (.read none))
  | .respond _ rest, .fail msg => some (.done (.error (writeConnectResponseError msg rest.head?)))
  | .leftover _, .ok => some (.pump (.read none))
  | .leftover _, .fail msg => some (.done (.error (.internal ("write leftover body: " ++ msg))))
  | .pump p, e => (pumpTokioToFuturesCounted p e).map fun o => match o with
    | .next p' => .pump p'
    | .returned => .done (.ok ())
    | .failed err => .done (.error err)
  | _, _ => none

def Down.wire (w : Wire) : Down → Ev → Wire
  | .head _, .read b => w.gotOrigin b
  | .respond _ (x :: _), .ok => { w with toEdge := w.toEdge ++ [x] }
  | .leftover h, .ok => w.sentBody h.leftover
  | .pump p, e => w.down p e
  | _, _ => w

def Up.ended : Up → Bool
  | .pump _ => false
  | _ => true

def Down.ended : Down → Bool
  | .done _ => true
  | _ => false

/-- A relay's pump has no length to reach. -/
def Pump.unbounded : Pump → Bool
  | .read l => l.isNone
  | .write l _ => l.isNone

theorem Pooled.Pumping.unbounded {p : Pump} {body out : Bytes} (h : Pooled.Pumping p none body out) :
    p.unbounded = true := by
  cases p with
  | read l =>
    rw [h.of_read.1]
    rfl
  | write l c =>
    rw [h.of_write.1]
    rfl

def Up.unbounded : Up → Bool
  | .pump p => p.unbounded
  | _ => true

def Down.unbounded : Down → Bool
  | .pump p => p.unbounded
  | _ => true

/-- Everything a step of an unbounded pump can do. -/
theorem pumpStep_unbounded {eofText : Nat → String} {p : Pump} {e : Ev} {o : PumpNext}
    (hu : p.unbounded = true) (h : pumpStep eofText p e = some o) :
    (∃ b, p = .read none ∧ e = .read b ∧ b ≠ [] ∧ b.length ≤ PUMP_BUF ∧ o = .next (.write none b)) ∨
    (∃ c, p = .write none c ∧ e = .ok ∧ o = .next (.read none)) ∨
    (p = .read none ∧ e = .read [] ∧ o = .returned) ∨
    (∃ msg err, e = .fail msg ∧ o = .failed err) := by
  rcases pumpStep_cases h with ⟨limit, b, rfl, rfl, hb, hle, rfl⟩ | ⟨rfl, rfl, rfl⟩ |
    ⟨n, rfl, -, -⟩ | ⟨limit, chunk, rfl, rfl, rfl⟩ | ⟨msg, err, rfl, rfl⟩
  · simp only [Pump.unbounded, Option.isNone_iff_eq_none] at hu
    subst hu
    exact .inl ⟨b, rfl, rfl, hb, hle, rfl⟩
  · exact .inr (.inr (.inl ⟨rfl, rfl, rfl⟩))
  · cases hu
  · simp only [Pump.unbounded, Option.isNone_iff_eq_none] at hu
    subst hu
    exact .inr (.inl ⟨chunk, rfl, rfl, rfl⟩)
  · exact .inr (.inr (.inr ⟨msg, err, rfl, rfl⟩))

/-- Everything a step of the edge-to-origin half can do. -/
theorem Up.step_cases {shut : Bool} {up up' : Up} {e : Ev} (hu : up.unbounded = true)
    (h : up.step shut e = some up') :
    (∃ b, up = .pump (.read none) ∧ e = .read b ∧ b ≠ [] ∧ b.length ≤ PUMP_BUF ∧
      up' = .pump (.write none b)) ∨
    (∃ c, up = .pump (.write none c) ∧ e = .ok ∧ up' = .pump (.read none)) ∨
    (up = .pump (.read none) ∧ e = .read [] ∧ up' = if shut then .shutdown else .done) ∨
    (∃ p msg, up = .pump p ∧ e = .fail msg ∧ up' = if shut then .shutdown else .done) ∨
    (up = .shutdown ∧ up' = .done ∧ ∀ b, e ≠ .read b) := by
  cases up with
  | pump p =>
    simp only [Up.step, Option.map_eq_some_iff] at h
    obtain ⟨o, ho, rfl⟩ := h
    rcases pumpStep_unbounded hu ho with ⟨b, rfl, rfl, hb, hle, rfl⟩ | ⟨c, rfl, rfl, rfl⟩ |
      ⟨rfl, rfl, rfl⟩ | ⟨msg, err, rfl, rfl⟩
    · exact .inl ⟨b, rfl, rfl, hb, hle, rfl⟩
    · exact .inr (.inl ⟨c, rfl, rfl, rfl⟩)
    · exact .inr (.inr (.inl ⟨rfl, rfl, rfl⟩))
    · exact .inr (.inr (.inr (.inl ⟨p, msg, rfl, rfl, rfl⟩)))
  | shutdown => cases e <;> cases h <;> exact .inr (.inr (.inr (.inr ⟨rfl, rfl, nofun⟩)))
  | done => cases e <;> cases h

/-- The same for the other half behind its frame. -/
theorem Down.pump_cases {P : Httparse} {p : Pump} {down' : Down} {e : Ev}
    (hu : p.unbounded = true) (h : (Down.pump p).step P e = some down') :
    (∃ b, p = .read none ∧ e = .read b ∧ b ≠ [] ∧ b.length ≤ PUMP_BUF ∧ down' = .pump (.write none b)) ∨
    (∃ c, p = .write none c ∧ e = .ok ∧ down' = .pump (.read none)) ∨
    (p = .read none ∧ e = .read [] ∧ down' = .done (.ok ())) ∨
    (∃ msg err, e = .fail msg ∧ down' = .done (.error err)) := by
  simp only [Down.step, Option.map_eq_some_iff] at h
  obtain ⟨o, ho, rfl⟩ := h
  rcases pumpStep_unbounded hu ho with ⟨b, rfl, rfl, hb, hle, rfl⟩ | ⟨c, rfl, rfl, rfl⟩ |
    ⟨rfl, rfl, rfl⟩ | ⟨msg, err, rfl, rfl⟩
  · exact .inl ⟨b, rfl, rfl, hb, hle, rfl⟩
  · exact .inr (.inl ⟨c, rfl, rfl, rfl⟩)
  · exact .inr (.inr (.inl ⟨rfl, rfl, rfl⟩))
  · exact .inr (.inr (.inr ⟨msg, err, rfl, rfl⟩))

theorem Down.step_unbounded {P : Httparse} {down down' : Down} {e : Ev}
    (hu : down.unbounded = true) (h : down.step P e = some down') : down'.unbounded = true := by
  cases down with
  | head buf =>
    simp only [Down.step, Option.map_eq_some_iff] at h
    obtain ⟨o, -, rfl⟩ := h
    cases o <;> rfl
  | respond r rest =>
    cases e <;> cases rest <;> cases h
    · split <;> rfl
    · rfl
    · rfl
    · rfl
  | leftover r => cases e <;> cases h <;> rfl
  | pump p =>
    rcases Down.pump_cases hu h with ⟨b, -, -, -, -, rfl⟩ | ⟨c, -, -, rfl⟩ | ⟨-, -, rfl⟩ |
      ⟨msg, err, -, rfl⟩ <;> rfl
  | done r => cases e <;> cases h

/-- The origin-to-edge half does not touch the other direction. -/
theorem Down.wire_up (w : Wire) (down : Down) (e : Ev) : (down.wire w e).edgeEof = w.edgeEof ∧
    (down.wire w e).originShut = w.originShut ∧ (down.wire w e).edgeClosed = w.edgeClosed := by
  have hgot : ∀ b, (w.gotOrigin b).edgeEof = w.edgeEof ∧ (w.gotOrigin b).originShut = w.originShut ∧
      (w.gotOrigin b).edgeClosed = w.edgeClosed := by
    intro b
    simp only [Wire.gotOrigin]
    split <;> exact ⟨rfl, rfl, rfl⟩
  cases down with
  | head buf =>
    cases e with
    | read b => exact hgot b
    | _ => exact ⟨rfl, rfl, rfl⟩
  | respond h rest => cases rest <;> cases e <;> exact ⟨rfl, rfl, rfl⟩
  | leftover h => cases e <;> exact ⟨rfl, rfl, rfl⟩
  | pump p =>
    cases p with
    | read l =>
      cases e with
      | read b => exact hgot b
      | _ => exact ⟨rfl, rfl, rfl⟩
    | write l c => cases e <;> exact ⟨rfl, rfl, rfl⟩
  | done r => cases e <;> exact ⟨rfl, rfl, rfl⟩

theorem Up.wire_edgeClosed (w : Wire) (up : Up) (e : Ev) :
    (up.wire w e).edgeClosed = w.edgeClosed := by
  cases up with
  | pump p =>
    cases p with
    | read l =>
      cases e with
      | read b =>
        simp only [Up.wire, Wire.up]
        split <;> rfl
      | _ => rfl
    | write l c => cases e <;> rfl
  | _ => rfl

namespace Inbound

/-- The awaits of one stream. -/
inductive Pc
  | acquire
  | reject (rest : List EdgeWrite)
  | writeHead
  | pooled (pc : Pooled.Pc)
  | bidi (up : Up) (down : Down)
  | closeBidi
  | connect
  | accept (rest : List EdgeWrite)
  | tcp (up : Up) (down : Down)
  | done (r : Except TunnelError Unit)

/-- `connected` is a ghost: whether a socket to the origin was obtained. -/
structure St where
  pc : Pc
  wire : Wire := {}
  connected : Option Bool := none
  released : Bool := false

/-- Who moves: the stream's only future, the timer around `acquire`, or one
half of the join. -/
inductive Label
  | main (e : Ev)
  | timeout
  | up (e : Ev)
  | down (e : Ev)
  deriving DecidableEq, Repr

/-- mirrors src/proxy.rs:64-71 -/
def start (req : ConnectRequest) : St where
  pc := match req.connType with
    | .http | .websocket => .acquire
    | .tcp => .connect

/-- mirrors src/proxy.rs:431-439 -/
def writeErrorResponse (status : Nat) (msg : String) : List EdgeWrite :=
  writeConnectResponse msg [(HTTP_STATUS_KEY, decimal status)]

/-- After the request head.
mirrors src/proxy.rs:215-224 -/
def afterHead (req : ConnectRequest) : Pc :=
  if (analyseRequest req).requestPoolable then .pooled (Pooled.start req).pc
  else .bidi (.pump (.read none)) (.head [])

/-- `tokio::join!` and what follows in `run_bidi`.
mirrors src/proxy.rs:363-364 -/
def joinBidi : Up → Down → Pc
  | .done, .done (.ok _) => .closeBidi
  | .done, .done (.error e) => .done (.error e)
  | up, down => .bidi up down

/-- `join` and what follows in `proxy_tcp`.
mirrors src/proxy.rs:508-509 -/
def joinTcp : Up → Down → Pc
  | .done, .done _ => .done (.ok ())
  | up, down => .tcp up down

theorem joinBidi_cases (up : Up) (down : Down) :
    (joinBidi up down = .bidi up down ∧ ¬ (up = .done ∧ down.ended = true)) ∨
    (up = .done ∧ ∃ u, down = .done (.ok u) ∧ joinBidi up down = .closeBidi) ∨
    (up = .done ∧ ∃ e, down = .done (.error e) ∧ joinBidi up down = .done (.error e)) := by
  cases up with
  | done =>
    cases down with
    | done r =>
      cases r with
      | ok u => exact .inr (.inl ⟨rfl, u, rfl, rfl⟩)
      | error e => exact .inr (.inr ⟨rfl, e, rfl, rfl⟩)
    | _ => exact .inl ⟨rfl, by simp [Down.ended]⟩
  | _ => exact .inl ⟨rfl, by simp⟩

theorem joinTcp_cases (up : Up) (down : Down) :
    (joinTcp up down = .tcp up down ∧ ¬ (up = .done ∧ down.ended = true)) ∨
    (up = .done ∧ ∃ r, down = .done r ∧ joinTcp up down = .done (.ok ())) := by
  cases up with
  | done =>
    cases down with
    | done r => exact .inr ⟨rfl, r, rfl, rfl⟩
    | _ => exact .inl ⟨rfl, by simp [Down.ended]⟩
  | _ => exact .inl ⟨rfl, by simp⟩

/-- `write_connect_response` at one of its writes; `after` is where a
completed frame leads. -/
def stepFrame (s : St) (cont : List EdgeWrite → Pc) (after : Pc) : List EdgeWrite → Ev → Option St
  | x :: rest, .ok => some { s with pc := cont rest, wire := { s.wire with toEdge := s.wire.toEdge ++ [x] } }
  | [], .ok => some { s with pc := after }
  | rest, .fail msg => some { s with pc := .done (.error (writeConnectResponseError msg rest.head?)) }
  | _, .read _ => none

/-- The state of the stream when its pooled part is `t`. -/
def ofPooled (s : St) (t : Pooled.St) : St where
  pc := match t.pc with
    | .done r => .done r
    | pc => .pooled pc
  wire := t.wire
  connected := s.connected
  released := t.released

theorem ofPooled_cases (s : St) (t : Pooled.St) :
    (∃ r, t.pc = .done r ∧ ofPooled s t = ⟨.done r, t.wire, s.connected, t.released⟩) ∨
      (∀ r, t.pc ≠ .done r) ∧ ofPooled s t = ⟨.pooled t.pc, t.wire, s.connected, t.released⟩ := by
  obtain ⟨pc, w, rel⟩ := t
  cases pc with
  | done r => exact .inl ⟨r, rfl, rfl⟩
  | _ => exact .inr ⟨nofun, rfl⟩

/-- mirrors src/proxy.rs:53-72,191-224,316-370,490-510 -/
def step (P : Httparse) (req : ConnectRequest) (s : St) : Label → Option St
  | .main e =>
    match s.pc with
    | .acquire =>
      match e with
      | .ok => some { s with pc := .writeHead, connected := some true }
      | .fail msg => some { s with
          pc := .reject (writeErrorResponse 502 ("local connect: " ++ msg)), connected := some false }
      | .read _ => none
    | .reject rest => stepFrame s .reject (.done (.ok ())) rest e
    | .writeHead =>
      match e with
      | .ok => some { s with
          pc := afterHead req
          wire := { s.wire with
            toOrigin := s.wire.toOrigin ++ buildRequestHead req (analyseRequest req).requestPoolable } }
      | .fail msg => some { s with pc := .done (.error (.internal ("tcp write head: " ++ msg))) }
      | .read _ => none
    | .pooled pc => (Pooled.step P ⟨pc, s.wire, s.released⟩ e).map (ofPooled s)
    | .closeBidi =>
      match e with
      | .ok => some { s with pc := .done (.ok ()), wire := { s.wire with edgeClosed := true } }
      | .fail msg => some { s with pc := .done (.error (.internal ("close to_edge: " ++ msg))) }
      | .read _ => none
    | .connect =>
      match e with
      | .ok => some { s with pc := .accept (writeConnectResponse "" []), connected := some true }
      | .fail msg => some { s with
          pc := .done (.error (.internal ("tcp connect: " ++ msg))), connected := some false }
      | .read _ => none
    | .accept rest => stepFrame s .accept (.tcp (.pump (.read none)) (.pump (.read none))) rest e
    | .bidi _ _ => none
    | .tcp _ _ => none
    | .done _ => none
  | .timeout =>
    match s.pc with
    | .acquire => some { s with
        pc := .reject (writeErrorResponse 504 "local connect timed out"), connected := some false }
    | _ => none
  | .up e =>
    match s.pc with
    | .bidi up down =>
      (up.step true e).map fun up' => { s with pc := joinBidi up' down, wire := up.wire s.wire e }
    | .tcp up down =>
      (up.step false e).map fun up' => { s with pc := joinTcp up' down, wire := up.wire s.wire e }
    | _ => none
  | .down e =>
    match s.pc with
    | .bidi up down =>
      (down.step P e).map fun down' => { s with pc := joinBidi up down', wire := down.wire s.wire e }
    | .tcp up down =>
      (down.step P e).map fun down' => { s with pc := joinTcp up down', wire := down.wire s.wire e }
    | _ => none

def inbound (P : Httparse) (req : ConnectRequest) : LTS St Label := LTS.ofFn (· = start req) (step P req)

/-! ## Each half touches its own direction -/

/-- Nothing has moved from the edge to the origin. -/
structure SameUp (w w' : Wire) : Prop where
  fromEdge : w'.fromEdge = w.fromEdge
  edgeEof : w'.edgeEof = w.edgeEof
  toOrigin : w'.toOrigin = w.toOrigin
  bytesIn : w'.bytesIn = w.bytesIn

/-- Nothing has moved from the origin to the edge. -/
structure SameDown (w w' : Wire) : Prop where
  fromOrigin : w'.fromOrigin = w.fromOrigin
  originEof : w'.originEof = w.originEof
  toEdge : w'.toEdge = w.toEdge
  bytesOut : w'.bytesOut = w.bytesOut

theorem Up.sameDown (w : Wire) (up : Up) (e : Ev) : SameDown w (up.wire w e) := by
  cases up with
  | pump p =>
    cases p with
    | write l c => cases e <;> exact ⟨rfl, rfl, rfl, rfl⟩
    | read l =>
      cases e with
      | read b =>
        simp only [Up.wire, Wire.up]
        split <;> exact ⟨rfl, rfl, rfl, rfl⟩
      | ok => exact ⟨rfl, rfl, rfl, rfl⟩
      | fail msg => exact ⟨rfl, rfl, rfl, rfl⟩
  | shutdown => exact ⟨rfl, rfl, rfl, rfl⟩
  | done => exact ⟨rfl, rfl, rfl, rfl⟩

theorem gotOrigin_sameUp (w : Wire) (b : Bytes) : SameUp w (w.gotOrigin b) := by
  unfold Wire.gotOrigin
  split <;> exact ⟨rfl, rfl, rfl, rfl⟩

theorem gotOrigin_fromOrigin (w : Wire) (b : Bytes) : w.fromOrigin <+: (w.gotOrigin b).fromOrigin := by
  unfold Wire.gotOrigin
  split
  · exact List.prefix_rfl
  · exact List.prefix_append _ _

theorem Down.sameUp (w : Wire) (down : Down) (e : Ev) : SameUp w (down.wire w e) := by
  cases down with
  | head buf =>
    cases e with
    | read b => exact gotOrigin_sameUp w b
    | ok => exact ⟨rfl, rfl, rfl, rfl⟩
    | fail msg => exact ⟨rfl, rfl, rfl, rfl⟩
  | respond h rest => cases rest <;> cases e <;> exact ⟨rfl, rfl, rfl, rfl⟩
  | leftover h => cases e <;> exact ⟨rfl, rfl, rfl, rfl⟩
  | pump p =>
    cases p with
    | read l =>
      cases e with
      | read b => exact gotOrigin_sameUp w b
      | ok => exact ⟨rfl, rfl, rfl, rfl⟩
      | fail msg => exact ⟨rfl, rfl, rfl, rfl⟩
    | write l c => cases e <;> exact ⟨rfl, rfl, rfl, rfl⟩
  | done r => cases e <;> exact ⟨rfl, rfl, rfl, rfl⟩

end Inbound
end QuickTunnel.Proxy
