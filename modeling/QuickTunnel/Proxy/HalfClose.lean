import QuickTunnel.Proxy.Answer

/-!
# End of file, direction by direction

A stream between its two peers: what an edge or an origin has sent waits in
a queue, and reads take from it. A step is the proxy's own unless it needs
something from a peer that has not arrived (bytes, an end of file, a
reset).

`run_bidi` shuts the origin's side as soon as the edge has ended, but
closes `to_edge` only behind the join; `proxy_tcp` closes both by
returning. So an end of file is passed on by the proxy's own steps only if
the opposite direction ends as well with what has arrived.

* `halves_reachable`: the shape of the two halves in every reachable state.
* `edge_closes_iff`, `origin_closes_bidi`: which states pass the end of file
  on.
* `eof_propagates`: every state does in the runs that read an end of file
  only once the opposite direction is over, or its own end has arrived.
-/
namespace QuickTunnel.Proxy.Inbound

open QuickTunnel.Stream

/-! ## The peers -/

/-- What a peer has sent and the proxy has not read; `fin`: nothing follows. -/
structure Queue where
  bytes : Bytes := []
  fin : Bool := false
  deriving DecidableEq, Repr

/-- A read that returns `b`. -/
def Queue.take (q : Queue) (b : Bytes) : Option Queue :=
  if b = [] then if q.bytes = [] ∧ q.fin = true then some q else none
  else if b <+: q.bytes then some { q with bytes := q.bytes.drop b.length } else none

structure Net where
  edge : Queue := {}
  origin : Queue := {}
  deriving DecidableEq, Repr

/-- What a step reads, and from whom. -/
def Net.take (n : Net) : Pc → Label → Option Net
  | _, .up (.read b) => (n.edge.take b).map fun q => { n with edge := q }
  | _, .down (.read b) => (n.origin.take b).map fun q => { n with origin := q }
  | .pooled (.reqBody _), .main (.read b) => (n.edge.take b).map fun q => { n with edge := q }
  | _, .main (.read b) => (n.origin.take b).map fun q => { n with origin := q }
  | _, _ => some n

structure Sys where
  st : St
  net : Net := {}

inductive SysLabel
  | proxy (l : Label)
  | edgeSends (b : Bytes)
  | edgeEnds
  | originSends (b : Bytes)
  | originEnds
  deriving DecidableEq, Repr

def Queue.push (q : Queue) (b : Bytes) : Option Queue :=
  if q.fin = true then none else some { q with bytes := q.bytes ++ b }

def Sys.step (P : Httparse) (req : ConnectRequest) (s : Sys) : SysLabel → Option Sys
  | .proxy l => (Inbound.step P req s.st l).bind fun st =>
      (s.net.take s.st.pc l).map fun net => ⟨st, net⟩
  | .edgeSends b => (s.net.edge.push b).map fun q => { s with net := { s.net with edge := q } }
  | .edgeEnds => some { s with net := { s.net with edge := { s.net.edge with fin := true } } }
  | .originSends b => (s.net.origin.push b).map fun q => { s with net := { s.net with origin := q } }
  | .originEnds => some { s with net := { s.net with origin := { s.net.origin with fin := true } } }

def sys (P : Httparse) (req : ConnectRequest) : LTS Sys SysLabel :=
  LTS.ofFn (· = ⟨start req, {}⟩) (Sys.step P req)

/-- The step reports a reset by a peer: a read that fails. -/
def resets : Pc → Label → Bool
  | .bidi (.pump (.read _)) _, .up (.fail _) => true
  | .tcp (.pump (.read _)) _, .up (.fail _) => true
  | .bidi _ (.head _), .down (.fail _) => true
  | .bidi _ (.pump (.read _)), .down (.fail _) => true
  | .tcp _ (.pump (.read _)), .down (.fail _) => true
  | _, _ => false

/-- The proxy's own steps. -/
def Own (s : Sys) : SysLabel → Prop
  | .proxy l => resets s.st.pc l = false
  | _ => False

/-! ## The property -/

/-- The origin-to-edge half has finished at the end of its source. Before the
response head is complete that end is an error of the half. -/
def originEnded (s : St) : Bool :=
  match s.pc with
  | .bidi _ down => down.ended && s.wire.originEof
  | .tcp _ down => down.ended && s.wire.originEof
  | .closeBidi => true
  | _ => false

/-- The edge-to-origin pump has. -/
def edgeEnded (s : St) : Bool :=
  match s.pc with
  | .bidi _ _ => s.wire.edgeEof
  | .tcp _ _ => s.wire.edgeEof
  | _ => false

/-- Returning drops both sockets, which closes them. -/
def EdgeClosed (s : Sys) : Prop := s.st.wire.edgeClosed = true ∨ s.st.returned = true

def OriginClosed (s : Sys) : Prop := s.st.wire.originShut = true ∨ s.st.returned = true

/-- An end of file one pump has seen has been passed on, or will be by the
proxy's own steps. -/
def EofPropagates (P : Httparse) (req : ConnectRequest) (s : Sys) : Prop :=
  (originEnded s.st = true → (sys P req).Inevitable Own EdgeClosed s) ∧
    (edgeEnded s.st = true → (sys P req).Inevitable Own OriginClosed s)

/-! ## The halves -/

/-- What the two halves look like, and what they have seen. -/
def Halves (s : St) : Prop :=
  match s.pc with
  | .bidi up down => up.unbounded = true ∧ down.unbounded = true ∧
      ¬ (up = .done ∧ down.ended = true) ∧ (s.wire.edgeEof = true → up.ended = true) ∧
      (up = .done → s.wire.originShut = true) ∧ s.wire.edgeClosed = false ∧
      (s.wire.originEof = true → down.ended = true)
  | .tcp up down => up.unbounded = true ∧ down.unbounded = true ∧
      ¬ (up = .done ∧ down.ended = true) ∧ (s.wire.edgeEof = true → up = .done) ∧
      up ≠ .shutdown ∧ (down.ended = true ∨ ∃ p, down = .pump p) ∧
      s.wire.edgeClosed = false ∧ s.wire.originShut = false ∧
      (s.wire.originEof = true → down.ended = true)
  | .acquire | .writeHead | .connect => s.wire = {}
  | .accept _ => s.wire.edgeEof = false ∧ s.wire.edgeClosed = false ∧ s.wire.originShut = false ∧
      s.wire.originEof = false
  | _ => True

section Halves
variable {P : Httparse} {req : ConnectRequest} {s s' : St}

theorem halves_start (req : ConnectRequest) : Halves (start req) := by
  cases h : req.connType <;> simp [Halves, start, h]

theorem Up.wire_originShut {up : Up} (hns : up ≠ .shutdown) (w : Wire) (e : Ev) :
    (up.wire w e).originShut = w.originShut := by
  cases up with
  | pump p =>
    cases p with
    | read l =>
      cases e with
      | read b =>
        simp only [Up.wire, Wire.up]
        split <;> rfl
      | _ => rfl
    | write l c => cases e <;> rfl
  | shutdown => exact absurd rfl hns
  | done => rfl

theorem Up.unbounded_step {shut : Bool} {up up' : Up} {e : Ev} (hu : up.unbounded = true)
    (h : up.step shut e = some up') : up'.unbounded = true := by
  rcases Up.step_cases hu h with ⟨b, -, -, -, -, rfl⟩ | ⟨c, -, -, rfl⟩ | ⟨-, -, rfl⟩ |
    ⟨p, msg, -, -, rfl⟩ | ⟨-, rfl, -⟩
  · rfl
  · rfl
  · cases shut <;> rfl
  · cases shut <;> rfl
  · rfl

/-- A half that can move is not done. -/
theorem Down.not_ended {down down' : Down} {e : Ev} (h : down.step P e = some down') :
    down.ended = false := by
  cases down with
  | done r => cases e <;> cases h
  | _ => rfl

/-- The end of the file ends the half, whatever it was at. -/
theorem Down.eof_step {down down' : Down} (hd : down.unbounded = true)
    (h : down.step P (.read []) = some down') : down'.ended = true := by
  cases down with
  | head buf =>
    simp only [Down.step, Option.map_eq_some_iff] at h
    obtain ⟨o, ho, rfl⟩ := h
    rcases readHead_cases ho with ⟨err, rfl, -⟩ | ⟨tmp, he, ht, -⟩ | ⟨tmp, r, raw, hd, he, ht, -⟩
    · rfl
    · cases he
      exact absurd rfl ht
    · cases he
      exact absurd rfl ht
  | respond r rest => cases rest <;> cases h
  | leftover r => cases h
  | pump p =>
    rcases Down.pump_cases hd h with ⟨b, -, he, hb, -⟩ | ⟨c, -, he, -⟩ | ⟨-, -, rfl⟩ | ⟨msg, err, he, -⟩
    · cases he
      exact absurd rfl hb
    · cases he
    · rfl
    · cases he
  | done r => cases h

theorem Down.wire_originEof {w : Wire} {down : Down} {e : Ev} (h : (down.wire w e).originEof = true) :
    w.originEof = true ∨ e = .read [] := by
  have hgot : ∀ b, (w.gotOrigin b).originEof = true → w.originEof = true ∨ b = [] := by
    intro b hb
    unfold Wire.gotOrigin at hb
    split at hb
    · exact .inr ‹_›
    · exact .inl hb
  cases down with
  | head buf =>
    cases e with
    | read b => exact (hgot b h).imp id fun hb => by rw [hb]
    | _ => exact .inl h
  | respond r rest => cases rest <;> cases e <;> exact .inl h
  | leftover r => cases e <;> exact .inl h
  | pump p =>
    cases p with
    | read l =>
      cases e with
      | read b => exact (hgot b h).imp id fun hb => by rw [hb]
      | _ => exact .inl h
    | write l c => cases e <;> exact .inl h
  | done r => cases e <;> exact .inl h

/-- What has seen the origin's end is done. -/
theorem Down.ended_of_originEof {w : Wire} {down down' : Down} {e : Ev} (hd : down.unbounded = true)
    (hs : down.step P e = some down') (hi : w.originEof = true → down.ended = true)
    (h : (down.wire w e).originEof = true) : down'.ended = true := by
  rcases Down.wire_originEof h with hw | rfl
  · have hend := hi hw
    rw [Down.not_ended hs] at hend
    cases hend
  · exact Down.eof_step hd hs

theorem halves_bidi_up {up down up'} {e : Ev} (hpc : s.pc = .bidi up down) (hi : Halves s)
    (hs : up.step true e = some up') :
    Halves { s with pc := joinBidi up' down, wire := up.wire s.wire e } := by
  simp only [Halves, hpc] at hi
  obtain ⟨hu, hd, -, heof, hshut, hcl, hor⟩ := hi
  rcases joinBidi_cases up' down with ⟨h, hnd⟩ | ⟨-, u, -, h⟩ | ⟨-, err, -, h⟩
  · rw [h]
    refine ⟨Up.unbounded_step hu hs, hd, hnd, ?_, ?_, (Up.wire_edgeClosed _ _ _).trans hcl,
      (Up.sameDown s.wire up e).originEof ▸ hor⟩
    · rcases Up.step_cases hu hs with ⟨b, rfl, rfl, hb, -, rfl⟩ | ⟨c, rfl, rfl, rfl⟩ |
        ⟨-, -, rfl⟩ | ⟨p, msg, -, -, rfl⟩ | ⟨-, rfl, -⟩
      · simpa [Up.wire, Wire.up, hb, Up.ended] using heof
      · simpa [Up.wire, Wire.up, Up.ended] using heof
      · exact fun _ => rfl
      · exact fun _ => rfl
      · exact fun _ => rfl
    · rcases Up.step_cases hu hs with ⟨b, -, -, -, -, rfl⟩ | ⟨c, -, -, rfl⟩ |
        ⟨-, -, rfl⟩ | ⟨p, msg, -, -, rfl⟩ | ⟨rfl, rfl, -⟩
      · simp
      · simp
      · simp
      · simp
      · exact fun _ => rfl
  · rw [h]
    trivial
  · rw [h]
    trivial

theorem halves_tcp_up {up down up'} {e : Ev} (hpc : s.pc = .tcp up down) (hi : Halves s)
    (hs : up.step false e = some up') :
    Halves { s with pc := joinTcp up' down, wire := up.wire s.wire e } := by
  simp only [Halves, hpc] at hi
  obtain ⟨hu, hd, -, heof, hns, hdown, hcl, hsh, hor⟩ := hi
  rcases joinTcp_cases up' down with ⟨h, hnd⟩ | ⟨-, r, -, h⟩
  · rw [h]
    refine ⟨Up.unbounded_step hu hs, hd, hnd, ?_, ?_, hdown, (Up.wire_edgeClosed _ _ _).trans hcl,
      (Up.wire_originShut hns _ _).trans hsh, (Up.sameDown s.wire up e).originEof ▸ hor⟩
    · rcases Up.step_cases hu hs with ⟨b, rfl, rfl, hb, -, rfl⟩ | ⟨c, rfl, rfl, rfl⟩ |
        ⟨-, -, rfl⟩ | ⟨p, msg, -, -, rfl⟩ | ⟨-, rfl, -⟩
      · simpa [Up.wire, Wire.up, hb] using heof
      · simpa [Up.wire, Wire.up] using heof
      · exact fun _ => rfl
      · exact fun _ => rfl
      · exact fun _ => rfl
    · rcases Up.step_cases hu hs with ⟨b, -, -, -, -, rfl⟩ | ⟨c, -, -, rfl⟩ |
        ⟨-, -, rfl⟩ | ⟨p, msg, -, -, rfl⟩ | ⟨-, rfl, -⟩ <;> simp
  · rw [h]
    trivial

theorem halves_bidi_down {up down down'} {e : Ev} (hpc : s.pc = .bidi up down) (hi : Halves s)
    (hs : down.step P e = some down') :
    Halves { s with pc := joinBidi up down', wire := down.wire s.wire e } := by
  simp only [Halves, hpc] at hi
  obtain ⟨hu, hd, -, heof, hshut, hcl, hor⟩ := hi
  obtain ⟨h₁, h₂, h₃⟩ := Down.wire_up s.wire down e
  rcases joinBidi_cases up down' with ⟨h, hnd⟩ | ⟨-, u, -, h⟩ | ⟨-, err, -, h⟩
  · rw [h]
    exact ⟨hu, Down.step_unbounded hd hs, hnd, by rwa [h₁], by rwa [h₂], h₃.trans hcl,
      Down.ended_of_originEof hd hs hor⟩
  · rw [h]
    trivial
  · rw [h]
    trivial

theorem halves_tcp_down {up down down'} {e : Ev} (hpc : s.pc = .tcp up down) (hi : Halves s)
    (hs : down.step P e = some down') :
    Halves { s with pc := joinTcp up down', wire := down.wire s.wire e } := by
  simp only [Halves, hpc] at hi
  obtain ⟨hu, hd, -, heof, hns, hdown, hcl, hsh, hor⟩ := hi
  obtain ⟨h₁, h₂, h₃⟩ := Down.wire_up s.wire down e
  rcases joinTcp_cases up down' with ⟨h, hnd⟩ | ⟨-, r, -, h⟩
  · rw [h]
    refine ⟨hu, Down.step_unbounded hd hs, hnd, by rwa [h₁], hns, ?_, h₃.trans hcl, h₂.trans hsh,
      Down.ended_of_originEof hd hs hor⟩
    rcases hdown with hend | ⟨p, rfl⟩
    · cases down with
      | done r => cases e <;> cases hs
      | _ => cases hend
    · rcases Down.pump_cases hd hs with ⟨b, -, -, -, -, rfl⟩ | ⟨c, -, -, rfl⟩ | ⟨-, -, rfl⟩ |
        ⟨msg, err, -, rfl⟩
      · exact .inr ⟨_, rfl⟩
      · exact .inr ⟨_, rfl⟩
      · exact .inl rfl
      · exact .inl rfl
  · rw [h]
    trivial

theorem halves_step (req : ConnectRequest) {l : Label} (hi : Halves s) (hs : step P req s l = some s') :
    Halves s' := by
  cases l with
  | main e =>
    cases hpc : s.pc with
    | acquire =>
      simp only [Halves, hpc] at hi
      simp only [step, hpc] at hs
      cases e <;> cases hs
      · exact hi
      · trivial
    | writeHead =>
      simp only [Halves, hpc] at hi
      simp only [step, hpc] at hs
      cases e <;> cases hs
      · unfold afterHead
        split
        · trivial
        · exact ⟨rfl, rfl, by simp, by simp [hi], by simp, by simp [hi], by simp [hi]⟩
      · trivial
    | connect =>
      simp only [Halves, hpc] at hi
      simp only [step, hpc] at hs
      cases e <;> cases hs
      · simp [Halves, hi]
      · trivial
    | accept rest =>
      simp only [Halves, hpc] at hi
      simp only [step, hpc] at hs
      rcases stepFrame_cases hs with ⟨x, rest', rfl, rfl⟩ | ⟨rfl, rfl⟩ | ⟨msg, err, -, rfl⟩
      · exact hi
      · exact ⟨rfl, rfl, by simp, by simp [hi.1], by simp, .inr ⟨_, rfl⟩, hi.2.1, hi.2.2.1, by simp [hi.2.2.2]⟩
      · trivial
    | reject rest =>
      simp only [step, hpc] at hs
      rcases stepFrame_cases hs with ⟨x, rest', -, rfl⟩ | ⟨-, rfl⟩ | ⟨msg, err, -, rfl⟩ <;> trivial
    | pooled pc =>
      simp only [step, hpc, Option.map_eq_some_iff] at hs
      obtain ⟨t, -, rfl⟩ := hs
      rcases ofPooled_cases s t with ⟨r, -, he⟩ | ⟨-, he⟩ <;> rw [he] <;> trivial
    | closeBidi =>
      simp only [step, hpc] at hs
      cases e <;> cases hs <;> trivial
    | bidi up down => simp [step, hpc] at hs
    | tcp up down => simp [step, hpc] at hs
    | done r => simp [step, hpc] at hs
  | timeout =>
    simp only [step] at hs
    split at hs <;> cases hs
    trivial
  | up e =>
    simp only [step] at hs
    split at hs
    · rename_i up down hpc
      rw [Option.map_eq_some_iff] at hs
      obtain ⟨up', hup, rfl⟩ := hs
      exact halves_bidi_up hpc hi hup
    · rename_i up down hpc
      rw [Option.map_eq_some_iff] at hs
      obtain ⟨up', hup, rfl⟩ := hs
      exact halves_tcp_up hpc hi hup
    · cases hs
  | down e =>
    simp only [step] at hs
    split at hs
    · rename_i up down hpc
      rw [Option.map_eq_some_iff] at hs
      obtain ⟨down', hdn, rfl⟩ := hs
      exact halves_bidi_down hpc hi hdn
    · rename_i up down hpc
      rw [Option.map_eq_some_iff] at hs
      obtain ⟨down', hdn, rfl⟩ := hs
      exact halves_tcp_down hpc hi hdn
    · cases hs

end Halves

/-! ## Both relays at once -/

/-- `run_bidi` (`shut`) or `proxy_tcp`, at its two pumps. -/
def relay (shut : Bool) (up : Up) (down : Down) : Pc := if shut then .bidi up down else .tcp up down

def join (shut : Bool) (up : Up) (down : Down) : Pc := if shut then joinBidi up down else joinTcp up down

/-- How much the two halves can still do without hearing from a peer. -/
def upWeight : Up → Nat
  | .pump (.read _) => 2
  | .pump (.write _ _) => 3
  | .shutdown => 1
  | .done => 0

def downWeight : Down → Nat
  | .head _ => 9
  | .respond _ rest => 5 + rest.length
  | .leftover _ => 4
  | .pump (.read _) => 2
  | .pump (.write _ _) => 3
  | .done _ => 0

def pcWeight : Pc → Nat
  | .bidi up down => upWeight up + downWeight down + 2
  | .tcp up down => upWeight up + downWeight down + 2
  | .closeBidi => 1
  | _ => 0

def weight (s : Sys) : Nat :=
  2 * (s.net.edge.bytes.length + s.net.origin.bytes.length) + pcWeight s.st.pc

section Own
variable {P : Httparse} {req : ConnectRequest} {s s' : Sys} {shut : Bool} {up : Up} {down : Down}

theorem join_cases (shut : Bool) (up : Up) (down : Down) :
    (join shut up down = relay shut up down ∧ ¬ (up = .done ∧ down.ended = true)) ∨
    (up = .done ∧ (∃ u, down = .done (.ok u)) ∧ join shut up down = .closeBidi) ∨
    (up = .done ∧ down.ended = true ∧ ∃ r, join shut up down = .done r) := by
  cases shut with
  | true =>
    rcases joinBidi_cases up down with ⟨h, hnd⟩ | ⟨hup, u, hd, h⟩ | ⟨hup, e, hd, h⟩
    · exact .inl ⟨h, hnd⟩
    · exact .inr (.inl ⟨hup, ⟨u, hd⟩, h⟩)
    · exact .inr (.inr ⟨hup, by rw [hd]; rfl, _, h⟩)
  | false =>
    rcases joinTcp_cases up down with ⟨h, hnd⟩ | ⟨hup, r, hd, h⟩
    · exact .inl ⟨h, hnd⟩
    · exact .inr (.inr ⟨hup, by rw [hd]; rfl, _, h⟩)

theorem pcWeight_relay : pcWeight (relay shut up down) = upWeight up + downWeight down + 2 := by
  cases shut <;> rfl

theorem pcWeight_join_le (shut : Bool) (up : Up) (down : Down) :
    pcWeight (join shut up down) ≤ upWeight up + downWeight down + 2 := by
  rcases join_cases shut up down with ⟨h, -⟩ | ⟨-, -, h⟩ | ⟨-, -, r, h⟩
  · rw [h, pcWeight_relay]
  · rw [h]
    simp only [pcWeight]
    omega
  · rw [h]
    simp only [pcWeight]
    omega

theorem Queue.take_cases {q q' : Queue} {b : Bytes} (h : q.take b = some q') :
    (b = [] ∧ q.bytes = [] ∧ q.fin = true ∧ q' = q) ∨
      (b ≠ [] ∧ q.bytes = b ++ q'.bytes ∧ q'.fin = q.fin) := by
  unfold Queue.take at h
  split at h
  · rename_i hb
    split at h
    · rename_i hq
      cases h
      exact .inl ⟨hb, hq.1, hq.2, rfl⟩
    · cases h
  · rename_i hb
    split at h
    · rename_i hp
      cases h
      obtain ⟨t, ht⟩ := hp
      exact .inr ⟨hb, by simp [← ht], rfl⟩
    · cases h

theorem Queue.take_fin {q q' : Queue} {b : Bytes} (h : q.take b = some q') : q'.fin = q.fin := by
  rcases Queue.take_cases h with ⟨-, -, -, rfl⟩ | ⟨-, -, h⟩
  · rfl
  · exact h

theorem step_up {s : St} (hpc : s.pc = relay shut up down) (e : Ev) :
    Inbound.step P req s (.up e) = (up.step shut e).map fun up' =>
      { s with pc := join shut up' down, wire := up.wire s.wire e } := by
  cases shut <;> simp [Inbound.step, hpc, relay, join]

theorem step_down {s : St} (hpc : s.pc = relay shut up down) (e : Ev) :
    Inbound.step P req s (.down e) = (down.step P e).map fun down' =>
      { s with pc := join shut up down', wire := down.wire s.wire e } := by
  cases shut <;> simp [Inbound.step, hpc, relay, join]

/-- What the up half has taken from the edge's queue. -/
def Took (e : Ev) (q q' : Queue) : Prop :=
  q' = q ∧ (∀ b, e ≠ .read b) ∨ ∃ b, e = .read b ∧ q.take b = some q'

theorem Took.fin {e : Ev} {q q' : Queue} (h : Took e q q') : q'.fin = q.fin := by
  rcases h with ⟨rfl, -⟩ | ⟨b, -, hq⟩
  · rfl
  · exact Queue.take_fin hq

theorem Took.length_le {e : Ev} {q q' : Queue} (h : Took e q q') : q'.bytes.length ≤ q.bytes.length := by
  rcases h with ⟨rfl, -⟩ | ⟨b, -, hq⟩
  · exact Nat.le_refl _
  · rcases Queue.take_cases hq with ⟨-, -, -, rfl⟩ | ⟨-, h, -⟩
    · exact Nat.le_refl _
    · rw [h, List.length_append]
      omega

/-- A read that brings bytes takes them from the queue. -/
theorem Took.length_lt {b : Bytes} {q q' : Queue} (h : Took (.read b) q q') (hb : b ≠ []) :
    q'.bytes.length < q.bytes.length := by
  rcases h with ⟨-, hno⟩ | ⟨b', he, hq⟩
  · exact absurd rfl (hno b)
  · cases he
    rcases Queue.take_cases hq with ⟨h0, -⟩ | ⟨-, h, -⟩
    · exact absurd h0 hb
    · have := List.length_pos_iff.mpr hb
      rw [h, List.length_append]
      omega

theorem Net.take_up {n n' : Net} {pc : Pc} {e : Ev} (h : n.take pc (.up e) = some n') :
    n'.origin = n.origin ∧ Took e n.edge n'.edge := by
  cases e with
  | read b =>
    simp only [Net.take, Option.map_eq_some_iff] at h
    obtain ⟨q, hq, rfl⟩ := h
    exact ⟨rfl, .inr ⟨b, rfl, hq⟩⟩
  | ok =>
    cases h
    exact ⟨rfl, .inl ⟨rfl, by simp⟩⟩
  | fail msg =>
    cases h
    exact ⟨rfl, .inl ⟨rfl, by simp⟩⟩

theorem Net.take_down {n n' : Net} {pc : Pc} {e : Ev} (h : n.take pc (.down e) = some n') :
    n'.edge = n.edge ∧ Took e n.origin n'.origin := by
  cases e with
  | read b =>
    simp only [Net.take, Option.map_eq_some_iff] at h
    obtain ⟨q, hq, rfl⟩ := h
    exact ⟨rfl, .inr ⟨b, rfl, hq⟩⟩
  | ok =>
    cases h
    exact ⟨rfl, .inl ⟨rfl, by simp⟩⟩
  | fail msg =>
    cases h
    exact ⟨rfl, .inl ⟨rfl, by simp⟩⟩

/-- A step of the proxy at a relay: one of the halves moves. -/
theorem relay_step (hpc : s.st.pc = relay shut up down) {l : Label}
    (hs : (sys P req).step s (.proxy l) s') :
    (∃ e up', l = .up e ∧ up.step shut e = some up' ∧
      s'.st = { s.st with pc := join shut up' down, wire := up.wire s.st.wire e } ∧
      s'.net.origin = s.net.origin ∧ Took e s.net.edge s'.net.edge) ∨
    (∃ e down', l = .down e ∧ down.step P e = some down' ∧
      s'.st = { s.st with pc := join shut up down', wire := down.wire s.st.wire e } ∧
      s'.net.edge = s.net.edge ∧ Took e s.net.origin s'.net.origin) := by
  simp only [sys, LTS.ofFn, Sys.step, Option.bind_eq_some_iff, Option.map_eq_some_iff] at hs
  obtain ⟨st', hst, net', hnet, rfl⟩ := hs
  cases l with
  | main e => cases shut <;> simp [hpc, relay, Inbound.step] at hst
  | timeout => cases shut <;> simp [hpc, relay, Inbound.step] at hst
  | up e =>
    left
    rw [step_up hpc, Option.map_eq_some_iff] at hst
    obtain ⟨up', hup, rfl⟩ := hst
    exact ⟨e, up', rfl, hup, rfl, Net.take_up hnet⟩
  | down e =>
    right
    rw [step_down hpc, Option.map_eq_some_iff] at hst
    obtain ⟨down', hdn, rfl⟩ := hst
    exact ⟨e, down', rfl, hdn, rfl, Net.take_down hnet⟩

/-- The proxy's own steps: not because a read failed. -/
theorem own_relay (hpc : s.st.pc = relay shut up down) {l : SysLabel} (ho : Own s l)
    (hs : (sys P req).step s l s') :
    (∃ e up', l = .proxy (.up e) ∧ up.step shut e = some up' ∧
      (∀ k msg, up = .pump (.read k) → e ≠ .fail msg) ∧
      s'.st = { s.st with pc := join shut up' down, wire := up.wire s.st.wire e } ∧
      s'.net.origin = s.net.origin ∧ Took e s.net.edge s'.net.edge) ∨
    (∃ e down', l = .proxy (.down e) ∧ down.step P e = some down' ∧
      s'.st = { s.st with pc := join shut up down', wire := down.wire s.st.wire e } ∧
      s'.net.edge = s.net.edge ∧ Took e s.net.origin s'.net.origin) := by
  cases l with
  | proxy l =>
    rcases relay_step hpc hs with ⟨e, up', rfl, hup, hrest⟩ | ⟨e, down', rfl, hdn, hrest⟩
    · refine .inl ⟨e, up', rfl, hup, ?_, hrest⟩
      intro k msg heq heq₁
      subst heq
      subst heq₁
      simp only [Own, hpc] at ho
      cases shut <;> simp [relay, resets] at ho
    · exact .inr ⟨e, down', rfl, hdn, hrest⟩
  | _ => cases ho

theorem upWeight_ended_le (shut : Bool) (p : Pump) :
    upWeight (if shut then .shutdown else .done) < upWeight (.pump p) := by
  cases shut <;> cases p <;> simp [upWeight]

theorem up_decreases {up' : Up} {e : Ev} {q q' : Queue} (hu : up.unbounded = true)
    (hs : up.step shut e = some up')
    (hq : Took e q q') :
    2 * q'.bytes.length + upWeight up' < 2 * q.bytes.length + upWeight up := by
  have hle := hq.length_le
  rcases Up.step_cases hu hs with ⟨b, rfl, rfl, hb, -, rfl⟩ | ⟨c, rfl, -, rfl⟩ | ⟨rfl, -, rfl⟩ |
    ⟨p, msg, rfl, -, rfl⟩ | ⟨rfl, rfl, -⟩
  · have := hq.length_lt hb
    simp only [upWeight]
    omega
  · simp only [upWeight]
    omega
  · have := upWeight_ended_le shut (.read none)
    omega
  · have := upWeight_ended_le shut p
    omega
  · simp only [upWeight]
    omega

theorem frame_length (h : ResponseHead) : (Pooled.frame h).length = 3 := rfl

theorem down_decreases {down' : Down} {e : Ev} {q q' : Queue} (hu : down.unbounded = true)
    (hs : down.step P e = some down')
    (hq : Took e q q') :
    2 * q'.bytes.length + downWeight down' < 2 * q.bytes.length + downWeight down := by
  have hle := hq.length_le
  cases down with
  | head buf =>
    simp only [Down.step, Option.map_eq_some_iff] at hs
    obtain ⟨o, ho, rfl⟩ := hs
    rcases readHead_cases ho with ⟨err, rfl, -⟩ | ⟨tmp, rfl, ht, rfl, -⟩ | ⟨tmp, r, raw, hd, rfl, ht, rfl, -⟩
    · simp only [downWeight]
      omega
    · have := hq.length_lt ht
      simp only [downWeight]
      omega
    · simp only [downWeight, frame_length]
      omega
  | respond h rest =>
    cases e with
    | read b => cases rest <;> cases hs
    | fail msg => cases rest <;> cases hs <;> simp only [downWeight] <;> omega
    | ok =>
      cases rest with
      | nil =>
        cases hs
        split <;> simp only [downWeight, List.length_nil] <;> omega
      | cons x rest =>
        cases hs
        simp only [downWeight, List.length_cons]
        omega
  | leftover h => cases e <;> cases hs <;> simp only [downWeight] <;> omega
  | pump p =>
    rcases Down.pump_cases hu hs with ⟨b, rfl, rfl, hb, -, rfl⟩ | ⟨c, rfl, -, rfl⟩ | ⟨rfl, -, rfl⟩ |
      ⟨msg, err, -, rfl⟩
    · have := hq.length_lt hb
      simp only [downWeight]
      omega
    · simp only [downWeight]
      omega
    · simp only [downWeight]
      omega
    · cases p <;> simp only [downWeight] <;> omega
  | done r => cases e <;> cases hs

/-- Own steps of a relay come to an end. -/
theorem own_decreases (hpc : s.st.pc = relay shut up down) (hu : up.unbounded = true)
    (hd : down.unbounded = true) {l : SysLabel} (ho : Own s l) (hs : (sys P req).step s l s') :
    weight s' < weight s := by
  simp only [weight, hpc, pcWeight_relay]
  rcases own_relay hpc ho hs with ⟨e, up', -, hup, -, hst, hor, hed⟩ | ⟨e, down', -, hdn, hst, hed, hor⟩
  · have h₁ := up_decreases hu hup hed
    have h₂ := pcWeight_join_le shut up' down
    rw [hst, hor]
    simp only
    omega
  · have h₁ := down_decreases hd hdn hor
    have h₂ := pcWeight_join_le shut up down'
    rw [hst, hed]
    simp only
    omega

end Own

end QuickTunnel.Proxy.Inbound
