import QuickTunnel.Proxy.HalfClose

/-!
# Which end of file is passed on

The results about `EofPropagates`. At a relay whose origin-to-edge half is
done, the edge's stream is closed by the proxy's own steps iff the other
half is done too or can be with what has arrived (`edge_closes_iff`). In the
other direction `run_bidi` always shuts the origin's side
(`origin_closes_bidi`), `proxy_tcp` waits in the same way.

* `eof_propagates`: the runs in which every end of file is passed on.
* `open_edge_stuck`: an origin that ends first, while the edge stays open.
-/
namespace QuickTunnel.Proxy.Inbound

open QuickTunnel.Stream

section Moves
variable {P : Httparse} {req : ConnectRequest} {s s' : Sys} {shut : Bool} {up : Up} {down : Down}

theorem halves_sys_step {l : SysLabel} (hi : Halves s.st) (hs : (sys P req).step s l s') :
    Halves s'.st := by
  cases l with
  | proxy l =>
    simp only [sys, LTS.ofFn, Sys.step, Option.bind_eq_some_iff, Option.map_eq_some_iff] at hs
    obtain ⟨st', hst, net', -, rfl⟩ := hs
    exact halves_step req hi hst
  | edgeSends b =>
    simp only [sys, LTS.ofFn, Sys.step, Option.map_eq_some_iff] at hs
    obtain ⟨q, -, rfl⟩ := hs
    exact hi
  | edgeEnds => cases hs; exact hi
  | originSends b =>
    simp only [sys, LTS.ofFn, Sys.step, Option.map_eq_some_iff] at hs
    obtain ⟨q, -, rfl⟩ := hs
    exact hi
  | originEnds => cases hs; exact hi

theorem halves_reachable (h : (sys P req).Reachable s) : Halves s.st := by
  refine LTS.Inductive.reachable (M := sys P req) (I := fun s => Halves s.st) ⟨?_, ?_⟩ h
  · intro s heq
    subst heq
    exact halves_start req
  · intro s l s' hi hs
    exact halves_sys_step hi hs

/-- What `Halves` says of either relay. -/
theorem Halves.relay {s : St} (h : Halves s) (hpc : s.pc = relay shut up down) :
    up.unbounded = true ∧ down.unbounded = true ∧ ¬ (up = .done ∧ down.ended = true) ∧
      s.wire.edgeClosed = false := by
  cases shut <;> simp only [Halves, hpc, Inbound.relay, Bool.false_eq_true, if_true, if_false] at h
  · exact ⟨h.1, h.2.1, h.2.2.1, h.2.2.2.2.2.2.1⟩
  · exact ⟨h.1, h.2.1, h.2.2.1, h.2.2.2.2.2.1⟩

/-- At either relay the origin's end is seen only by a half that is done. -/
theorem Halves.originEof {s : St} (h : Halves s) (hpc : s.pc = Inbound.relay shut up down)
    (heof : s.wire.originEof = true) : down.ended = true := by
  cases shut <;> simp only [Halves, hpc, Inbound.relay, Bool.false_eq_true, if_true, if_false] at h
  · exact h.2.2.2.2.2.2.2.2 heof
  · exact h.2.2.2.2.2.2 heof

theorem Halves.originEof_false {s : St} (h : Halves s) (hpc : s.pc = Inbound.relay shut up down)
    (hd : down.ended = false) : s.wire.originEof = false := by
  rw [← Bool.not_eq_true]
  intro heof
  rw [h.originEof hpc heof] at hd
  cases hd

theorem not_returned (hpc : s.st.pc = relay shut up down) : s.st.returned = false := by
  cases shut <;> simp [St.returned, hpc, relay]

theorem own_up (hpc : s.st.pc = relay shut up down) {e : Ev} (he : ∀ msg, e ≠ .fail msg) :
    Own s (.proxy (.up e)) := by
  cases e with
  | fail msg => exact absurd rfl (he msg)
  | _ => cases shut <;> simp [Own, hpc, relay, resets]

theorem own_down (hpc : s.st.pc = relay shut up down) {e : Ev} (he : ∀ msg, e ≠ .fail msg) :
    Own s (.proxy (.down e)) := by
  cases e with
  | fail msg => exact absurd rfl (he msg)
  | _ => cases shut <;> simp [Own, hpc, relay, resets]

/-- A move of the edge-to-origin half that reads nothing. -/
theorem up_moves (hpc : s.st.pc = relay shut up down) {e : Ev} {up' : Up}
    (hup : up.step shut e = some up') (he : ∀ b, e ≠ .read b) : (sys P req).step s (.proxy (.up e))
      ⟨{ s.st with pc := join shut up' down, wire := up.wire s.st.wire e }, s.net⟩ := by
  cases e with
  | read b => exact absurd rfl (he b)
  | _ => simp [sys, LTS.ofFn, Sys.step, step_up hpc, hup, Net.take]

theorem up_reads (hpc : s.st.pc = relay shut up down) {b : Bytes} {up' : Up} {q : Queue}
    (hup : up.step shut (.read b) = some up') (hq : s.net.edge.take b = some q) :
    (sys P req).step s (.proxy (.up (.read b)))
      ⟨{ s.st with pc := join shut up' down, wire := up.wire s.st.wire (.read b) },
        { s.net with edge := q }⟩ := by
  simp [sys, LTS.ofFn, Sys.step, step_up hpc, hup, Net.take, hq]

theorem down_moves (hpc : s.st.pc = relay shut up down) {e : Ev} {down' : Down}
    (hdn : down.step P e = some down') (he : ∀ b, e ≠ .read b) :
    (sys P req).step s (.proxy (.down e))
      ⟨{ s.st with pc := join shut up down', wire := down.wire s.st.wire e }, s.net⟩ := by
  cases e with
  | read b => exact absurd rfl (he b)
  | _ => simp [sys, LTS.ofFn, Sys.step, step_down hpc, hdn, Net.take]

theorem down_reads (hpc : s.st.pc = relay shut up down) {b : Bytes} {down' : Down} {q : Queue}
    (hdn : down.step P (.read b) = some down') (hq : s.net.origin.take b = some q) :
    (sys P req).step s (.proxy (.down (.read b)))
      ⟨{ s.st with pc := join shut up down', wire := down.wire s.st.wire (.read b) },
        { s.net with origin := q }⟩ := by
  simp [sys, LTS.ofFn, Sys.step, step_down hpc, hdn, Net.take, hq]

/-- What an unbounded pump can read of a queue that holds bytes. -/
theorem Queue.take_some {q : Queue} (hq : q.bytes ≠ []) : ∃ b q', b ≠ [] ∧ b.length ≤ PUMP_BUF ∧
    q.take b = some q' ∧ q'.fin = q.fin := by
  have hb : q.bytes.take PUMP_BUF ≠ [] := by
    simp [PUMP_BUF, hq]
  refine ⟨_, { q with bytes := q.bytes.drop (q.bytes.take PUMP_BUF).length }, hb,
    List.length_take_le _ _, ?_, rfl⟩
  simp [Queue.take, hb, List.take_prefix]

theorem Queue.take_eof {q : Queue} (hb : q.bytes = []) (hf : q.fin = true) : q.take [] = some q := by
  simp [Queue.take, hb, hf]

theorem up_read_step {b : Bytes} (hb : b ≠ []) (hle : b.length ≤ PUMP_BUF) :
    (Up.pump (.read none)).step shut (.read b) = some (.pump (.write none b)) := by
  simp [Up.step, pumpFuturesToTokioCounted, pumpStep, want, hb, hle]

theorem up_write_step (c : Bytes) :
    (Up.pump (.write none c)).step shut .ok = some (.pump (.read none)) := by
  simp [Up.step, pumpFuturesToTokioCounted, pumpStep, pumpTop]

theorem up_eof_step : (Up.pump (.read none)).step shut (.read []) =
    some (if shut then .shutdown else .done) := by
  simp [Up.step, pumpFuturesToTokioCounted, pumpStep]

theorem down_read_step {b : Bytes} (hb : b ≠ []) (hle : b.length ≤ PUMP_BUF) :
    (Down.pump (.read none)).step P (.read b) = some (.pump (.write none b)) := by
  simp [Down.step, pumpTokioToFuturesCounted, pumpStep, want, hb, hle]

theorem down_write_step (c : Bytes) :
    (Down.pump (.write none c)).step P .ok = some (.pump (.read none)) := by
  simp [Down.step, pumpTokioToFuturesCounted, pumpStep, pumpTop]

theorem down_eof_step : (Down.pump (.read none)).step P (.read []) = some (.done (.ok ())) := by
  simp [Down.step, pumpTokioToFuturesCounted, pumpStep]

/-- An unfinished edge-to-origin half whose end has come, or has arrived,
can move. -/
theorem up_can_move (hpc : s.st.pc = relay shut up down) (hu : up.unbounded = true)
    (hnd : up ≠ .done) (hf : up.ended = true ∨ s.net.edge.fin = true) :
    ∃ l s', Own s l ∧ (sys P req).step s l s' := by
  cases up with
  | done => exact absurd rfl hnd
  | shutdown => exact ⟨.proxy (.up .ok), _, own_up hpc (by simp), up_moves hpc rfl (by simp)⟩
  | pump p =>
    have hfin : s.net.edge.fin = true := hf.resolve_left (by simp [Up.ended])
    cases p with
    | write l c =>
      simp only [Up.unbounded, Pump.unbounded, Option.isNone_iff_eq_none] at hu
      subst hu
      exact ⟨.proxy (.up .ok), _, own_up hpc (by simp), up_moves hpc (up_write_step c) (by simp)⟩
    | read l =>
      simp only [Up.unbounded, Pump.unbounded, Option.isNone_iff_eq_none] at hu
      subst hu
      by_cases hb : s.net.edge.bytes = []
      · exact ⟨.proxy (.up (.read [])), _, own_up hpc (by simp),
          up_reads hpc up_eof_step (Queue.take_eof hb hfin)⟩
      · obtain ⟨b, q', hne, hle, hq, -⟩ := Queue.take_some hb
        exact ⟨.proxy (.up (.read b)), _, own_up hpc (by simp), up_reads hpc (up_read_step hne hle) hq⟩

/-- The same for the other half, at its pump. -/
theorem down_can_move {p : Pump} (hpc : s.st.pc = relay shut up (.pump p))
    (hu : p.unbounded = true) (hf : s.net.origin.fin = true) :
    ∃ l s', Own s l ∧ (sys P req).step s l s' := by
  cases p with
  | write l c =>
    simp only [Pump.unbounded, Option.isNone_iff_eq_none] at hu
    subst hu
    exact ⟨.proxy (.down .ok), _, own_down hpc (by simp), down_moves hpc (down_write_step c) (by simp)⟩
  | read l =>
    simp only [Pump.unbounded, Option.isNone_iff_eq_none] at hu
    subst hu
    by_cases hb : s.net.origin.bytes = []
    · exact ⟨.proxy (.down (.read [])), _, own_down hpc (by simp),
        down_reads hpc down_eof_step (Queue.take_eof hb hf)⟩
    · obtain ⟨b, q', hne, hle, hq, -⟩ := Queue.take_some hb
      exact ⟨.proxy (.down (.read b)), _, own_down hpc (by simp), down_reads hpc (down_read_step hne hle) hq⟩

/-- After its end, a half only comes closer to being done. -/
theorem ended_step {up' : Up} {e : Ev} (hu : up.unbounded = true) (hend : up.ended = true)
    (hs : up.step shut e = some up') : up = .shutdown ∧ up' = .done := by
  rcases Up.step_cases hu hs with ⟨b, rfl, -⟩ | ⟨c, rfl, -⟩ | ⟨rfl, -⟩ | ⟨p, msg, rfl, -⟩ | ⟨rfl, rfl, -⟩
  · cases hend
  · cases hend
  · cases hend
  · cases hend
  · exact ⟨rfl, rfl⟩

end Moves

/-! ## Closing the edge's side -/

section Close
variable {P : Httparse} {req : ConnectRequest} {s : Sys} {shut : Bool} {up : Up} {down : Down}

/-- The origin's half is done, and the edge's end is there or will be. -/
inductive EdgeClosing (s : Sys) : Prop
  | relay (shut : Bool) (up : Up) (r : Except TunnelError Unit) : s.st.pc = relay shut up (.done r) →
      Halves s.st → up.ended = true ∨ s.net.edge.fin = true → EdgeClosing s
  | close : s.st.pc = .closeBidi → EdgeClosing s

/-- The own steps behind the join of `run_bidi`. -/
theorem own_closeBidi (hpc : s.st.pc = .closeBidi) {l : SysLabel} {s' : Sys} (ho : Own s l)
    (hs : (sys P req).step s l s') : EdgeClosed s' := by
  cases l with
  | proxy l =>
    simp only [sys, LTS.ofFn, Sys.step, Option.bind_eq_some_iff, Option.map_eq_some_iff] at hs
    obtain ⟨st', hst, net', -, rfl⟩ := hs
    cases l with
    | main e =>
      simp only [Inbound.step, hpc] at hst
      cases e <;> cases hst
      · exact .inl rfl
      · exact .inr rfl
    | _ => simp [Inbound.step, hpc] at hst
  | _ => cases ho

theorem edgeClosing_step {l : SysLabel} {s' : Sys} (hi : EdgeClosing s) (ho : Own s l)
    (hs : (sys P req).step s l s') : EdgeClosed s' ∨ EdgeClosing s' ∧ weight s' < weight s := by
  cases hi with
  | close hpc => exact .inl (own_closeBidi hpc ho hs)
  | relay shut up r hpc hh hf =>
    obtain ⟨hu, hd, -, -⟩ := hh.relay hpc
    have hlt := own_decreases hpc hu hd ho hs
    rcases own_relay hpc ho hs with ⟨e, up', -, hup, -, hst, -, hed⟩ | ⟨e, down', -, hdn, -⟩
    · have hf' : up'.ended = true ∨ s'.net.edge.fin = true := by
        rcases hf with hend | hfin
        · rw [(ended_step hu hend hup).2]
          exact .inl rfl
        · exact .inr (hed.fin.trans hfin)
      have hstep : Inbound.step P req s.st (.up e) = some s'.st := by
        rw [step_up hpc, hup, hst]
        rfl
      rcases join_cases shut up' (.done r) with ⟨h, -⟩ | ⟨-, -, h⟩ | ⟨-, -, r', h⟩
      · exact .inr ⟨.relay shut up' r (by rw [hst, h]) (halves_step req hh hstep) hf', hlt⟩
      · exact .inr ⟨.close (by rw [hst, h]), hlt⟩
      · exact .inl (.inr (by rw [hst, h]; rfl))
    · cases e <;> cases hdn

theorem edgeClosing_closes (hi : EdgeClosing s) : (sys P req).Inevitable Own EdgeClosed s := by
  refine LTS.inevitable_of_measure (I := EdgeClosing) weight ?_ ?_ hi
  · intro s hi
    cases hi with
    | relay shut up r hpc hh hf =>
      obtain ⟨hu, -, hnd, -⟩ := hh.relay hpc
      exact .inr (up_can_move hpc hu (fun h => hnd ⟨h, rfl⟩) hf)
    | close hpc =>
      refine .inr ⟨.proxy (.main .ok),
        ⟨{ s.st with pc := .done (.ok ()), wire := { s.st.wire with edgeClosed := true } }, s.net⟩, ?_, ?_⟩
      · simp [Own, resets, hpc]
      · simp [sys, LTS.ofFn, Sys.step, Inbound.step, hpc, Net.take]
  · intro s l s' hi ho hs
    exact edgeClosing_step hi ho hs

/-- The origin's half is done, the edge has not ended. -/
inductive EdgeStuck (s : Sys) : Prop
  | mk (shut : Bool) (p : Pump) (r : Except TunnelError Unit) :
      s.st.pc = relay shut (.pump p) (.done r) →
      Halves s.st → s.net.edge.fin = false → EdgeStuck s

theorem EdgeStuck.not_closed (hi : EdgeStuck s) : ¬ EdgeClosed s := by
  obtain ⟨shut, p, r, hpc, hh, -⟩ := hi
  obtain ⟨-, -, -, hcl⟩ := hh.relay hpc
  simp [EdgeClosed, hcl, not_returned hpc]

/-- It reads what is there and then waits for more from the edge. -/
theorem EdgeStuck.stays (hi : EdgeStuck s) : (∀ l s', Own s l → ¬ (sys P req).step s l s') ∨
    ∃ l s', Own s l ∧ (sys P req).step s l s' ∧ EdgeStuck s' := by
  obtain ⟨shut, p, r, hpc, hh, hfin⟩ := hi
  obtain ⟨hu, -, -, -⟩ := hh.relay hpc
  have hjoin : ∀ p', join shut (.pump p') (.done r) = relay shut (.pump p') (.done r) := by
    intro p'
    cases shut <;> rfl
  have hnext : ∀ {e p'} {q : Queue}, (Up.pump p).step shut e = some (.pump p') → q.fin = false →
      EdgeStuck ⟨{ s.st with
        pc := join shut (.pump p') (.done r)
        wire := (Up.pump p).wire s.st.wire e }, { s.net with edge := q }⟩ := by
    intro e p' q hup hq
    refine ⟨shut, p', r, hjoin p', halves_step (P := P) req hh (l := .up e) ?_, hq⟩
    rw [step_up hpc, hup]
    rfl
  cases p with
  | write l c =>
    simp only [Up.unbounded, Pump.unbounded, Option.isNone_iff_eq_none] at hu
    subst hu
    exact .inr ⟨.proxy (.up .ok), _, own_up hpc (by simp), up_moves hpc (up_write_step c) (by simp),
      hnext (up_write_step c) hfin⟩
  | read l =>
    simp only [Up.unbounded, Pump.unbounded, Option.isNone_iff_eq_none] at hu
    subst hu
    by_cases hb : s.net.edge.bytes = []
    · left
      intro l s' ho hs
      rcases own_relay hpc ho hs with ⟨e, up', -, hup, hnf, -, -, hed⟩ | ⟨e, down', -, hdn, -⟩
      · rcases Up.step_cases rfl hup with ⟨b, -, rfl, hne, -⟩ | ⟨c, h, -⟩ | ⟨-, rfl, -⟩ |
          ⟨p, msg, -, rfl, -⟩ | ⟨h, -⟩
        · rcases hed with ⟨-, hno⟩ | ⟨b', he, hq⟩
          · exact hno b rfl
          · cases he
            rcases Queue.take_cases hq with ⟨h0, -⟩ | ⟨-, h, -⟩
            · exact hne h0
            · rw [hb] at h
              exact hne (List.append_eq_nil_iff.mp h.symm).1
        · cases h
        · rcases hed with ⟨-, hno⟩ | ⟨b', he, hq⟩
          · exact hno [] rfl
          · cases he
            rcases Queue.take_cases hq with ⟨-, -, h, -⟩ | ⟨h, -⟩
            · rw [hfin] at h
              cases h
            · exact h rfl
        · exact hnf none msg rfl rfl
        · cases h
      · cases e <;> cases hdn
    · obtain ⟨b, q', hne, hle, hq, hqf⟩ := Queue.take_some hb
      exact .inr ⟨.proxy (.up (.read b)), _, own_up hpc (by simp), up_reads hpc (up_read_step hne hle) hq,
        hnext (up_read_step hne hle) (hqf.trans hfin)⟩

theorem edgeStuck_never (hi : EdgeStuck s) : ¬ (sys P req).Inevitable Own EdgeClosed s :=
  LTS.not_inevitable (I := EdgeStuck) (fun _ h => h.not_closed) (fun _ h => h.stays) hi

theorem Down.eq_done (h : down.ended = true) : ∃ r, down = .done r := by
  cases down with
  | done r => exact ⟨r, rfl⟩
  | _ => cases h

/-- Where the origin's half is done: the edge is closed by own steps iff its
direction is over, or its end has arrived. -/
theorem edge_closes_iff {r : Except TunnelError Unit} (hh : Halves s.st)
    (hpc : s.st.pc = relay shut up (.done r)) :
    (sys P req).Inevitable Own EdgeClosed s ↔ up.ended = true ∨ s.net.edge.fin = true := by
  refine ⟨fun h => ?_, fun h => edgeClosing_closes (.relay shut up r hpc hh h)⟩
  by_contra hcon
  rw [not_or, Bool.not_eq_true, Bool.not_eq_true] at hcon
  cases up with
  | pump p => exact edgeStuck_never ⟨shut, p, r, hpc, hh, hcon.2⟩ h
  | _ => cases hcon.1

/-! ## Closing the origin's side -/

/-- The edge has ended and `run_bidi` is about to shut the origin's side. -/
inductive OriginShutting (s : Sys) : Prop
  | mk (down : Down) : s.st.pc = .bidi .shutdown down → Halves s.st → OriginShutting s

theorem originShutting_closes (hi : OriginShutting s) :
    (sys P req).Inevitable Own OriginClosed s := by
  refine LTS.inevitable_of_measure (I := OriginShutting) weight ?_ ?_ hi
  · intro s h
    obtain ⟨down, hpc, hh⟩ := h
    have hpc' : s.st.pc = relay true .shutdown down := hpc
    exact .inr ⟨.proxy (.up .ok), _, own_up hpc' nofun, up_moves hpc' rfl nofun⟩
  · intro s l s' hinv ho hs
    obtain ⟨down, hpc, hh⟩ := hinv
    have hpc' : s.st.pc = relay true .shutdown down := hpc
    obtain ⟨hu, hd, -, -⟩ := hh.relay hpc'
    have hlt := own_decreases hpc' hu hd ho hs
    rcases own_relay hpc' ho hs with ⟨e, up', -, hup, -, hst, -⟩ | ⟨e, down', -, hdn, hst, -⟩
    · exact .inl (.inl (by rw [hst]; rfl))
    · refine .inr ⟨⟨down', ?_, ?_⟩, hlt⟩
      · rw [hst]
        rfl
      · refine halves_step (P := P) req hh (l := .down e) ?_
        rw [step_down hpc', hdn, hst]
        rfl

/-- The edge has ended, and the origin of a Tcp stream has or will. -/
inductive TcpEnding (s : Sys) : Prop
  | mk (p : Pump) : s.st.pc = .tcp .done (.pump p) → Halves s.st → s.net.origin.fin = true →
      TcpEnding s

theorem tcpEnding_closes (hi : TcpEnding s) : (sys P req).Inevitable Own OriginClosed s := by
  refine LTS.inevitable_of_measure (I := TcpEnding) weight ?_ ?_ hi
  · intro s h
    obtain ⟨p, hpc, hh, hf⟩ := h
    have hpc' : s.st.pc = relay false .done (.pump p) := hpc
    exact .inr (down_can_move hpc' (hh.relay hpc').2.1 hf)
  · intro s l s' hinv ho hs
    obtain ⟨p, hpc, hh, hf⟩ := hinv
    have hpc' : s.st.pc = relay false .done (.pump p) := hpc
    obtain ⟨hu, hd, -, -⟩ := hh.relay hpc'
    have hlt := own_decreases hpc' hu hd ho hs
    rcases own_relay hpc' ho hs with ⟨e, up', -, hup, -⟩ | ⟨e, down', -, hdn, hst, -, hor⟩
    · cases e <;> cases hup
    · have hstep : Inbound.step P req s.st (.down e) = some s'.st := by
        rw [step_down hpc', hdn, hst]
        rfl
      have hf' : s'.net.origin.fin = true := hor.fin.trans hf
      rcases Down.pump_cases hd hdn with ⟨b, -, -, -, -, rfl⟩ | ⟨c, -, -, rfl⟩ | ⟨-, -, rfl⟩ |
        ⟨msg, err, -, rfl⟩
      · exact .inr ⟨⟨_, by rw [hst]; rfl, halves_step req hh hstep, hf'⟩, hlt⟩
      · exact .inr ⟨⟨_, by rw [hst]; rfl, halves_step req hh hstep, hf'⟩, hlt⟩
      · exact .inl (.inr (by rw [hst]; rfl))
      · exact .inl (.inr (by rw [hst]; rfl))

/-- `run_bidi` always passes the edge's end on. -/
theorem origin_closes_bidi (hh : Halves s.st) (hpc : s.st.pc = .bidi up down)
    (heof : s.st.wire.edgeEof = true) : (sys P req).Inevitable Own OriginClosed s := by
  have hh' := hh
  simp only [Halves, hpc] at hh'
  cases up with
  | pump p => cases hh'.2.2.2.1 heof
  | shutdown => exact originShutting_closes ⟨down, hpc, hh⟩
  | done => exact .now (.inl (hh'.2.2.2.2.1 rfl))

end Close

/-! ## Runs that end in time -/

/-- An end of file is read, in the response head as behind it, only when the
opposite direction is over, or its own end of file has arrived; the edge's,
by `run_bidi`, at any time. -/
def inTime (s : Sys) : SysLabel → Bool
  | .proxy (.down (.read [])) =>
    match s.st.pc with
    | .bidi up _ => up.ended || s.net.edge.fin
    | .tcp up _ => up.ended || s.net.edge.fin
    | _ => true
  | .proxy (.up (.read [])) =>
    match s.st.pc with
    | .tcp _ down => down.ended || s.net.origin.fin
    | _ => true
  | _ => true

/-- What `inTime` keeps true. -/
def EndsTogether (s : Sys) : Prop :=
  match s.st.pc with
  | .bidi up _ => s.st.wire.originEof = true → up.ended = true ∨ s.net.edge.fin = true
  | .tcp up down => (s.st.wire.originEof = true → up.ended = true ∨ s.net.edge.fin = true) ∧
      (up = .done → s.st.wire.edgeEof = true → down.ended = true ∨ s.net.origin.fin = true)
  | _ => True

section Runs
variable {P : Httparse} {req : ConnectRequest} {s s' : Sys} {shut : Bool} {up : Up} {down : Down}

theorem EndsTogether.relay (h : EndsTogether s) (hpc : s.st.pc = relay shut up down) :
    (s.st.wire.originEof = true → up.ended = true ∨ s.net.edge.fin = true) ∧
      (shut = false → up = .done → s.st.wire.edgeEof = true →
        down.ended = true ∨ s.net.origin.fin = true) := by
  cases shut <;> simp only [EndsTogether, hpc, Inbound.relay, Bool.false_eq_true, if_true, if_false] at h
  · exact ⟨h.1, fun _ => h.2⟩
  · exact ⟨h, by simp⟩

theorem endsTogether_join (st : St) {net : Net}
    (h₁ : st.wire.originEof = true → up.ended = true ∨ net.edge.fin = true)
    (h₂ : shut = false → up = .done → st.wire.edgeEof = true →
      down.ended = true ∨ net.origin.fin = true) :
    EndsTogether ⟨{ st with pc := join shut up down }, net⟩ := by
  rcases join_cases shut up down with ⟨h, -⟩ | ⟨-, -, h⟩ | ⟨-, -, r, h⟩
  · rw [h]
    cases shut
    · exact ⟨h₁, h₂ rfl⟩
    · exact h₁
  · rw [h]
    trivial
  · rw [h]
    trivial

theorem endsTogether_relay {l : Label} (hh : Halves s.st) (hi : EndsTogether s)
    (hpc : s.st.pc = relay shut up down) (hg : inTime s (.proxy l) = true)
    (hs : (sys P req).step s (.proxy l) s') : EndsTogether s' := by
  obtain ⟨hu, hd, hnd, -⟩ := hh.relay hpc
  obtain ⟨h₁, h₂⟩ := hi.relay hpc
  obtain ⟨st', net'⟩ := s'
  rcases relay_step hpc hs with ⟨e, up', rfl, hup, hst, hor, hed⟩ | ⟨e, down', rfl, hdn, hst, hed, hor⟩
  · simp only at hst hor hed
    subst hst
    refine endsTogether_join { s.st with wire := up.wire s.st.wire e } ?_ ?_
    · intro heof
      rcases h₁ ((Up.sameDown s.st.wire up e).originEof ▸ heof) with hend | hfin
      · rw [(ended_step hu hend hup).2]
        exact .inl rfl
      · exact .inr (hed.fin.trans hfin)
    · intro heq heq₁ heof
      subst heq
      subst heq₁
      have hup₀ : up ≠ .done := fun h => by rw [h] at hup; cases e <;> cases hup
      have hns : up ≠ .shutdown ∧ (s.st.wire.edgeEof = true → up = .done) := by
        simp only [Halves, hpc, Inbound.relay, Bool.false_eq_true, if_false] at hh
        exact ⟨hh.2.2.2.2.1, hh.2.2.2.1⟩
      rcases Up.step_cases hu hup with ⟨b, -, -, -, -, h⟩ | ⟨c, -, -, h⟩ | ⟨rfl, rfl, -⟩ |
        ⟨p, msg, rfl, rfl, -⟩ | ⟨h, -⟩
      · cases h
      · cases h
      · rw [hor]
        simpa [inTime, hpc, Inbound.relay] using hg
      · refine absurd (hns.2 ?_) hup₀
        cases p <;> exact heof
      · exact absurd h hns.1
  · simp only at hst hor hed
    subst hst
    obtain ⟨hw, -⟩ := Down.wire_up s.st.wire down e
    refine endsTogether_join { s.st with wire := down.wire s.st.wire e } ?_ ?_
    · intro heof
      rw [hed]
      rcases Down.wire_originEof heof with hw | rfl
      · exact h₁ hw
      · cases shut <;> simpa [inTime, hpc, Inbound.relay] using hg
    · intro hsh hup heof
      rcases h₂ hsh hup (hw ▸ heof) with hend | hfin
      · rw [Down.not_ended hdn] at hend
        cases hend
      · exact .inr (hor.fin.trans hfin)

def Pc.isRelay : Pc → Bool
  | .bidi _ _ => true
  | .tcp _ _ => true
  | _ => false

/-- A relay begins with both pumps at their first read. -/
theorem enters_relay {st st' : St} {l : Label} (h : Inbound.step P req st l = some st') :
    (∃ shut up down, st.pc = relay shut up down) ∨ st'.pc.isRelay = false ∨
      st'.pc = .bidi (.pump (.read none)) (.head []) ∨
      st'.pc = .tcp (.pump (.read none)) (.pump (.read none)) := by
  cases hpc : st.pc with
  | bidi up down => exact .inl ⟨true, up, down, rfl⟩
  | tcp up down => exact .inl ⟨false, up, down, rfl⟩
  | writeHead =>
    cases l with
    | main e =>
      simp only [Inbound.step, hpc] at h
      cases e <;> cases h
      · by_cases hp : (analyseRequest req).requestPoolable = true
        · exact .inr (.inl (by simp [afterHead, hp, Pc.isRelay]))
        · exact .inr (.inr (.inl (by simp [afterHead, hp])))
      · exact .inr (.inl rfl)
    | _ => simp [Inbound.step, hpc] at h
  | accept rest =>
    cases l with
    | main e =>
      simp only [Inbound.step, hpc] at h
      rcases stepFrame_cases h with ⟨x, rest', -, rfl⟩ | ⟨-, rfl⟩ | ⟨msg, err, -, rfl⟩
      · exact .inr (.inl rfl)
      · exact .inr (.inr (.inr rfl))
      · exact .inr (.inl rfl)
    | _ => simp [Inbound.step, hpc] at h
  | reject rest =>
    cases l with
    | main e =>
      simp only [Inbound.step, hpc] at h
      rcases stepFrame_cases h with ⟨x, rest', -, rfl⟩ | ⟨-, rfl⟩ | ⟨msg, err, -, rfl⟩ <;>
        exact .inr (.inl rfl)
    | _ => simp [Inbound.step, hpc] at h
  | pooled pc =>
    cases l with
    | main e =>
      simp only [Inbound.step, hpc, Option.map_eq_some_iff] at h
      obtain ⟨t, -, rfl⟩ := h
      rcases ofPooled_cases st t with ⟨r, -, he⟩ | ⟨-, he⟩ <;> rw [he] <;>
        exact .inr (.inl rfl)
    | _ => simp [Inbound.step, hpc] at h
  | acquire =>
    cases l with
    | main e =>
      simp only [Inbound.step, hpc] at h
      cases e <;> cases h <;> exact .inr (.inl rfl)
    | timeout =>
      simp only [Inbound.step, hpc] at h
      cases h
      exact .inr (.inl rfl)
    | _ => simp [Inbound.step, hpc] at h
  | connect =>
    cases l with
    | main e =>
      simp only [Inbound.step, hpc] at h
      cases e <;> cases h <;> exact .inr (.inl rfl)
    | _ => simp [Inbound.step, hpc] at h
  | closeBidi =>
    cases l with
    | main e =>
      simp only [Inbound.step, hpc] at h
      cases e <;> cases h <;> exact .inr (.inl rfl)
    | _ => simp [Inbound.step, hpc] at h
  | done r => cases l <;> simp [Inbound.step, hpc] at h

theorem endsTogether_of_not_relay (h : s.st.pc.isRelay = false) : EndsTogether s := by
  unfold EndsTogether
  split
  · rename_i up down hpc
    rw [hpc] at h
    cases h
  · rename_i up down hpc
    rw [hpc] at h
    cases h
  · trivial

theorem endsTogether_step {l : SysLabel} (hh : Halves s.st) (hi : EndsTogether s)
    (hg : inTime s l = true) (hs : (sys P req).step s l s') : EndsTogether s' := by
  cases l with
  | proxy l =>
    have hst : Inbound.step P req s.st l = some s'.st := by
      simp only [sys, LTS.ofFn, Sys.step, Option.bind_eq_some_iff, Option.map_eq_some_iff] at hs
      obtain ⟨st', hst, net', -, rfl⟩ := hs
      exact hst
    rcases enters_relay hst with ⟨shut, up, down, hpc⟩ | hno | hb | ht
    · exact endsTogether_relay hh hi hpc hg hs
    · exact endsTogether_of_not_relay hno
    · have hrel : s'.st.pc = relay true (.pump (.read none)) (.head []) := hb
      have hopen := (halves_sys_step hh hs).originEof_false hrel rfl
      simp [EndsTogether, hb, hopen]
    · have hrel : s'.st.pc = relay false (.pump (.read none)) (.pump (.read none)) := ht
      have hopen := (halves_sys_step hh hs).originEof_false hrel rfl
      simp [EndsTogether, ht, hopen]
  | edgeSends b =>
    simp only [sys, LTS.ofFn, Sys.step, Option.map_eq_some_iff, Queue.push] at hs
    obtain ⟨q, hq, rfl⟩ := hs
    split at hq <;> cases hq
    exact hi
  | originSends b =>
    simp only [sys, LTS.ofFn, Sys.step, Option.map_eq_some_iff, Queue.push] at hs
    obtain ⟨q, hq, rfl⟩ := hs
    split at hq <;> cases hq
    exact hi
  | edgeEnds =>
    cases hs
    unfold EndsTogether at hi ⊢
    split at hi <;> simp_all
  | originEnds =>
    cases hs
    unfold EndsTogether at hi ⊢
    split at hi <;> simp_all

theorem endsTogether_reachable (h : ((sys P req).guard fun s l => inTime s l = true).Reachable s) :
    EndsTogether s := by
  have hboth : Halves s.st ∧ EndsTogether s := by
    refine LTS.Inductive.reachable (M := (sys P req).guard fun s l => inTime s l = true)
      (I := fun s => Halves s.st ∧ EndsTogether s) ⟨?_, ?_⟩ h
    · intro s heq
      subst heq
      refine ⟨halves_start req, endsTogether_of_not_relay ?_⟩
      cases hc : req.connType <;> simp [start, hc, Pc.isRelay]
    · intro s l s' hinv hstep
      obtain ⟨hh, hi⟩ := hinv
      obtain ⟨hs, hg⟩ := hstep
      exact ⟨halves_sys_step hh hs, endsTogether_step hh hi hg hs⟩
  exact hboth.2

/-- **End of file in each direction**: in every state of the runs that end
in time, an end of file one pump has read is passed on by the proxy's own
steps. -/
theorem eof_propagates (h : ((sys P req).guard fun s l => inTime s l = true).Reachable s) :
    EofPropagates P req s := by
  have hh := halves_reachable h.of_guard
  have hi := endsTogether_reachable h
  constructor
  · intro hend
    unfold originEnded at hend
    split at hend
    · rename_i up down hpc
      rw [Bool.and_eq_true] at hend
      obtain ⟨r, rfl⟩ := Down.eq_done hend.1
      have hrel : s.st.pc = relay true up (.done r) := hpc
      exact (edge_closes_iff hh hrel).mpr ((hi.relay hrel).1 hend.2)
    · rename_i up down hpc
      rw [Bool.and_eq_true] at hend
      obtain ⟨r, rfl⟩ := Down.eq_done hend.1
      have hrel : s.st.pc = relay false up (.done r) := hpc
      exact (edge_closes_iff hh hrel).mpr ((hi.relay hrel).1 hend.2)
    · rename_i hpc
      exact edgeClosing_closes (.close hpc)
    · cases hend
  · intro heof
    unfold edgeEnded at heof
    split at heof
    · rename_i up down hpc
      exact origin_closes_bidi hh hpc heof
    · rename_i up down hpc
      have hh' := hh
      simp only [Halves, hpc] at hh'
      obtain ⟨-, -, hnd, hup, -, hdown, -⟩ := hh'
      obtain rfl := hup heof
      rcases hdown with hend | ⟨p, rfl⟩
      · exact absurd ⟨rfl, hend⟩ hnd
      · refine tcpEnding_closes ⟨p, hpc, hh, ?_⟩
        have hrel : s.st.pc = relay false .done (.pump p) := hpc
        exact ((hi.relay hrel).2 rfl rfl heof).resolve_left (by simp [Down.ended])
    · cases heof

end Runs

/-- A request that asks to close goes through `run_bidi`. -/
def closingGet : ConnectRequest :=
  ⟨ascii "/", .http, [(HTTP_METHOD_KEY, ascii "GET"),
    (HTTP_HEADER_KEY ++ ascii ":Connection", ascii "close")]⟩

/-- A GET whose origin answers and closes. -/
def answeredAndClosed : List SysLabel :=
  [.proxy (.main .ok), .proxy (.main .ok), .originSends (Pooled.fiveRaw ++ ascii "hello"), .originEnds,
    .proxy (.down (.read (Pooled.fiveRaw ++ ascii "hello"))), .proxy (.down .ok), .proxy (.down .ok),
    .proxy (.down .ok), .proxy (.down .ok), .proxy (.down .ok)]

def atOpenEdge (s : Sys) : Bool :=
  match s.st.pc with
  | .bidi (.pump _) (.done _) => s.st.wire.originEof && !s.net.edge.fin
  | _ => false

/-- An edge that keeps its side open never sees the end of a response the
origin has finished. -/
theorem open_edge_stuck : ∃ s, (sys refHttparse closingGet).Reachable s ∧
    ¬ EofPropagates refHttparse closingGet s := by
  obtain ⟨s, hs, hq⟩ := LTS.exists_of_exec (Sys.step refHttparse closingGet) (fun _ _ => True)
    ⟨start closingGet, {}⟩ (answeredAndClosed ++ [.proxy (.down (.read []))]) atOpenEdge (by decide)
  have hs := hs.of_guard
  refine ⟨s, hs, fun h => ?_⟩
  unfold atOpenEdge at hq
  split at hq
  · rename_i p r hpc
    rw [Bool.and_eq_true] at hq
    exact edgeStuck_never ⟨true, p, r, hpc, halves_reachable hs, by simpa using hq.2⟩
      (h.1 (by simp [originEnded, hpc, Down.ended, hq.1]))
  · cases hq

/-- With the edge's side ended as well, both ends are passed on. -/
theorem ended_edge_closes :
    ∃ s, ((sys refHttparse closingGet).guard fun s l => inTime s l = true).Reachable s ∧
    originEnded s.st = true ∧ EofPropagates refHttparse closingGet s := by
  obtain ⟨s, hs, hq⟩ := LTS.exists_of_exec (Sys.step refHttparse closingGet) (fun s l => inTime s l = true)
    ⟨start closingGet, {}⟩ (.edgeEnds :: answeredAndClosed ++ [.proxy (.down (.read []))])
    (fun s => originEnded s.st) (by decide)
  exact ⟨s, hs, hq, eof_propagates hs⟩

end QuickTunnel.Proxy.Inbound
