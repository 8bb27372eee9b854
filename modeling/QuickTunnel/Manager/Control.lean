import QuickTunnel.Manager.Leg
import QuickTunnel.Rpc.Driver

/-!
# A leg, its QUIC connection and its control driver

One HA leg with the connection it holds and the driver thread of the
registration on that connection. `connect_cycle` dials and starts a fresh
driver, and succeeds only with the details the driver hands out. While the
leg supervises, `supervisor::run` accepts the streams the edge has opened
and returns when `accept_bi` fails, which it does when the connection is
lost; the leg never looks at the driver.

A lost connection ends the control stream with it. The edge can also end
the control stream alone.

* `acts_iff`: which states a supervising leg can be stuck in.
* `watched_step_iff`: the step that leads into one.
* `leg_acts`: in the runs without it the leg acts on the end of its driver.
* `control_stream_ended`: the edge ends the control stream alone.
-/
namespace QuickTunnel.Manager.Control

open Rpc (ShutdownCommand Request Reply)

/-- mirrors src/manager.rs:35, in milliseconds -/
def DEFAULT_GRACE_PERIOD : Nat := 30000

/-- `lost`: the QUIC connection is closed; `incoming`: streams the edge has
opened and nobody has accepted; `streamsTotal` is the metric. -/
structure St where
  leg : Leg := .initial
  lost : Bool := false
  incoming : Nat := 0
  streamsTotal : Nat := 0
  driver : Rpc.St := {}

/-- `leg`: the leg's task; `driver`: the driver's thread, or the edge on the
control stream; `signal`: `notify_waiters`; `lose` and `openStream`: the
connection. -/
inductive Label
  | leg (l : LegLabel)
  | driver (l : Rpc.Label)
  | signal
  | lose
  | openStream

/-- The `ControlSession`, or what `register_connection` had of it, is given
up: `rx` is what the driver's end of the command channel sees. -/
def St.hangUp (s : St) (rx : Rpc.Rx) : St :=
  if s.driver.rx = .waiting then { s with driver := { s.driver with rx := rx } } else s

/-- `accept_bi` returns every stream the edge has opened.
mirrors src/supervisor.rs:89-107 -/
def St.accept (s : St) : St := { s with incoming := 0, streamsTotal := s.streamsTotal + s.incoming }

/-- `connect_cycle`: a connection and a driver of its own. -/
def St.dial (s : St) : St := { s with lost := false, incoming := 0, driver := {} }

/-- One step of the leg, with what it does to its connection and driver.
mirrors src/manager.rs:268-389 and src/supervisor.rs:83-120 -/
def legStep (s : St) : Leg → LegLabel → Leg → Option St
  | .supervise _ _, .check, leg' =>
    if leg' = .unregister then some { s.hangUp (.sent (.graceful DEFAULT_GRACE_PERIOD)) with leg := leg' }
    else some { s with leg := leg' }
  | .supervise _ _, .pending, leg' => if s.lost then none else some { s.accept with leg := leg' }
  | .supervise _ _, .fires, leg' =>
    if s.lost then some { s.accept.hangUp (.sent .immediate) with leg := leg' } else none
  | .initial, .run, leg' => some { s.dial with leg := leg' }
  | .backoff _ _ _ _, .fires, leg' => some { s.dial with leg := leg' }
  | .firstConnect, .connected, leg' => if s.driver.handedOut then some { s with leg := leg' } else none
  | .connect _ _, .connected, leg' => if s.driver.handedOut then some { s with leg := leg' } else none
  | .firstConnect, .failed, leg' => some { s.hangUp .closed with leg := leg' }
  | .connect _ _, .failed, leg' => some { s.hangUp .closed with leg := leg' }
  | _, _, leg' => some { s with leg := leg' }

def step (s : St) : Label → Option St
  | .leg l => (s.leg.step l).bind (legStep s s.leg l)
  -- the command channel belongs to the leg
  | .driver (.command _) | .driver .dropSender => none
  | .driver l => (Rpc.step s.driver l).map fun driver => { s with driver }
  | .signal => some { s with leg := s.leg.notify }
  | .lose => some { s with lost := true, driver := { s.driver with streamEnded := true } }
  | .openStream => if s.lost then none else some { s with incoming := s.incoming + 1 }

def leg : LTS St Label := LTS.ofFn (· = {}) step

/-- The leg's and the driver's own steps. -/
def Own (_ : St) : Label → Prop
  | .leg _ => True
  | .driver (.poll _ _) | .driver .expire => True
  | _ => False

/-! ## Acting on the end of the driver -/

/-- Has left `supervise` as `ConnectionLost`, or, woken by the signal, as
`Shutdown`. -/
def Left (woken : Bool) (s : St) : Prop :=
  s.leg = .retry 0 false ∨ (woken = true ∧ s.leg = .unregister)

/-- A leg whose driver has ended does not go on supervising. Nobody has
asked the driver to: a supervising leg has its `ControlSession` still. -/
def ActsOnEnd (s : St) : Prop := ∀ woken checked, s.leg = .supervise woken checked →
  s.driver.pc = .ended → leg.Inevitable Own (Left woken) s

/-- Holds a session, or is about to. -/
def session : Leg → Bool
  | .initial | .firstConnect | .enter | .supervise _ _ | .connect _ _ => true
  | _ => false

/-- Supervises, or is about to. -/
def supervises : Leg → Bool
  | .enter | .supervise _ _ => true
  | _ => false

/-- A driver that ends behind its registration does so with the connection
lost. -/
def endsLost (s : St) : Label → Bool
  | .driver (.poll _ replies) => !(session s.leg && s.driver.outlived replies) || s.lost
  | _ => true

/-- What the leg relies on. -/
def Watched (s : St) : Prop :=
  session s.leg = true → s.driver.handedOut = true → s.driver.pc = .ended → s.lost = true

section Supervise
variable {s s' : St} {woken checked : Bool}

/-- The own steps of a leg that supervises next to an ended driver. -/
theorem supervise_cases {l : Label} (hleg : s.leg = .supervise woken checked)
    (hend : s.driver.pc = .ended) (ho : Own s l) (hs : step s l = some s') :
    Left woken s' ∨ s'.driver = s.driver ∧ s'.lost = s.lost ∧
      (checked = false ∧ woken = false ∧ s'.leg = .supervise woken true ∨
        checked = true ∧ s.lost = false ∧ s'.leg = .supervise woken false) := by
  cases l with
  | leg l =>
    cases checked <;> cases l <;>
      simp only [step, hleg, Leg.step, Option.bind_some, Option.bind_none, reduceCtorEq] at hs
    · cases woken with
      | true =>
        simp only [if_true, Option.bind_some, legStep, Option.some.injEq] at hs
        subst hs
        exact .inl (.inr ⟨rfl, rfl⟩)
      | false =>
        simp only [Bool.false_eq_true, if_false, Option.bind_some, legStep, reduceCtorEq,
          Option.some.injEq] at hs
        subst hs
        exact .inr ⟨rfl, rfl, .inl ⟨rfl, rfl, rfl⟩⟩
    · simp only [legStep] at hs
      split at hs <;> cases hs
      rename_i hl
      exact .inr ⟨rfl, rfl, .inr ⟨rfl, Bool.eq_false_iff.mpr hl, rfl⟩⟩
    · simp only [legStep] at hs
      split at hs <;> cases hs
      exact .inl (.inl rfl)
  | driver l => cases l <;> simp [step, Rpc.step, hend] at hs <;> cases ho
  | _ => cases ho

/-- A supervising leg always has a step. -/
theorem supervise_live (hleg : s.leg = .supervise woken checked) :
    ∃ l s', Own s l ∧ step s l = some s' := by
  cases checked with
  | false =>
    cases woken
    · exact ⟨.leg .check, _, trivial, by simp only [step, hleg, Leg.step]; rfl⟩
    · exact ⟨.leg .check, _, trivial, by simp only [step, hleg, Leg.step]; rfl⟩
  | true =>
    cases hl : s.lost with
    | true =>
      exact ⟨.leg .fires, _, trivial, by
        simp only [step, hleg, Leg.step, Option.bind_some, legStep, hl]; rfl⟩
    | false =>
      exact ⟨.leg .pending, _, trivial, by
        simp only [step, hleg, Leg.step, Option.bind_some, legStep, hl]; rfl⟩

/-- Polls left before the leg is out. -/
def distance (s : St) : Nat :=
  match s.leg with
  | .supervise true true => 1
  | .supervise false false => 1
  | _ => 0

/-- **Exactly where a leg is stuck**: it supervises a connection that is up
and no signal has reached it. -/
theorem acts_iff (hleg : s.leg = .supervise woken checked) (hend : s.driver.pc = .ended) :
    leg.Inevitable Own (Left woken) s ↔ s.lost = true ∨ woken = true := by
  constructor
  · intro h
    by_contra hno
    rw [not_or, Bool.not_eq_true, Bool.not_eq_true] at hno
    obtain ⟨hlost, rfl⟩ := hno
    refine LTS.not_inevitable (M := leg)
      (I := fun s => (∃ c, s.leg = .supervise false c) ∧ s.lost = false) ?_ ?_
      ⟨⟨checked, hleg⟩, hlost⟩ h
    · rintro s ⟨⟨c, hc⟩, -⟩ (h | ⟨hw, -⟩)
      · rw [hc] at h
        cases h
      · cases hw
    · intro s hinv
      obtain ⟨⟨c, hc⟩, hl⟩ := hinv
      refine .inr ?_
      cases c with
      | false =>
        exact ⟨.leg .check, { s with leg := .supervise false true }, trivial,
          by simp [leg, LTS.ofFn, step, hc, Leg.step, legStep], ⟨true, rfl⟩, hl⟩
      | true =>
        exact ⟨.leg .pending, { s.accept with leg := .supervise false false }, trivial,
          by simp [leg, LTS.ofFn, step, hc, hl, Leg.step, legStep], ⟨false, rfl⟩, hl⟩
  · intro h
    refine LTS.inevitable_of_measure (M := leg)
      (I := fun s => (∃ c, s.leg = .supervise woken c) ∧ s.driver.pc = .ended ∧
        (s.lost = true ∨ woken = true)) distance ?_ ?_ ⟨⟨checked, hleg⟩, hend, h⟩
    · intro s hinv
      obtain ⟨⟨c, hc⟩, -⟩ := hinv
      exact .inr (supervise_live hc)
    · intro s l s' hinv ho hst
      obtain ⟨⟨c, hc⟩, he, hl⟩ := hinv
      rcases supervise_cases hc he ho hst with h | ⟨hd, hlost, ⟨rfl, rfl, hleg'⟩ | ⟨rfl, hup, hleg'⟩⟩
      · exact .inl h
      · exact .inr ⟨⟨⟨true, hleg'⟩, hd ▸ he, hlost ▸ hl⟩, by simp [distance, hc, hleg']⟩
      · obtain rfl : woken = true := hl.resolve_left (by simp [hup])
        exact .inr ⟨⟨⟨false, hleg'⟩, hd ▸ he, .inr rfl⟩, by simp [distance, hc, hleg']⟩

end Supervise

/-! ## Over whole runs -/

section Runs
variable {s s' : St}

/-- A step of the leg gives its session up, begins one, or leaves it as it
is; it begins to supervise with the details handed out. -/
theorem leg_cases {l : LegLabel} (hs : step s (.leg l) = some s') :
    session s'.leg = false ∨
      (supervises s'.leg = false ∧ s'.lost = false ∧ s'.driver = {}) ∨
      (session s.leg = true ∧ s'.lost = s.lost ∧ s'.driver = s.driver ∧
        (supervises s'.leg = true → supervises s.leg = true ∨ s.driver.handedOut = true)) := by
  obtain ⟨leg, lost, incoming, streamsTotal, driver⟩ := s
  simp only [step, Option.bind_eq_some_iff] at hs
  obtain ⟨leg', hst, hs⟩ := hs
  cases leg with
  | supervise woken checked =>
    cases checked <;> cases l <;> simp only [Leg.step, reduceCtorEq, Option.some.injEq] at hst
    · split at hst <;> cases hst
      · cases hs
        exact .inl rfl
      · cases hs
        exact .inr (.inr ⟨rfl, rfl, rfl, fun _ => .inl rfl⟩)
    · subst hst
      simp only [legStep] at hs
      split at hs <;> cases hs
      exact .inr (.inr ⟨rfl, rfl, rfl, fun _ => .inl rfl⟩)
    · subst hst
      simp only [legStep] at hs
      split at hs <;> cases hs
      exact .inl rfl
  | retry attempt first =>
    cases l <;> simp only [Leg.step, reduceCtorEq] at hst
    split at hst <;> cases hst <;> cases hs <;> exact .inl rfl
  | backoff attempt first woken checked =>
    cases checked <;> cases l <;> simp only [Leg.step, reduceCtorEq, Option.some.injEq] at hst
    · split at hst <;> cases hst <;> cases hs <;> exact .inl rfl
    · subst hst
      cases hs
      exact .inl rfl
    · subst hst
      cases hs
      exact .inr (.inl ⟨rfl, rfl, rfl⟩)
  | initial =>
    cases l <;> cases hst
    cases hs
    exact .inr (.inl ⟨rfl, rfl, rfl⟩)
  | firstConnect =>
    cases l <;> cases hst
    · simp only [legStep] at hs
      split at hs <;> cases hs
      rename_i ho
      exact .inr (.inr ⟨rfl, rfl, rfl, fun _ => .inr ho⟩)
    · cases hs
      exact .inl rfl
  | connect attempt first =>
    cases l <;> cases hst
    · simp only [legStep] at hs
      split at hs <;> cases hs
      rename_i ho
      exact .inr (.inr ⟨rfl, rfl, rfl, fun _ => .inr ho⟩)
    · cases hs
      exact .inl rfl
  | enter =>
    cases l <;> cases hst
    cases hs
    exact .inr (.inr ⟨rfl, rfl, rfl, fun _ => .inl rfl⟩)
  | unregister =>
    cases l <;> cases hst
    cases hs
    exact .inl rfl
  | returned => cases l <;> cases hst

/-- What becomes of a silent driver. -/
theorem driver_step {d d' : Rpc.St} {l : Rpc.Label} (h : Rpc.Silent d) (hs : Rpc.step d l = some d')
    (hl : ∀ c, l ≠ .command c) (hl' : l ≠ .dropSender) :
    Rpc.Silent d' ∧ (d.handedOut = true → d'.handedOut = true) ∧
      ((∃ flushed replies, l = .poll flushed replies ∧
          (d'.handedOut = true ∧ d'.pc = .ended ↔ d.outlived replies = true)) ∨
        (∀ flushed replies, l ≠ .poll flushed replies) ∧ d'.pc = d.pc ∧ d'.handedOut = d.handedOut) := by
  cases l with
  | poll flushed replies =>
    rcases h.pc with hpc | hpc
    · simp only [Rpc.step, hpc, Option.some.injEq] at hs
      subst hs
      obtain ⟨hsil, ho, hiff⟩ := h.poll flushed replies hpc
      exact ⟨hsil, ho, .inl ⟨flushed, replies, rfl, hiff⟩⟩
    · simp [Rpc.step, hpc] at hs
  | expire => rcases h.pc with hpc | hpc <;> simp [Rpc.step, hpc] at hs
  | reply r =>
    simp only [Rpc.step] at hs
    split at hs <;> cases hs
    exact ⟨⟨h.rx, h.pc, h.sent⟩, id, .inr ⟨by simp, rfl, rfl⟩⟩
  | endStream =>
    cases hs
    exact ⟨⟨h.rx, h.pc, h.sent⟩, id, .inr ⟨by simp, rfl, rfl⟩⟩
  | command c => exact absurd rfl (hl c)
  | dropSender => exact absurd rfl hl'

/-- The leg has no hand in the driver's steps. -/
theorem driver_cases {l : Rpc.Label} (hs : step s (.driver l) = some s') :
    (∀ c, l ≠ .command c) ∧ l ≠ .dropSender ∧
      ∃ d, Rpc.step s.driver l = some d ∧ s' = { s with driver := d } := by
  cases l with
  | command c => cases hs
  | dropSender => cases hs
  | _ =>
    simp only [step, Option.map_eq_some_iff] at hs
    obtain ⟨d, hd, rfl⟩ := hs
    exact ⟨nofun, nofun, d, hd, rfl⟩

theorem session_notify (leg : Leg) : session leg.notify = session leg := by cases leg <;> rfl

theorem supervises_notify (leg : Leg) : supervises leg.notify = supervises leg := by cases leg <;> rfl

theorem session_of_supervises {leg : Leg} (h : supervises leg = true) : session leg = true := by
  cases leg with
  | enter => rfl
  | supervise => rfl
  | _ => cases h

/-- Nobody asks the driver of a session to end. -/
theorem silent_step {l : Label} (hi : session s.leg = true → Rpc.Silent s.driver)
    (hs : step s l = some s') : session s'.leg = true → Rpc.Silent s'.driver := by
  cases l with
  | leg l =>
    intro hses
    rcases leg_cases hs with h | ⟨-, -, hd⟩ | ⟨h, -, hd, -⟩
    · rw [h] at hses
      cases hses
    · rw [hd]
      exact ⟨rfl, .inl rfl, nofun⟩
    · rw [hd]
      exact hi h
  | driver l =>
    obtain ⟨hl, hl', d, hd, rfl⟩ := driver_cases hs
    exact fun hses => (driver_step (hi hses) hd hl hl').1
  | signal =>
    cases hs
    rw [session_notify]
    exact hi
  | lose =>
    cases hs
    exact fun hses => ⟨(hi hses).rx, (hi hses).pc, (hi hses).sent⟩
  | openStream =>
    simp only [step] at hs
    split at hs <;> cases hs
    exact hi

theorem silent_reachable (h : leg.Reachable s) : session s.leg = true → Rpc.Silent s.driver := by
  refine LTS.Inductive.reachable (M := leg) (I := fun s => session s.leg = true → Rpc.Silent s.driver)
    ⟨?_, ?_⟩ h
  · intro s heq _
    subst heq
    exact ⟨rfl, .inl rfl, nofun⟩
  · exact fun s l s' hi hs => silent_step hi hs

/-- **The one step that goes wrong**: the driver's poll that finds the
control stream ended while the connection is up. -/
theorem watched_step_iff {l : Label} (hr : leg.Reachable s) (hi : Watched s)
    (hs : step s l = some s') : Watched s' ↔ endsLost s l = true := by
  cases l with
  | leg l =>
    refine ⟨fun _ => rfl, fun _ hses ho hend => ?_⟩
    rcases leg_cases hs with h | ⟨-, -, hd⟩ | ⟨h, hl, hd, -⟩
    · rw [h] at hses
      cases hses
    · rw [hd] at hend
      cases hend
    · rw [hl]
      rw [hd] at ho hend
      exact hi h ho hend
  | driver l =>
    obtain ⟨hl, hl', d, hd, rfl⟩ := driver_cases hs
    by_cases hses : session s.leg = true
    · rcases (driver_step (silent_reachable hr hses) hd hl hl').2.2 with
        ⟨flushed, replies, rfl, hiff⟩ | ⟨hne, hpc, ho⟩
      · simp only [Watched, endsLost, hses, Bool.true_and, forall_true_left, Bool.or_eq_true,
          Bool.not_eq_true', ← Bool.not_eq_true, ← hiff]
        tauto
      · refine ⟨fun _ => ?_, fun _ => ?_⟩
        · cases l with
          | poll flushed replies => exact absurd rfl (hne flushed replies)
          | _ => rfl
        · simpa only [Watched, hpc, ho] using hi
    · refine ⟨fun _ => ?_, fun _ h => absurd h hses⟩
      cases l with
      | poll flushed replies => simp [endsLost, hses]
      | _ => rfl
  | signal =>
    cases hs
    refine ⟨fun _ => rfl, fun _ hses => ?_⟩
    rw [session_notify] at hses
    exact hi hses
  | lose =>
    cases hs
    exact ⟨fun _ => rfl, fun _ _ _ _ => rfl⟩
  | openStream =>
    simp only [step] at hs
    split at hs <;> cases hs
    exact ⟨fun _ => rfl, fun _ => hi⟩

theorem handedOut_reachable (h : leg.Reachable s) :
    supervises s.leg = true → s.driver.handedOut = true := by
  have hboth : leg.Reachable s ∧ (supervises s.leg = true → s.driver.handedOut = true) := by
    refine LTS.Inductive.reachable (M := leg)
      (I := fun s => leg.Reachable s ∧ (supervises s.leg = true → s.driver.handedOut = true)) ⟨?_, ?_⟩ h
    · intro s heq
      subst heq
      exact ⟨.of_init rfl, nofun⟩
    · intro s l s' hinv hs
      obtain ⟨hr, hi⟩ := hinv
      refine ⟨hr.step hs, fun hsup => ?_⟩
      cases l with
      | leg l =>
        rcases leg_cases hs with h | ⟨h, -⟩ | ⟨-, -, hd, h⟩
        · rw [session_of_supervises hsup] at h
          cases h
        · rw [hsup] at h
          cases h
        · rw [hd]
          exact (h hsup).elim hi id
      | driver l =>
        obtain ⟨hl, hl', d, hd, rfl⟩ := driver_cases hs
        exact (driver_step (silent_reachable hr (session_of_supervises hsup)) hd hl hl').2.1 (hi hsup)
      | signal =>
        cases hs
        exact hi ((supervises_notify s.leg).symm.trans hsup)
      | lose =>
        cases hs
        exact hi hsup
      | openStream =>
        simp only [leg, LTS.ofFn, step] at hs
        split at hs <;> cases hs
        exact hi hsup
  exact hboth.2

/-- **A leg acts on the end of its driver** in the runs whose drivers end
behind their registration only with the connection lost. -/
theorem leg_acts (h : (leg.guard fun s l => endsLost s l = true).Reachable s) : ActsOnEnd s := by
  have hboth : leg.Reachable s ∧ Watched s := by
    refine LTS.Inductive.reachable (M := leg.guard fun s l => endsLost s l = true)
      (I := fun s => leg.Reachable s ∧ Watched s) ⟨?_, ?_⟩ h
    · intro s heq
      subst heq
      exact ⟨.of_init rfl, nofun⟩
    · intro s l s' hinv hstep
      obtain ⟨hr, hi⟩ := hinv
      obtain ⟨hs, hg⟩ := hstep
      exact ⟨hr.step hs, (watched_step_iff hr hi hs).mpr hg⟩
  intro woken checked hleg hend
  refine (acts_iff hleg hend).mpr (.inl (hboth.2 ?_ (handedOut_reachable hboth.1 ?_) hend))
  · rw [hleg]
    rfl
  · rw [hleg]
    rfl

end Runs

/-- The leg registers and begins to supervise. -/
def registers : List Label :=
  [.leg .run, .driver (.poll 2 0), .driver (.reply (.registered (.ok Rpc.pop))), .driver (.poll 0 1),
    .driver (.poll 0 0), .leg .connected, .leg .run, .openStream]

/-- Supervises next to an ended driver, `lost` telling whether the
connection is. -/
def outlives (lost : Bool) (s : St) : Bool :=
  s.leg == .supervise false false && s.driver.pc == .ended && s.lost == lost

/-- The connection is lost and the control stream with it. -/
theorem connection_lost_acts : ∃ s, (leg.guard fun s l => endsLost s l = true).Reachable s ∧
    s.leg = .supervise false false ∧ s.driver.pc = .ended ∧ ActsOnEnd s := by
  obtain ⟨s, hs, hq⟩ := LTS.exists_of_exec step (fun s l => endsLost s l = true) {}
    (registers ++ [.lose, .driver (.poll 0 0)]) (outlives true) (by decide)
  simp only [outlives, Bool.and_eq_true, beq_iff_eq] at hq
  exact ⟨s, hs, hq.1.1, hq.1.2, leg_acts hs⟩

/-- The edge ends the control stream and keeps the connection: the leg
supervises on, on a tunnel the edge has unregistered. -/
theorem control_stream_ended : ∃ s, leg.Reachable s ∧ s.leg = .supervise false false ∧
    s.lost = false ∧ ¬ ActsOnEnd s := by
  obtain ⟨s, hs, hq⟩ := LTS.exists_of_exec step (fun _ _ => True) {}
    (registers ++ [.driver .endStream, .driver (.poll 0 0)]) (outlives false) (by decide)
  simp only [outlives, Bool.and_eq_true, beq_iff_eq] at hq
  obtain ⟨⟨hleg, hend⟩, hup⟩ := hq
  refine ⟨s, hs.of_guard, hleg, hup, fun h => ?_⟩
  rcases (acts_iff hleg hend).mp (h _ _ hleg hend) with hl | hw
  · rw [hup] at hl
    cases hl
  · cases hw

end QuickTunnel.Manager.Control
