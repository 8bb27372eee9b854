import QuickTunnel.Manager.Leg

/-!
# Two nested `select!`s over one connection

`reactor_loop` races the shutdown signal against `supervisor::run`, which
itself races its end of a oneshot channel against `accept_bi` and closes the
connection when the channel fires. The future of `supervisor::run` owns the
connection and the receiver. Here a poll of that future is taken apart into
the polls of its own two arms.

A `select!` drops the branch futures that lost before the handler of the arm
that won runs, and a dropped future takes no further step.

* `inv_reachable`: while the supervisor lives nobody has sent on its channel.
* `leg_step`: so the leg underneath is that of `Manager.Leg`.
* `never_closed`: the supervisor's shutdown arm is never taken.
-/
namespace QuickTunnel.Manager.Supervisor

/-- mirrors src/supervisor.rs:57-65 -/
inductive SupervisorExit
  | shutdown
  | connectionLost
  deriving DecidableEq, Repr

/-- `quinn::ConnectionError`, as far as the supervisor tells them apart. -/
inductive ConnectionError
  | applicationClosed
  | locallyClosed
  | other
  deriving DecidableEq, Repr

/-- What a poll of `accept_bi` gives. -/
inductive Accepted
  | pending
  | stream
  | error (e : ConnectionError)
  deriving DecidableEq, Repr

/-- The sending end of the oneshot. -/
inductive Sender
  | held
  | sent
  | dropped
  deriving DecidableEq, Repr

structure Oneshot where
  sender : Sender
  receiver : Bool
  deriving DecidableEq, Repr

/-- `send` consumes the sender; without a receiver the value is returned. -/
def Oneshot.send (c : Oneshot) : Oneshot :=
  if c.receiver then { c with sender := .sent } else { c with sender := .dropped }

/-- The receiver resolves when the value is there, and also, with an error,
when the sender is gone. -/
def Oneshot.ready (c : Oneshot) : Bool := c.sender != .held

/-- The future of `supervisor::run`: the connection it owns, and whether the
poll under way has found its shutdown arm pending. -/
structure Future where
  conn : Nat
  passed : Bool
  deriving DecidableEq, Repr

/-- What happens to the leg's connections, numbered as they are made:
`conn.close`, the supervisor's handle dropped with it (the driver's control
stream still holds the connection), and the `unregisterConnection` attempt
of `control.shutdown_graceful`. -/
inductive Event
  | close (conn code : Nat) (reason : String)
  | dropped (conn : Nat)
  | unregisterBegun
  | unregisterEnded
  deriving DecidableEq, Repr

/-- `conn`: the connection made last; `exit`: what the outer `select!`
evaluated to last. -/
structure St where
  leg : Leg
  conn : Nat := 0
  future : Option Future := none
  channel : Oneshot := ⟨.dropped, false⟩
  exit : Option SupervisorExit := none
  log : List Event := []
  deriving DecidableEq, Repr

/-- `leg`: the leg's step, the polls of the supervisor apart; `watch` and
`accept`: the polls of the supervisor's two arms; `signal`:
`notify_waiters`. -/
inductive Label
  | leg (l : LegLabel)
  | watch
  | accept (a : Accepted)
  | signal
  deriving DecidableEq, Repr

/-- mirrors src/manager.rs:316-317,327 -/
def St.supervise (s : St) : St :=
  { s with future := some ⟨s.conn, false⟩, channel := ⟨.held, true⟩ }

/-- The future of `supervisor::run` goes, and with it the connection and the
receiver. -/
def St.dropFuture (s : St) : St :=
  match s.future with
  | some f => { s with
      future := none
      channel := { s.channel with receiver := false }
      log := s.log ++ [.dropped f.conn] }
  | none => s

/-- mirrors src/manager.rs:331-334 -/
def St.shutdownGraceful (s : St) : St := { s with leg := .unregister, log := s.log ++ [.unregisterBegun] }

/-- The handler of the shutdown arm. mirrors src/manager.rs:320-326 -/
def St.forward (s : St) : St := { s with channel := s.channel.send, exit := some .shutdown }

/-- The supervisor's shutdown arm.
mirrors src/supervisor.rs:84-88 and src/manager.rs:327-334 -/
def St.closes (s : St) (conn : Nat) : St :=
  let s : St := { s with log := s.log ++ [.close conn 0 "client shutdown"] }
  { s.dropFuture with exit := some .shutdown }.shutdownGraceful

/-- mirrors src/supervisor.rs:100-118 and src/manager.rs:327-329,336-339 -/
def St.lose (s : St) (leg' : Leg) : St :=
  { s.dropFuture with
    exit := some .connectionLost
    leg := leg' }

/-- A step of the leg, with what it does to the connection. Polling the
supervisor is not one of them.
mirrors src/manager.rs:314-334,362-380 -/
def legStep (s : St) : Leg → LegLabel → Leg → Option St
  | .enter, .run, leg' => some { s.supervise with leg := leg' }
  | .supervise woken false, .check, leg' =>
    if woken then some s.dropFuture.forward.shutdownGraceful else some { s with leg := leg' }
  | .supervise _ true, _, _ => none
  | .firstConnect, .connected, leg' => some { s with leg := leg', conn := s.conn + 1 }
  | .connect _ _, .connected, leg' => some { s with leg := leg', conn := s.conn + 1 }
  | .unregister, .unregistered, leg' => some { s with leg := leg', log := s.log ++ [.unregisterEnded] }
  | _, _, leg' => some { s with leg := leg' }

/-- mirrors src/supervisor.rs:80-119 -/
def step (s : St) : Label → Option St
  | .leg l => (s.leg.step l).bind (legStep s s.leg l)
  | .watch =>
    match s.leg, s.future with
    | .supervise _ true, some ⟨conn, false⟩ =>
      if s.channel.ready then some (s.closes conn) else some { s with future := some ⟨conn, true⟩ }
    | _, _ => none
  | .accept a =>
    match s.leg, s.future, a with
    | .supervise woken true, some ⟨conn, true⟩, .pending =>
      some { s with future := some ⟨conn, false⟩, leg := .supervise woken false }
    -- a task of its own serves the stream, the loop goes round
    | .supervise _ true, some ⟨conn, true⟩, .stream => some { s with future := some ⟨conn, false⟩ }
    | .supervise _ true, some ⟨_, true⟩, .error .applicationClosed => some (s.lose (.retry 0 false))
    | .supervise _ true, some ⟨_, true⟩, .error .locallyClosed => some (s.lose (.retry 0 false))
    | .supervise _ true, some ⟨_, true⟩, .error .other => some (s.lose (.retry 0 false))
    | _, _, _ => none
  | .signal => some { s with leg := s.leg.notify }

/-- The leg of `conn_index` 0 is spawned with its connection, the others
without. -/
def start (registered : Bool) : St :=
  ⟨if registered then .enter else .initial, 0, none, ⟨.dropped, false⟩, none, []⟩

def reactor (registered : Bool) : LTS St Label := LTS.ofFn (· = start registered) step

/-- `reactor_loop` has returned from a shutdown. -/
def ShutDown (s : St) : Prop := s.leg = .returned ∧ s.exit = some .shutdown

/-- The current connection was closed once, behind the unregister attempt. -/
def ClosesInOrder (s : St) : Prop :=
  s.log.count (.close s.conn 0 "client shutdown") = 1 ∧
    ∃ before after, s.log = before ++ .unregisterEnded :: after ∧
      .close s.conn 0 "client shutdown" ∈ after

/-! ## The supervisor's channel -/

section Reactor
variable {registered : Bool} {s s' : St}

def supervising : Leg → Bool
  | .supervise _ _ => true
  | _ => false

/-- `alive`: while the supervisor lives its channel has not fired; `idle`: it
lives exactly while the leg is at the outer `select!`; `unclosed`: no
connection has been closed; `gone`: where a leg has left through the shutdown,
the supervisor's handle is dropped. -/
structure Inv (s : St) : Prop where
  alive : ∀ f, s.future = some f → s.channel.sender = .held ∧ f.conn = s.conn
  idle : s.future.isSome = supervising s.leg
  unclosed : ∀ conn code reason, .close conn code reason ∉ s.log
  leaving : s.leg = .unregister → s.exit = some .shutdown
  gone : s.leg.leaving = true → s.exit = some .shutdown → .dropped s.conn ∈ s.log
  quiet : s.exit = some .shutdown → s.leg.leaving = true

theorem supervising_notify (leg : Leg) : supervising leg.notify = supervising leg := by
  cases leg <;> rfl

theorem leaving_notify (leg : Leg) : leg.notify = .unregister ↔ leg = .unregister := by
  cases leg <;> simp [Leg.notify]

/-- What a step of the leg does to its connection. -/
theorem leg_cases {l : LegLabel} (hs : step s (.leg l) = some s') :
    s.leg.step l = some s'.leg ∧
      ((s.leg = .enter ∧ s' = { s.supervise with leg := .supervise false false }) ∨
        (s.leg = .supervise true false ∧ s' = s.dropFuture.forward.shutdownGraceful) ∨
        (s.leg = .supervise false false ∧ s' = { s with leg := .supervise false true }) ∨
        (s.leg = .unregister ∧ s' = { s with leg := .returned, log := s.log ++ [.unregisterEnded] }) ∨
        (s.leg.leaving = false ∧ supervising s.leg = false ∧ supervising s'.leg = false ∧
          s'.leg ≠ .unregister ∧ ∃ leg' conn, s' = { s with leg := leg', conn := conn })) := by
  obtain ⟨leg, conn, future, channel, exit, log⟩ := s
  simp only [step, Option.bind_eq_some_iff] at hs
  obtain ⟨leg', hst, hs⟩ := hs
  cases leg with
  | enter =>
    cases l <;> cases hst
    cases hs
    exact ⟨rfl, .inl ⟨rfl, rfl⟩⟩
  | supervise woken checked =>
    cases checked
    · cases l <;> simp only [Leg.step, reduceCtorEq] at hst
      cases woken <;> cases hst <;> cases hs
      · exact ⟨rfl, .inr (.inr (.inl ⟨rfl, rfl⟩))⟩
      · exact ⟨rfl, .inr (.inl ⟨rfl, rfl⟩)⟩
    · simp only [legStep, reduceCtorEq] at hs
  | unregister =>
    cases l <;> cases hst
    cases hs
    exact ⟨rfl, .inr (.inr (.inr (.inl ⟨rfl, rfl⟩)))⟩
  | retry attempt first =>
    refine ⟨?_, .inr (.inr (.inr (.inr ?_)))⟩
    · rw [hst]
      cases l <;> cases hs <;> rfl
    · cases l <;> simp only [Leg.step, reduceCtorEq] at hst
      split at hst <;> cases hst <;> cases hs <;> exact ⟨rfl, rfl, rfl, by simp, _, _, rfl⟩
  | backoff attempt first woken checked =>
    refine ⟨?_, .inr (.inr (.inr (.inr ?_)))⟩
    · rw [hst]
      cases l <;> cases hs <;> rfl
    · cases checked <;> cases l <;> simp only [Leg.step, reduceCtorEq, Option.some.injEq] at hst
      · cases woken <;> cases hst <;> cases hs <;> exact ⟨rfl, rfl, rfl, by simp, _, _, rfl⟩
      · cases hst
        cases hs
        exact ⟨rfl, rfl, rfl, by simp, _, _, rfl⟩
      · cases hst
        cases hs
        exact ⟨rfl, rfl, rfl, by simp, _, _, rfl⟩
  | initial | firstConnect | connect =>
    cases l <;> cases hst <;> cases hs <;>
      exact ⟨rfl, .inr (.inr (.inr (.inr ⟨rfl, rfl, rfl, by simp, _, _, rfl⟩)))⟩
  | returned => cases l <;> cases hst

/-- What a poll of the supervisor does. -/
theorem watch_cases (hs : step s .watch = some s') :
    ∃ woken conn, s.leg = .supervise woken true ∧ s.future = some ⟨conn, false⟩ ∧
      (s.channel.ready = true ∧ s' = s.closes conn ∨
        s.channel.ready = false ∧ s' = { s with future := some ⟨conn, true⟩ }) := by
  simp only [step] at hs
  split at hs
  · rename_i woken conn hleg hfut
    split at hs <;> cases hs
    · rename_i hready
      exact ⟨woken, conn, hleg, hfut, .inl ⟨hready, rfl⟩⟩
    · rename_i hready
      exact ⟨woken, conn, hleg, hfut, .inr ⟨Bool.eq_false_iff.mpr hready, rfl⟩⟩
  · cases hs

theorem accept_cases {a : Accepted} (hs : step s (.accept a) = some s') :
    ∃ woken conn, s.leg = .supervise woken true ∧ s.future = some ⟨conn, true⟩ ∧
      (a = .pending ∧ s' = { s with future := some ⟨conn, false⟩, leg := .supervise woken false } ∨
        a = .stream ∧ s' = { s with future := some ⟨conn, false⟩ } ∨
        s' = s.lose (.retry 0 false)) := by
  simp only [step] at hs
  split at hs <;> cases hs <;> rename_i hleg hfut <;> refine ⟨_, _, hleg, hfut, ?_⟩
  · exact .inl ⟨rfl, rfl⟩
  · exact .inr (.inl ⟨rfl, rfl⟩)
  · exact .inr (.inr rfl)
  · exact .inr (.inr rfl)
  · exact .inr (.inr rfl)

theorem dropFuture_eq {f : Future} (hf : s.future = some f) :
    s.dropFuture = { s with
      future := none
      channel := { s.channel with receiver := false }
      log := s.log ++ [.dropped f.conn] } := by
  simp only [St.dropFuture, hf]

/-- **The invariant of `reactor_loop`.** The supervisor's own shutdown arm
would break it; the held sender keeps it from being taken. -/
theorem inv_step {l : Label} (hi : Inv s) (hs : step s l = some s') : Inv s' := by
  cases l with
  | leg l =>
    rcases (leg_cases hs).2 with ⟨hleg, rfl⟩ | ⟨hleg, rfl⟩ | ⟨hleg, rfl⟩ | ⟨hleg, rfl⟩ |
      ⟨hleg, hsup, hsup', hun, leg', conn, rfl⟩
    · refine ⟨?_, rfl, hi.unclosed, nofun, nofun, fun hx => ?_⟩
      · intro f hf
        cases hf
        exact ⟨rfl, rfl⟩
      · have := hi.quiet hx
        rw [hleg] at this
        cases this
    · obtain ⟨f, hf⟩ : ∃ f, s.future = some f := by
        rw [← Option.isSome_iff_exists, hi.idle, hleg]
        rfl
      have hconn : f.conn = s.conn := (hi.alive f hf).2
      rw [dropFuture_eq hf]
      refine ⟨nofun, rfl, ?_, fun _ => rfl, fun _ _ => ?_, fun _ => rfl⟩
      · simpa [St.forward, St.shutdownGraceful] using hi.unclosed
      · simp [St.forward, St.shutdownGraceful, hconn]
    · refine ⟨hi.alive, ?_, hi.unclosed, nofun, nofun, fun hx => ?_⟩
      · rw [hi.idle, hleg]
        rfl
      · have := hi.quiet hx
        rw [hleg] at this
        cases this
    · have hx : s.exit = some .shutdown := hi.leaving hleg
      refine ⟨hi.alive, ?_, ?_, fun _ => hx, fun _ _ => ?_, fun _ => rfl⟩
      · rw [hi.idle, hleg]
        rfl
      · simpa using hi.unclosed
      · have := hi.gone (by rw [hleg]; rfl) hx
        simp [this]
    · have hx : s.exit ≠ some .shutdown := by
        intro hx
        rw [hi.quiet hx] at hleg
        cases hleg
      have hf : s.future.isSome = false := hi.idle.trans hsup
      refine ⟨?_, ?_, hi.unclosed, fun h => absurd h hun, fun _ h => absurd h hx, fun h => absurd h hx⟩
      · intro f h
        rw [h] at hf
        cases hf
      · exact hf.trans hsup'.symm
  | watch =>
    obtain ⟨woken, conn, hleg, hfut, ⟨hready, rfl⟩ | ⟨-, rfl⟩⟩ := watch_cases hs
    · -- the sender is held
      rw [Oneshot.ready, (hi.alive _ hfut).1] at hready
      cases hready
    · refine ⟨?_, ?_, hi.unclosed, hi.leaving, hi.gone, hi.quiet⟩
      · intro f hf
        cases hf
        exact ⟨(hi.alive _ hfut).1, (hi.alive _ hfut).2⟩
      · rw [hleg]
        rfl
  | accept a =>
    obtain ⟨woken, conn, hleg, hfut, ⟨-, rfl⟩ | ⟨-, rfl⟩ | rfl⟩ := accept_cases hs
    · refine ⟨?_, rfl, hi.unclosed, nofun, nofun, fun hx => ?_⟩
      · intro f hf
        cases hf
        exact ⟨(hi.alive _ hfut).1, (hi.alive _ hfut).2⟩
      · have := hi.quiet hx
        rw [hleg] at this
        cases this
    · refine ⟨?_, ?_, hi.unclosed, hi.leaving, hi.gone, hi.quiet⟩
      · intro f hf
        cases hf
        exact ⟨(hi.alive _ hfut).1, (hi.alive _ hfut).2⟩
      · rw [hleg]
        rfl
    · rw [St.lose, dropFuture_eq hfut]
      refine ⟨nofun, rfl, ?_, nofun, nofun, nofun⟩
      simpa using hi.unclosed
  | signal =>
    cases hs
    refine ⟨hi.alive, ?_, hi.unclosed, ?_, ?_, ?_⟩
    · exact hi.idle.trans (supervising_notify s.leg).symm
    · exact fun h => hi.leaving ((leaving_notify s.leg).mp h)
    · simpa only [notify_leaving] using hi.gone
    · simpa only [notify_leaving] using hi.quiet

theorem inv_reachable (h : (reactor registered).Reachable s) : Inv s := by
  refine LTS.Inductive.reachable (M := reactor registered) ⟨?_, ?_⟩ h
  · intro s heq
    subst heq
    refine ⟨nofun, ?_, nofun, ?_, nofun, nofun⟩
    · cases registered <;> rfl
    · cases registered <;> nofun
  · exact fun s l s' hi hs => inv_step hi hs

/-- **The leg underneath is the one of `Manager.Leg`**: polling the two arms
of the supervisor makes its poll there. -/
theorem leg_step {l : Label} (h : (reactor registered).Reachable s) (hs : step s l = some s') :
    (∃ k, s.leg.step k = some s'.leg) ∨ s'.leg = s.leg ∨ s'.leg = s.leg.notify := by
  cases l with
  | leg k => exact .inl ⟨k, (leg_cases hs).1⟩
  | watch =>
    obtain ⟨woken, conn, hleg, hfut, ⟨hready, rfl⟩ | ⟨-, rfl⟩⟩ := watch_cases hs
    · rw [Oneshot.ready, ((inv_reachable h).alive _ hfut).1] at hready
      cases hready
    · exact .inr (.inl rfl)
  | accept a =>
    obtain ⟨woken, conn, hleg, hfut, ⟨-, rfl⟩ | ⟨-, rfl⟩ | rfl⟩ := accept_cases hs
    · refine .inl ⟨.pending, ?_⟩
      rw [hleg]
      rfl
    · exact .inr (.inl rfl)
    · refine .inl ⟨.fires, ?_⟩
      rw [hleg]
      rfl
  | signal =>
    cases hs
    exact .inr (.inr rfl)

/-- **`conn.close` is never executed**: by the time the shutdown arm's
handler sends on the channel, the supervisor and its handle on the connection
are gone. The connection is left to be closed by its last handle. -/
theorem never_closed (h : (reactor registered).Reachable s) (hs : ShutDown s) :
    ¬ ClosesInOrder s ∧ (∀ conn code reason, .close conn code reason ∉ s.log) ∧
      .dropped s.conn ∈ s.log := by
  have hi := inv_reachable h
  have hun : .close s.conn 0 "client shutdown" ∉ s.log := hi.unclosed _ _ _
  refine ⟨?_, hi.unclosed, hi.gone (by rw [hs.1]; rfl) hs.2⟩
  intro hboth
  obtain ⟨hcount, -⟩ := hboth
  rw [List.count_eq_zero.mpr hun] at hcount
  cases hcount

end Reactor

/-- The leg supervises, loses its connection and gets another. -/
def reconnects : List Label :=
  [.leg .run, .leg .check, .watch, .accept .stream, .watch, .accept (.error .applicationClosed),
    .leg .run, .leg .check, .leg .fires, .leg .connected]

/-- It supervises a connection with a stream to be accepted when the signal
is sent. -/
def shutsDown : List Label :=
  [.leg .run, .leg .check, .watch, .accept .stream, .signal, .watch, .accept .pending, .leg .check,
    .leg .unregistered]

/-- Shut down without a close. -/
def leavesOpen (s : St) : Bool :=
  s.leg == .returned && s.exit == some .shutdown && s.log.count (.close s.conn 0 "client shutdown") == 0

theorem first_connection_dropped : ∃ s, (reactor true).Reachable s ∧ ShutDown s ∧
    ¬ ClosesInOrder s ∧ .dropped s.conn ∈ s.log := by
  obtain ⟨s, hs, hq⟩ := LTS.exists_of_exec step (fun _ _ => True) (start true) shutsDown leavesOpen
    (by decide)
  simp only [leavesOpen, Bool.and_eq_true, beq_iff_eq] at hq
  have h := never_closed hs.of_guard ⟨hq.1.1, hq.1.2⟩
  exact ⟨s, hs.of_guard, ⟨hq.1.1, hq.1.2⟩, h.1, h.2.2⟩

/-- A shutdown behind a reconnect. -/
theorem shutdown_without_close : ¬ ∀ registered s, (reactor registered).Reachable s → ShutDown s →
    ClosesInOrder s := by
  intro h
  obtain ⟨s, hs, hq⟩ := LTS.exists_of_exec step (fun _ _ => True) (start true)
    (reconnects ++ shutsDown) leavesOpen (by decide)
  simp only [leavesOpen, Bool.and_eq_true, beq_iff_eq] at hq
  obtain ⟨hcount, -⟩ := h true s hs.of_guard ⟨hq.1.1, hq.1.2⟩
  rw [hq.2] at hcount
  cases hcount

end QuickTunnel.Manager.Supervisor
