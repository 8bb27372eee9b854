import QuickTunnel.Core.LTS

/-!
# HA legs and the shutdown signal (`manager.rs`)

Every HA leg is a task: `reactor_loop`, behind its initial `connect_cycle`
and `reactor_loop_after_failure` where it has one. A task runs from one
`await` to the next; a biased `select!` polls its shutdown arm first and
its second arm only if the first is pending, and the signal can land
between the two.

`notify_waiters` wakes the `Notified` futures that exist. A leg has one
while it is at a `select!`, and no other: the state carries whether it has
been woken.

* `Leg.step`: one leg. `manager`: all legs and the handle.
* `woken_step`, `unwoken_step`, `leaving_step`: a leg's step against the signal.
-/
namespace QuickTunnel.Manager

/-- mirrors src/manager.rs:40 -/
def MAX_RECONNECT_ATTEMPTS : Nat := 10

/-- Where a leg is. `woken`: its `Notified` has been; `checked`: the current
poll has found the shutdown arm pending and is at the other one; `first`:
no registration of this leg has succeeded yet, so the attempt is made with
`replace_existing = false`. -/
inductive Leg
  /-- spawned, `connect_cycle` not begun (legs 1 and up) -/
  | initial
  | firstConnect
  /-- at the top of `reactor_loop`, holding a connection -/
  | enter
  | supervise (woken checked : Bool)
  /-- at the top of a retry loop, `attempt` attempts made -/
  | retry (attempt : Nat) (first : Bool)
  | backoff (attempt : Nat) (first woken checked : Bool)
  | connect (attempt : Nat) (first : Bool)
  /-- in `control.shutdown_graceful` -/
  | unregister
  | returned
  deriving DecidableEq, Repr

/-- `run`: on to the next `await`; `check`: the shutdown arm is polled;
`pending` and `fires`: the other arm is (the supervisor returns
`ConnectionLost`, the sleep ends). -/
inductive LegLabel
  | run
  | check
  | pending
  | fires
  | connected
  | failed
  | unregistered
  deriving DecidableEq, Repr

/-- mirrors src/manager.rs:239-257,314-389,407-456 -/
def Leg.step : Leg → LegLabel → Option Leg
  | .initial, .run => some .firstConnect
  | .firstConnect, .connected => some .enter
  | .firstConnect, .failed => some (.retry 0 true)
  | .enter, .run => some (.supervise false false)
  | .supervise woken false, .check => if woken then some .unregister else some (.supervise woken true)
  | .supervise woken true, .pending => some (.supervise woken false)
  -- the select drops its `Notified`, woken or not
  | .supervise _ true, .fires => some (.retry 0 false)
  | .retry attempt first, .run =>
    if MAX_RECONNECT_ATTEMPTS < attempt + 1 then some .returned
    else some (.backoff (attempt + 1) first false false)
  | .backoff attempt first woken false, .check =>
    if woken then some .returned else some (.backoff attempt first woken true)
  | .backoff attempt first woken true, .pending => some (.backoff attempt first woken false)
  | .backoff attempt first _ true, .fires => some (.connect attempt first)
  -- `reactor_loop_after_failure` hands over to `reactor_loop`
  | .connect _ _, .connected => some .enter
  | .connect attempt first, .failed => some (.retry attempt first)
  | .unregister, .unregistered => some .returned
  | _, _ => none

/-- `notify_waiters`: the `Notified` that exists is woken, nothing is stored. -/
def Leg.notify : Leg → Leg
  | .supervise _ checked => .supervise true checked
  | .backoff attempt first _ checked => .backoff attempt first true checked
  | leg => leg

/-- Holds a `Notified`. -/
def Leg.listening : Leg → Bool
  | .supervise _ _ => true
  | .backoff _ _ _ _ => true
  | _ => false

/-- Holds a `Notified` that has been woken. -/
def Leg.woken : Leg → Bool
  | .supervise woken _ => woken
  | .backoff _ _ woken _ => woken
  | _ => false

/-- Is leaving because of the shutdown, or has left. -/
def Leg.leaving : Leg → Bool
  | .unregister => true
  | .returned => true
  | _ => false

/-- What the caller does with the `QuickTunnelHandle`. -/
inductive Handle
  | held
  | joining
  | gone
  deriving DecidableEq, Repr

structure St where
  legs : List Leg
  handle : Handle := .held
  deriving DecidableEq, Repr

/-- One leg moves, or the caller: `shutdown_with`, a dropped handle, a
dropped `shutdown_with` future, the last join. -/
inductive Label
  | leg (i : Nat) (l : LegLabel)
  | shutdownWith
  | drop
  | cancel
  | joined
  deriving DecidableEq, Repr

/-- mirrors src/manager.rs:100,117 -/
def St.notifyWaiters (s : St) (handle : Handle) : St := ⟨s.legs.map Leg.notify, handle⟩

/-- Leg 0 is spawned with its connection, the others without.
mirrors src/manager.rs:213-259 -/
def start (haConnections : Nat) : St := ⟨.enter :: List.replicate (haConnections - 1) .initial, .held⟩

/-- mirrors src/manager.rs:94-119; `Drop` signals again behind a join -/
def step (s : St) : Label → Option St
  | .leg i l => (s.legs[i]?).bind fun leg => (leg.step l).map fun leg' => { s with legs := s.legs.set i leg' }
  | .shutdownWith => if s.handle = .held then some (s.notifyWaiters .joining) else none
  | .drop => if s.handle = .held then some (s.notifyWaiters .gone) else none
  | .cancel => if s.handle = .joining then some (s.notifyWaiters .gone) else none
  | .joined =>
    if s.handle = .joining ∧ s.legs.all (· == .returned) then some (s.notifyWaiters .gone) else none

def manager (haConnections : Nat) : LTS St Label := LTS.ofFn (· = start haConnections) step

/-! ## Steps and the signal -/

section Leg
variable {leg leg' : Leg} {l : LegLabel}

theorem notify_leaving (leg : Leg) : leg.notify.leaving = leg.leaving := by cases leg <;> rfl

theorem notify_woken (leg : Leg) (h : leg.woken = true) : leg.notify.woken = true := by
  cases leg <;> first | rfl | cases h

/-- A woken leg leaves for good, or goes on being woken, unless its other
arm fires in the poll the signal fell into. -/
theorem woken_step (hw : leg.woken = true) (hs : leg.step l = some leg') :
    leg'.leaving = true ∨ leg'.woken = true ∨
      (l = .fires ∧ leg'.leaving = false ∧ leg'.woken = false) := by
  cases leg with
  | supervise woken checked =>
    cases hw
    cases checked <;> cases l <;> simp only [Leg.step, if_true, Option.some.injEq, reduceCtorEq] at hs <;>
      subst hs
    · exact .inl rfl
    · exact .inr (.inl rfl)
    · exact .inr (.inr ⟨rfl, rfl, rfl⟩)
  | backoff attempt first woken checked =>
    cases hw
    cases checked <;> cases l <;> simp only [Leg.step, if_true, Option.some.injEq, reduceCtorEq] at hs <;>
      subst hs
    · exact .inl rfl
    · exact .inr (.inl rfl)
    · exact .inr (.inr ⟨rfl, rfl, rfl⟩)
  | _ => cases hw

theorem leaving_step (hw : leg.leaving = true) (hs : leg.step l = some leg') :
    leg'.leaving = true := by
  cases leg with
  | unregister => cases l <;> cases hs; rfl
  | returned => cases l <;> cases hs
  | _ => cases hw

/-- A leg is only woken by the signal. -/
theorem unwoken_step (hw : leg.woken = false) (hl : leg ≠ .unregister) (hs : leg.step l = some leg') :
    leg'.woken = false ∧ leg' ≠ .unregister := by
  cases leg with
  | supervise woken checked =>
    cases hw
    cases checked <;> cases l <;> cases hs <;> exact ⟨rfl, nofun⟩
  | backoff attempt first woken checked =>
    cases hw
    cases checked <;> cases l <;> cases hs <;> exact ⟨rfl, nofun⟩
  | retry attempt first =>
    cases l <;> simp only [Leg.step, reduceCtorEq] at hs
    split at hs <;> cases hs <;> exact ⟨rfl, nofun⟩
  | unregister => exact absurd rfl hl
  | _ => cases l <;> cases hs <;> exact ⟨rfl, nofun⟩

end Leg

end QuickTunnel.Manager
