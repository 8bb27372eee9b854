import QuickTunnel.Manager.Leg
import Mathlib.Algebra.Ring.Nat
import Mathlib.Data.List.Nodup

/-!
# Registrations, waits and the `reconnects` counter

The legs of `Manager.Leg` with what each of them does to the outside: the
`connect_cycle` attempts it makes and with which `conn_index` and
`replace_existing`, the control sessions it gets and gives up, the backoff
it sleeps. All legs add to one counter.

The history of a leg is read by functions of its own: `outage` counts the
retries since the connection was lost or the first registration failed,
`live` the control sessions, `reconnections` the registrations made behind
a lost connection.

* `refines_manager`: underneath are the legs of `Manager.Leg`.
* `task_step`: a leg and its history keep agreeing.
* `discipline`: what holds of every history.
-/
namespace QuickTunnel.Manager.Reconnect

/-- `u64::checked_shl`. -/
def checkedShl (x n : Nat) : Option Nat := if n < 64 then some (x * 2 ^ n % 2 ^ 64) else none

/-- In seconds. mirrors src/manager.rs:460-463 -/
def backoff (attempt : Nat) : Nat := min ((checkedShl 1 (attempt - 1)).getD 30) 30

theorem backoff_eq (attempt : Nat) : backoff attempt = min (2 ^ (attempt - 1)) 30 := by
  unfold backoff checkedShl
  split
  · rename_i h
    have hlt : 2 ^ (attempt - 1) < 2 ^ 64 := Nat.pow_lt_pow_right (by decide) h
    rw [Nat.one_mul, Nat.mod_eq_of_lt hlt, Option.getD_some]
  · rename_i h
    have hle : 2 ^ 64 ≤ 2 ^ (attempt - 1) := Nat.pow_le_pow_right (by decide) (by omega)
    rw [Option.getD_none, Nat.min_self, Nat.min_eq_right]
    exact Nat.le_trans (by decide) hle

example : [1, 2, 3, 4, 5, 6, 20].map backoff = [1, 2, 4, 8, 16, 30, 30] := by decide

/-- `attempt`: a call of `connect_cycle`, which issues one registration at
most; `registered` and `failed`: its results; `lost`: the supervisor returned
`ConnectionLost`; `released`: the leg's `ControlSession` is gone; `waited`: a
whole backoff was slept; `shutdown`: the leg saw the signal. -/
inductive Event
  | attempt (connIndex : UInt8) (replaceExisting : Bool)
  | registered
  | failed
  | lost
  | released
  | waited (secs : Nat)
  | shutdown
  deriving DecidableEq, Repr

/-- The task of one leg. -/
structure Task where
  connIndex : UInt8
  leg : Leg
  history : List Event
  deriving DecidableEq, Repr

/-- What a leg does in a step.
mirrors src/manager.rs:241-256,318-384,428-455 -/
def Task.events (t : Task) : LegLabel → List Event
  | .run =>
    match t.leg with
    | .initial => [.attempt t.connIndex false]
    | _ => []
  | .check =>
    match t.leg with
    | .supervise true _ => [.shutdown]
    | .backoff _ _ true _ => [.shutdown]
    | _ => []
  | .fires =>
    match t.leg with
    | .supervise _ _ => [.lost, .released]
    -- `reactor_loop` passes true, `reactor_loop_after_failure` false
    | .backoff attempt first _ _ => [.waited (backoff attempt), .attempt t.connIndex !first]
    | _ => []
  | .connected => [.registered]
  | .failed => [.failed]
  | .unregistered => [.released]
  | .pending => []

/-- What a leg's step adds to `reconnects`: only the retry loop of
`reactor_loop` does. mirrors src/manager.rs:378 -/
def Leg.counts : Leg → LegLabel → Nat
  | .connect _ false, .connected => 1
  | _, _ => 0

/-- `reconnects`: the count behind the 64-bit counter of `Manager.Metrics`. -/
structure St where
  tasks : List Task
  handle : Handle := .held
  reconnects : Nat := 0
  deriving DecidableEq, Repr

/-- `notify_waiters`. mirrors src/manager.rs:100,117 -/
def St.notifyWaiters (s : St) (handle : Handle) : St :=
  { s with
    tasks := s.tasks.map fun t => { t with leg := t.leg.notify }
    handle := handle }

/-- Leg 0 is spawned with the registration `start_inner` has made on
`conn_index` 0. mirrors src/manager.rs:195-259 -/
def start (haConnections : UInt8) : St where
  tasks := ⟨0, .enter, [.attempt 0 false, .registered]⟩ ::
    (List.range' 1 (haConnections.toNat - 1)).map fun idx => ⟨UInt8.ofNat idx, .initial, []⟩

/-- mirrors src/manager.rs:94-119,314-456 -/
def step (s : St) : Label → Option St
  | .leg i l => (s.tasks[i]?).bind fun t => (t.leg.step l).map fun leg' =>
      { s with
        tasks := s.tasks.set i { t with leg := leg', history := t.history ++ t.events l }
        reconnects := s.reconnects + Leg.counts t.leg l }
  | .shutdownWith => if s.handle = .held then some (s.notifyWaiters .joining) else none
  | .drop => if s.handle = .held then some (s.notifyWaiters .gone) else none
  | .cancel => if s.handle = .joining then some (s.notifyWaiters .gone) else none
  | .joined =>
    if s.handle = .joining ∧ s.tasks.all (·.leg == .returned) then some (s.notifyWaiters .gone) else none

def reactors (haConnections : UInt8) : LTS St Label := LTS.ofFn (· = start haConnections) step

/-! ## Reading a history -/

/-- The retries made in the outage under way, behind a lost connection or a
failed first registration. -/
def outageNext : Option Nat → Event → Option Nat
  | _, .lost => some 0
  | none, .failed => some 0
  | some n, .attempt _ _ => some (n + 1)
  | _, .registered => none
  | o, _ => o

def outage (h : List Event) : Option Nat := h.foldl outageNext none

def liveNext (n : Nat) : Event → Nat
  | .registered => n + 1
  | .released => n - 1
  | _ => n

/-- Control sessions the leg has got and not given up. -/
def live (h : List Event) : Nat := h.foldl liveNext 0

/-- Registrations that succeeded behind a lost connection. -/
def reconnections (h : List Event) : Nat := (h.dropWhile (· != .lost)).count .registered

/-- Up to here nothing was waited for since the last attempt failed, or the
connection was lost. -/
def Idle (h : List Event) : Prop := h.getLast? = some .failed ∨ h.getLast? = some .released

/-- An attempt behind the history `h`: the first one of the leg, without a
wait, or a retry, the `n + 1`st of its outage, behind one wait. -/
structure Attempt (own : UInt8) (h : List Event) (connIndex : UInt8) (replaceExisting : Bool) : Prop where
  index : connIndex = own
  replace : replaceExisting = true ↔ .registered ∈ h
  sessions : live h = 0
  waits : match outage h with
    | none => h = []
    | some n => n < 10 ∧ ∃ idle, Idle idle ∧ h = idle ++ [.waited (min (2 ^ n) 30)]

/-- Ten retries in a row have failed. -/
def GaveUp (h : List Event) : Prop := outage h = some 10 ∧ h.getLast? = some .failed

/-- Has returned, or cannot do anything else. -/
def Ends (leg : Leg) : Prop :=
  leg = .returned ∨
    (∃ l, leg.step l = some .returned) ∧ ∀ l leg', leg.step l = some leg' → leg' = .returned

/-- The reconnect discipline. -/
structure Discipline (s : St) : Prop where
  distinct : (s.tasks.map Task.connIndex).Nodup
  attempts : ∀ t ∈ s.tasks, ∀ before after connIndex replaceExisting,
    t.history = before ++ .attempt connIndex replaceExisting :: after →
      Attempt t.connIndex before connIndex replaceExisting
  sessions : ∀ t ∈ s.tasks, ∀ before, before <+: t.history → live before ≤ 1
  ends : ∀ t ∈ s.tasks, GaveUp t.history ∨ .shutdown ∈ t.history → Ends t.leg
  returned : ∀ t ∈ s.tasks, t.leg = .returned → GaveUp t.history ∨ .shutdown ∈ t.history
  counter : s.reconnects = (s.tasks.map fun t => reconnections t.history).sum

section History
variable {h : List Event} {e : Event}

@[simp] theorem outage_append (h es : List Event) : outage (h ++ es) = es.foldl outageNext (outage h) :=
  List.foldl_append

@[simp] theorem live_append (h es : List Event) : live (h ++ es) = es.foldl liveNext (live h) :=
  List.foldl_append

theorem reconnections_snoc (h : List Event) (e : Event) :
    reconnections (h ++ [e]) =
      reconnections h + if e = .registered ∧ .lost ∈ h then 1 else 0 := by
  induction h with
  | nil => cases e <;> rfl
  | cons x h ih =>
    by_cases hx : x = .lost
    · subst hx
      simp [reconnections, List.count_cons, List.count_append]
    · have hx' : Event.lost ≠ x := Ne.symm hx
      have hcons : ∀ l, reconnections (x :: l) = reconnections l := fun l => by
        simp [reconnections, hx]
      rw [List.cons_append, hcons, hcons, ih]
      simp [hx']

theorem prefix_snoc {pre : List Event} (hp : pre <+: h ++ [e]) : pre <+: h ∨ pre = h ++ [e] := by
  rcases List.prefix_concat_iff.mp hp with rfl | hp
  · exact .inr rfl
  · exact .inl hp

theorem split_snoc {before after : List Event} {x : Event} (hs : h ++ [e] = before ++ x :: after) :
    (before = h ∧ x = e ∧ after = []) ∨ ∃ after', after = after' ++ [e] ∧ h = before ++ x :: after' := by
  rcases List.eq_nil_or_concat after with rfl | ⟨after', y, rfl⟩
  · obtain ⟨rfl, hx⟩ := List.append_inj' hs rfl
    cases hx
    exact .inl ⟨rfl, rfl, rfl⟩
  · rw [List.concat_eq_append, ← List.cons_append, ← List.append_assoc] at hs
    obtain ⟨rfl, hx⟩ := List.append_inj' hs rfl
    cases hx
    exact .inr ⟨after', List.concat_eq_append, rfl⟩

end History

/-! ## One leg -/

/-- What `Discipline` says of a history alone. -/
structure Follows (own : UInt8) (h : List Event) : Prop where
  attempts : ∀ before after connIndex replaceExisting,
    h = before ++ .attempt connIndex replaceExisting :: after →
      Attempt own before connIndex replaceExisting
  sessions : ∀ before, before <+: h → live before ≤ 1

/-- The leg holds a session. -/
structure Up (h : List Event) : Prop where
  outage : outage h = none
  live : live h = 1
  registered : .registered ∈ h
  quiet : .shutdown ∉ h

/-- The leg is in an outage, `n` retries made. -/
structure Down (n : Nat) (first : Bool) (h : List Event) : Prop where
  outage : outage h = some n
  live : live h = 0
  registered : .registered ∈ h ↔ first = false
  lost : .lost ∈ h ↔ first = false
  quiet : .shutdown ∉ h

/-- What the history of a leg is where the leg is. -/
def Agrees (h : List Event) : Leg → Prop
  | .initial => h = []
  | .firstConnect => outage h = none ∧ live h = 0 ∧ .registered ∉ h ∧ .lost ∉ h ∧ .shutdown ∉ h
  | .enter => Up h
  | .supervise _ _ => Up h
  | .retry n first => n ≤ 10 ∧ Down n first h ∧ Idle h ∧ (n = 10 → h.getLast? = some .failed)
  | .backoff n first _ _ => ∃ m, n = m + 1 ∧ m < 10 ∧ Down m first h ∧ Idle h
  | .connect n first => n ≤ 10 ∧ Down n first h ∧ h.getLast? ≠ some .failed
  | .unregister => live h = 1 ∧ .shutdown ∈ h
  | .returned => GaveUp h ∨ .shutdown ∈ h

section Task
variable {own : UInt8} {h : List Event} {e : Event} {t : Task} {l : LegLabel} {leg' : Leg}

theorem Follows.snoc (hf : Follows own h)
    (ha : ∀ connIndex replaceExisting, e = .attempt connIndex replaceExisting →
      Attempt own h connIndex replaceExisting)
    (hl : liveNext (live h) e ≤ 1) : Follows own (h ++ [e]) where
  attempts := by
    intro before after connIndex replaceExisting hs
    rcases split_snoc hs with ⟨rfl, hx, -⟩ | ⟨after', -, hs'⟩
    · exact ha _ _ hx.symm
    · exact hf.attempts _ _ _ _ hs'
  sessions := by
    intro before hp
    rcases prefix_snoc hp with hp | rfl
    · exact hf.sessions _ hp
    · rw [live_append]
      exact hl

/-- Behind a failed attempt. -/
theorem Down.failed {n : Nat} {first : Bool} (hd : Down n first h) : Down n first (h ++ [.failed]) where
  outage := by simp [hd.outage, outageNext]
  live := by simp [hd.live, liveNext]
  registered := by simpa using hd.registered
  lost := by simpa using hd.lost
  quiet := by simpa using hd.quiet

/-- Behind the wait for the next attempt, and the attempt. -/
theorem Down.attempt {n : Nat} {first : Bool} (hd : Down n first h) (secs : Nat) (connIndex : UInt8)
    (replaceExisting : Bool) :
    Down (n + 1) first (h ++ [.waited secs, .attempt connIndex replaceExisting]) where
  outage := by simp [hd.outage, outageNext]
  live := by simp [hd.live, liveNext]
  registered := by simpa using hd.registered
  lost := by simpa using hd.lost
  quiet := by simpa using hd.quiet

/-- Behind an attempt that succeeded. -/
theorem up_registered (ho : live h = 0) (hq : .shutdown ∉ h) : Up (h ++ [.registered]) where
  outage := by
    rw [outage_append]
    cases outage h <;> rfl
  live := by simp [ho, liveNext]
  registered := by simp
  quiet := by simpa using hq

/-- Behind a lost connection. -/
theorem Up.lost (hu : Up h) : Down 0 false (h ++ [.lost, .released]) where
  outage := by simp [outageNext]
  live := by simp [hu.live, liveNext]
  registered := by simpa using hu.registered
  lost := by simp
  quiet := by simpa using hu.quiet

/-- **A step of a leg**: what it does keeps to the discipline, and the
history goes on agreeing with the leg. -/
theorem task_step (hf : Follows t.connIndex t.history) (ha : Agrees t.history t.leg)
    (hs : t.leg.step l = some leg') :
    Follows t.connIndex (t.history ++ t.events l) ∧ Agrees (t.history ++ t.events l) leg' ∧
      reconnections (t.history ++ t.events l) = reconnections t.history + Leg.counts t.leg l := by
  obtain ⟨own, leg, h⟩ := t
  cases leg with
  | initial =>
    cases l <;> cases hs
    obtain rfl : h = [] := ha
    refine ⟨Follows.snoc hf ?_ (Nat.zero_le 1), ?_, rfl⟩
    on_goal 2 => simp [Agrees, Task.events, outage, outageNext, live, liveNext]
    intro connIndex replaceExisting he
    cases he
    exact ⟨rfl, by simp, rfl, rfl⟩
  | firstConnect =>
    obtain ⟨ho, hl, hr, hlost, hq⟩ := ha
    cases l <;> cases hs
    · refine ⟨hf.snoc (by simp) (by simp [hl, liveNext]), up_registered hl hq, ?_⟩
      simp [Task.events, reconnections_snoc, hlost, Leg.counts]
    · refine ⟨hf.snoc (by simp) (by simp [hl, liveNext]),
        ⟨Nat.zero_le 10, ⟨?_, ?_, ?_, ?_, ?_⟩, ?_, by simp⟩, ?_⟩
      · simp [Task.events, ho, outageNext]
      · simp [Task.events, hl, liveNext]
      · simpa [Task.events] using hr
      · simpa [Task.events] using hlost
      · simpa [Task.events] using hq
      · simp [Idle, Task.events]
      · simp [Task.events, reconnections_snoc, Leg.counts]
  | enter =>
    cases l <;> cases hs
    simpa [Task.events, Leg.counts] using ⟨hf, ha⟩
  | supervise woken checked =>
    have hu : Up h := ha
    cases checked <;> cases l <;> simp only [Leg.step, reduceCtorEq, Option.some.injEq] at hs
    · cases woken <;> cases hs
      · simpa [Task.events, Leg.counts] using ⟨hf, ha⟩
      · refine ⟨hf.snoc (by simp) (Nat.le_of_eq hu.live), ?_, ?_⟩
        · simp [Agrees, Task.events, hu.live, liveNext]
        · simp [Task.events, reconnections_snoc, Leg.counts]
    · cases hs
      simpa [Task.events, Leg.counts] using ⟨hf, ha⟩
    · cases hs
      have hidle : Idle (h ++ [.lost, .released]) := by simp [Idle]
      refine ⟨?_, ⟨Nat.zero_le 10, hu.lost, hidle, by simp⟩, ?_⟩
      · have hf' : Follows own (h ++ [.lost]) := hf.snoc (by simp) (Nat.le_of_eq hu.live)
        have hl : liveNext (live (h ++ [.lost])) .released ≤ 1 := by simp [hu.live, liveNext]
        have hf'' : Follows own (h ++ [.lost] ++ [.released]) := hf'.snoc (by simp) hl
        simpa [Task.events] using hf''
      · show reconnections (h ++ [.lost, .released]) = _
        rw [List.append_cons, reconnections_snoc, reconnections_snoc]
        simp [Leg.counts]
  | retry n first =>
    obtain ⟨hn, hd, hidle, hlast⟩ := ha
    cases l <;> simp only [Leg.step, reduceCtorEq] at hs
    split at hs <;> cases hs
    · rename_i hmax
      have hn : n = 10 := by simp only [MAX_RECONNECT_ATTEMPTS] at hmax; omega
      have hgave : GaveUp h := ⟨hn ▸ hd.outage, hlast hn⟩
      simpa [Task.events, Leg.counts] using ⟨hf, Or.inl hgave⟩
    · rename_i hmax
      have hn : n < 10 := by simp only [MAX_RECONNECT_ATTEMPTS] at hmax; omega
      have ha' : Agrees h (.backoff (n + 1) first false false) := ⟨n, rfl, hn, hd, hidle⟩
      simpa [Task.events, Leg.counts] using ⟨hf, ha'⟩
  | backoff n first woken checked =>
    obtain ⟨m, rfl, hm, hd, hidle⟩ := ha
    cases checked <;> cases l <;> simp only [Leg.step, reduceCtorEq, Option.some.injEq] at hs
    · cases woken <;> cases hs
      · have ha' : Agrees h (.backoff (m + 1) first false true) := ⟨m, rfl, hm, hd, hidle⟩
        simpa [Task.events, Leg.counts] using ⟨hf, ha'⟩
      · refine ⟨hf.snoc (by simp) (by simp [hd.live, liveNext]), .inr ?_, ?_⟩
        · simp [Task.events]
        · simp [Task.events, reconnections_snoc, Leg.counts]
    · cases hs
      have ha' : Agrees h (.backoff (m + 1) first woken false) := ⟨m, rfl, hm, hd, hidle⟩
      simpa [Task.events, Leg.counts] using ⟨hf, ha'⟩
    · cases hs
      refine ⟨?_, ⟨hm, hd.attempt _ _ _, ?_⟩, ?_⟩
      · have hf' : Follows own (h ++ [.waited (backoff (m + 1))]) :=
          hf.snoc (by simp) (by simp [hd.live, liveNext])
        have hl : liveNext (live (h ++ [.waited (backoff (m + 1))])) (.attempt own !first) ≤ 1 := by
          simp [hd.live, liveNext]
        have hat : Attempt own (h ++ [.waited (backoff (m + 1))]) own !first := by
          refine ⟨rfl, ?_, by simp [hd.live, liveNext], ?_⟩
          · simpa using hd.registered.symm
          · have ho : outage (h ++ [.waited (backoff (m + 1))]) = some m := by simp [hd.outage, outageNext]
            rw [ho, backoff_eq]
            exact ⟨hm, h, hidle, rfl⟩
        rw [Task.events, List.append_cons]
        refine hf'.snoc ?_ hl
        intro connIndex replaceExisting he
        cases he
        exact hat
      · simp [Task.events]
      · show reconnections (h ++ [.waited (backoff (m + 1)), .attempt own !first]) = _
        rw [List.append_cons, reconnections_snoc, reconnections_snoc]
        simp [Leg.counts]
  | connect n first =>
    obtain ⟨hn, hd, -⟩ := ha
    cases l <;> cases hs
    · refine ⟨hf.snoc (by simp) (by simp [hd.live, liveNext]), up_registered hd.live hd.quiet, ?_⟩
      simp only [Task.events, reconnections_snoc, true_and]
      cases first <;> simp [hd.lost, Leg.counts]
    · refine ⟨hf.snoc (by simp) (by simp [hd.live, liveNext]), ⟨hn, hd.failed, ?_, fun _ => ?_⟩, ?_⟩
      · simp [Idle, Task.events]
      · simp [Task.events]
      · simp [Task.events, reconnections_snoc, Leg.counts]
  | unregister =>
    obtain ⟨hl, hq⟩ := ha
    cases l <;> cases hs
    refine ⟨hf.snoc (by simp) (by simp [hl, liveNext]), .inr ?_, ?_⟩
    · simpa [Task.events] using hq
    · simp [Task.events, reconnections_snoc, Leg.counts]
  | returned => cases l <;> cases hs

/-- A leg that has failed ten times or seen the signal is done for. -/
theorem ends_of_agrees {leg : Leg} (ha : Agrees h leg) (he : GaveUp h ∨ .shutdown ∈ h) : Ends leg := by
  have hup : ∀ {h}, Up h → ¬ (GaveUp h ∨ .shutdown ∈ h) := by
    rintro h hu (hg | hq)
    · rw [GaveUp, hu.outage] at hg
      exact nomatch hg.1
    · exact hu.quiet hq
  have hdown : ∀ {n first}, Down n first h → n = 10 ∧ h.getLast? = some .failed := by
    intro n first hd
    rcases he with hg | hq
    · exact ⟨Option.some.inj (hd.outage.symm.trans hg.1), hg.2⟩
    · exact absurd hq hd.quiet
  cases leg with
  | initial =>
    cases ha
    rcases he with hg | hq
    · exact nomatch hg.1
    · cases hq
  | firstConnect =>
    obtain ⟨ho, -, -, -, hq⟩ := ha
    rcases he with hg | hs
    · rw [GaveUp, ho] at hg
      exact nomatch hg.1
    · exact absurd hs hq
  | enter => exact absurd he (hup ha)
  | supervise woken checked => exact absurd he (hup ha)
  | retry n first =>
    obtain ⟨rfl, -⟩ := hdown ha.2.1
    refine .inr ⟨⟨.run, rfl⟩, ?_⟩
    intro l leg' hs
    cases l <;> cases hs
    rfl
  | backoff n first woken checked =>
    obtain ⟨m, -, hm, hd, -⟩ := ha
    obtain ⟨rfl, -⟩ := hdown hd
    exact absurd hm (Nat.lt_irrefl 10)
  | connect n first => exact absurd (hdown ha.2.1).2 ha.2.2
  | unregister =>
    refine .inr ⟨⟨.unregistered, rfl⟩, ?_⟩
    intro l leg' hs
    cases l <;> cases hs
    rfl
  | returned => exact .inl rfl

theorem agrees_notify {leg : Leg} (ha : Agrees h leg) : Agrees h leg.notify := by
  cases leg <;> exact ha

end Task

/-! ## All legs -/

section Legs
variable {n : UInt8} {s s' : St}

/-- What every leg keeps up. -/
structure Inv (n : UInt8) (s : St) : Prop where
  indices : s.tasks.map Task.connIndex = (start n).tasks.map Task.connIndex
  follows : ∀ t ∈ s.tasks, Follows t.connIndex t.history
  agrees : ∀ t ∈ s.tasks, Agrees t.history t.leg
  counter : s.reconnects = (s.tasks.map fun t => reconnections t.history).sum

/-- One summand grows. -/
theorem sum_set {ts : List Task} {f : Task → Nat} {i : Nat} {t t' : Task} {k : Nat}
    (hi : ts[i]? = some t) (hf : f t' = f t + k) :
    ((ts.set i t').map f).sum = (ts.map f).sum + k := by
  induction ts generalizing i with
  | nil => cases hi
  | cons x ts ih =>
    cases i with
    | zero =>
      cases hi
      simp only [List.set_cons_zero, List.map_cons, List.sum_cons, hf]
      omega
    | succ i =>
      simp only [List.set_cons_succ, List.map_cons, List.sum_cons, ih hi]
      omega

theorem map_set_self {α β : Type} {f : α → β} {ts : List α} {i : Nat} {t t' : α}
    (hi : ts[i]? = some t) (hf : f t' = f t) : (ts.set i t').map f = ts.map f := by
  obtain ⟨hlt, rfl⟩ := List.getElem?_eq_some_iff.mp hi
  have hlt' : i < (ts.map f).length := by simpa using hlt
  rw [List.map_set, hf, ← List.getElem_map f]
  exact List.set_getElem_self hlt'

theorem notify_inv (hi : Inv n s) (handle : Handle) : Inv n (s.notifyWaiters handle) where
  indices := by
    rw [← hi.indices]
    simp [St.notifyWaiters, Function.comp_def]
  follows := by
    intro t ht
    simp only [St.notifyWaiters, List.mem_map] at ht
    obtain ⟨t, ht, rfl⟩ := ht
    exact hi.follows t ht
  agrees := by
    intro t ht
    simp only [St.notifyWaiters, List.mem_map] at ht
    obtain ⟨t, ht, rfl⟩ := ht
    exact agrees_notify (hi.agrees t ht)
  counter := by
    rw [show (s.notifyWaiters handle).reconnects = s.reconnects from rfl, hi.counter]
    simp [St.notifyWaiters, Function.comp_def]

theorem inv_step {l : Label} (hi : Inv n s) (hs : step s l = some s') : Inv n s' := by
  cases l with
  | leg i l =>
    simp only [step, Option.bind_eq_some_iff, Option.map_eq_some_iff] at hs
    obtain ⟨t, ht, leg', hst, rfl⟩ := hs
    have hmem : t ∈ s.tasks := List.mem_of_getElem? ht
    obtain ⟨hf, ha, hr⟩ := task_step (hi.follows t hmem) (hi.agrees t hmem) hst
    refine ⟨?_, ?_, ?_, ?_⟩
    · rw [← hi.indices]
      exact map_set_self ht rfl
    · intro x hx
      rcases List.mem_or_eq_of_mem_set hx with hx | rfl
      · exact hi.follows x hx
      · exact hf
    · intro x hx
      rcases List.mem_or_eq_of_mem_set hx with hx | rfl
      · exact hi.agrees x hx
      · exact ha
    · rw [hi.counter]
      exact (sum_set ht hr).symm
  | joined =>
    simp only [step] at hs
    split at hs <;> cases hs
    exact notify_inv hi _
  | shutdownWith | drop | cancel =>
    simp only [step] at hs
    split at hs <;> cases hs
    exact notify_inv hi _

theorem start_inv (n : UInt8) : Inv n (start n) := by
  have hspawned : ∀ t ∈ (start n).tasks, t = ⟨0, .enter, [.attempt 0 false, .registered]⟩ ∨
      t.leg = .initial ∧ t.history = [] := by
    intro t ht
    simp only [start, List.mem_cons, List.mem_map] at ht
    rcases ht with rfl | ⟨idx, -, rfl⟩
    · exact .inl rfl
    · exact .inr ⟨rfl, rfl⟩
  have hnil : ∀ own, Follows own [] := fun own =>
    ⟨fun before after _ _ hs => by simp at hs, fun before hp => by
      obtain rfl := List.prefix_nil.mp hp
      exact Nat.zero_le 1⟩
  refine ⟨rfl, ?_, ?_, ?_⟩
  · intro t ht
    rcases hspawned t ht with rfl | ⟨-, hh⟩
    · have hfirst : Follows 0 ([] ++ [.attempt 0 false]) := by
        refine (hnil 0).snoc ?_ (Nat.zero_le 1)
        intro connIndex replaceExisting he
        cases he
        exact ⟨rfl, by simp, rfl, rfl⟩
      exact hfirst.snoc nofun (by decide)
    · rw [hh]
      exact hnil _
  · intro t ht
    rcases hspawned t ht with rfl | ⟨hleg, hh⟩
    · exact ⟨by decide, by decide, by decide, by decide⟩
    · rw [hleg, hh]
      exact rfl
  · simp [start, Function.comp_def, reconnections]

/-- The legs' indices are `0..haConnections`, and none of them wraps. -/
theorem indices_nodup (n : UInt8) : ((start n).tasks.map Task.connIndex).Nodup := by
  have hlt : n.toNat < 256 := n.toNat_lt
  have hmap : (start n).tasks.map Task.connIndex =
      (List.range' 0 (n.toNat - 1 + 1)).map UInt8.ofNat := by
    rw [List.range'_succ]
    simp [start, Function.comp_def]
  rw [hmap]
  refine List.Nodup.map_on ?_ List.nodup_range'
  intro i hi j hj hij
  have hi' : i < 256 := by
    have := List.mem_range'_1.mp hi
    omega
  have hj' : j < 256 := by
    have := List.mem_range'_1.mp hj
    omega
  have := congrArg UInt8.toNat hij
  rwa [UInt8.toNat_ofNat', UInt8.toNat_ofNat', Nat.mod_eq_of_lt hi', Nat.mod_eq_of_lt hj'] at this

theorem inv_reachable (h : (reactors n).Reachable s) : Inv n s := by
  refine LTS.Inductive.reachable (M := reactors n) ⟨?_, ?_⟩ h
  · intro s heq
    subst heq
    exact start_inv n
  · exact fun s l s' hi hs => inv_step hi hs

/-- **The reconnect discipline** of any number of legs, over any sequence
and interleaving of what happens to them. -/
theorem discipline (h : (reactors n).Reachable s) : Discipline s where
  distinct := by
    rw [(inv_reachable h).indices]
    exact indices_nodup n
  attempts := fun t ht => ((inv_reachable h).follows t ht).attempts
  sessions := fun t ht => ((inv_reachable h).follows t ht).sessions
  ends := fun t ht => ends_of_agrees ((inv_reachable h).agrees t ht)
  returned := by
    intro t ht hleg
    have ha := (inv_reachable h).agrees t ht
    rw [hleg] at ha
    exact ha
  counter := (inv_reachable h).counter

/-- The legs without their histories. -/
def base (s : St) : Manager.St := ⟨s.tasks.map Task.leg, s.handle⟩

theorem base_start (n : UInt8) : base (start n) = Manager.start n.toNat := by
  simp [base, start, Manager.start, Function.comp_def]

theorem base_notifyWaiters (s : St) (handle : Handle) :
    base (s.notifyWaiters handle) = (base s).notifyWaiters handle := by
  simp [base, St.notifyWaiters, Manager.St.notifyWaiters, Function.comp_def]

/-- **Underneath are the legs of `Manager.Leg`.** -/
theorem refines_manager {l : Label} (hs : step s l = some s') :
    Manager.step (base s) l = some (base s') := by
  cases l with
  | leg i l =>
    simp only [step, Option.bind_eq_some_iff, Option.map_eq_some_iff] at hs
    obtain ⟨t, ht, leg', hst, rfl⟩ := hs
    simp [Manager.step, base, ht, hst, List.map_set]
  | joined =>
    simp only [step] at hs
    split at hs <;> cases hs
    rename_i h
    have hall : (base s).handle = .joining ∧ (base s).legs.all (· == .returned) = true := by
      simpa [base, List.all_map, Function.comp_def] using h
    rw [base_notifyWaiters, Manager.step, if_pos hall]
  | shutdownWith | drop | cancel =>
    simp only [step] at hs
    split at hs <;> cases hs
    rename_i h
    rw [base_notifyWaiters, Manager.step]
    exact if_pos h

end Legs

/-- Leg 1 registers at its first retry, leg 0 loses its connection and gets
another. -/
def outages : List Label :=
  [.leg 1 .run, .leg 1 .failed, .leg 1 .run, .leg 0 .run, .leg 1 .check, .leg 1 .fires, .leg 0 .check,
    .leg 0 .fires, .leg 1 .connected, .leg 0 .run, .leg 0 .check, .leg 0 .fires, .leg 0 .connected]

theorem discipline_reconnected : ∃ s, (reactors 2).Reachable s ∧ s.reconnects = 1 ∧ Discipline s := by
  obtain ⟨s, hs, hq⟩ := LTS.exists_of_exec step (fun _ _ => True) (start 2) outages
    (fun s => s.reconnects == 1) (by decide)
  exact ⟨s, hs.of_guard, beq_iff_eq.mp hq, discipline hs.of_guard⟩

end QuickTunnel.Manager.Reconnect
