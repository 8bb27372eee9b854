import QuickTunnel.Core.Tally
import QuickTunnel.Manager.Reconnect
import Mathlib.Data.List.Induction

/-!
# How long a leg tries

Behind a lost connection, and behind a failed first registration, a leg
sleeps before each of ten retries. What the sleeps add up to is read off the
leg's history, from its last registration on.

* `since`: what a history adds up to behind its last registration.
* `outages_bounded`: no more than 181 seconds and eleven attempts between
  two registrations, and no giving up before.
-/
namespace QuickTunnel.Manager.Reconnect

def Event.secs : Event → Nat
  | .waited secs => secs
  | _ => 0

def Event.attempts : Event → Nat
  | .attempt _ _ => 1
  | _ => 0

/-! ## Adding up -/

section Since
variable {f : Event → Nat} {h before stretch : List Event} {b : Nat}

def sinceNext (f : Event → Nat) (n : Nat) : Event → Nat
  | .registered => 0
  | e => n + f e

/-- The sum of `f` behind the last registration of `h`. -/
def since (f : Event → Nat) (h : List Event) : Nat := h.foldl (sinceNext f) 0

@[simp] theorem since_append (f : Event → Nat) (h es : List Event) :
    since f (h ++ es) = es.foldl (sinceNext f) (since f h) :=
  List.foldl_append

theorem sinceNext_of_ne (f : Event → Nat) (n : Nat) {e : Event} (he : e ≠ .registered) :
    sinceNext f n e = n + f e := by
  cases e <;> first | rfl | exact absurd rfl he

theorem since_stretch (hno : .registered ∉ stretch) :
    since f (before ++ stretch) = since f before + total f stretch := by
  induction stretch generalizing before with
  | nil => simp [total]
  | cons e stretch ih =>
    obtain ⟨he, hno⟩ := not_or.mp (mt List.mem_cons.mpr hno)
    rw [List.append_cons, ih hno, since_append, List.foldl_cons, List.foldl_nil, sinceNext_of_ne f _ (Ne.symm he)]
    simp [total]
    omega

/-- The stretch behind the last registration. -/
theorem since_split (f : Event → Nat) (h : List Event) :
    ∃ before stretch, h = before ++ stretch ∧ .registered ∉ stretch ∧ total f stretch = since f h := by
  induction h using List.reverseRecOn with
  | nil => exact ⟨[], [], rfl, by simp, rfl⟩
  | append_singleton h e ih =>
    by_cases he : e = .registered
    · subst he
      exact ⟨h ++ [.registered], [], (List.append_nil _).symm, by simp, by simp [total, sinceNext]⟩
    · obtain ⟨before, stretch, rfl, hno, hsum⟩ := ih
      refine ⟨before, stretch ++ [e], by rw [List.append_assoc], by simp [hno, Ne.symm he], ?_⟩
      rw [total_snoc, hsum, since_append f _ [e], List.foldl_cons, List.foldl_nil, sinceNext_of_ne f _ he]

/-- At no time has the sum been over `b`. -/
def Within (f : Event → Nat) (b : Nat) (h : List Event) : Prop := ∀ before, before <+: h → since f before ≤ b

theorem Within.nil : Within f b [] := by
  intro before hp
  obtain rfl := List.prefix_nil.mp hp
  exact Nat.zero_le b

theorem Within.snoc (hw : Within f b h) {e : Event} (hb : sinceNext f (since f h) e ≤ b) :
    Within f b (h ++ [e]) := by
  intro before hp
  rcases prefix_snoc hp with hp | rfl
  · exact hw before hp
  · simpa using hb

/-- No stretch without a registration adds up to more. -/
theorem Within.total_le (hw : Within f b h) {after : List Event} (hh : h = before ++ stretch ++ after)
    (hno : .registered ∉ stretch) : total f stretch ≤ b := by
  have hle := hw (before ++ stretch) (hh ▸ List.prefix_append _ _)
  rw [since_stretch hno] at hle
  omega

end Since

/-! ## One leg -/

/-- What `n` retries of an outage have slept. -/
def slept (n : Nat) : Nat := total (fun k => backoff (k + 1)) (List.range n)

theorem slept_succ (n : Nat) : slept (n + 1) = slept n + backoff (n + 1) := by
  rw [slept, List.range_succ, total_snoc, slept]

theorem slept_le {n : Nat} (h : n ≤ 10) : slept n ≤ 181 := by
  have hall : ∀ m < 11, slept m ≤ 181 := by decide
  exact hall n (by omega)

/-- What has been spent where a leg is. -/
def Spent (h : List Event) : Leg → Prop
  | .initial => since Event.secs h = 0 ∧ since Event.attempts h = 0
  | .firstConnect => since Event.secs h = 0 ∧ since Event.attempts h = 1
  | .enter | .supervise _ _ => since Event.secs h = 0 ∧ since Event.attempts h = 0
  | .retry n _ | .connect n _ => n ≤ 10 ∧ since Event.secs h = slept n ∧ since Event.attempts h ≤ n + 1
  | .backoff n _ _ _ => ∃ m, n = m + 1 ∧ m < 10 ∧ since Event.secs h = slept m ∧ since Event.attempts h ≤ m + 1
  | .unregister => .shutdown ∈ h
  | .returned => since Event.secs h = 181 ∨ .shutdown ∈ h

/-- The history is bounded, and the leg is where it says. -/
structure Account (t : Task) : Prop where
  secs : Within Event.secs 181 t.history
  attempts : Within Event.attempts 11 t.history
  spent : Spent t.history t.leg

theorem Account.notify {t : Task} (ha : Account t) : Account { t with leg := t.leg.notify } := by
  refine ⟨ha.secs, ha.attempts, ?_⟩
  have hs := ha.spent
  obtain ⟨own, leg, h⟩ := t
  cases leg <;> exact hs

section Step
variable {t : Task} {l : LegLabel} {leg' : Leg}

/-- A step of a leg is booked. -/
theorem account_step (ha : Account t) (hs : t.leg.step l = some leg') :
    Account { t with leg := leg', history := t.history ++ t.events l } := by
  obtain ⟨hsecs, hattempts, hspent⟩ := ha
  obtain ⟨own, leg, h⟩ := t
  -- what there is to show for the events of a step
  have hone : ∀ e, sinceNext Event.secs (since Event.secs h) e ≤ 181 →
      sinceNext Event.attempts (since Event.attempts h) e ≤ 11 → Spent (h ++ [e]) leg' →
      Account ⟨own, leg', h ++ [e]⟩ := fun e hse hat hsp => ⟨hsecs.snoc hse, hattempts.snoc hat, hsp⟩
  have htwo : ∀ e e', sinceNext Event.secs (since Event.secs h) e ≤ 181 →
      sinceNext Event.attempts (since Event.attempts h) e ≤ 11 →
      since Event.secs (h ++ [e, e']) ≤ 181 → since Event.attempts (h ++ [e, e']) ≤ 11 →
      Spent (h ++ [e, e']) leg' → Account ⟨own, leg', h ++ [e, e']⟩ := by
    intro e e' hse hat hse' hat' hsp
    rw [since_append] at hse' hat'
    refine ⟨?_, ?_, hsp⟩ <;> rw [List.append_cons]
    · exact (hsecs.snoc hse).snoc (by simpa using hse')
    · exact (hattempts.snoc hat).snoc (by simpa using hat')
  have hnone : Spent h leg' → Account ⟨own, leg', h ++ []⟩ := by
    intro hsp
    rw [List.append_nil]
    exact ⟨hsecs, hattempts, hsp⟩
  have hs₀ := hsecs h List.prefix_rfl
  have ha₀ := hattempts h List.prefix_rfl
  cases leg with
  | initial =>
    cases l <;> cases hs
    obtain ⟨h1, h2⟩ : since Event.secs h = 0 ∧ since Event.attempts h = 0 := hspent
    refine hone _ ?_ ?_ ?_ <;> simp [Spent, sinceNext, Event.secs, Event.attempts, h1, h2]
  | firstConnect =>
    obtain ⟨h1, h2⟩ := hspent
    cases l <;> cases hs
    · refine hone _ ?_ ?_ ?_ <;> simp [Spent, sinceNext]
    · refine hone _ ?_ ?_ ?_ <;> simp [Spent, sinceNext, Event.secs, Event.attempts, h1, h2, slept, total]
  | enter =>
    cases l <;> cases hs
    exact hnone hspent
  | supervise woken checked =>
    obtain ⟨h1, h2⟩ : since Event.secs h = 0 ∧ since Event.attempts h = 0 := hspent
    cases checked <;> cases l <;> simp only [Leg.step, reduceCtorEq, Option.some.injEq] at hs
    · cases woken <;> cases hs
      · exact hnone ⟨h1, h2⟩
      · refine hone _ ?_ ?_ ?_ <;> simp [Spent, sinceNext, Event.secs, Event.attempts, h1, h2]
    · cases hs
      exact hnone ⟨h1, h2⟩
    · cases hs
      refine htwo _ _ ?_ ?_ ?_ ?_ ?_ <;>
        simp [Spent, sinceNext, Event.secs, Event.attempts, h1, h2, slept, total]
  | retry n first =>
    obtain ⟨hn, h1, h2⟩ := hspent
    cases l <;> simp only [Leg.step, reduceCtorEq] at hs
    split at hs <;> cases hs
    · rename_i hmax
      have hn : n = 10 := by
        simp only [MAX_RECONNECT_ATTEMPTS] at hmax
        omega
      subst hn
      exact hnone (.inl h1)
    · rename_i hmax
      have hn : n < 10 := by
        simp only [MAX_RECONNECT_ATTEMPTS] at hmax
        omega
      exact hnone ⟨n, rfl, hn, h1, h2⟩
  | backoff n first woken checked =>
    obtain ⟨m, rfl, hm, h1, h2⟩ : ∃ m, n = m + 1 ∧ m < 10 ∧ since Event.secs h = slept m ∧
        since Event.attempts h ≤ m + 1 := hspent
    cases checked <;> cases l <;> simp only [Leg.step, reduceCtorEq, Option.some.injEq] at hs
    · cases woken <;> cases hs
      · exact hnone ⟨m, rfl, hm, h1, h2⟩
      · refine hone _ ?_ ?_ ?_ <;> simp [Spent, sinceNext, Event.secs, Event.attempts, hs₀, ha₀]
    · cases hs
      exact hnone ⟨m, rfl, hm, h1, h2⟩
    · cases hs
      -- the sleep of the next retry
      have hle : slept m + backoff (m + 1) ≤ 181 := by
        rw [← slept_succ]
        exact slept_le hm
      refine htwo _ _ ?_ ?_ ?_ ?_ ?_
      · show since Event.secs h + backoff (m + 1) ≤ 181
        omega
      · show since Event.attempts h + 0 ≤ 11
        omega
      · rw [since_append]
        show since Event.secs h + backoff (m + 1) + 0 ≤ 181
        omega
      · rw [since_append]
        show since Event.attempts h + 0 + 1 ≤ 11
        omega
      · refine ⟨hm, ?_, ?_⟩ <;> rw [since_append]
        · show since Event.secs h + backoff (m + 1) + 0 = slept (m + 1)
          rw [slept_succ, h1, Nat.add_zero]
        · show since Event.attempts h + 0 + 1 ≤ m + 1 + 1
          omega
  | connect n first =>
    obtain ⟨hn, h1, h2⟩ := hspent
    cases l <;> cases hs
    · refine hone _ ?_ ?_ ?_ <;> simp [Spent, sinceNext]
    · refine hone _ hs₀ ha₀ ⟨hn, ?_, ?_⟩ <;> rw [since_append]
      · exact h1
      · exact h2
  | unregister =>
    cases l <;> cases hs
    have hq : .shutdown ∈ h := hspent
    refine hone _ ?_ ?_ ?_ <;> simp [Spent, sinceNext, Event.secs, Event.attempts, hs₀, ha₀, hq]
  | returned => cases l <;> cases hs

end Step

/-! ## All legs -/

section Runs
variable {n : UInt8} {s s' : St}

theorem accounts_notify (h : ∀ t ∈ s.tasks, Account t) (handle : Handle) :
    ∀ t ∈ (s.notifyWaiters handle).tasks, Account t := by
  intro t ht
  simp only [St.notifyWaiters, List.mem_map] at ht
  obtain ⟨t, ht, rfl⟩ := ht
  exact (h t ht).notify

theorem accounts_step {l : Label} (h : ∀ t ∈ s.tasks, Account t) (hs : step s l = some s') :
    ∀ t ∈ s'.tasks, Account t := by
  cases l with
  | leg i l =>
    simp only [step, Option.bind_eq_some_iff, Option.map_eq_some_iff] at hs
    obtain ⟨t, ht, leg', hst, rfl⟩ := hs
    intro x hx
    rcases List.mem_or_eq_of_mem_set hx with hx | rfl
    · exact h x hx
    · exact account_step (h t (List.mem_of_getElem? ht)) hst
  | _ =>
    simp only [step] at hs
    split at hs <;> cases hs
    exact accounts_notify h _

theorem accounts_start : ∀ t ∈ (start n).tasks, Account t := by
  intro t ht
  simp only [start, List.mem_cons, List.mem_map] at ht
  rcases ht with rfl | ⟨idx, -, rfl⟩
  · refine ⟨?_, ?_, rfl, rfl⟩
    · exact (Within.nil.snoc (e := .attempt 0 false) (by decide)).snoc (e := .registered) (by decide)
    · exact (Within.nil.snoc (e := .attempt 0 false) (by decide)).snoc (e := .registered) (by decide)
  · exact ⟨Within.nil, Within.nil, rfl, rfl⟩

theorem accounts_reachable (h : (reactors n).Reachable s) : ∀ t ∈ s.tasks, Account t := by
  have hind : (reactors n).Inductive fun s => ∀ t ∈ s.tasks, Account t :=
    { init := by
        intro s heq
        subst heq
        exact accounts_start
      step := fun s l s' hi hs => accounts_step hi hs }
  exact hind.reachable h

/-- **A leg is not down for long.** Over every run of any number of legs: no
stretch of a leg's history without a registration holds more than 181
seconds of sleep or eleven attempts, and a leg that is over has seen the
shutdown, or has slept all of them in a row. -/
theorem outages_bounded (h : (reactors n).Reachable s) {t : Task} (ht : t ∈ s.tasks) :
    (∀ before stretch after, t.history = before ++ stretch ++ after → .registered ∉ stretch →
      total Event.secs stretch ≤ 181 ∧ total Event.attempts stretch ≤ 11) ∧
    (t.leg = .returned → .shutdown ∈ t.history ∨ ∃ before stretch, t.history = before ++ stretch ∧
      .registered ∉ stretch ∧ total Event.secs stretch = 181) := by
  have ha := accounts_reachable h t ht
  refine ⟨fun before stretch after hh hno => ⟨ha.secs.total_le hh hno, ha.attempts.total_le hh hno⟩, ?_⟩
  intro hleg
  have hspent := ha.spent
  rw [hleg] at hspent
  rcases hspent with hsecs | hq
  · obtain ⟨before, stretch, hh, hno, hsum⟩ := since_split Event.secs t.history
    exact .inr ⟨before, stretch, hh, hno, hsum.trans hsecs⟩
  · exact .inl hq

end Runs

/-- Leg 1 never registers. -/
def neverUp : List Label :=
  [.leg 1 .run, .leg 1 .failed] ++
    (List.replicate 10 [.leg 1 .run, .leg 1 .check, .leg 1 .fires, .leg 1 .failed]).flatten ++ [.leg 1 .run]

/-- It has given up, and nobody has asked it to. -/
def givenUp (s : St) : Bool :=
  match s.tasks[1]? with
  | some t => t.leg == .returned && !t.history.contains .shutdown
  | none => false

theorem task_of_givenUp {s : St} (h : givenUp s = true) :
    ∃ t ∈ s.tasks, t.leg = .returned ∧ .shutdown ∉ t.history := by
  unfold givenUp at h
  split at h
  · rename_i t ht
    simp only [Bool.and_eq_true, beq_iff_eq, Bool.not_eq_true', List.contains_eq_mem,
      decide_eq_false_iff_not] at h
    exact ⟨t, List.mem_of_getElem? ht, h⟩
  · cases h

theorem outages_bounded_neverUp : ∃ s, (reactors 2).Reachable s ∧ ∃ t ∈ s.tasks, t.leg = .returned ∧
    ∃ before stretch, t.history = before ++ stretch ∧ .registered ∉ stretch ∧
      total Event.secs stretch = 181 := by
  obtain ⟨s, hs, hq⟩ := LTS.exists_of_exec step (fun _ _ => True) (start 2) neverUp givenUp (by decide)
  obtain ⟨t, ht, hleg, hq⟩ := task_of_givenUp hq
  rcases (outages_bounded hs.of_guard ht).2 hleg with hq' | hslept
  · exact absurd hq' hq
  · exact ⟨s, hs.of_guard, t, ht, hleg, hslept⟩

end QuickTunnel.Manager.Reconnect
