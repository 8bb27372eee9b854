import QuickTunnel.Core.Tally
import QuickTunnel.Manager.Shutdown

/-!
# When `shutdown_with` returns

`shutdown_with` joins every leg. A leg that has learned of the shutdown
returns by itself: it unregisters, or leaves its sleep. One that has not
supervises and registers on, and only a leg that has just failed for the
tenth time in a row ends all the same.

* `leaves_step`: such a leg comes closer to its end by each of its steps.
* `stays_step`: any other leg has a step to go on with.
* `shutdown_returns_iff`: the states from which the join comes about.
-/
namespace QuickTunnel.Manager

/-- At the top of its retry loop with all attempts made. -/
def Leg.givingUp : Leg → Bool
  | .retry attempt _ => MAX_RECONNECT_ATTEMPTS < attempt + 1
  | _ => false

/-- Is on its way out, or out. -/
def Leg.leaves (leg : Leg) : Bool := leg.learned || leg.givingUp

/-- What happens without the caller. A woken `select!` is not left by its
other arm: it would have to fire in the very poll the signal fell into. -/
def Unhurried (s : St) : Label → Prop
  | .leg i .fires => ∀ leg ∈ s.legs[i]?, leg.woken = false
  | .leg _ _ => True
  | .joined => True
  | _ => False

/-- All legs are over, and the last join has returned. -/
def Joined (s : St) : Prop := s.handle = .gone ∧ ∀ leg ∈ s.legs, leg = .returned

/-- Polls and calls to the end. -/
def Leg.left : Leg → Nat
  | .supervise _ checked => if checked then 3 else 2
  | .backoff _ _ _ checked => if checked then 2 else 1
  | .retry _ _ => 1
  | .unregister => 1
  | _ => 0

section Leg
variable {leg leg' : Leg} {l : LegLabel}

/-- A leg on its way out that is not over can go on, without its other arm. -/
theorem leaves_moves (h : leg.leaves = true) (hne : leg ≠ .returned) :
    ∃ l leg', l ≠ .fires ∧ leg.step l = some leg' := by
  cases leg with
  | supervise woken checked =>
    cases checked
    · cases woken
      · cases h
      · exact ⟨.check, .unregister, by decide, rfl⟩
    · exact ⟨.pending, _, by decide, rfl⟩
  | backoff attempt first woken checked =>
    cases checked
    · cases woken
      · cases h
      · exact ⟨.check, .returned, by decide, rfl⟩
    · exact ⟨.pending, _, by decide, rfl⟩
  | retry attempt first =>
    refine ⟨.run, .returned, by decide, ?_⟩
    have hmax : MAX_RECONNECT_ATTEMPTS < attempt + 1 := of_decide_eq_true h
    rw [Leg.step, if_pos hmax]
  | unregister => exact ⟨.unregistered, .returned, by decide, rfl⟩
  | returned => exact absurd rfl hne
  | _ => cases h

theorem leaves_step (h : leg.leaves = true) (hl : l = .fires → leg.woken = false)
    (hs : leg.step l = some leg') : leg'.leaves = true ∧ leg'.left < leg.left := by
  cases leg with
  | supervise woken checked =>
    obtain rfl : woken = true := by simpa [Leg.leaves, Leg.learned, Leg.leaving, Leg.woken, Leg.givingUp] using h
    cases checked <;> cases l <;> cases hs
    · exact ⟨rfl, by decide⟩
    · exact ⟨rfl, by decide⟩
    · cases hl rfl
  | backoff attempt first woken checked =>
    obtain rfl : woken = true := by simpa [Leg.leaves, Leg.learned, Leg.leaving, Leg.woken, Leg.givingUp] using h
    cases checked <;> cases l <;> cases hs
    · exact ⟨rfl, Nat.zero_lt_one⟩
    · exact ⟨rfl, Nat.lt_succ_self 1⟩
    · cases hl rfl
  | retry attempt first =>
    have hmax : MAX_RECONNECT_ATTEMPTS < attempt + 1 := of_decide_eq_true h
    cases l <;> simp only [Leg.step, reduceCtorEq, if_pos hmax, Option.some.injEq] at hs
    subst hs
    exact ⟨rfl, Nat.zero_lt_one⟩
  | unregister =>
    cases l <;> cases hs
    exact ⟨rfl, Nat.zero_lt_one⟩
  | returned => cases l <;> cases hs
  | _ => cases h

/-- Any other leg can go on and be none of these. -/
theorem stays_step (h : leg.leaves = false) :
    ∃ l leg', l ≠ .fires ∧ leg.step l = some leg' ∧ leg'.leaves = false := by
  cases leg with
  | initial => exact ⟨.run, _, by decide, rfl, rfl⟩
  | firstConnect => exact ⟨.connected, _, by decide, rfl, rfl⟩
  | enter => exact ⟨.run, _, by decide, rfl, rfl⟩
  | supervise woken checked =>
    obtain rfl : woken = false := by simpa [Leg.leaves, Leg.learned, Leg.leaving, Leg.woken, Leg.givingUp] using h
    cases checked
    · exact ⟨.check, _, by decide, rfl, rfl⟩
    · exact ⟨.pending, _, by decide, rfl, rfl⟩
  | backoff attempt first woken checked =>
    obtain rfl : woken = false := by simpa [Leg.leaves, Leg.learned, Leg.leaving, Leg.woken, Leg.givingUp] using h
    cases checked
    · exact ⟨.check, _, by decide, rfl, rfl⟩
    · exact ⟨.pending, _, by decide, rfl, rfl⟩
  | retry attempt first =>
    have hmax : ¬ MAX_RECONNECT_ATTEMPTS < attempt + 1 := of_decide_eq_false h
    exact ⟨.run, .backoff (attempt + 1) first false false, by decide, by rw [Leg.step, if_neg hmax], rfl⟩
  | connect attempt first => exact ⟨.connected, _, by decide, rfl, rfl⟩
  | unregister => cases h
  | returned => cases h

end Leg

section Join
variable {n : Nat} {s s' : St} {l : Label}

/-- Being joined, with every leg on its way out. -/
def Ending (s : St) : Prop := s.handle = .joining ∧ ∀ leg ∈ s.legs, leg.leaves = true

/-- Being joined, with a leg that is not. -/
def Held (s : St) : Prop :=
  s.handle = .joining ∧ ∃ (i : Nat) (leg : Leg), s.legs[i]? = some leg ∧ leg.leaves = false

theorem ending_or_held (h : s.handle = .joining) : Ending s ∨ Held s := by
  by_cases hall : ∀ leg ∈ s.legs, leg.leaves = true
  · exact .inl ⟨h, hall⟩
  · push Not at hall
    obtain ⟨leg, hmem, hno⟩ := hall
    obtain ⟨i, hi⟩ := List.mem_iff_getElem?.mp hmem
    exact .inr ⟨h, i, leg, hi, by simpa using hno⟩

theorem unhurried_leg {i : Nat} {leg : Leg} {k : LegLabel} (hi : s.legs[i]? = some leg)
    (hu : Unhurried s (.leg i k)) : k = .fires → leg.woken = false := by
  rintro rfl
  exact hu leg hi

theorem unhurried_of_ne {i : Nat} {k : LegLabel} (hk : k ≠ .fires) : Unhurried s (.leg i k) := by
  cases k <;> first | exact absurd rfl hk | trivial

theorem step_leg {i : Nat} {leg leg' : Leg} {k : LegLabel} (hi : s.legs[i]? = some leg)
    (hk : leg.step k = some leg') : step s (.leg i k) = some { s with legs := s.legs.set i leg' } := by
  simp only [step, hi, Option.bind_some, hk, Option.map_some]

/-- Somebody can move: a leg that is not over, or the join. -/
theorem ending_moves (h : Ending s) : ∃ l s', Unhurried s l ∧ (manager n).step s l s' := by
  by_cases hall : ∀ leg ∈ s.legs, leg = .returned
  · refine ⟨.joined, s.notifyWaiters .gone, trivial, ?_⟩
    show step s .joined = _
    rw [step, if_pos ⟨h.1, by simpa using hall⟩]
  · push Not at hall
    obtain ⟨leg, hmem, hne⟩ := hall
    obtain ⟨i, hi⟩ := List.mem_iff_getElem?.mp hmem
    obtain ⟨k, leg', hk, hst⟩ := leaves_moves (h.2 leg hmem) hne
    exact ⟨.leg i k, _, unhurried_of_ne hk, step_leg hi hst⟩

theorem total_left_lt {i : Nat} {leg leg' : Leg} {legs : List Leg} (hi : legs[i]? = some leg)
    (hlt : leg'.left < leg.left) : total Leg.left (legs.set i leg') < total Leg.left legs := by
  obtain ⟨hlen, rfl⟩ := List.getElem?_eq_some_iff.mp hi
  have hback : total Leg.left ((legs.set i leg').set i legs[i]) =
      total Leg.left (legs.set i leg') + (legs[i].left - leg'.left) :=
    total_set (by rw [List.getElem?_set_self hlen]) (by omega)
  rw [List.set_set, List.set_getElem_self] at hback
  omega

/-- Each step but the last join brings a leg closer to its end. -/
theorem ending_step (h : Ending s) (hu : Unhurried s l) (hs : step s l = some s') :
    Joined s' ∨ Ending s' ∧ total Leg.left s'.legs < total Leg.left s.legs := by
  rcases step_cases hs with ⟨i, k, leg, leg', rfl, hi, hst, rfl⟩ | ⟨rfl | rfl, -⟩ | ⟨rfl | rfl, -⟩
  · obtain ⟨hleaves, hlt⟩ := leaves_step (h.2 leg (List.mem_of_getElem? hi)) (unhurried_leg hi hu) hst
    refine .inr ⟨⟨h.1, fun x hx => ?_⟩, total_left_lt hi hlt⟩
    rcases mem_set_legs hx with rfl | hx
    · exact hleaves
    · exact h.2 x hx
  · cases hu
  · cases hu
  · cases hu
  · simp only [step] at hs
    split at hs <;> cases hs
    rename_i hall
    refine .inl ⟨rfl, fun x hx => ?_⟩
    obtain ⟨leg, hleg, rfl⟩ := List.mem_map.mp hx
    obtain rfl : leg = .returned := by simpa using List.all_eq_true.mp hall.2 leg hleg
    rfl

/-- A leg that is not on its way out holds the join up, for as long as it
likes. -/
theorem held_stays (h : Held s) : ∃ l s', Unhurried s l ∧ (manager n).step s l s' ∧ Held s' := by
  obtain ⟨hj, i, leg, hi, hno⟩ := h
  obtain ⟨k, leg', hk, hst, hno'⟩ := stays_step hno
  obtain ⟨hlen, -⟩ := List.getElem?_eq_some_iff.mp hi
  exact ⟨.leg i k, _, unhurried_of_ne hk, step_leg hi hst, hj, i, leg', List.getElem?_set_self hlen, hno'⟩

/-- **When `shutdown_with` returns.** With any number of legs, wherever they
are: the join comes about, whatever the legs do, exactly if each of them has
learned of the shutdown or is giving up. -/
theorem shutdown_returns_iff (h : s.handle = .joining) :
    (manager n).Inevitable Unhurried Joined s ↔ ∀ leg ∈ s.legs, leg.leaves = true := by
  constructor
  · intro hinev
    rcases ending_or_held h with hend | hheld
    · exact hend.2
    · refine absurd hinev (LTS.not_inevitable (I := Held) ?_ (fun s hs => .inr (held_stays hs)) hheld)
      intro s hs hdone
      have hgone := hdone.1
      rw [hs.1] at hgone
      cases hgone
  · intro hall
    exact LTS.inevitable_of_measure (I := Ending) (fun s => total Leg.left s.legs)
      (fun s hs => .inr (ending_moves hs)) (fun s l s' hs hu hst => ending_step hs hu hst) ⟨h, hall⟩

end Join

/-- Two legs that sleep and supervise when the signal comes. -/
theorem shutdown_returns_two : (manager 2).Inevitable Unhurried Joined
    ⟨[.supervise true true, .backoff 1 true true false], .joining⟩ :=
  (shutdown_returns_iff rfl).mpr (by decide)

end QuickTunnel.Manager
