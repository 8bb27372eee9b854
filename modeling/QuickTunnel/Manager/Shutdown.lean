import QuickTunnel.Manager.Leg

/-!
# The shutdown signal reaches every leg

The signal is kept by nobody: a leg that holds no `Notified` when it is
sent, or leaves its `select!` by the other arm in the very poll it fell
into, supervises, sleeps or registers on as if nothing had happened.

* `keeps_iff`: the steps that lose a leg are exactly these two kinds.
* `none_lost`: without them every leg has learned of the shutdown.
* `reconnect_lost`: a leg that is registering when the signal is sent.
-/
namespace QuickTunnel.Manager

/-- Has left, is leaving, or will see the signal at its next poll. -/
def Leg.learned (leg : Leg) : Bool := leg.leaving || leg.woken

/-- After the signal no leg supervises, sleeps or registers without knowing:
each one that `shutdown_with` joins has learned of the shutdown. -/
def NoneLost (s : St) : Prop := s.handle ≠ .held → ∀ leg ∈ s.legs, leg.learned = true

/-- A signal is sent when every leg that has not returned holds a
`Notified`; a woken `select!` is not left by its other arm. -/
def heard (s : St) : Label → Bool
  | .shutdownWith => s.legs.all fun leg => leg == .returned || leg.listening
  | .drop => s.legs.all fun leg => leg == .returned || leg.listening
  | .leg i .fires => (s.legs[i]?).all fun leg => !leg.woken
  | _ => true

/-- Before the signal no leg knows of it. -/
def Unsignaled (s : St) : Prop :=
  s.handle = .held → ∀ leg ∈ s.legs, leg.woken = false ∧ leg ≠ .unregister

section Signal
variable {n : Nat} {s s' : St}

/-- Everything a step of the manager can do. -/
theorem step_cases {l : Label} (hs : step s l = some s') :
    (∃ i k leg leg', l = .leg i k ∧ s.legs[i]? = some leg ∧ leg.step k = some leg' ∧
      s' = { s with legs := s.legs.set i leg' }) ∨
    ((l = .shutdownWith ∨ l = .drop) ∧ s.handle = .held ∧
      ∃ h, h ≠ .held ∧ s' = s.notifyWaiters h) ∨
    ((l = .cancel ∨ l = .joined) ∧ s.handle = .joining ∧ s' = s.notifyWaiters .gone) := by
  cases l with
  | leg i k =>
    simp only [step, Option.bind_eq_some_iff, Option.map_eq_some_iff] at hs
    obtain ⟨leg, hl, leg', hst, rfl⟩ := hs
    exact .inl ⟨i, k, leg, leg', rfl, hl, hst, rfl⟩
  | shutdownWith =>
    simp only [step] at hs
    split at hs <;> cases hs
    rename_i h
    exact .inr (.inl ⟨.inl rfl, h, .joining, nofun, rfl⟩)
  | drop =>
    simp only [step] at hs
    split at hs <;> cases hs
    rename_i h
    exact .inr (.inl ⟨.inr rfl, h, .gone, nofun, rfl⟩)
  | cancel =>
    simp only [step] at hs
    split at hs <;> cases hs
    rename_i h
    exact .inr (.inr ⟨.inl rfl, h, rfl⟩)
  | joined =>
    simp only [step] at hs
    split at hs <;> cases hs
    rename_i h
    exact .inr (.inr ⟨.inr rfl, h.1, rfl⟩)

/-- The legs after a step of leg `i`. -/
theorem mem_set_legs {i : Nat} {leg' x : Leg} (hx : x ∈ s.legs.set i leg') :
    x = leg' ∨ x ∈ s.legs := by
  rcases List.mem_or_eq_of_mem_set hx with h | h
  · exact .inr h
  · exact .inl h

theorem unsignaled_reachable (h : (manager n).Reachable s) : Unsignaled s := by
  refine LTS.Inductive.reachable (M := manager n) ⟨?_, ?_⟩ h
  · intro s heq _ leg hleg
    subst heq
    simp only [start, List.mem_cons, List.mem_replicate] at hleg
    rcases hleg with rfl | ⟨-, rfl⟩
    · exact ⟨rfl, nofun⟩
    · exact ⟨rfl, nofun⟩
  · intro s l s' hi hs
    rcases step_cases hs with ⟨i, k, leg, leg', -, hl, hst, rfl⟩ | ⟨-, -, h, hne, rfl⟩ | ⟨-, -, rfl⟩
    · intro hh x hx
      rcases mem_set_legs hx with rfl | hx
      · obtain ⟨hw, hu⟩ := hi hh leg (List.mem_of_getElem? hl)
        exact unwoken_step hw hu hst
      · exact hi hh x hx
    · exact fun hh => absurd hh hne
    · exact fun hh => by cases hh

theorem learned_notify {leg : Leg} (h : leg.learned = true) : leg.notify.learned = true := by
  simp only [Leg.learned, Bool.or_eq_true] at h ⊢
  rcases h with h | h
  · exact .inl (by rw [notify_leaving, h])
  · exact .inr (notify_woken leg h)

/-- The first signal teaches exactly the legs that hold a `Notified` or have
returned. -/
theorem notify_learned_iff {leg : Leg} (hw : leg.woken = false) (hu : leg ≠ .unregister) :
    leg.notify.learned = true ↔ (leg == .returned || leg.listening) = true := by
  cases leg with
  | unregister => exact absurd rfl hu
  | supervise woken checked => exact ⟨fun _ => rfl, fun _ => rfl⟩
  | backoff attempt first woken checked => exact ⟨fun _ => rfl, fun _ => rfl⟩
  | returned => exact ⟨fun _ => rfl, fun _ => rfl⟩
  | _ => exact ⟨nofun, fun h => by simp [Leg.listening] at h⟩

/-- A leg that has learned loses that only by firing its other arm. -/
theorem learned_step_iff {leg leg' : Leg} {k : LegLabel} (h : leg.learned = true)
    (hst : leg.step k = some leg') :
    leg'.learned = true ↔ ¬ (k = .fires ∧ leg.woken = true) := by
  simp only [Leg.learned, Bool.or_eq_true] at h ⊢
  by_cases hleave : leg.leaving = true
  · refine ⟨?_, fun _ => .inl (leaving_step hleave hst)⟩
    intro _ hboth
    obtain ⟨-, hw⟩ := hboth
    cases leg with
    | unregister => cases hw
    | returned => cases hw
    | _ => cases hleave
  · have hw := h.resolve_left hleave
    rcases woken_step hw hst with h' | h' | ⟨rfl, h₁, h₂⟩
    · refine ⟨?_, fun _ => .inl h'⟩
      intro _ hboth
      obtain ⟨rfl, -⟩ := hboth
      cases leg with
      | supervise woken checked => cases checked <;> cases hst; cases h'
      | backoff attempt first woken checked => cases checked <;> cases hst; cases h'
      | _ => cases hw
    · refine ⟨?_, fun _ => .inr h'⟩
      intro _ hboth
      obtain ⟨rfl, -⟩ := hboth
      cases leg with
      | supervise woken checked => cases checked <;> cases hst; cases h'
      | backoff attempt first woken checked => cases checked <;> cases hst; cases h'
      | _ => cases hw
    · simp [h₁, h₂, hw]

/-- A step keeps every leg informed iff it is not one of the two that lose
one. -/
theorem keeps_iff {l : Label} (hs : (manager n).Reachable s) (hi : NoneLost s)
    (hst : step s l = some s') : NoneLost s' ↔ heard s l = true := by
  have hun := unsignaled_reachable hs
  rcases step_cases hst with ⟨i, k, leg, leg', rfl, hl, hk, rfl⟩ | ⟨hlab, hheld, h, hne, rfl⟩ |
    ⟨hlab, hjoin, rfl⟩
  · have hmem := List.mem_of_getElem? hl
    have hheard : heard s (.leg i k) = true ↔ ¬ (k = .fires ∧ leg.woken = true) := by
      cases k <;> simp [heard, hl]
    rw [hheard]
    by_cases hheld : s.handle = .held
    · obtain ⟨hw, -⟩ := hun hheld leg hmem
      exact ⟨fun _ => by simp [hw], fun _ hne => absurd hheld hne⟩
    · rw [← learned_step_iff (hi hheld leg hmem) hk]
      constructor
      · intro h
        apply h hheld leg'
        obtain ⟨hlt, -⟩ := List.getElem?_eq_some_iff.mp hl
        exact List.mem_set hlt leg'
      · intro h _ x hx
        rcases mem_set_legs hx with rfl | hx
        · exact h
        · exact hi hheld x hx
  · have hheard : heard s l = true ↔ ∀ leg ∈ s.legs, leg.notify.learned = true := by
      have hiff : ∀ leg ∈ s.legs, (leg.notify.learned = true ↔
          (leg == .returned || leg.listening) = true) := fun leg hleg =>
        notify_learned_iff (hun hheld leg hleg).1 (hun hheld leg hleg).2
      rcases hlab with rfl | rfl
      · simp only [heard, List.all_eq_true]
        exact forall₂_congr fun leg hleg => (hiff leg hleg).symm
      · simp only [heard, List.all_eq_true]
        exact forall₂_congr fun leg hleg => (hiff leg hleg).symm
    rw [hheard]
    constructor
    · intro hnone leg hleg
      exact hnone hne _ (List.mem_map_of_mem hleg)
    · intro hall _ x hx
      obtain ⟨leg, hleg, rfl⟩ := List.mem_map.mp hx
      exact hall leg hleg
  · refine ⟨fun _ => by rcases hlab with rfl | rfl <;> rfl, fun _ _ x hx => ?_⟩
    obtain ⟨leg, hleg, rfl⟩ := List.mem_map.mp hx
    exact learned_notify (hi (by rw [hjoin]; nofun) leg hleg)

/-- **The signal is never lost**, for any number of legs, in the runs that
send it when every leg not yet returned holds a `Notified` and never leave
a woken `select!` by its other arm. -/
theorem none_lost (h : ((manager n).guard fun s l => heard s l = true).Reachable s) : NoneLost s := by
  have hboth : (manager n).Reachable s ∧ NoneLost s := by
    refine LTS.Inductive.reachable (M := (manager n).guard fun s l => heard s l = true)
      (I := fun s => (manager n).Reachable s ∧ NoneLost s) ⟨?_, ?_⟩ h
    · intro s heq
      subst heq
      exact ⟨.of_init rfl, fun hh => absurd rfl hh⟩
    · intro s l s' hinv hstep
      obtain ⟨hr, hi⟩ := hinv
      obtain ⟨hst, hg⟩ := hstep
      exact ⟨hr.step hst, (keeps_iff hr hi hst).mpr hg⟩
  exact hboth.2

end Signal

/-- Two legs at their `select!`s when the caller shuts down. -/
theorem two_legs_learn : ∃ s, ((manager 2).guard fun s l => heard s l = true).Reachable s ∧
    s.handle = .joining ∧ NoneLost s := by
  obtain ⟨s, hs, hq⟩ := LTS.exists_of_exec step (fun s l => heard s l = true) (start 2)
    [.leg 0 .run, .leg 1 .run, .leg 1 .failed, .leg 1 .run, .shutdownWith]
    (fun s => s.handle == .joining) (by decide)
  exact ⟨s, hs, by simpa using hq, none_lost hs⟩

/-- A leg that is registering anew when the caller shuts down: it goes on
to supervise the new connection, and is joined forever. -/
theorem reconnect_lost : ∃ s, (manager 1).Reachable s ∧ s.handle = .joining ∧
    s.legs = [.supervise false false] ∧ ¬ NoneLost s := by
  obtain ⟨s, hs, hq⟩ := LTS.exists_of_exec step (fun _ _ => True) (start 1)
    [.leg 0 .run, .leg 0 .check, .leg 0 .fires, .leg 0 .run, .leg 0 .check, .leg 0 .fires,
      .shutdownWith, .leg 0 .connected, .leg 0 .run]
    (fun s => s == ⟨[.supervise false false], .joining⟩) (by decide)
  rw [beq_iff_eq] at hq
  subst hq
  exact ⟨_, hs.of_guard, rfl, rfl, fun h => absurd (h nofun _ (List.mem_singleton_self _)) (by decide)⟩

end QuickTunnel.Manager
