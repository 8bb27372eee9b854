import QuickTunnel.Pool.Concurrent

/-!
# What the pool is for

An `acquire` opens a socket only once it has found the list empty. A socket
that is idle when another one is opened was in somebody's hands when that
`acquire` looked, so the sockets open at any time are no more than the
callers were at one time.

* `Bounded.step`: only the critical section of `acquire` can add a socket,
  and it does so on an empty list.
-/
namespace QuickTunnel.Pool.Concurrent

/-- At one of the awaits of `acquire`. -/
def Call.waiting : Call → Bool
  | .locking => true
  | .connecting => true
  | _ => false

/-- No more than `k` callers wait for a socket or have one. -/
def AtWork (k : Nat) (s : St) : Prop :=
  ∀ ids : List Nat, ids.Nodup → (∀ i ∈ ids, (s.call i).waiting = true) →
    ids.length + s.held.length + s.releasing.length ≤ k

/-- The open sockets, and those being opened. -/
def Bounded (k : Nat) (s : St) : Prop :=
  ∀ ids : List Nat, ids.Nodup → (∀ i ∈ ids, s.call i = .connecting) → ids.length + s.owned.length ≤ k

section Step
variable {p : Pool Nat} {k : Nat} {s s' : St} {l : Label}

/-- Nobody begins to connect, and no socket is opened. -/
theorem Bounded.of_le (h : Bounded k s) (hcall : ∀ i, s'.call i = .connecting → s.call i = .connecting)
    (howned : s'.owned.length ≤ s.owned.length) : Bounded k s' := by
  intro ids hnd hids
  have := h ids hnd fun i hi => hcall i (hids i hi)
  omega

theorem connecting_of_update {i j : Nat} {c : Call} (hc : c ≠ .connecting)
    (h : Function.update s.call i c j = .connecting) : s.call j = .connecting ∧ j ≠ i := by
  by_cases hj : j = i
  · subst hj
    rw [Function.update_self] at h
    exact absurd h hc
  · rw [Function.update_of_ne hj] at h
    exact ⟨h, hj⟩

theorem Bounded.examine (h : Bounded k s) (hi : Inv p s) (hw : AtWork k s) {i : Nat} {delays : List Nat}
    (hs : step s (.examine i delays) = some s') : Bounded k s' := by
  obtain ⟨hlock, ⟨e, rest, he, -, rfl⟩ | ⟨-, now, -, rfl⟩⟩ := examine_cases hi hs
  · refine h.of_le (fun j hj => (connecting_of_update (by simp) hj).1) ?_
    simp only [St.owned, St.idleSockets, he, List.length_append, List.length_map, List.length_cons]
    omega
  · -- nothing is idle: all there is is with the callers
    intro ids hnd hids
    have := hw ids hnd fun j hj => by
      by_cases hji : j = i
      · subst hji
        rw [hlock]
        rfl
      · have hcon := hids j hj
        simp only [Function.update_of_ne hji] at hcon
        rw [hcon]
        rfl
    simp only [St.owned, St.idleSockets, List.map_nil, List.nil_append, List.length_append]
    omega

/-- **One step**: the bound on the callers matters to `acquire` alone. -/
theorem Bounded.step (h : Bounded k s) (hi : Inv p s) (hw : ∀ i delays, l = .examine i delays → AtWork k s)
    (hs : Concurrent.step s l = some s') : Bounded k s' := by
  cases l with
  | examine i delays => exact h.examine hi (hw i delays rfl) hs
  | tick d =>
    simp only [Concurrent.step, Option.some.injEq] at hs
    subst hs
    exact h
  | sends x | fin x =>
    simp only [Concurrent.step, Option.ite_none_right_eq_some, Option.some.injEq] at hs
    obtain ⟨-, rfl⟩ := hs
    exact h
  | acquire i =>
    simp only [Concurrent.step, Option.ite_none_right_eq_some, Option.some.injEq] at hs
    obtain ⟨-, rfl⟩ := hs
    exact h.of_le (fun j hj => (connecting_of_update (by simp) hj).1) (Nat.le_refl _)
  | refused i | cancel i =>
    simp only [Concurrent.step, Option.ite_none_right_eq_some, Option.some.injEq] at hs
    obtain ⟨-, rfl⟩ := hs
    exact h.of_le (fun j hj => (connecting_of_update (by simp) hj).1) (Nat.le_refl _)
  | connected i =>
    simp only [Concurrent.step, Option.ite_none_right_eq_some, Option.some.injEq] at hs
    obtain ⟨hcon, rfl⟩ := hs
    -- the call that opens the socket was counted as one that connects
    intro ids hnd hids
    have hids' : ∀ j ∈ ids, s.call j = .connecting ∧ j ≠ i := fun j hj =>
      connecting_of_update (by simp) (hids j hj)
    have := h (i :: ids) (List.nodup_cons.mpr ⟨fun hmem => (hids' i hmem).2 rfl, hnd⟩) fun j hj => by
      rcases List.mem_cons.mp hj with rfl | hj
      · exact hcon
      · exact (hids' j hj).1
    simp only [St.owned, St.idleSockets, List.length_append, List.length_cons, List.length_map] at this ⊢
    omega
  | release x =>
    simp only [Concurrent.step, Option.ite_none_right_eq_some, Option.some.injEq] at hs
    obtain ⟨hx, rfl⟩ := hs
    exact h.of_le (fun _ hj => hj) (Nat.le_of_eq (owned_release hx).length_eq)
  | store x =>
    simp only [Concurrent.step, Option.ite_none_right_eq_some, Option.some.injEq] at hs
    obtain ⟨hx, rfl⟩ := hs
    refine h.of_le (fun _ hj => hj) ?_
    have hpos := List.length_erase_of_mem hx
    have hlt := List.length_pos_of_mem hx
    rcases release_idle s.pool x s.clock with hfull | ⟨-, hpush⟩
    · simp only [St.owned, St.idleSockets, hfull, List.length_append]
      omega
    · simp only [St.owned, St.idleSockets, hpush, List.length_append, List.map_cons, List.length_cons]
      omega
  | cancelRelease x =>
    simp only [Concurrent.step, Option.ite_none_right_eq_some, Option.some.injEq] at hs
    obtain ⟨hx, rfl⟩ := hs
    refine h.of_le (fun _ hj => hj) ?_
    have := (List.erase_sublist (a := x) (l := s.releasing)).length_le
    simp only [St.owned, St.idleSockets, List.length_append]
    omega
  | drop x =>
    simp only [Concurrent.step, Option.ite_none_right_eq_some, Option.some.injEq] at hs
    obtain ⟨hx, rfl⟩ := hs
    refine h.of_le (fun _ hj => hj) ?_
    have := (List.erase_sublist (a := x) (l := s.held)).length_le
    simp only [St.owned, St.idleSockets, List.length_append]
    omega

theorem bounded_start (p : Pool Nat) (k : Nat) : Bounded k (start p) := by
  intro ids _ hids
  cases ids with
  | nil => exact Nat.zero_le k
  | cons i ids => cases hids i List.mem_cons_self

end Step

end QuickTunnel.Pool.Concurrent
