import QuickTunnel.Manager.Leg
import QuickTunnel.Edge

/-!
# Which edges the legs are on

Each leg finds its edge by itself: `connect_cycle` takes the first five
addresses of a fresh `discover` in the order of the answer and stays on the
first that accepts. Nothing in it knows what the other legs are on.

* `distinct_reachable`: legs that find the edges in use behind another one
  that accepts are all on edges of their own.
* `crowded_falls`: a leg that does not comes to share an edge with another,
  and when the rest lose their connections the two are all there is.
* `same_edge`: two legs with the same answer are on the same edge.
-/
namespace QuickTunnel.Manager.Edges

/-- What a call of `connect_cycle` meets: the resolvers' answers, how the
dials end, and `register_connection` (the location on success). -/
structure Cycle where
  primary : SrvAnswer
  dot : SrvAnswer
  handshake : Nat → Handshake
  register : Except TunnelError String

/-- The connection is given as the edge it is to.
mirrors src/manager.rs:279-297 -/
def connectCycle (c : Cycle) : Except TunnelError (EdgeAddr × String) := do
  let edges ← discover .auto c.primary c.dot
  let cap := min edges.length 5
  let conn ← dialAny c.handshake (edges.take cap)
  let location ← c.register
  return (conn, location)

/-- A leg and the edge its registered connection is to. -/
structure Task where
  leg : Leg
  edge : Option EdgeAddr
  deriving DecidableEq, Repr

/-- A step of the leg other than the end of a `connect_cycle`: losing the
connection and the end of the shutdown give it up.
mirrors src/manager.rs:314-384 -/
def Task.step (t : Task) : LegLabel → Option Task
  | .connected => none
  | .failed => none
  | .fires =>
    match t.leg with
    | .supervise _ _ => (t.leg.step .fires).map fun leg' => ⟨leg', none⟩
    | _ => (t.leg.step .fires).map fun leg' => ⟨leg', t.edge⟩
  | .unregistered => (t.leg.step .unregistered).map fun leg' => ⟨leg', none⟩
  | l => (t.leg.step l).map fun leg' => ⟨leg', t.edge⟩

/-- The end of a `connect_cycle`. -/
def Task.cycle (t : Task) (c : Cycle) : Option Task :=
  match connectCycle c with
  | .ok (edge, _) => (t.leg.step .connected).map fun leg' => ⟨leg', some edge⟩
  | .error _ => (t.leg.step .failed).map fun leg' => ⟨leg', t.edge⟩

structure St where
  tasks : List Task := []
  deriving DecidableEq, Repr

/-- `begin`: `start_inner`'s own `connect_cycle`; `signal`:
`notify_waiters`. -/
inductive Label
  | begin (c : Cycle)
  | leg (i : Nat) (l : LegLabel)
  | cycle (i : Nat) (c : Cycle)
  | signal

/-- mirrors src/manager.rs:195-259 -/
def step (haConnections : Nat) (s : St) : Label → Option St
  | .begin c =>
    match s.tasks, connectCycle c with
    | [], .ok (edge, _) => some ⟨⟨.enter, some edge⟩ :: List.replicate (haConnections - 1) ⟨.initial, none⟩⟩
    | _, _ => none
  | .leg i l => (s.tasks[i]?).bind fun t => (t.step l).map fun t' => ⟨s.tasks.set i t'⟩
  | .cycle i c => (s.tasks[i]?).bind fun t => (t.cycle c).map fun t' => ⟨s.tasks.set i t'⟩
  | .signal => some ⟨s.tasks.map fun t => { t with leg := t.leg.notify }⟩

def legs (haConnections : Nat) : LTS St Label := LTS.ofFn (· = {}) (step haConnections)

/-- The edge leg `i` is registered on. -/
def St.edge (s : St) (i : Nat) : Option EdgeAddr := (s.tasks[i]?).bind Task.edge

/-- Where two legs are registered, some leg is registered on another edge
than any one that fails. -/
def Tolerates (s : St) : Prop :=
  ∀ i j, i ≠ j → (s.edge i).isSome → (s.edge j).isSome →
    ∀ addr, ∃ k e, s.edge k = some e ∧ e.socket ≠ addr

/-- In the first five addresses of the cycle's answer, `addr` accepts only
behind another one that does. -/
def Behind (c : Cycle) (addr : SocketAddr) : Prop :=
  ∀ answer, discover .auto c.primary c.dot = .ok answer →
    ∀ k x, (answer.take 5)[k]? = some x → x.socket = addr → c.handshake k = .done →
      ∃ m < k, c.handshake m = .done

/-- A leg that registers finds every edge in use behind another one. -/
def Elsewhere (s : St) : Label → Prop
  | .cycle _ c => c.register.isOk = true → ∀ j e, s.edge j = some e → Behind c e.socket
  | _ => True

/-- The discovery has found `n` distinct addresses that accept. -/
def Cycle.ample (n : Nat) (c : Cycle) : Bool :=
  match discover .auto c.primary c.dot with
  | .ok answer =>
    n ≤ ((answer.zipIdx.filter fun p => c.handshake p.2 == .done).map fun p => p.1.socket).eraseDups.length
  | .error _ => false

def ample (n : Nat) : Label → Bool
  | .begin c => c.ample n
  | .cycle _ c => c.ample n
  | _ => true

/-! ## One leg -/

section Cycle
variable {c : Cycle} {edge : EdgeAddr} {location : String}

/-- What a `connect_cycle` that succeeds has done. -/
theorem connectCycle_ok_iff : connectCycle c = .ok (edge, location) ↔
    c.register = .ok location ∧ ∃ answer, discover .auto c.primary c.dot = .ok answer ∧
      ∃ k, (answer.take 5)[k]? = some edge ∧ c.handshake k = .done ∧ ∀ m < k, c.handshake m ≠ .done := by
  unfold connectCycle
  cases hd : discover .auto c.primary c.dot with
  | error e => simp [bind, Except.bind]
  | ok answer =>
    have htake : answer.take (min answer.length 5) = answer.take 5 := by
      rcases Nat.le_total answer.length 5 with hle | hle
      · rw [Nat.min_eq_left hle, List.take_length, List.take_of_length_le hle]
      · rw [Nat.min_eq_right hle]
    have hdial : dialAny c.handshake (answer.take 5) = .ok edge ↔
        ∃ k, (answer.take 5)[k]? = some edge ∧ c.handshake k = .done ∧
          ∀ m < k, c.handshake m ≠ .done := dialAny_ok_iff
    simp only [bind, Except.bind, htake, Except.ok.injEq, exists_eq_left', ← hdial]
    cases hd : dialAny c.handshake (answer.take 5) with
    | error e => simp
    | ok conn => cases hr : c.register <;> simp [pure, Except.pure, and_comm]

/-- A leg does not end up on an edge that is behind another. -/
theorem Behind.ne {addr : SocketAddr} (hb : Behind c addr) (h : connectCycle c = .ok (edge, location)) :
    edge.socket ≠ addr := by
  obtain ⟨-, answer, hd, k, hk, hdone, hno⟩ := connectCycle_ok_iff.mp h
  intro heq
  obtain ⟨m, hm, hmdone⟩ := hb answer hd k edge hk heq hdone
  exact hno m hm hmdone

/-- It ends up on the one that is not. -/
theorem eq_of_not_behind {addr : SocketAddr} (hb : ¬ Behind c addr) (hr : c.register.isOk = true) :
    ∃ edge location, connectCycle c = .ok (edge, location) ∧ edge.socket = addr := by
  unfold Behind at hb
  push Not at hb
  obtain ⟨answer, hd, k, x, hk, hx, hdone, hno⟩ := hb
  cases hreg : c.register with
  | error e =>
    rw [hreg] at hr
    cases hr
  | ok location =>
    exact ⟨x, location, connectCycle_ok_iff.mpr ⟨hreg, answer, hd, k, hk, hdone, hno⟩, hx⟩

end Cycle

section Task
variable {t t' : Task}

/-- Holds a registered connection, or gives it up by unregistering. -/
def holds : Leg → Bool
  | .enter | .supervise _ _ | .unregister => true
  | _ => false

/-- A leg has an edge only with a registered connection. -/
def Held (t : Task) : Prop := t.edge.isSome = true → holds t.leg = true

/-- Only losing the connection and the end of the shutdown give it up. -/
theorem holds_step {leg leg' : Leg} {l : LegLabel} (hs : leg.step l = some leg')
    (hl : l ≠ .unregistered) (hf : ∀ woken checked, leg = .supervise woken checked → l ≠ .fires)
    (hh : holds leg = true) : holds leg' = true := by
  cases leg with
  | enter =>
    cases l <;> cases hs
    rfl
  | supervise woken checked =>
    cases checked <;> cases l <;> simp only [Leg.step, reduceCtorEq, Option.some.injEq] at hs
    · cases woken <;> cases hs <;> rfl
    · cases hs
      rfl
    · exact absurd rfl (hf _ _ rfl)
  | unregister =>
    cases l <;> cases hs
    exact absurd rfl hl
  | _ => cases hh

/-- A leg that holds no connection has none. -/
theorem Held.edge_none {leg : Leg} {edge : Option EdgeAddr} (hh : Held ⟨leg, edge⟩)
    (h : holds leg = false) : edge = none := by
  cases edge with
  | none => rfl
  | some e =>
    rw [hh rfl] at h
    cases h

theorem held_step {l : LegLabel} (hh : Held t) (hs : t.step l = some t') :
    Held t' ∧ (t'.edge = t.edge ∨ t'.edge = none) := by
  obtain ⟨leg, edge⟩ := t
  have hkeep : ∀ leg', leg.step l = some leg' → l ≠ .unregistered →
      (∀ woken checked, leg = .supervise woken checked → l ≠ .fires) → Held ⟨leg', edge⟩ :=
    fun leg' hst hl hf he => holds_step hst hl hf (hh he)
  cases l with
  | connected => cases hs
  | failed => cases hs
  | fires =>
    simp only [Task.step] at hs
    split at hs <;> simp only [Option.map_eq_some_iff] at hs <;> obtain ⟨leg', hst, rfl⟩ := hs
    · exact ⟨nofun, .inr rfl⟩
    · rename_i hne
      exact ⟨hkeep leg' hst nofun fun woken checked h _ => hne woken checked h, .inl rfl⟩
  | unregistered =>
    simp only [Task.step, Option.map_eq_some_iff] at hs
    obtain ⟨leg', -, rfl⟩ := hs
    exact ⟨nofun, .inr rfl⟩
  | run | check | pending =>
    simp only [Task.step, Option.map_eq_some_iff] at hs
    obtain ⟨leg', hst, rfl⟩ := hs
    exact ⟨hkeep leg' hst nofun fun _ _ _ => nofun, .inl rfl⟩

/-- A `connect_cycle` ends for a leg that holds nothing. -/
theorem connected_step {leg leg' : Leg} (hs : leg.step .connected = some leg') :
    leg' = .enter ∧ holds leg = false := by
  cases leg with
  | supervise woken checked => cases checked <;> cases hs
  | backoff attempt first woken checked => cases checked <;> cases hs
  | firstConnect | connect =>
    cases hs
    exact ⟨rfl, rfl⟩
  | _ => cases hs

theorem failed_step {leg leg' : Leg} (hs : leg.step .failed = some leg') : holds leg = false := by
  cases leg with
  | supervise woken checked => cases checked <;> cases hs
  | backoff attempt first woken checked => cases checked <;> cases hs
  | firstConnect | connect => rfl
  | _ => cases hs

theorem held_cycle {c : Cycle} (hh : Held t) (hs : t.cycle c = some t') :
    Held t' ∧ t.edge = none ∧
      (t'.edge = none ∨ ∃ edge location, connectCycle c = .ok (edge, location) ∧ t'.edge = some edge) := by
  obtain ⟨leg, edge⟩ := t
  unfold Task.cycle at hs
  split at hs <;> simp only [Option.map_eq_some_iff] at hs <;> obtain ⟨leg', hst, rfl⟩ := hs
  · rename_i e location hc
    obtain ⟨rfl, hleg⟩ := connected_step hst
    exact ⟨fun _ => rfl, hh.edge_none hleg, .inr ⟨e, location, hc, rfl⟩⟩
  · obtain rfl := hh.edge_none (failed_step hst)
    exact ⟨nofun, rfl, .inl rfl⟩

theorem held_notify (hh : Held t) : Held { t with leg := t.leg.notify } := by
  intro he
  have := hh he
  cases hleg : t.leg <;> rw [hleg] at this <;> first | rfl | cases this

end Task

/-! ## All legs -/

section Legs
variable {n : Nat} {s s' : St}

/-- The registered legs are on edges of their own. -/
def Distinct (s : St) : Prop :=
  ∀ i j e f, i ≠ j → s.edge i = some e → s.edge j = some f → e.socket ≠ f.socket

theorem edge_set {i j : Nat} {t t' : Task} (hi : s.tasks[i]? = some t) :
    St.edge ⟨s.tasks.set i t'⟩ j = if j = i then t'.edge else s.edge j := by
  have hlt : i < s.tasks.length := (List.getElem?_eq_some_iff.mp hi).1
  unfold St.edge
  by_cases hj : j = i
  · subst hj
    simp [hlt]
  · rw [if_neg hj, List.getElem?_set_ne (Ne.symm hj)]

/-- Everything a step can do to the edges. -/
theorem edge_cases {l : Label} (hh : ∀ t ∈ s.tasks, Held t) (hs : step n s l = some s') :
    (∀ t ∈ s'.tasks, Held t) ∧
      ((∃ c edge location, l = .begin c ∧ connectCycle c = .ok (edge, location) ∧
          ∀ j, s'.edge j = if j = 0 then some edge else none) ∨
        (∀ j, s'.edge j = s.edge j ∨ s'.edge j = none) ∨
        ∃ i c edge location, l = .cycle i c ∧ connectCycle c = .ok (edge, location) ∧ s.edge i = none ∧
          ∀ j, s'.edge j = if j = i then some edge else s.edge j) := by
  cases l with
  | begin c =>
    simp only [step] at hs
    split at hs <;> cases hs
    rename_i edge location _ hc
    refine ⟨?_, .inl ⟨c, edge, location, rfl, hc, ?_⟩⟩
    · intro t ht
      rcases List.mem_cons.mp ht with rfl | ht
      · exact fun _ => rfl
      · obtain ⟨-, rfl⟩ := List.mem_replicate.mp ht
        exact nofun
    · intro j
      cases j with
      | zero => rfl
      | succ j =>
        simp only [St.edge, List.getElem?_cons_succ, List.getElem?_replicate, Nat.succ_ne_zero, if_false]
        split <;> rfl
  | leg i l =>
    simp only [step, Option.bind_eq_some_iff, Option.map_eq_some_iff] at hs
    obtain ⟨t, ht, t', hst, rfl⟩ := hs
    have hheld := held_step (hh t (List.mem_of_getElem? ht)) hst
    refine ⟨?_, .inr (.inl fun j => ?_)⟩
    · intro x hx
      rcases List.mem_or_eq_of_mem_set hx with hx | rfl
      · exact hh x hx
      · exact hheld.1
    · rw [edge_set ht]
      by_cases hj : j = i
      · subst hj
        rw [if_pos rfl]
        have hedge : s.edge j = t.edge := by rw [St.edge, ht]; rfl
        rw [hedge]
        exact hheld.2
      · rw [if_neg hj]
        exact .inl rfl
  | cycle i c =>
    simp only [step, Option.bind_eq_some_iff, Option.map_eq_some_iff] at hs
    obtain ⟨t, ht, t', hst, rfl⟩ := hs
    obtain ⟨hheld, hnone, hedge⟩ := held_cycle (hh t (List.mem_of_getElem? ht)) hst
    have hi : s.edge i = none := by
      rw [St.edge, ht]
      exact hnone
    refine ⟨?_, .inr ?_⟩
    · intro x hx
      rcases List.mem_or_eq_of_mem_set hx with hx | rfl
      · exact hh x hx
      · exact hheld
    · rcases hedge with he | ⟨edge, location, hc, he⟩
      · refine .inl fun j => ?_
        rw [edge_set ht, he]
        by_cases hj : j = i
        · exact .inr (if_pos hj)
        · exact .inl (if_neg hj)
      · refine .inr ⟨i, c, edge, location, rfl, hc, hi, fun j => ?_⟩
        rw [edge_set ht, he]
  | signal =>
    cases hs
    refine ⟨?_, .inr (.inl fun j => .inl ?_)⟩
    · intro t ht
      obtain ⟨x, hx, rfl⟩ := List.mem_map.mp ht
      exact held_notify (hh x hx)
    · simp only [St.edge, List.getElem?_map]
      cases s.tasks[j]? <;> rfl

theorem held_reachable (h : (legs n).Reachable s) : ∀ t ∈ s.tasks, Held t := by
  refine LTS.Inductive.reachable (M := legs n) (I := fun s => ∀ t ∈ s.tasks, Held t) ⟨?_, ?_⟩ h
  · intro s heq
    subst heq
    exact nofun
  · exact fun s l s' hi hs => (edge_cases hi hs).1

/-- **Legs that keep off the edges in use** are on edges of their own. -/
theorem distinct_reachable (h : ((legs n).guard Elsewhere).Reachable s) : Distinct s := by
  have hboth : (∀ t ∈ s.tasks, Held t) ∧ Distinct s := by
    refine LTS.Inductive.reachable (M := (legs n).guard Elsewhere)
      (I := fun s => (∀ t ∈ s.tasks, Held t) ∧ Distinct s) ⟨?_, ?_⟩ h
    · intro s heq
      subst heq
      exact ⟨nofun, fun i j e f _ he _ => by cases he⟩
    · intro s l s' hinv hstep
      obtain ⟨hh, hi⟩ := hinv
      obtain ⟨hs, hg⟩ := hstep
      obtain ⟨hh', hcases⟩ := edge_cases hh hs
      refine ⟨hh', ?_⟩
      intro i j e f hij he hf
      rcases hcases with ⟨c, edge, location, -, -, hall⟩ | hkeep | ⟨k, c, edge, location, rfl, hc, -, hall⟩
      · rw [hall] at he hf
        split at he <;> cases he
        split at hf <;> cases hf
        omega
      · have he' : s.edge i = some e := (hkeep i).elim (fun h => h ▸ he) (fun h => by rw [h] at he; cases he)
        have hf' : s.edge j = some f := (hkeep j).elim (fun h => h ▸ hf) (fun h => by rw [h] at hf; cases hf)
        exact hi i j e f hij he' hf'
      · have hr : c.register.isOk = true := by
          rw [(connectCycle_ok_iff.mp hc).1]
          rfl
        rw [hall] at he hf
        by_cases hik : i = k
        · rw [if_pos hik] at he
          rw [if_neg (fun h => hij (hik.trans h.symm))] at hf
          cases he
          exact (hg hr j f hf).ne hc
        · rw [if_neg hik] at he
          by_cases hjk : j = k
          · rw [if_pos hjk] at hf
            cases hf
            exact Ne.symm ((hg hr i e he).ne hc)
          · rw [if_neg hjk] at hf
            exact hi i j e f hij he hf
  exact hboth.2

theorem Distinct.tolerates (hd : Distinct s) : Tolerates s := by
  intro i j hij hi hj addr
  obtain ⟨e, he⟩ := Option.isSome_iff_exists.mp hi
  obtain ⟨f, hf⟩ := Option.isSome_iff_exists.mp hj
  by_cases hea : e.socket = addr
  · exact ⟨j, f, hf, fun h => hd i j e f hij he hf (hea.trans h.symm)⟩
  · exact ⟨i, e, he, hea⟩

/-- What a leg does when its connection is lost, or when it has seen the
signal. -/
def drops : Leg → List LegLabel
  | .enter => [.run, .check, .fires]
  | .supervise _ true => [.fires]
  | .supervise true false => [.check, .unregistered]
  | .supervise false false => [.check, .fires]
  | .unregister => [.unregistered]
  | _ => []

theorem drops_exec {t : Task} (hh : Held t) :
    ∃ t', LTS.exec Task.step t (drops t.leg) = some t' ∧ t'.edge = none := by
  obtain ⟨leg, edge⟩ := t
  cases leg with
  | enter => exact ⟨_, rfl, rfl⟩
  | supervise woken checked => cases checked <;> cases woken <;> exact ⟨_, rfl, rfl⟩
  | unregister => exact ⟨_, rfl, rfl⟩
  | _ => exact ⟨_, rfl, hh.edge_none rfl⟩

/-- The steps of one leg are steps of all. -/
theorem run_leg {i : Nat} {ls : List LegLabel} {t t' : Task} (ht : s.tasks[i]? = some t)
    (h : LTS.exec Task.step t ls = some t') : (legs n).Run s (ls.map (.leg i)) ⟨s.tasks.set i t'⟩ := by
  have hlt : i < s.tasks.length := (List.getElem?_eq_some_iff.mp ht).1
  induction ls generalizing s t with
  | nil =>
    obtain rfl : t = t' := Option.some.inj h
    have hself : s.tasks.set i t = s.tasks := by
      obtain ⟨-, rfl⟩ := List.getElem?_eq_some_iff.mp ht
      exact List.set_getElem_self hlt
    rw [hself]
    exact .nil s
  | cons l ls ih =>
    simp only [LTS.exec, Option.bind_eq_some_iff] at h
    obtain ⟨t₁, hst, h⟩ := h
    have hstep : step n s (.leg i l) = some ⟨s.tasks.set i t₁⟩ := by simp [step, ht, hst]
    have hget : (s.tasks.set i t₁)[i]? = some t₁ := by simp [hlt]
    have hrun := ih (s := ⟨s.tasks.set i t₁⟩) hget h (by simpa using hlt)
    rw [List.set_set] at hrun
    exact .cons hstep hrun

/-- Any number of legs can lose their connections. -/
theorem lose (ks : List Nat) (hh : ∀ t ∈ s.tasks, Held t) :
    ∃ ls s', (∀ l ∈ ls, ∃ k m, l = .leg k m ∧ k ∈ ks) ∧ (legs n).Run s ls s' ∧
      (∀ t ∈ s'.tasks, Held t) ∧ ∀ j, s'.edge j = if j ∈ ks then none else s.edge j := by
  induction ks with
  | nil => exact ⟨[], s, nofun, .nil s, hh, fun j => rfl⟩
  | cons k ks ih =>
    obtain ⟨ls, s₁, hls, hrun, hh₁, hedge⟩ := ih
    have hls' : ∀ l ∈ ls, ∃ k' m, l = .leg k' m ∧ k' ∈ k :: ks := fun l hl => by
      obtain ⟨k', m, rfl, hk'⟩ := hls l hl
      exact ⟨k', m, rfl, List.mem_cons_of_mem _ hk'⟩
    cases ht : s₁.tasks[k]? with
    | none =>
      refine ⟨ls, s₁, hls', hrun, hh₁, fun j => ?_⟩
      by_cases hj : j = k
      · subst hj
        rw [if_pos List.mem_cons_self, St.edge, ht]
        rfl
      · simp only [hedge, List.mem_cons, hj, false_or]
    | some t =>
      obtain ⟨t', hexec, hnone⟩ := drops_exec (hh₁ t (List.mem_of_getElem? ht))
      refine ⟨ls ++ (drops t.leg).map (.leg k), ⟨s₁.tasks.set k t'⟩, ?_,
        hrun.append (run_leg ht hexec), ?_, ?_⟩
      · intro l hl
        rcases List.mem_append.mp hl with hl | hl
        · exact hls' l hl
        · obtain ⟨m, -, rfl⟩ := List.mem_map.mp hl
          exact ⟨k, m, rfl, List.mem_cons_self⟩
      · intro x hx
        rcases List.mem_or_eq_of_mem_set hx with hx | rfl
        · exact hh₁ x hx
        · intro he
          rw [hnone] at he
          cases he
      · intro j
        rw [edge_set ht]
        by_cases hj : j = k
        · rw [if_pos hj, hnone, if_pos (hj ▸ List.mem_cons_self)]
        · simp only [hedge, List.mem_cons, hj, false_or, if_false]

theorem edge_cycle {i : Nat} {c : Cycle} {edge : EdgeAddr} {location : String}
    (hh : ∀ t ∈ s.tasks, Held t) (hs : step n s (.cycle i c) = some s')
    (hc : connectCycle c = .ok (edge, location)) :
    s.edge i = none ∧ ∀ j, s'.edge j = if j = i then some edge else s.edge j := by
  simp only [step, Option.bind_eq_some_iff, Option.map_eq_some_iff] at hs
  obtain ⟨t, ht, t', hst, rfl⟩ := hs
  have hi : s.edge i = none := by
    rw [St.edge, ht]
    exact (held_cycle (hh t (List.mem_of_getElem? ht)) hst).2.1
  simp only [Task.cycle, hc, Option.map_eq_some_iff] at hst
  obtain ⟨leg', -, rfl⟩ := hst
  exact ⟨hi, fun j => edge_set ht⟩

/-- A leg that does not keep off comes to share an edge, and nothing but
other legs' losses separates it from a state that one edge's failure ends. -/
theorem crowded_falls {i : Nat} {c : Cycle} (h : (legs n).Reachable s)
    (hs : step n s (.cycle i c) = some s') (hg : ¬ Elsewhere s (.cycle i c)) :
    ∃ ls s'', (∀ l ∈ ls, ∃ k m, l = .leg k m ∧ k ≠ i) ∧ (legs n).Run s' ls s'' ∧ ¬ Tolerates s'' := by
  simp only [Elsewhere] at hg
  push Not at hg
  obtain ⟨hr, j, f, hf, hb⟩ := hg
  obtain ⟨edge, location, hc, heq⟩ := eq_of_not_behind hb hr
  have hh := held_reachable h
  obtain ⟨hi, hall⟩ := edge_cycle hh hs hc
  have hij : j ≠ i := by
    intro heq₁
    subst heq₁
    rw [hi] at hf
    cases hf
  obtain ⟨ls, s'', hls, hrun, -, hlost⟩ :=
    lose (n := n) ((List.range s'.tasks.length).filter fun k => k ≠ i ∧ k ≠ j) (edge_cases hh hs).1
  have hi'' : s''.edge i = some edge := by
    rw [hlost, if_neg (by simp), hall, if_pos rfl]
  have hj'' : s''.edge j = some f := by
    rw [hlost, if_neg (by simp), hall, if_neg hij, hf]
  have hrest : ∀ k, k ≠ i → k ≠ j → s''.edge k = none := by
    intro k hki hkj
    by_cases hk : k < s'.tasks.length
    · rw [hlost, if_pos (by simp [hk, hki, hkj])]
    · rw [hlost, if_neg (by simp [hk]), St.edge, List.getElem?_eq_none (Nat.le_of_not_lt hk)]
      rfl
  refine ⟨ls, s'', ?_, hrun, ?_⟩
  · intro l hl
    obtain ⟨k, m, rfl, hk⟩ := hls l hl
    simp only [List.mem_filter, decide_eq_true_eq] at hk
    exact ⟨k, m, rfl, hk.2.1⟩
  · intro htol
    obtain ⟨k, e, he, hne⟩ := htol i j (Ne.symm hij) (by rw [hi'']; rfl) (by rw [hj'']; rfl) edge.socket
    by_cases hki : k = i
    · rw [hki, hi''] at he
      cases he
      exact hne rfl
    · by_cases hkj : k = j
      · rw [hkj, hj''] at he
        cases he
        exact hne heq.symm
      · rw [hrest k hki hkj] at he
        cases he

/-- **Legs tolerate the loss of an edge when each keeps off the edges in
use**, and a leg that does not leads to a state that does not. -/
theorem tolerates_loss (n : Nat) :
    (∀ s, ((legs n).guard Elsewhere).Reachable s → Tolerates s) ∧
    (∀ s i c s', (legs n).Reachable s → step n s (.cycle i c) = some s' → ¬ Elsewhere s (.cycle i c) →
      ∃ ls s'', (∀ l ∈ ls, ∃ k m, l = .leg k m ∧ k ≠ i) ∧ (legs n).Run s' ls s'' ∧ ¬ Tolerates s'') :=
  ⟨fun _ h => (distinct_reachable h).tolerates, fun _ _ _ _ h hs hg => crowded_falls h hs hg⟩

end Legs

/-- The answer has two addresses, and both accept. -/
def Cycle.both (first second : BitVec 32) : Cycle where
  primary := .ok [⟨7844, .ok [.v4 first, .v4 second]⟩]
  dot := .ok []
  handshake _ := .done
  register := .ok "bog01"

theorem behind_both {first second : BitVec 32} (hne : first ≠ second) :
    Behind (.both first second) ⟨.v4 second, 7844⟩ := by
  intro answer hd k x hk hx _
  obtain rfl : [⟨.v4 first, 7844, .v4⟩, ⟨.v4 second, 7844, .v4⟩] = answer := Except.ok.inj hd
  cases k with
  | zero =>
    obtain rfl := Option.some.inj hk
    cases hx
    exact absurd rfl hne
  | succ k => exact ⟨0, Nat.succ_pos k, rfl⟩

def twoEdges : Cycle := .both 0xC629C01B#32 0xC629C81B#32

/-- Leg 1 is given the edges in the other order. -/
theorem turned_tolerates : ∃ s, ((legs 2).guard Elsewhere).Reachable s ∧
    s.edge 0 = some ⟨.v4 0xC629C01B#32, 7844, .v4⟩ ∧ s.edge 1 = some ⟨.v4 0xC629C81B#32, 7844, .v4⟩ ∧
    Tolerates s := by
  let t : Task := ⟨.enter, some ⟨.v4 0xC629C01B#32, 7844, .v4⟩⟩
  let t' : Task := ⟨.enter, some ⟨.v4 0xC629C81B#32, 7844, .v4⟩⟩
  let turned : Cycle := .both 0xC629C81B#32 0xC629C01B#32
  have helse : Elsewhere ⟨[t, ⟨.firstConnect, none⟩]⟩ (.cycle 1 turned) := by
    intro _ j e he
    rcases j with _ | _ | j
    · cases he
      exact behind_both (by decide)
    · cases he
    · cases he
  have hreach : ((legs 2).guard Elsewhere).Reachable ⟨[t, t']⟩ :=
    ⟨{}, [.begin twoEdges, .leg 1 .run, .cycle 1 turned], rfl,
      .cons ⟨rfl, trivial⟩ (.cons ⟨rfl, trivial⟩ (.cons ⟨rfl, helse⟩ (.nil _)))⟩
  exact ⟨_, hreach, rfl, rfl, (tolerates_loss 2).1 _ hreach⟩

/-- Leg 0 registers, then leg 1. -/
def bothRegister : List Label := [.begin twoEdges, .leg 1 .run, .cycle 1 twoEdges]

/-- Both legs are registered, on one edge. -/
def shareEdge (s : St) : Bool :=
  s.tasks.length == 2 && s.tasks.all fun t => t.edge == some ⟨.v4 0xC629C01B#32, 7844, .v4⟩

theorem same_edge : ¬ ∀ n s, 2 ≤ n →
    ((legs n).guard fun _ l => ample n l = true).Reachable s → Tolerates s := by
  intro h
  obtain ⟨s, hs, hq⟩ := LTS.exists_of_exec (step 2) (fun _ l => ample 2 l = true) {} bothRegister
    shareEdge (by decide)
  simp only [shareEdge, Bool.and_eq_true, beq_iff_eq, List.all_eq_true] at hq
  obtain ⟨hlen, hall⟩ := hq
  have hedge : ∀ k < 2, s.edge k = some ⟨.v4 0xC629C01B#32, 7844, .v4⟩ := by
    intro k hk
    have hlt : k < s.tasks.length := by omega
    rw [St.edge, List.getElem?_eq_getElem hlt]
    exact hall _ (List.getElem_mem hlt)
  have hmany : ∀ k e, s.edge k = some e → e.socket = ⟨.v4 0xC629C01B#32, 7844⟩ := by
    intro k e he
    have hlt : k < 2 := by
      by_contra hge
      rw [St.edge, List.getElem?_eq_none (by omega)] at he
      cases he
    rw [hedge k hlt] at he
    cases he
    rfl
  obtain ⟨k, e, he, hne⟩ := h 2 s (Nat.le_refl 2) hs 0 1 (by decide) (by rw [hedge 0 (by decide)]; rfl)
    (by rw [hedge 1 (by decide)]; rfl) ⟨.v4 0xC629C01B#32, 7844⟩
  exact hne (hmany k e he)

end QuickTunnel.Manager.Edges
