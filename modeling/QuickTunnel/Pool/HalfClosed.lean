import QuickTunnel.Pool.Concurrent

/-!
# Connections that the origin closes

An entry leaves the list on its age alone, counted from its release. The
origin counts from its own last byte: `Timed T D` lets its FIN on socket `k`
arrive once nothing has come for `T k`, wherever the socket is then, and has
the caller give the socket back within `D k` of that byte (a slow edge, a
wait for the mutex).

**Results.**
* `dead_never_handed_out_iff`: no run hands out a socket whose FIN had
  arrived before, exactly if `T k` is always longer than `D k` and `idle_ttl`
  together (or the pool keeps nothing).
* `dead_handed_out`: the default pool, and an origin that waits for 5 s.
-/
namespace QuickTunnel.Pool.Concurrent

/-- For how long nothing has come from the origin on socket `k`. -/
def St.silence (s : St) (k : Nat) : Nat := s.clock - s.lastByte k

/-- The origin closes socket `k` only after a silence of `T k`, and its
`release` gets the mutex within `D k` of the origin's last byte. -/
def Timed (T D : Nat → Nat) (s : St) : Label → Prop
  | .fin k => T k ≤ s.silence k
  | .store k => s.silence k ≤ D k
  | _ => True

instance (T D : Nat → Nat) (s : St) : (l : Label) → Decidable (Timed T D s l)
  | .fin k => inferInstanceAs (Decidable (T k ≤ s.silence k))
  | .store k => inferInstanceAs (Decidable (s.silence k ≤ D k))
  | .tick _ | .acquire _ | .examine _ _ | .connected _ | .refused _ | .cancel _ | .release _
  | .cancelRelease _ | .drop _ | .sends _ => .isTrue trivial

/-- Some critical section of `acquire` takes from the list a socket whose FIN
has arrived. -/
def HandsOutDead (s : St) : Prop :=
  ∃ i delays s' k, step s (.examine i delays) = some s' ∧ s'.call i = .hit k ∧ k ∈ s.closed

/-! ## An origin that waits long enough -/

/-- A closed socket has been silent for its timeout, an idle one was released
in time. -/
structure InTime (T D : Nat → Nat) (s : St) : Prop where
  opened : ∀ k ∈ s.closed, k < s.opened
  closed : ∀ k ∈ s.closed, T k ≤ s.silence k
  idle : ∀ e ∈ s.pool.idle, e.releasedAt ≤ s.lastByte e.stream + D e.stream

section InTime
variable {p : Pool Nat} {T D : Nat → Nat} {s s' : St} {l : Label}

theorem inTime_start (p : Pool Nat) (T D : Nat → Nat) : InTime T D (start p) where
  opened := fun _ hk => absurd hk List.not_mem_nil
  closed := fun _ hk => absurd hk List.not_mem_nil
  idle := fun _ he => absurd he List.not_mem_nil

/-- A step in which the origin does nothing and no socket is stored. -/
theorem InTime.of_subset (h : InTime T D s) (hidle : ∀ e ∈ s'.pool.idle, e ∈ s.pool.idle)
    (hclosed : s'.closed = s.closed) (hlast : s'.lastByte = s.lastByte) (hclock : s.clock ≤ s'.clock)
    (hopened : s'.opened = s.opened) : InTime T D s' where
  opened k hk := hopened ▸ h.opened k (hclosed ▸ hk)
  closed k hk := by
    have := h.closed k (hclosed ▸ hk)
    unfold St.silence at *
    rw [hlast]
    omega
  idle e he := hlast ▸ h.idle e (hidle e he)

theorem InTime.connected (hi : Inv p s) (h : InTime T D s) (call : Nat → Call) : InTime T D { s with
    opened := s.opened + 1
    held := s.opened :: s.held
    lastByte := Function.update s.lastByte s.opened s.clock
    call := call } where
  opened k hk := Nat.lt_succ_of_lt (h.opened k hk)
  closed k hk := by
    have hne : k ≠ s.opened := Nat.ne_of_lt (h.opened k hk)
    simpa only [St.silence, Function.update_of_ne hne] using h.closed k hk
  idle e he := by
    have hlt := hi.opened e.stream (List.mem_append_left _ (List.mem_map_of_mem he))
    simpa only [Function.update_of_ne (Nat.ne_of_lt hlt)] using h.idle e he

/-- The origin sends on a socket it has not closed. -/
theorem InTime.sends (hi : Inv p s) (h : InTime T D s) {k : Nat} (hk : k ∉ s.closed) :
    InTime T D { s with lastByte := Function.update s.lastByte k s.clock } where
  opened := h.opened
  closed j hj := by
    have hne : j ≠ k := fun heq => hk (heq ▸ hj)
    simpa only [St.silence, Function.update_of_ne hne] using h.closed j hj
  idle e he := by
    have hpast := hi.past e he
    by_cases hek : e.stream = k
    · simp only [hek, Function.update_self]
      omega
    · simpa only [Function.update_of_ne hek] using h.idle e he

theorem InTime.store (h : InTime T D s) {k : Nat} (hk : s.silence k ≤ D k) : InTime T D { s with
    pool := s.pool.release k s.clock
    releasing := s.releasing.erase k } where
  opened := h.opened
  closed := h.closed
  idle e he := by
    rcases release_idle s.pool k s.clock with hfull | ⟨-, hpush⟩
    · exact h.idle e (hfull ▸ he)
    · simp only [hpush, List.mem_cons] at he
      rcases he with rfl | he
      · unfold St.silence at hk
        simp only
        omega
      · exact h.idle e he

theorem InTime.fin (hi : Inv p s) (h : InTime T D s) {k : Nat} (hk : k ∈ s.owned)
    (hg : T k ≤ s.silence k) : InTime T D { s with closed := k :: s.closed } where
  opened j hj := by
    rcases List.mem_cons.1 hj with rfl | hj
    · exact hi.opened _ hk
    · exact h.opened j hj
  closed j hj := by
    rcases List.mem_cons.1 hj with rfl | hj
    · exact hg
    · exact h.closed j hj
  idle := h.idle

theorem inTime_step (hi : Inv p s) (h : InTime T D s) (hg : Timed T D s l)
    (hs : step s l = some s') : InTime T D s' := by
  cases l with
  | tick d =>
    simp only [step, Option.some.injEq] at hs
    subst hs
    exact h.of_subset (fun _ he => he) rfl rfl (Nat.le_add_right _ _) rfl
  | examine i delays =>
    obtain ⟨-, ⟨e, rest, he, -, rfl⟩ | ⟨-, now, hnow, rfl⟩⟩ := examine_cases hi hs
    · exact h.of_subset (fun e' he' => he ▸ List.mem_cons_of_mem _ he') rfl rfl (Nat.le_add_right _ _) rfl
    · exact h.of_subset (fun e' he' => absurd he' List.not_mem_nil) rfl rfl hnow rfl
  | connected i =>
    simp only [step, Option.ite_none_right_eq_some, Option.some.injEq] at hs
    obtain ⟨-, rfl⟩ := hs
    exact h.connected hi _
  | store k =>
    simp only [step, Option.ite_none_right_eq_some, Option.some.injEq] at hs
    obtain ⟨-, rfl⟩ := hs
    exact h.store hg
  | sends k =>
    simp only [step, Option.ite_none_right_eq_some, Option.some.injEq] at hs
    obtain ⟨hk, rfl⟩ := hs
    exact h.sends hi hk.2
  | fin k =>
    simp only [step, Option.ite_none_right_eq_some, Option.some.injEq] at hs
    obtain ⟨hk, rfl⟩ := hs
    exact h.fin hi hk hg
  | acquire i | refused i | cancel i | release k | cancelRelease k | drop k =>
    simp only [step, Option.ite_none_right_eq_some, Option.some.injEq] at hs
    obtain ⟨-, rfl⟩ := hs
    exact h.of_subset (fun _ he => he) rfl rfl (Nat.le_refl _) rfl

/-- An entry that is young enough for `acquire` has not been silent for long. -/
theorem not_handsOutDead (hT : ∀ k, D k + p.idleTtl < T k) (hi : Inv p s) (h : InTime T D s) :
    ¬ HandsOutDead s := by
  intro hex
  obtain ⟨i, delays, s', k, hs, hhit, hk⟩ := hex
  obtain ⟨-, ⟨e, rest, he, hage, rfl⟩ | ⟨-, now, -, rfl⟩⟩ := examine_cases hi hs
  · simp only [Function.update_self, Call.hit.injEq] at hhit
    subst hhit
    have hreleased := h.idle e (he ▸ List.mem_cons_self)
    have hsilent := h.closed e.stream hk
    have := hT e.stream
    unfold Idle.elapsed at hage
    unfold St.silence at hsilent
    omega
  · simp at hhit

end InTime

/-! ## An origin that does not -/

/-- The calls `0 .. n - 1` have each opened a socket and dropped it. -/
structure Opened (p : Pool Nat) (n : Nat) (s : St) : Prop where
  pool : s.pool = { p with idle := [] }
  clock : s.clock = 0
  opened : s.opened = n
  held : s.held = []
  releasing : s.releasing = []
  closed : s.closed = []
  call : ∀ i, n ≤ i → s.call i = .absent

section Early
variable {p : Pool Nat} {T D : Nat → Nat} {s s' : St} {l : Label} {n : Nat}

theorem reach_step (hr : ((system p).guard (Timed T D)).Reachable s) (hs : step s l = some s')
    (hg : Timed T D s l) : ((system p).guard (Timed T D)).Reachable s' :=
  hr.step ⟨hs, hg⟩

/-- The next call misses and connects. -/
theorem exists_fresh (hr : ((system p).guard (Timed T D)).Reachable s) (h : Opened p n s) :
    ∃ call lastByte, (∀ i, n < i → call i = .absent) ∧ lastByte n = 0 ∧
      ((system p).guard (Timed T D)).Reachable
        { s with
          opened := n + 1
          held := [n]
          lastByte := lastByte
          call := call } := by
  obtain ⟨pool, clock, opened, held, releasing, closed, lastByte, call⟩ := s
  obtain ⟨rfl, rfl, rfl, rfl, rfl, rfl, hcall⟩ := h
  have h₁ := reach_step (l := .acquire opened) hr (if_pos (hcall _ (Nat.le_refl _))) trivial
  have h₂ := reach_step (l := .examine opened []) h₁ (if_pos (Function.update_self ..)) trivial
  have h₃ := reach_step (l := .connected opened) h₂ (if_pos (Function.update_self ..)) trivial
  refine ⟨_, _, fun i hi => ?_, Function.update_self .., h₃⟩
  have hne : i ≠ opened := Nat.ne_of_gt hi
  simp only [Function.update_of_ne hne]
  exact hcall i (Nat.le_of_lt hi)

theorem exists_opened (p : Pool Nat) (T D : Nat → Nat) (n : Nat) :
    ∃ s, ((system p).guard (Timed T D)).Reachable s ∧ Opened p n s := by
  induction n with
  | zero => exact ⟨start p, .of_init rfl, rfl, rfl, rfl, rfl, rfl, rfl, fun _ _ => rfl⟩
  | succ n ih =>
    obtain ⟨s, hr, h⟩ := ih
    obtain ⟨call, lastByte, hcall, -, hr'⟩ := exists_fresh hr h
    have hdrop := reach_step (l := .drop n) hr' (if_pos List.mem_cons_self) trivial
    refine ⟨_, hdrop, h.pool, h.clock, rfl, ?_, h.releasing, h.closed, hcall⟩
    simp

/-- A waiting call takes the top entry if that is young enough, closed or
not. -/
theorem handsOutDead_of_top {i : Nat} {e : Idle Nat} {rest : List (Idle Nat)}
    (hl : s.call i = .locking) (he : s.pool.idle = e :: rest)
    (hage : e.elapsed s.clock ≤ s.pool.idleTtl) (hc : e.stream ∈ s.closed) : HandsOutDead s := by
  have hr : s.pool.acquire s.clock [] = (some e.stream, { s.pool with idle := rest }, s.clock) := by
    unfold Pool.acquire
    rw [he, reap_of_fresh (by simpa using hage)]
    rfl
  refine ⟨i, [], { s with
    pool := { s.pool with idle := rest }
    held := e.stream :: s.held
    call := Function.update s.call i (.hit e.stream) }, e.stream, ?_, Function.update_self .., hc⟩
  simp only [step, if_pos hl, hr]

/-- The `n`-th socket is released as late as may be, and handed out again
`idle_ttl` later; in between the origin closes it. -/
theorem handsOutDead_of_le (hT : T n ≤ D n + p.idleTtl) (hmax : 0 < p.maxIdle) :
    ∃ s, ((system p).guard (Timed T D)).Reachable s ∧ HandsOutDead s := by
  obtain ⟨s, hr, h⟩ := exists_opened p T D n
  obtain ⟨call, lastByte, hcall, hlast, hr'⟩ := exists_fresh hr h
  obtain ⟨pool, clock, opened, held, releasing, closed, lastByte₀, call₀⟩ := s
  obtain ⟨rfl, rfl, rfl, rfl, rfl, rfl, -⟩ := h
  have hpush : ({ p with idle := [] } : Pool Nat).release opened (0 + D opened) =
      { p with idle := [⟨opened, 0 + D opened⟩] } := if_neg (by simpa using Nat.pos_iff_ne_zero.1 hmax)
  have h₁ := reach_step (l := .tick (D opened)) hr' rfl trivial
  have h₂ := reach_step (l := .release opened) h₁ (if_pos List.mem_cons_self) trivial
  have h₃ := reach_step (l := .store opened) h₂ (if_pos List.mem_cons_self)
    (by simp [Timed, St.silence])
  simp only [List.erase_cons_head, hpush] at h₃
  have h₄ := reach_step (l := .tick p.idleTtl) h₃ rfl trivial
  have h₅ := reach_step (l := .fin opened) h₄ (if_pos (by simp [St.owned, St.idleSockets]))
    (by simpa [Timed, St.silence, hlast] using hT)
  have h₆ := reach_step (l := .acquire (opened + 1)) h₅
    (if_pos (hcall _ (Nat.lt_succ_self _))) trivial
  refine ⟨_, h₆, handsOutDead_of_top (Function.update_self ..) rfl ?_ List.mem_cons_self⟩
  simp [Idle.elapsed]

end Early

/-- **Dead connections are handed out exactly by an origin that closes
early.** With `T k` the silence after which the origin closes socket `k`, and
`D k` the longest silence in which it is given back, no run hands out a
socket on which the FIN had arrived, if and only if each `T k` is longer than
`D k` and `idle_ttl` together or the pool keeps nothing at all. -/
theorem dead_never_handed_out_iff (p : Pool Nat) (T D : Nat → Nat) :
    (∀ s, ((system p).guard (Timed T D)).Reachable s → ¬ HandsOutDead s) ↔
      (∀ k, D k + p.idleTtl < T k) ∨ p.maxIdle = 0 := by
  constructor
  · intro hsafe
    by_cases hmax : p.maxIdle = 0
    · exact .inr hmax
    · refine .inl fun k => Nat.lt_of_not_le fun hT => ?_
      obtain ⟨s, hr, hdead⟩ := handsOutDead_of_le hT (Nat.pos_of_ne_zero hmax)
      exact hsafe s hr hdead
  · intro h s hr
    rcases h with hT | hmax
    · have hind : ((system p).guard (Timed T D)).Inductive fun s => Inv p s ∧ InTime T D s :=
        { init := by
            intro s hs
            rw [hs]
            exact ⟨inv_start p, inTime_start p T D⟩
          step := fun s l s' hi hs => ⟨inv_step hi.1 hs.1, inTime_step hi.1 hi.2 hs.2 hs.1⟩ }
      have hi := hind.reachable hr
      exact not_handsOutDead hT hi.1 hi.2
    · have hi := inv_reachable hr.of_guard
      intro hex
      obtain ⟨i, delays, s', k, hs, hhit, -⟩ := hex
      have hempty : s.pool.idle = [] :=
        List.eq_nil_of_length_eq_zero (Nat.le_zero.1 (hmax ▸ hi.length))
      obtain ⟨-, ⟨e, rest, he, -⟩ | ⟨-, now, -, rfl⟩⟩ := examine_cases hi hs
      · rw [hempty] at he
        cases he
      · simp at hhit

/-- Socket 0 is opened, answered on and released, and lies idle for 5 s before
the origin's FIN; 5 s later call 1 comes. -/
def quietInterval : List Label :=
  [.acquire 0, .examine 0 [], .connected 0, .sends 0, .release 0, .store 0, .tick (5 * 10 ^ 9), .fin 0,
    .tick (5 * 10 ^ 9), .acquire 1]

/-- It is handed out although the origin has closed it 5 s earlier. -/
theorem dead_handed_out :
    ∃ s, ((system (new 8080)).guard (Timed (fun _ => 5 * 10 ^ 9) fun _ => 0)).Reachable s ∧
      HandsOutDead s := by
  obtain ⟨s, hr, hq⟩ := LTS.exists_of_exec step (Timed (fun _ => 5 * 10 ^ 9) fun _ => 0)
    (start (new 8080)) quietInterval
    (fun s => s.call 1 = .locking ∧ s.closed = [0] ∧ s.pool.idle = [⟨0, 0⟩] ∧
      s.clock = 10 ^ 10 ∧ s.pool.idleTtl = defaultIdleTtl) (by decide)
  simp only [decide_eq_true_eq] at hq
  obtain ⟨hl, hc, he, hclock, httl⟩ := hq
  refine ⟨s, hr, handsOutDead_of_top hl he ?_ (by simp [hc])⟩
  rw [hclock, httl]
  decide

end QuickTunnel.Pool.Concurrent
