import QuickTunnel.Core.LTS
import QuickTunnel.Pool
import Mathlib.Data.List.Nodup
import Mathlib.Data.List.Perm.Basic
import Mathlib.Logic.Function.Basic

/-!
# Concurrent use of one pool

Any number of tasks call `acquire` and `release` on one `Pool`. A call waits
for the mutex, runs its critical section, and an `acquire` that found nothing
connects afterwards; it can be cancelled at either await (`proxy_http` wraps
it in a timeout). The clock moves at any time, also inside the critical
section of `acquire`.

Sockets are numbered in the order in which they were opened. The origin sends
on any open one and may close it at any moment (`fin`), in a caller's hands
as well as in the list; behind its FIN it sends nothing.

**Results.**
* `inv_reachable`: the list is within `max_idle`, newest first, and holds no
  socket twice and none that a caller has.
* `pool_discipline`: with it, what every step does to the list.
-/
namespace QuickTunnel.Pool.Concurrent

/-- Where a call of `acquire` stands. -/
inductive Call
  /-- not called yet -/
  | absent
  /-- at `self.idle.lock().await` -/
  | locking
  /-- missed; at `TcpStream::connect(..).await` -/
  | connecting
  /-- returned a socket of the idle list -/
  | hit (k : Nat)
  /-- returned the socket it opened -/
  | fresh (k : Nat)
  /-- the connect failed -/
  | refused
  /-- dropped at an await -/
  | cancelled
deriving DecidableEq

structure St where
  pool : Pool Nat
  clock : Nat
  /-- sockets opened so far -/
  opened : Nat
  /-- sockets in the hands of callers -/
  held : List Nat
  /-- sockets whose `release` waits for the mutex -/
  releasing : List Nat
  /-- sockets on which the origin's FIN has arrived -/
  closed : List Nat
  /-- when the origin accepted a socket or last sent on it -/
  lastByte : Nat → Nat
  call : Nat → Call

def start (p : Pool Nat) : St where
  pool := { p with idle := [] }
  clock := 0
  opened := 0
  held := []
  releasing := []
  closed := []
  lastByte := fun _ => 0
  call := fun _ => .absent

inductive Label
  | tick (d : Nat)
  | acquire (i : Nat)
  /-- call `i` gets the mutex and runs its critical section -/
  | examine (i : Nat) (delays : List Nat)
  | connected (i : Nat)
  | refused (i : Nat)
  | cancel (i : Nat)
  | release (k : Nat)
  /-- the `release` of `k` gets the mutex and runs its critical section -/
  | store (k : Nat)
  | cancelRelease (k : Nat)
  /-- a caller drops the socket -/
  | drop (k : Nat)
  /-- bytes of the origin arrive on an open socket -/
  | sends (k : Nat)
  /-- the origin's FIN arrives on an open socket -/
  | fin (k : Nat)

def St.idleSockets (s : St) : List Nat := s.pool.idle.map Idle.stream

/-- Every socket that is idle, held or being released. -/
def St.owned (s : St) : List Nat := s.idleSockets ++ (s.held ++ s.releasing)

def step (s : St) : Label → Option St
  | .tick d => some { s with clock := s.clock + d }
  | .acquire i =>
    if s.call i = .absent then some { s with call := Function.update s.call i .locking } else none
  | .examine i delays =>
    if s.call i = .locking then
      match s.pool.acquire s.clock delays with
      | (some k, p, now) =>
        some { s with
          pool := p
          clock := now
          held := k :: s.held
          call := Function.update s.call i (.hit k) }
      | (none, p, now) =>
        some { s with
          pool := p
          clock := now
          call := Function.update s.call i .connecting }
    else none
  | .connected i =>
    if s.call i = .connecting then
      some { s with
        opened := s.opened + 1
        held := s.opened :: s.held
        lastByte := Function.update s.lastByte s.opened s.clock
        call := Function.update s.call i (.fresh s.opened) }
    else none
  | .refused i =>
    if s.call i = .connecting then
      some { s with call := Function.update s.call i .refused }
    else none
  | .cancel i =>
    if s.call i = .locking ∨ s.call i = .connecting then
      some { s with call := Function.update s.call i .cancelled }
    else none
  | .release k =>
    if k ∈ s.held then
      some { s with
        held := s.held.erase k
        releasing := k :: s.releasing }
    else none
  | .store k =>
    if k ∈ s.releasing then
      some { s with
        pool := s.pool.release k s.clock
        releasing := s.releasing.erase k }
    else none
  | .cancelRelease k =>
    if k ∈ s.releasing then some { s with releasing := s.releasing.erase k } else none
  | .drop k => if k ∈ s.held then some { s with held := s.held.erase k } else none
  | .sends k =>
    if k ∈ s.owned ∧ k ∉ s.closed then
      some { s with lastByte := Function.update s.lastByte k s.clock }
    else none
  | .fin k => if k ∈ s.owned then some { s with closed := k :: s.closed } else none

/-- All runs of calls on a pool with the given parameters. -/
def system (p : Pool Nat) : LTS St Label := LTS.ofFn (· = start p) step

/-! ## The invariant -/

structure Inv (p : Pool Nat) (s : St) : Prop where
  ttl : s.pool.idleTtl = p.idleTtl
  cap : s.pool.maxIdle = p.maxIdle
  length : s.pool.idle.length ≤ p.maxIdle
  ordered : Ordered s.pool.idle
  past : ∀ e ∈ s.pool.idle, e.releasedAt ≤ s.clock
  nodup : s.owned.Nodup
  opened : ∀ k ∈ s.owned, k < s.opened

theorem inv_start (p : Pool Nat) : Inv p (start p) where
  ttl := rfl
  cap := rfl
  length := Nat.zero_le _
  ordered := List.Pairwise.nil
  past := by intro e he; cases he
  nodup := List.nodup_nil
  opened := by intro k hk; cases hk

/-- What a critical section of `acquire` does: the top entry was young enough
and is handed out, or every entry was too old and none is left. -/
theorem examine_cases {p : Pool Nat} {s s' : St} {i : Nat} {delays : List Nat} (hi : Inv p s)
    (h : step s (.examine i delays) = some s') :
    s.call i = .locking ∧
    ((∃ e rest, s.pool.idle = e :: rest ∧
        e.elapsed (s.clock + delays.headD 0) ≤ p.idleTtl ∧
        s' = { s with
          pool := { s.pool with idle := rest }
          clock := s.clock + delays.headD 0
          held := e.stream :: s.held
          call := Function.update s.call i (.hit e.stream) }) ∨
     ((∀ e ∈ s.pool.idle, p.idleTtl < e.elapsed (s.clock + delays.headD 0)) ∧
        ∃ now, s.clock ≤ now ∧
          s' = { s with
            pool := { s.pool with idle := [] }
            clock := now
            call := Function.update s.call i .connecting })) := by
  simp only [step] at h
  split at h
  case isFalse => cases h
  case isTrue hl =>
    refine ⟨hl, ?_⟩
    have hlater := reap_clock_le s.pool.idleTtl s.pool.idle s.clock delays
    unfold Pool.acquire at h
    rcases reap_cases s.pool.idleTtl s.clock delays hi.ordered with
      ⟨e, rest, he, hage, hr⟩ | ⟨hall, hhit, hidle⟩
    · rw [hr] at h
      simp only [Option.some.injEq] at h
      exact .inl ⟨e, rest, he, hi.ttl ▸ hage, h.symm⟩
    · simp only [hhit, hidle, Option.some.injEq] at h
      exact .inr ⟨fun e he => hi.ttl ▸ hall e he, _, hlater, h.symm⟩

theorem owned_release {s : St} {k : Nat} (hk : k ∈ s.held) :
    (s.idleSockets ++ (s.held.erase k ++ k :: s.releasing)).Perm s.owned := by
  apply List.Perm.append_left _
  have hp : (k :: (s.held.erase k ++ s.releasing)).Perm (s.held ++ s.releasing) :=
    (List.perm_cons_erase hk).symm.append_right s.releasing
  exact List.perm_middle.trans hp

theorem owned_store {s : St} {k : Nat} (hk : k ∈ s.releasing) :
    (k :: s.idleSockets ++ (s.held ++ s.releasing.erase k)).Perm s.owned := by
  have hp : (k :: (s.held ++ s.releasing.erase k)).Perm (s.held ++ s.releasing) :=
    List.perm_middle.symm.trans ((List.perm_cons_erase hk).symm.append_left s.held)
  exact List.perm_middle.symm.trans (hp.append_left s.idleSockets)

theorem inv_examine {p : Pool Nat} {s s' : St} {i : Nat} {delays : List Nat} (hi : Inv p s)
    (h : step s (.examine i delays) = some s') : Inv p s' := by
  obtain ⟨-, ⟨e, rest, he, -, rfl⟩ | ⟨-, now, hnow, rfl⟩⟩ := examine_cases hi h
  · have hperm : List.Perm (rest.map Idle.stream ++ (e.stream :: s.held ++ s.releasing)) s.owned := by
      simp only [St.owned, St.idleSockets, he, List.map_cons, List.cons_append]
      exact List.perm_middle
    have hl := hi.length
    have ho := hi.ordered
    have hp := hi.past
    rw [he] at hl ho hp
    exact
      { ttl := hi.ttl
        cap := hi.cap
        length := Nat.le_of_succ_le hl
        ordered := (List.pairwise_cons.1 ho).2
        past := fun e' he' => Nat.le_trans (hp e' (List.mem_cons_of_mem _ he')) (Nat.le_add_right _ _)
        nodup := hperm.nodup_iff.2 hi.nodup
        opened := fun k hk => hi.opened k (hperm.mem_iff.1 hk) }
  · have hn := hi.nodup
    unfold St.owned at hn
    exact
      { ttl := hi.ttl
        cap := hi.cap
        length := Nat.zero_le _
        ordered := List.Pairwise.nil
        past := fun e' he' => absurd he' (List.not_mem_nil)
        nodup := (List.nodup_append.1 hn).2.1
        opened := fun k hk => hi.opened k (List.mem_append_right _ hk) }

theorem inv_store {p : Pool Nat} {s : St} {k : Nat} (hi : Inv p s) (hk : k ∈ s.releasing) :
    Inv p { s with
      pool := s.pool.release k s.clock
      releasing := s.releasing.erase k } := by
  rcases release_idle s.pool k s.clock with hfull | ⟨hroom, hpush⟩
  · have hsub : (s.idleSockets ++ (s.held ++ s.releasing.erase k)).Sublist s.owned :=
      (List.Sublist.refl _).append ((List.Sublist.refl _).append List.erase_sublist)
    refine ⟨(release_idleTtl _ _ _).trans hi.ttl, (release_maxIdle _ _ _).trans hi.cap, ?_, ?_, ?_, ?_, ?_⟩
    · rw [hfull]; exact hi.length
    · rw [hfull]; exact hi.ordered
    · rw [hfull]; exact hi.past
    · simp only [St.owned, St.idleSockets, hfull]; exact hsub.nodup hi.nodup
    · intro k' hk'
      simp only [St.owned, St.idleSockets, hfull] at hk'
      exact hi.opened k' (hsub.subset hk')
  · have hperm := owned_store hk
    refine ⟨(release_idleTtl _ _ _).trans hi.ttl, (release_maxIdle _ _ _).trans hi.cap, ?_, ?_, ?_, ?_, ?_⟩
    · rw [hpush]
      have := hi.cap
      simp only [List.length_cons]
      omega
    · rw [hpush]
      exact List.pairwise_cons.2 ⟨hi.past, hi.ordered⟩
    · rw [hpush]
      intro e he
      rcases List.mem_cons.1 he with rfl | he
      · exact Nat.le_refl _
      · exact hi.past e he
    · simp only [St.owned, St.idleSockets, hpush, List.map_cons]
      exact hperm.nodup_iff.2 hi.nodup
    · intro k' hk'
      simp only [St.owned, St.idleSockets, hpush, List.map_cons] at hk'
      exact hi.opened k' (hperm.mem_iff.1 hk')

/-- A step that leaves the list alone and gives no socket out keeps the
invariant. -/
theorem Inv.of_sublist {p : Pool Nat} {s s' : St} (hi : Inv p s) (hpool : s'.pool = s.pool)
    (hclock : s.clock ≤ s'.clock) (hopened : s'.opened = s.opened)
    (hsub : s'.owned.Sublist s.owned) : Inv p s' where
  ttl := hpool ▸ hi.ttl
  cap := hpool ▸ hi.cap
  length := hpool ▸ hi.length
  ordered := hpool ▸ hi.ordered
  past := fun e he => Nat.le_trans (hi.past e (hpool ▸ he)) hclock
  nodup := hsub.nodup hi.nodup
  opened := fun k hk => hopened ▸ hi.opened k (hsub.subset hk)

theorem inv_step {p : Pool Nat} {s s' : St} {l : Label} (hi : Inv p s) (h : step s l = some s') :
    Inv p s' := by
  have hrefl : s.owned.Sublist s.owned := List.Sublist.refl _
  cases l with
  | examine i delays => exact inv_examine hi h
  | tick d =>
    simp only [step, Option.some.injEq] at h
    subst h
    exact hi.of_sublist rfl (Nat.le_add_right _ _) rfl hrefl
  | acquire i =>
    simp only [step, Option.ite_none_right_eq_some, Option.some.injEq] at h
    obtain ⟨-, rfl⟩ := h
    exact hi.of_sublist rfl (Nat.le_refl _) rfl hrefl
  | connected i =>
    simp only [step, Option.ite_none_right_eq_some, Option.some.injEq] at h
    obtain ⟨-, rfl⟩ := h
    have hperm : (s.idleSockets ++ (s.opened :: s.held ++ s.releasing)).Perm
        (s.opened :: s.owned) := List.perm_middle
    refine ⟨hi.ttl, hi.cap, hi.length, hi.ordered, hi.past, ?_, ?_⟩
    · refine hperm.nodup_iff.2 (List.nodup_cons.2 ⟨fun hk => ?_, hi.nodup⟩)
      exact Nat.lt_irrefl _ (hi.opened _ hk)
    · intro k hk
      rcases List.mem_cons.1 (hperm.mem_iff.1 hk) with rfl | hk
      · exact Nat.lt_succ_self _
      · exact Nat.lt_succ_of_lt (hi.opened k hk)
  | refused i =>
    simp only [step, Option.ite_none_right_eq_some, Option.some.injEq] at h
    obtain ⟨-, rfl⟩ := h
    exact hi.of_sublist rfl (Nat.le_refl _) rfl hrefl
  | cancel i =>
    simp only [step, Option.ite_none_right_eq_some, Option.some.injEq] at h
    obtain ⟨-, rfl⟩ := h
    exact hi.of_sublist rfl (Nat.le_refl _) rfl hrefl
  | release k =>
    simp only [step, Option.ite_none_right_eq_some, Option.some.injEq] at h
    obtain ⟨hk, rfl⟩ := h
    have hperm := owned_release hk
    exact ⟨hi.ttl, hi.cap, hi.length, hi.ordered, hi.past, hperm.nodup_iff.2 hi.nodup,
      fun k' hk' => hi.opened k' (hperm.mem_iff.1 hk')⟩
  | store k =>
    simp only [step, Option.ite_none_right_eq_some, Option.some.injEq] at h
    obtain ⟨hk, rfl⟩ := h
    exact inv_store hi hk
  | cancelRelease k =>
    simp only [step, Option.ite_none_right_eq_some, Option.some.injEq] at h
    obtain ⟨-, rfl⟩ := h
    exact hi.of_sublist rfl (Nat.le_refl _) rfl
      ((List.Sublist.refl _).append ((List.Sublist.refl _).append List.erase_sublist))
  | drop k =>
    simp only [step, Option.ite_none_right_eq_some, Option.some.injEq] at h
    obtain ⟨-, rfl⟩ := h
    exact hi.of_sublist rfl (Nat.le_refl _) rfl
      ((List.Sublist.refl _).append (List.erase_sublist.append (List.Sublist.refl _)))
  | sends k | fin k =>
    simp only [step, Option.ite_none_right_eq_some, Option.some.injEq] at h
    obtain ⟨-, rfl⟩ := h
    exact hi.of_sublist rfl (Nat.le_refl _) rfl hrefl

theorem inv_inductive (p : Pool Nat) : (system p).Inductive (Inv p) where
  init := by
    intro s hs
    rw [hs]
    exact inv_start p
  step := fun _ _ _ hi hs => inv_step hi hs

theorem inv_reachable {p : Pool Nat} {s : St} (h : (system p).Reachable s) : Inv p s :=
  (inv_inductive p).reachable h

/-! ## What each step does -/

/-- What one step may do to the list and to the calls. `now` is where the
clock stands when the critical section of `acquire` first reads it. -/
structure Disciplined (ttl : Nat) (s : St) (l : Label) (s' : St) : Prop where
  hit_iff : ∀ i delays, l = .examine i delays →
    ((∃ k, s'.call i = .hit k) ↔ ∃ e ∈ s.pool.idle, e.elapsed (s.clock + delays.headD 0) ≤ ttl)
  newest : ∀ i k, s'.call i = .hit k → s.call i ≠ .hit k → ∃ delays, ∃ e ∈ s.pool.idle,
    l = .examine i delays ∧ e.stream = k ∧ e.elapsed (s.clock + delays.headD 0) ≤ ttl ∧
      ∀ e' ∈ s.pool.idle, e'.releasedAt ≤ e.releasedAt
  miss : ∀ i, s'.call i = .connecting → s.call i ≠ .connecting →
    (∃ delays, l = .examine i delays) ∧ s'.pool.idle = []
  fresh : ∀ i k, s'.call i = .fresh k → s.call i ≠ .fresh k →
    l = .connected i ∧ s.call i = .connecting
  discarded : ∀ e ∈ s.pool.idle, e ∉ s'.pool.idle → ∃ i delays, l = .examine i delays ∧
    (s'.call i = .hit e.stream ∨ ttl < e.elapsed (s.clock + delays.headD 0))
  kept : ∀ i k, s.call i = .hit k → s'.call i = .hit k

/-- A call that a single update has moved is the updated one. -/
theorem moved {f : Nat → Call} {i j : Nat} {c c' : Call} (h : Function.update f i c j = c')
    (h' : f j ≠ c') : j = i ∧ c = c' := by
  by_cases hj : j = i
  · subst hj
    rw [Function.update_self] at h
    exact ⟨rfl, h⟩
  · rw [Function.update_of_ne hj] at h
    exact absurd h h'

/-- Only calls that are still waiting are moved, so a call that has returned
keeps its socket. -/
theorem kept_of_update {f : Nat → Call} {i j k : Nat} (c : Call) (hi : ∀ k, f i ≠ .hit k)
    (h : f j = .hit k) : Function.update f i c j = .hit k := by
  have hj : j ≠ i := by
    intro hji
    exact hi k (hji ▸ h)
  rw [Function.update_of_ne hj]
  exact h

theorem disciplined_examine {p : Pool Nat} {s s' : St} {i : Nat} {delays : List Nat}
    (hi : Inv p s) (h : step s (.examine i delays) = some s') :
    Disciplined p.idleTtl s (.examine i delays) s' := by
  obtain ⟨hl, ⟨e, rest, he, hage, rfl⟩ | ⟨hall, now, -, rfl⟩⟩ := examine_cases hi h
  · have hmem : e ∈ s.pool.idle := he ▸ List.mem_cons_self
    have hnewest : ∀ e' ∈ s.pool.idle, e'.releasedAt ≤ e.releasedAt := by
      intro e' he'
      rw [he] at he'
      rcases List.mem_cons.1 he' with rfl | he'
      · exact Nat.le_refl _
      · exact (List.pairwise_cons.1 (he ▸ hi.ordered)).1 e' he'
    refine ⟨?_, ?_, ?_, ?_, ?_, ?_⟩
    · intro j ds hj
      cases hj
      exact ⟨fun _ => ⟨e, hmem, hage⟩, fun _ => ⟨_, Function.update_self ..⟩⟩
    · intro j k hj hj'
      obtain ⟨rfl, hk⟩ := moved hj hj'
      exact ⟨delays, e, hmem, rfl, Call.hit.inj hk, hage, hnewest⟩
    · intro j hj hj'
      cases (moved hj hj').2
    · intro j k hj hj'
      cases (moved hj hj').2
    · intro e' he' hgone
      refine ⟨i, delays, rfl, .inl ?_⟩
      rw [he] at he'
      rcases List.mem_cons.1 he' with rfl | he'
      · exact Function.update_self ..
      · exact absurd he' hgone
    · exact fun j k => kept_of_update _ (by simp [hl])
  · refine ⟨?_, ?_, ?_, ?_, ?_, ?_⟩
    · intro j ds hj
      cases hj
      constructor
      · intro hex
        obtain ⟨k, hk⟩ := hex
        cases (moved hk (by simp [hl])).2
      · intro hex
        obtain ⟨e, he, hage⟩ := hex
        exact absurd hage (Nat.not_le.2 (hall e he))
    · intro j k hj hj'
      cases (moved hj hj').2
    · intro j hj hj'
      obtain ⟨rfl, -⟩ := moved hj hj'
      exact ⟨⟨delays, rfl⟩, rfl⟩
    · intro j k hj hj'
      cases (moved hj hj').2
    · intro e' he' _
      exact ⟨i, delays, rfl, .inr (hall e' he')⟩
    · exact fun j k => kept_of_update _ (by simp [hl])

/-- A step outside the critical section of `acquire` that moves one waiting
call, to no socket of the list and not to the connect. -/
theorem Disciplined.of_update {ttl : Nat} {s s' : St} {l : Label} {i : Nat} {c : Call}
    (hl : ∀ i delays, l ≠ .examine i delays) (hidle : s'.pool = s.pool)
    (hcall : s'.call = Function.update s.call i c) (hwait : ∀ k, s.call i ≠ .hit k)
    (hhit : ∀ k, c ≠ .hit k) (hconn : c ≠ .connecting)
    (hfresh : ∀ k, c = .fresh k → l = .connected i ∧ s.call i = .connecting) :
    Disciplined ttl s l s' where
  hit_iff j delays h := absurd h (hl j delays)
  newest j k h h' := absurd (moved (hcall ▸ h) h').2 (hhit k)
  miss j h h' := absurd (moved (hcall ▸ h) h').2 hconn
  fresh j k h h' := by
    obtain ⟨rfl, hk⟩ := moved (hcall ▸ h) h'
    exact hfresh k hk
  discarded e he he' := absurd (hidle ▸ he) he'
  kept j k h := by
    rw [hcall]
    exact kept_of_update _ hwait h

/-- A step that moves no call and loses no entry. -/
theorem Disciplined.of_calls_eq {ttl : Nat} {s s' : St} {l : Label}
    (hl : ∀ i delays, l ≠ .examine i delays) (hidle : ∀ e ∈ s.pool.idle, e ∈ s'.pool.idle)
    (hcall : s'.call = s.call) : Disciplined ttl s l s' where
  hit_iff j delays h := absurd h (hl j delays)
  newest _ _ h h' := absurd (hcall ▸ h) h'
  miss _ h h' := absurd (hcall ▸ h) h'
  fresh _ _ h h' := absurd (hcall ▸ h) h'
  discarded e he he' := absurd (hidle e he) he'
  kept _ _ h := hcall ▸ h

theorem disciplined_step {p : Pool Nat} {s s' : St} {l : Label} (hi : Inv p s)
    (h : step s l = some s') : Disciplined p.idleTtl s l s' := by
  cases l with
  | examine i delays => exact disciplined_examine hi h
  | tick d =>
    simp only [step, Option.some.injEq] at h
    subst h
    exact .of_calls_eq (by simp) (fun _ he => he) rfl
  | acquire i =>
    simp only [step, Option.ite_none_right_eq_some, Option.some.injEq] at h
    obtain ⟨hc, rfl⟩ := h
    exact .of_update (by simp) rfl rfl (by simp [hc]) (by simp) (by simp) (by simp)
  | connected i =>
    simp only [step, Option.ite_none_right_eq_some, Option.some.injEq] at h
    obtain ⟨hc, rfl⟩ := h
    exact .of_update (by simp) rfl rfl (by simp [hc]) (by simp) (by simp) fun _ _ => ⟨rfl, hc⟩
  | refused i =>
    simp only [step, Option.ite_none_right_eq_some, Option.some.injEq] at h
    obtain ⟨hc, rfl⟩ := h
    exact .of_update (by simp) rfl rfl (by simp [hc]) (by simp) (by simp) (by simp)
  | cancel i =>
    simp only [step, Option.ite_none_right_eq_some, Option.some.injEq] at h
    obtain ⟨hc, rfl⟩ := h
    refine .of_update (by simp) rfl rfl (fun k hk => ?_) (by simp) (by simp) (by simp)
    rw [hk] at hc
    rcases hc with hc | hc <;> cases hc
  | release k =>
    simp only [step, Option.ite_none_right_eq_some, Option.some.injEq] at h
    obtain ⟨-, rfl⟩ := h
    exact .of_calls_eq (by simp) (fun _ he => he) rfl
  | store k =>
    simp only [step, Option.ite_none_right_eq_some, Option.some.injEq] at h
    obtain ⟨-, rfl⟩ := h
    refine .of_calls_eq (by simp) (fun e he => ?_) rfl
    rcases release_idle s.pool k s.clock with hfull | ⟨-, hpush⟩
    · exact hfull ▸ he
    · exact hpush ▸ List.mem_cons_of_mem _ he
  | cancelRelease k =>
    simp only [step, Option.ite_none_right_eq_some, Option.some.injEq] at h
    obtain ⟨-, rfl⟩ := h
    exact .of_calls_eq (by simp) (fun _ he => he) rfl
  | drop k =>
    simp only [step, Option.ite_none_right_eq_some, Option.some.injEq] at h
    obtain ⟨-, rfl⟩ := h
    exact .of_calls_eq (by simp) (fun _ he => he) rfl
  | sends k | fin k =>
    simp only [step, Option.ite_none_right_eq_some, Option.some.injEq] at h
    obtain ⟨-, rfl⟩ := h
    exact .of_calls_eq (by simp) (fun _ he => he) rfl

/-- **The pool over whole runs.** In every reachable state the list is within
`max_idle`, newest first, without a socket twice or one that a caller has
(or is giving back); and every step keeps the discipline of `Disciplined`:
a hit exactly when an entry is young enough, and then the newest; the
connect only from an empty list; and no entry young enough is discarded, by
an `acquire` that is cancelled or by any other. -/
theorem pool_discipline {p : Pool Nat} {s : St} (h : (system p).Reachable s) :
    s.pool.idle.length ≤ p.maxIdle ∧ Ordered s.pool.idle ∧ s.idleSockets.Nodup ∧
    (∀ k ∈ s.idleSockets, k ∉ s.held ∧ k ∉ s.releasing) ∧
    ∀ l s', step s l = some s' → Disciplined p.idleTtl s l s' := by
  have hi := inv_reachable h
  obtain ⟨hidle, -, hdisj⟩ := List.nodup_append.1 hi.nodup
  refine ⟨hi.length, hi.ordered, hidle, fun k hk => ⟨fun hh => ?_, fun hr => ?_⟩,
    fun l s' hs => disciplined_step hi hs⟩
  · exact hdisj k hk k (List.mem_append_left _ hh) rfl
  · exact hdisj k hk k (List.mem_append_right _ hr) rfl

/-- A socket is released and comes to the next `acquire` while a third one is
cancelled at the mutex. -/
def reuse : List Label :=
  [.acquire 0, .examine 0 [], .connected 0, .release 0, .store 0, .tick 5, .acquire 1,
    .acquire 2, .cancel 2]

theorem pool_discipline_reuse : ∃ s s', (system (new 8080)).Reachable s ∧
    step s (.examine 1 [3]) = some s' ∧ s'.call 1 = .hit 0 ∧
    Disciplined defaultIdleTtl s (.examine 1 [3]) s' := by
  have hr : (system (new 8080)).Reachable _ := LTS.reachable_of_exec step (start (new 8080)) reuse rfl
  exact ⟨_, _, hr, rfl, rfl, (pool_discipline hr).2.2.2.2 _ _ rfl⟩

end QuickTunnel.Pool.Concurrent
