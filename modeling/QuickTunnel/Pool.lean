import Mathlib.Algebra.Group.Nat.Defs
import Mathlib.Data.List.Basic

/-!
# The pool of idle origin connections

`src/pool.rs`. Instants and durations are nanoseconds of one monotone
clock. `Pool.idle` lists the vector from its end, so the head is the entry
that `last()` looks at and `pop()` removes.

The critical section of `acquire` reads the clock once for every entry it
looks at, and time passes while it runs: `delays` gives by how much the clock
has moved at each reading since the one before.
-/
namespace QuickTunnel

/-- `struct Idle`. -/
structure Idle (α : Type) where
  stream : α
  releasedAt : Nat
deriving DecidableEq

/-- `entry.released_at.elapsed()`, read at `now`. -/
def Idle.elapsed {α : Type} (e : Idle α) (now : Nat) : Nat := now - e.releasedAt

/-- `struct Pool`. -/
structure Pool (α : Type) where
  port : Nat
  idleTtl : Nat
  maxIdle : Nat
  idle : List (Idle α)

namespace Pool

variable {α : Type}

/-- `DEFAULT_IDLE_TTL`: 30 s. -/
def defaultIdleTtl : Nat := 30 * 10 ^ 9

/-- `DEFAULT_MAX_IDLE`. -/
def defaultMaxIdle : Nat := 16

def new (port : Nat) : Pool α := ⟨port, defaultIdleTtl, defaultMaxIdle, []⟩

/-- What the critical section of `acquire` comes to: the socket handed out,
if any, the entries that stay, and the clock at its end. -/
structure Examined (α : Type) where
  hit : Option α
  idle : List (Idle α)
  clock : Nat

/-- The `while let` loop of `acquire`, under the mutex. -/
def reap (ttl : Nat) : List (Idle α) → Nat → List Nat → Examined α
  | [], clock, _ => ⟨none, [], clock⟩
  | e :: rest, clock, delays =>
    let now := clock + delays.headD 0
    if e.elapsed now ≤ ttl then ⟨some e.stream, rest, now⟩
    else reap ttl rest now delays.tail

/-- `Pool::acquire` up to the end of its critical section; without a hit it
goes on to connect. -/
def acquire (p : Pool α) (clock : Nat) (delays : List Nat) : Option α × Pool α × Nat :=
  let x := reap p.idleTtl p.idle clock delays
  (x.hit, { p with idle := x.idle }, x.clock)

/-- The critical section of `Pool::release`; on overflow the socket is
dropped. -/
def release (p : Pool α) (stream : α) (now : Nat) : Pool α :=
  if p.maxIdle ≤ p.idle.length then p
  else { p with idle := ⟨stream, now⟩ :: p.idle }

/-- Newest at the top. -/
def Ordered (idle : List (Idle α)) : Prop :=
  idle.Pairwise fun e e' => e'.releasedAt ≤ e.releasedAt

/-! ## `reap` -/

theorem reap_clock_le (ttl : Nat) (idle : List (Idle α)) (clock : Nat) (delays : List Nat) :
    clock ≤ (reap ttl idle clock delays).clock := by
  fun_induction reap ttl idle clock delays with
  | case1 clock delays => exact Nat.le_refl _
  | case2 clock delays e rest now _ => exact Nat.le_add_right _ _
  | case3 clock delays e rest now _ ih => exact Nat.le_trans (Nat.le_add_right _ _) ih

/-- Where nothing is young enough at the first reading, the loop pops
everything. -/
theorem reap_of_stale {ttl : Nat} {idle : List (Idle α)} {clock : Nat} {delays : List Nat}
    (h : ∀ e ∈ idle, ttl < e.elapsed (clock + delays.headD 0)) :
    (reap ttl idle clock delays).hit = none ∧ (reap ttl idle clock delays).idle = [] := by
  induction idle generalizing clock delays with
  | nil => exact ⟨rfl, rfl⟩
  | cons e rest ih =>
    have he : ¬ e.elapsed (clock + delays.headD 0) ≤ ttl := Nat.not_le.2 (h e List.mem_cons_self)
    simp only [reap, if_neg he]
    refine ih fun e' he' => Nat.lt_of_lt_of_le (h e' (List.mem_cons_of_mem _ he')) ?_
    simp only [Idle.elapsed]
    omega

theorem reap_of_fresh {ttl : Nat} {e : Idle α} {rest : List (Idle α)} {clock : Nat}
    {delays : List Nat} (h : e.elapsed (clock + delays.headD 0) ≤ ttl) :
    reap ttl (e :: rest) clock delays = ⟨some e.stream, rest, clock + delays.headD 0⟩ := by
  simp only [reap, if_pos h]

/-- On an ordered list the top entry decides: it is handed out, or all are
too old. -/
theorem reap_cases (ttl : Nat) {idle : List (Idle α)} (clock : Nat) (delays : List Nat)
    (h : Ordered idle) :
    (∃ e rest, idle = e :: rest ∧ e.elapsed (clock + delays.headD 0) ≤ ttl ∧
      reap ttl idle clock delays = ⟨some e.stream, rest, clock + delays.headD 0⟩) ∨
    ((∀ e ∈ idle, ttl < e.elapsed (clock + delays.headD 0)) ∧
      (reap ttl idle clock delays).hit = none ∧ (reap ttl idle clock delays).idle = []) := by
  cases idle with
  | nil => exact .inr ⟨fun e he => absurd he (List.not_mem_nil), rfl, rfl⟩
  | cons e rest =>
    by_cases he : e.elapsed (clock + delays.headD 0) ≤ ttl
    · exact .inl ⟨e, rest, rfl, he, reap_of_fresh he⟩
    · have hall : ∀ e' ∈ e :: rest, ttl < e'.elapsed (clock + delays.headD 0) := by
        intro e' he'
        rcases List.mem_cons.1 he' with rfl | he'
        · omega
        · have hle := (List.pairwise_cons.1 h).1 e' he'
          simp only [Idle.elapsed] at he ⊢
          omega
      exact .inr ⟨hall, reap_of_stale hall⟩

/-! ## `release` -/

theorem release_idle (p : Pool α) (stream : α) (now : Nat) :
    (p.release stream now).idle = p.idle ∨
      (p.idle.length < p.maxIdle ∧ (p.release stream now).idle = ⟨stream, now⟩ :: p.idle) := by
  unfold release
  split
  · exact .inl rfl
  · exact .inr ⟨Nat.lt_of_not_le ‹_›, rfl⟩

@[simp] theorem release_idleTtl (p : Pool α) (stream : α) (now : Nat) :
    (p.release stream now).idleTtl = p.idleTtl := by
  unfold release
  split <;> rfl

@[simp] theorem release_maxIdle (p : Pool α) (stream : α) (now : Nat) :
    (p.release stream now).maxIdle = p.maxIdle := by
  unfold release
  split <;> rfl

end Pool
end QuickTunnel
