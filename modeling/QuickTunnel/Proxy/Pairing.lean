import QuickTunnel.Proxy.Served

/-!
# Requests and responses stay paired

The invariant of all streams over one pool (`Shared.shared`) and the result
that follows from it. The steps are taken apart into what they do to the
pool (`Inv.poolStep`), to a stream (`Inv.put`), to a socket and its stream
(`Inv.serve`), and to a socket alone (`Inv.answer`).

* `inv_step`: the invariant is kept by every step of a run in which the
  origin answers no oversized request too early.
* `paired`: in every such run requests and responses stay paired.
-/
namespace QuickTunnel.Proxy.Shared

open QuickTunnel.Stream
open QuickTunnel.Http (requests request)
open Inbound (hand onSocket)

/-- A stream without a socket. -/
def Unserved (st : Inbound.St) : Prop :=
  match st.pc with
  | .acquire => st.wire = {} ∧ st.released = false
  | .reject _ | .done _ => True
  | _ => False

structure TaskOk (P : Httparse) (t : Task) (sock : Nat → Sock) : Prop where
  conforms : conforming t.req = true
  unserved : t.sock = none → Unserved t.st
  replies : ∀ k, t.sock = some k → OwnReplies P t (sock k)
  serving : ∀ k, t.sock = some k → t.live = true → Serving P t (sock k)

structure Inv (P : Httparse) (p : Pool Nat) (s : St) : Prop where
  pool : Pool.Concurrent.Inv p s.pool
  holds : ∀ i k, s.Holds i k → k ∈ s.pool.held
  unique : ∀ i j k, s.Holds i k → s.Holds j k → i = j
  idle : ∀ k ∈ s.pool.idleSockets, Settled (s.sock k)
  spoiled : ∀ k ∈ s.spoiled, k ∉ s.pool.owned ∧ k < s.pool.opened
  fresh : ∀ k, s.pool.opened ≤ k → s.sock k = {}
  answered : ∀ k, Answered P (s.sock k)
  tasks : ∀ i t, s.task i = some t → TaskOk P t s.sock

section Invariant
variable {P : Httparse} {p : Pool Nat} {s s' : St}

theorem inv_start (P : Httparse) (p : Pool Nat) : Inv P p (start p) where
  pool := Pool.Concurrent.inv_start p
  holds := by rintro i k ⟨t, ht, -⟩; cases ht
  unique := by rintro i j k ⟨t, ht, -⟩; cases ht
  idle := by intro k hk; cases hk
  spoiled := by intro k hk; cases hk
  fresh := fun _ _ => rfl
  answered := by intro k m r hr; cases hr
  tasks := by intro i t ht; cases ht

/-! ## The pool -/

theorem mem_owned {q : Pool.Concurrent.St} {k : Nat} :
    k ∈ q.owned ↔ k ∈ q.idleSockets ∨ k ∈ q.held ∨ k ∈ q.releasing := by
  simp [Pool.Concurrent.St.owned]

theorem held_not_idle {q : Pool.Concurrent.St} (hi : Pool.Concurrent.Inv p q) {k : Nat}
    (hk : k ∈ q.held) : k ∉ q.idleSockets := by
  intro hidle
  exact (List.nodup_append.mp hi.nodup).2.2 k hidle k (List.mem_append_left _ hk) rfl

/-- Only `connect` makes new sockets. -/
theorem owned_of_step {q q' : Pool.Concurrent.St} {l : Pool.Concurrent.Label}
    (hi : Pool.Concurrent.Inv p q) (h : Pool.Concurrent.step q l = some q') :
    q.opened ≤ q'.opened ∧ ∀ k ∈ q'.owned, k ∈ q.owned ∨ q.opened ≤ k := by
  cases l with
  | examine i delays =>
    obtain ⟨-, ⟨e, rest, he, -, rfl⟩ | ⟨-, now, -, rfl⟩⟩ := Pool.Concurrent.examine_cases hi h
    · refine ⟨Nat.le_refl _, fun k hk => .inl ?_⟩
      simp only [mem_owned, Pool.Concurrent.St.idleSockets, he, List.map_cons, List.mem_cons] at hk ⊢
      tauto
    · refine ⟨Nat.le_refl _, fun k hk => .inl ?_⟩
      simp only [mem_owned, Pool.Concurrent.St.idleSockets, List.map_nil, List.not_mem_nil, false_or] at hk ⊢
      tauto
  | connected i =>
    simp only [Pool.Concurrent.step, Option.ite_none_right_eq_some, Option.some.injEq] at h
    obtain ⟨-, rfl⟩ := h
    refine ⟨Nat.le_succ _, fun k hk => ?_⟩
    simp only [mem_owned, Pool.Concurrent.St.idleSockets, List.mem_cons] at hk ⊢
    rcases hk with hk | (rfl | hk) | hk
    · exact .inl (.inl hk)
    · exact .inr (Nat.le_refl _)
    · exact .inl (.inr (.inl hk))
    · exact .inl (.inr (.inr hk))
  | release k =>
    simp only [Pool.Concurrent.step, Option.ite_none_right_eq_some, Option.some.injEq] at h
    obtain ⟨hk, rfl⟩ := h
    exact ⟨Nat.le_refl _, fun x hx => .inl ((Pool.Concurrent.owned_release hk).mem_iff.mp hx)⟩
  | store k =>
    simp only [Pool.Concurrent.step, Option.ite_none_right_eq_some, Option.some.injEq] at h
    obtain ⟨hk, rfl⟩ := h
    refine ⟨Nat.le_refl _, fun x hx => .inl ?_⟩
    simp only [mem_owned, Pool.Concurrent.St.idleSockets] at hx ⊢
    rcases hx with hx | hx | hx
    · rcases Pool.release_idle q.pool k q.clock with hfull | ⟨-, hpush⟩
      · rw [hfull] at hx
        exact .inl hx
      · rw [hpush, List.map_cons, List.mem_cons] at hx
        rcases hx with rfl | hx
        · exact .inr (.inr hk)
        · exact .inl hx
    · exact .inr (.inl hx)
    · exact .inr (.inr (List.mem_of_mem_erase hx))
  | cancelRelease k =>
    simp only [Pool.Concurrent.step, Option.ite_none_right_eq_some, Option.some.injEq] at h
    obtain ⟨-, rfl⟩ := h
    refine ⟨Nat.le_refl _, fun x hx => .inl ?_⟩
    rw [mem_owned] at hx ⊢
    exact hx.imp_right fun hx => hx.imp_right List.mem_of_mem_erase
  | drop k =>
    simp only [Pool.Concurrent.step, Option.ite_none_right_eq_some, Option.some.injEq] at h
    obtain ⟨-, rfl⟩ := h
    refine ⟨Nat.le_refl _, fun x hx => .inl ?_⟩
    rw [mem_owned] at hx ⊢
    exact hx.imp_right fun hx => hx.imp_left List.mem_of_mem_erase
  | tick d =>
    simp only [Pool.Concurrent.step, Option.some.injEq] at h
    subst h
    exact ⟨Nat.le_refl _, fun x hx => .inl hx⟩
  | acquire i | refused i | cancel i | sends k | fin k =>
    simp only [Pool.Concurrent.step, Option.ite_none_right_eq_some, Option.some.injEq] at h
    obtain ⟨-, rfl⟩ := h
    exact ⟨Nat.le_refl _, fun x hx => .inl hx⟩

/-- A step of the pool, with the streams where they were. -/
theorem Inv.poolStep (hi : Inv P p s) {q : Pool.Concurrent.St} {l : Pool.Concurrent.Label}
    (hs : Pool.Concurrent.step s.pool l = some q) (hheld : ∀ i k, s.Holds i k → k ∈ q.held)
    (hidle : ∀ k ∈ q.idleSockets, Settled (s.sock k)) : Inv P p { s with pool := q } := by
  obtain ⟨hopened, howned⟩ := owned_of_step hi.pool hs
  exact
    { pool := Pool.Concurrent.inv_step hi.pool hs
      holds := hheld
      unique := hi.unique
      idle := hidle
      spoiled := by
        intro k hk
        obtain ⟨hno, hlt⟩ := hi.spoiled k hk
        refine ⟨fun hmem => ?_, Nat.lt_of_lt_of_le hlt hopened⟩
        rcases howned k hmem with h | h
        · exact hno h
        · omega
      fresh := fun k hk => hi.fresh k (Nat.le_trans hopened hk)
      answered := hi.answered
      tasks := hi.tasks }

/-! ## Streams and sockets -/

theorem holds_put {i j k : Nat} {t : Task} (h : (s.put i t).Holds j k) :
    (j = i ∧ t.live = true ∧ t.sock = some k) ∨ (j ≠ i ∧ s.Holds j k) := by
  obtain ⟨t', ht', hl, hk⟩ := h
  by_cases hj : j = i
  · subst hj
    simp only [St.put, Function.update_self, Option.some.injEq] at ht'
    subst ht'
    exact .inl ⟨rfl, hl, hk⟩
  · simp only [St.put, Function.update_of_ne hj] at ht'
    exact .inr ⟨hj, t', ht', hl, hk⟩

/-- One stream changes, without a new socket. -/
theorem Inv.put (hi : Inv P p s) {i : Nat} {t : Task} (ht : TaskOk P t s.sock)
    (hk : ∀ k, t.live = true → t.sock = some k → s.Holds i k) : Inv P p (s.put i t) := by
  have hsame : ∀ {j k}, (s.put i t).Holds j k → s.Holds j k := by
    intro j k h
    rcases holds_put h with ⟨rfl, hl, hs⟩ | ⟨-, h⟩
    · exact hk k hl hs
    · exact h
  exact
    { pool := hi.pool
      holds := fun j k h => hi.holds j k (hsame h)
      unique := fun j j' k h h' => hi.unique j j' k (hsame h) (hsame h')
      idle := hi.idle
      spoiled := hi.spoiled
      fresh := hi.fresh
      answered := hi.answered
      tasks := by
        intro j t' ht'
        by_cases hj : j = i
        · subst hj
          simp only [St.put, Function.update_self, Option.some.injEq] at ht'
          exact ht' ▸ ht
        · simp only [St.put, Function.update_of_ne hj] at ht'
          exact hi.tasks j t' ht' }

theorem TaskOk.setSock {t : Task} {sock : Nat → Sock} {k : Nat} {sk : Sock} (h : TaskOk P t sock)
    (hle : (sock k).le sk) (hfree : t.live = true → t.sock ≠ some k) :
    TaskOk P t (Function.update sock k sk) where
  conforms := h.conforms
  unserved := h.unserved
  replies := by
    intro x hx
    by_cases hxk : x = k
    · subst hxk
      rw [Function.update_self]
      exact (h.replies x hx).mono hle
    · rw [Function.update_of_ne hxk]
      exact h.replies x hx
  serving := by
    intro x hx hl
    have hxk : x ≠ k := by
      intro heq
      subst heq
      exact hfree hl hx
    rw [Function.update_of_ne hxk]
    exact h.serving x hx hl

/-- One stream moves on with the socket that only it has. -/
theorem Inv.serve (hi : Inv P p s) {i k : Nat} {t : Task} {sk : Sock} (hheld : k ∈ s.pool.held)
    (hown : ∀ j, s.Holds j k → j = i) (hle : (s.sock k).le sk) (ha : Answered P sk)
    (hsock : t.sock = some k) (ht : TaskOk P t (Function.update s.sock k sk)) :
    Inv P p ((s.put i t).setSock k sk) := by
  have hidle : k ∉ s.pool.idleSockets := held_not_idle hi.pool hheld
  have hlt : k < s.pool.opened := hi.pool.opened k (mem_owned.mpr (.inr (.inl hheld)))
  have hcases : ∀ {j x}, ((s.put i t).setSock k sk).Holds j x → (j = i ∧ x = k) ∨ (j ≠ i ∧ s.Holds j x) := by
    intro j x h
    rcases holds_put (s := s) h with ⟨rfl, -, hs⟩ | h
    · rw [hsock, Option.some.injEq] at hs
      exact .inl ⟨rfl, hs.symm⟩
    · exact .inr h
  exact
    { pool := hi.pool
      holds := by
        intro j x h
        rcases hcases h with ⟨-, rfl⟩ | ⟨-, h⟩
        · exact hheld
        · exact hi.holds j x h
      unique := by
        intro j j' x h h'
        rcases hcases h with ⟨rfl, rfl⟩ | ⟨-, hold⟩
        · rcases hcases h' with ⟨rfl, -⟩ | ⟨-, hold'⟩
          · rfl
          · exact (hown j' hold').symm
        · rcases hcases h' with ⟨rfl, rfl⟩ | ⟨-, hold'⟩
          · exact hown j hold
          · exact hi.unique j j' x hold hold'
      idle := by
        intro x hx
        have hxk : x ≠ k := by
          intro heq
          subst heq
          exact hidle hx
        simp only [St.setSock, St.put, Function.update_of_ne hxk]
        exact hi.idle x hx
      spoiled := hi.spoiled
      fresh := by
        intro x hx
        have hxk : x ≠ k := by
          intro heq
          subst heq
          exact absurd hlt (Nat.not_lt.mpr hx)
        simp only [St.setSock, St.put, Function.update_of_ne hxk]
        exact hi.fresh x hx
      answered := by
        intro x
        by_cases hxk : x = k
        · subst hxk
          simp only [St.setSock, Function.update_self]
          exact ha
        · simp only [St.setSock, St.put, Function.update_of_ne hxk]
          exact hi.answered x
      tasks := by
        intro j t' ht'
        by_cases hj : j = i
        · subst hj
          simp only [St.setSock, St.put, Function.update_self, Option.some.injEq] at ht'
          exact ht' ▸ ht
        · simp only [St.setSock, St.put, Function.update_of_ne hj] at ht'
          exact (hi.tasks j t' ht').setSock hle fun hl hk => hj (hown j ⟨t', ht', hl, hk⟩) }

/-- A socket nobody has is dropped. -/
theorem Inv.lose (hi : Inv P p s) {k : Nat} (hfree : ∀ i, ¬ s.Holds i k) (hs : s.lose k = some s') :
    Inv P p s' := by
  simp only [St.lose, Option.map_eq_some_iff] at hs
  obtain ⟨q, hq, rfl⟩ := hs
  have hdrop := hq
  simp only [Pool.Concurrent.step, Option.ite_none_right_eq_some, Option.some.injEq] at hdrop
  obtain ⟨hk, rfl⟩ := hdrop
  have hnodup := hi.pool.nodup
  have hheld : ∀ i x, s.Holds i x → x ∈ s.pool.held.erase k := by
    intro i x h
    refine (List.mem_erase_of_ne ?_).mpr (hi.holds i x h)
    intro heq
    subst heq
    exact hfree i h
  have hi' := hi.poolStep hq hheld hi.idle
  refine { hi' with spoiled := fun x hx => ?_ }
  rcases List.mem_cons.mp hx with rfl | hx
  · refine ⟨fun hmem => ?_, hi.pool.opened x (mem_owned.mpr (.inr (.inl hk)))⟩
    -- the list of all owned sockets has no duplicates, and one `x` is gone
    have hn := List.nodup_append.mp hnodup
    have hn' := List.nodup_append.mp hn.2.1
    rcases mem_owned.mp hmem with h | h | h
    · exact held_not_idle hi.pool hk h
    · exact (List.Nodup.not_mem_erase hn'.1) h
    · exact hn'.2.2 x hk x h rfl
  · exact hi'.spoiled x hx

/-! ## The steps -/

theorem acquiring_iff {t : Task} : t.acquiring = true ↔ t.live = true ∧ t.st.pc = .acquire := by
  cases hpc : t.st.pc <;> simp [Task.acquiring, hpc]

theorem releasing_iff {t : Task} :
    t.releasing = true ↔ t.live = true ∧ ∃ h, t.st.pc = .pooled (.release h) := by
  cases hpc : t.st.pc with
  | pooled pc => cases pc <;> simp [Task.releasing, hpc]
  | _ => simp [Task.releasing, hpc]

section Step
variable {i k : Nat} {t : Task}

/-- A stream that waits for its socket has none. -/
theorem TaskOk.of_acquiring {sock : Nat → Sock} (h : TaskOk P t sock) (ha : t.acquiring = true) :
    t.sock = none ∧ t.st.pc = .acquire ∧ t.st.wire = {} ∧ t.st.released = false := by
  obtain ⟨hl, hpc⟩ := acquiring_iff.mp ha
  have hnone : t.sock = none := by
    cases hk : t.sock with
    | none => rfl
    | some k =>
      have hon := (h.serving k hk hl).on
      rw [hpc] at hon
      cases hon
  have hun := h.unserved hnone
  simp only [Unserved, hpc] at hun
  exact ⟨hnone, hpc, hun⟩

theorem inv_acquired (hi : Inv P p s) (ht : s.task i = some t) (ha : t.acquiring = true)
    (hheld : k ∈ s.pool.held) (hfree : ∀ j, ¬ s.Holds j k) (hrest : Rest (s.sock k))
    (hs : s.acquired P i t k = some s') : Inv P p s' := by
  simp only [St.acquired, Option.map_eq_some_iff] at hs
  obtain ⟨st, hst, rfl⟩ := hs
  have hok := hi.tasks i t ht
  obtain ⟨-, hpc, hw, hrel⟩ := hok.of_acquiring ha
  have hserving := serving_of_rest hrest k hpc hw hrel hst
  have hle : (s.sock k).le { s.sock k with handed := (s.sock k).written ++ hand t.req st [] } :=
    ⟨hrest.written ▸ List.prefix_append _ _, List.prefix_rfl⟩
  have hans := (hi.answered k).mono hle.handed rfl
  refine hi.serve hheld (fun j hj => absurd hj (hfree j)) hle hans rfl ⟨hok.conforms, ?_, ?_, ?_⟩
  · intro hno
    cases hno
  · intro x hx
    cases hx
    rw [Function.update_self]
    exact hserving.toServed.ownReplies hans hok.conforms
  · intro x hx _
    cases hx
    rw [Function.update_self]
    exact hserving

theorem unserved_step {req : ConnectRequest} {st st' : Inbound.St} {l : Inbound.Label}
    (h : Unserved st) (hpc : st.pc ≠ .acquire) (hs : Inbound.step P req st l = some st') : Unserved st' := by
  cases hp : st.pc with
  | acquire => exact absurd hp hpc
  | reject rest =>
    cases l with
    | main e =>
      simp only [Inbound.step, hp] at hs
      rcases Inbound.stepFrame_cases hs with ⟨x, rest', -, rfl⟩ | ⟨-, rfl⟩ | ⟨msg, err, -, rfl⟩ <;> trivial
    | _ => simp [Inbound.step, hp] at hs
  | done r => cases l <;> simp [Inbound.step, hp] at hs
  | _ => simp only [Unserved, hp] at h

theorem inv_moved {st : Inbound.St} {l : Inbound.Label} (hi : Inv P p s) (ht : s.task i = some t)
    (hl : t.live = true) (ha : t.acquiring = false) (hst : Inbound.step P t.req t.st l = some st)
    (hs : s.moved i t st = some s') : Inv P p s' := by
  have hok := hi.tasks i t ht
  unfold St.moved at hs
  cases hk : t.sock with
  | none =>
    simp only [hk, Option.some.injEq] at hs
    subst hs
    have hpc : t.st.pc ≠ .acquire := by
      intro hpc
      rw [acquiring_iff.mpr ⟨hl, hpc⟩] at ha
      cases ha
    have hnone : (t.moved st).sock = none := hk
    refine hi.put ⟨hok.conforms, fun _ => unserved_step (hok.unserved hk) hpc hst, ?_, ?_⟩ ?_
    · intro x hx
      rw [hnone] at hx
      cases hx
    · intro x hx
      rw [hnone] at hx
      cases hx
    · intro x _ hx
      rw [hnone] at hx
      cases hx
  | some k =>
    simp only [hk, Option.ite_none_right_eq_some] at hs
    obtain ⟨hgot, hs⟩ := hs
    have hholds : s.Holds i k := ⟨t, ht, hl, hk⟩
    have hown : ∀ j, s.Holds j k → j = i := fun j hj => hi.unique j i k hj hholds
    obtain ⟨hserved, hserving, hle⟩ := (hok.serving k hk hl).moved hst hgot
    have hans := (hi.answered k).mono hle.handed rfl
    have hok' : TaskOk P (t.moved st) (Function.update s.sock k ((s.sock k).moved t st)) := by
      refine ⟨hok.conforms, fun h => ?_, fun x hx => ?_, fun x hx hlive => ?_⟩
      · rw [show (t.moved st).sock = t.sock from rfl, hk] at h
        cases h
      · obtain rfl : k = x := Option.some.inj (hk.symm.trans hx)
        rw [Function.update_self]
        exact hserved.ownReplies hans hok.conforms
      · obtain rfl : k = x := Option.some.inj (hk.symm.trans hx)
        rw [Function.update_self]
        exact hserving (by simpa [Task.moved] using hlive)
    have hi' := hi.serve (t := t.moved st) (hi.holds i k hholds) hown hle hans hk hok'
    split at hs
    · -- the stream has returned, so nobody has the socket any more
      rename_i hret
      refine hi'.lose (fun j hj => ?_) hs
      rcases holds_put (s := s) hj with ⟨-, hlive, -⟩ | ⟨hne, hj⟩
      · simp [Task.moved, hret] at hlive
      · exact hne (hown j hj)
    · cases hs
      exact hi'

/-- A stream is cancelled or has given its socket back. -/
theorem TaskOk.over {sock : Nat → Sock} {st : Inbound.St} (h : TaskOk P t sock)
    (hw : st.wire = t.st.wire) (hun : t.sock = none → Unserved st) :
    TaskOk P { t with st := st, live := false } sock where
  conforms := h.conforms
  unserved := hun
  replies := by
    intro k hk
    have := h.replies k hk
    unfold OwnReplies at this ⊢
    simpa only [hw] using this
  serving := by
    intro k _ hl
    cases hl

theorem Inv.over {st : Inbound.St} (hi : Inv P p s) (ht : s.task i = some t)
    (hw : st.wire = t.st.wire) (hun : t.sock = none → Unserved st) :
    Inv P p (s.put i { t with st := st, live := false }) ∧
      ∀ k, s.Holds i k → ∀ j, ¬ (s.put i { t with st := st, live := false }).Holds j k := by
  refine ⟨hi.put ((hi.tasks i t ht).over hw hun) ?_, fun k hk j hj => ?_⟩
  · intro k hl
    cases hl
  rcases holds_put hj with ⟨-, hl, -⟩ | ⟨hne, hj⟩
  · cases hl
  · exact hne (hi.unique j i k hj hk)

theorem inv_cancel (hi : Inv P p s) (hs : step P s (.cancel i) = some s') : Inv P p s' := by
  simp only [step, Option.bind_eq_some_iff, Option.ite_none_right_eq_some] at hs
  obtain ⟨t, ht, hl, hs⟩ := hs
  have hun : t.sock = none → Unserved t.st := (hi.tasks i t ht).unserved
  obtain ⟨hi', hfree⟩ := hi.over ht rfl hun
  cases hk : t.sock with
  | some k =>
    simp only [hk] at hs
    exact hi'.lose (hfree k ⟨t, ht, hl, hk⟩) (by simpa [hk] using hs)
  | none =>
    simp only [hk] at hs
    split at hs
    · simp only [Option.map_eq_some_iff] at hs
      obtain ⟨q, hq, rfl⟩ := hs
      have hsame := hq
      simp only [Pool.Concurrent.step, Option.ite_none_right_eq_some, Option.some.injEq] at hsame
      obtain ⟨-, rfl⟩ := hsame
      simpa [hk] using hi'.poolStep hq hi'.holds hi'.idle
    · cases hs
      simpa [hk] using hi'

/-- What the pool's steps without a socket leave alone. -/
theorem inv_quiet (hi : Inv P p s) {q : Pool.Concurrent.St} {l : Pool.Concurrent.Label}
    (hl : (∃ d, l = .tick d) ∨ l = .acquire i ∨ l = .refused i ∨ l = .cancel i)
    (hs : Pool.Concurrent.step s.pool l = some q) : Inv P p { s with pool := q } := by
  have hsame : q.idleSockets = s.pool.idleSockets ∧ q.held = s.pool.held := by
    rcases hl with ⟨d, rfl⟩ | rfl | rfl | rfl
    · simp only [Pool.Concurrent.step, Option.some.injEq] at hs
      subst hs
      exact ⟨rfl, rfl⟩
    all_goals
      simp only [Pool.Concurrent.step, Option.ite_none_right_eq_some, Option.some.injEq] at hs
      obtain ⟨-, rfl⟩ := hs
      exact ⟨rfl, rfl⟩
  refine hi.poolStep hs (fun j k h => hsame.2 ▸ hi.holds j k h) fun k hk => ?_
  rw [hsame.1] at hk
  exact hi.idle k hk

theorem inv_arrive {req : ConnectRequest} (hi : Inv P p s) (hc : conforming req = true)
    (hs : step P s (.arrive i req) = some s') : Inv P p s' := by
  simp only [step, Option.ite_none_right_eq_some, Option.map_eq_some_iff] at hs
  obtain ⟨⟨-, hn⟩, q, hq, rfl⟩ := hs
  refine (inv_quiet hi (.inr (.inl rfl)) hq).put ⟨hc, fun _ => ?_, by simp, by simp⟩ (by simp)
  cases h : req.connType with
  | tcp => exact absurd h hn
  | _ => simp [Unserved, Inbound.start, h]

theorem inv_examine {delays : List Nat} (hi : Inv P p s) (hs : step P s (.examine i delays) = some s') :
    Inv P p s' := by
  simp only [step, Option.bind_eq_some_iff, Option.ite_none_right_eq_some] at hs
  obtain ⟨t, ht, ha, q, hq, hs⟩ := hs
  obtain ⟨-, ⟨e, rest, he, -, rfl⟩ | ⟨-, now, -, rfl⟩⟩ := Pool.Concurrent.examine_cases hi.pool hq
  · simp only [Function.update_self] at hs
    have hmem : e.stream ∈ s.pool.idleSockets := by simp [Pool.Concurrent.St.idleSockets, he]
    have hi' := hi.poolStep hq (fun j k h => List.mem_cons_of_mem _ (hi.holds j k h)) fun k hk =>
      hi.idle k (by
        simp only [Pool.Concurrent.St.idleSockets, he, List.map_cons]
        exact List.mem_cons_of_mem _ hk)
    refine inv_acquired hi' ht ha List.mem_cons_self (fun j hj => ?_) (hi.idle _ hmem).rest hs
    exact held_not_idle hi.pool (hi.holds j _ hj) hmem
  · simp only [Function.update_self, Option.some.injEq] at hs
    subst hs
    refine hi.poolStep hq hi.holds fun k hk => ?_
    cases hk

theorem inv_connected (hi : Inv P p s) (hs : step P s (.connected i) = some s') : Inv P p s' := by
  simp only [step, Option.bind_eq_some_iff, Option.ite_none_right_eq_some] at hs
  obtain ⟨t, ht, ha, q, hq, hs⟩ := hs
  have hnew := hq
  simp only [Pool.Concurrent.step, Option.ite_none_right_eq_some, Option.some.injEq] at hnew
  obtain ⟨-, rfl⟩ := hnew
  have hi' := hi.poolStep hq (fun j k h => List.mem_cons_of_mem _ (hi.holds j k h)) hi.idle
  refine inv_acquired hi' ht ha List.mem_cons_self (fun j hj => ?_) ?_ hs
  · exact Nat.lt_irrefl _ (hi.pool.opened _ (mem_owned.mpr (.inr (.inl (hi.holds j _ hj)))))
  · rw [hi.fresh _ (Nat.le_refl _)]
    exact rest_fresh

/-- `acquire` ends without a socket. -/
theorem inv_unserved (hi : Inv P p s) {q : Pool.Concurrent.St} {l : Pool.Concurrent.Label}
    {st : Inbound.St} (hl : l = .refused i ∨ l = .cancel i) (hq : Pool.Concurrent.step s.pool l = some q)
    (ht : s.task i = some t) (ha : t.acquiring = true) (hst : Unserved st) :
    Inv P p { s.put i { t with st := st } with pool := q } := by
  have hok := hi.tasks i t ht
  obtain ⟨hnone, -⟩ := hok.of_acquiring ha
  refine (inv_quiet hi (.inr (.inr hl)) hq).put ⟨hok.conforms, fun _ => hst, ?_, ?_⟩ ?_
  all_goals
    intro x hx
    simp_all

theorem inv_store (hi : Inv P p s) (hs : step P s (.store i) = some s') : Inv P p s' := by
  simp only [step, Option.bind_eq_some_iff, Option.ite_none_right_eq_some, Option.map_eq_some_iff] at hs
  obtain ⟨t, ht, k, hk, hr, q, hq, q', hq', st, hst, rfl⟩ := hs
  obtain ⟨hl, h, hpc⟩ := releasing_iff.mp hr
  have hok := hi.tasks i t ht
  have hset := (hok.serving k hk hl).settled (hi.answered k) hok.conforms hpc
  have hw : st.wire = t.st.wire := by
    simp only [Inbound.step, hpc, Pooled.step, Option.map_some, Option.some.injEq] at hst
    rw [← hst]
    rfl
  obtain ⟨hi₁, hfree⟩ := hi.over ht hw fun h => by rw [hk] at h; cases h
  -- the call of `release`, then its critical section
  have hrel := hq
  simp only [Pool.Concurrent.step, Option.ite_none_right_eq_some, Option.some.injEq] at hrel
  obtain ⟨-, rfl⟩ := hrel
  have hi₂ := hi₁.poolStep hq (fun j x h => (List.mem_erase_of_ne (by
    intro heq
    subst heq
    exact hfree x ⟨t, ht, hl, hk⟩ j h)).mpr (hi₁.holds j x h)) hi₁.idle
  have hsto := hq'
  simp only [Pool.Concurrent.step, Option.ite_none_right_eq_some, Option.some.injEq] at hsto
  obtain ⟨-, rfl⟩ := hsto
  apply hi₂.poolStep hq' hi₂.holds
  intro x hx
  rcases Pool.release_idle s.pool.pool k s.pool.clock with hfull | ⟨-, hpush⟩
  · simp only [Pool.Concurrent.St.idleSockets, hfull] at hx
    exact hi.idle x hx
  · simp only [Pool.Concurrent.St.idleSockets, hpush, List.map_cons, List.mem_cons] at hx
    rcases hx with rfl | hx
    · exact hset
    · exact hi.idle x hx

/-- **The origin responds.** Only a socket with a stream on it is asked for a
response that anybody will read. -/
theorem inv_answer {n : Nat} {r : Bytes} (hi : Inv P p s) (ha : Assumed P s (.answer k n r))
    (hin : InTime P s (.answer k n r)) (hs : step P s (.answer k n r) = some s') : Inv P p s' := by
  simp only [step, Option.some.injEq] at hs
  subst hs
  obtain ⟨h, b, hreq, hresp⟩ := ha
  obtain ⟨b', hknown⟩ := Http.request_of_prefix hreq (List.take_prefix _ _)
  have hle : (s.sock k).le { s.sock k with
      responses := (s.sock k).responses ++ [r]
      unread := (s.sock k).unread ++ r } := ⟨List.prefix_rfl, List.prefix_append _ _⟩
  have hrest : ¬ Rest (s.sock k) := by
    intro hrest
    rw [hrest.written, hrest.answered, Http.request_of_rest hrest.requests (Nat.le_refl _)] at hknown
    cases hknown
  exact
    { pool := hi.pool
      holds := hi.holds
      unique := hi.unique
      idle := by
        intro x hx
        have hxk : x ≠ k := by
          intro heq
          subst heq
          exact hrest (hi.idle x hx).rest
        simp only [St.setSock, Function.update_of_ne hxk]
        exact hi.idle x hx
      spoiled := hi.spoiled
      fresh := by
        intro x hx
        have hxk : x ≠ k := by
          intro heq
          subst heq
          rw [hi.fresh x hx] at hrest
          exact hrest rest_fresh
        simp only [St.setSock, Function.update_of_ne hxk]
        exact hi.fresh x hx
      answered := by
        intro x
        by_cases hxk : x = k
        · subst hxk
          simp only [St.setSock, Function.update_self]
          intro m r' hm
          rcases Nat.lt_or_ge m (s.sock x).responses.length with hlt | hge
          · rw [List.getElem?_append_left hlt] at hm
            exact hi.answered x m r' hm
          · rw [List.getElem?_append_right hge] at hm
            obtain ⟨h0, rfl⟩ : m - (s.sock x).responses.length = 0 ∧ r = r' := by
              simpa [List.getElem?_singleton] using hm
            obtain rfl : m = (s.sock x).responses.length := by omega
            exact ⟨h, b', hknown, hresp⟩
        · simp only [St.setSock, Function.update_of_ne hxk]
          exact hi.answered x
      tasks := by
        intro j t ht
        have hok := hi.tasks j t ht
        by_cases hl : t.live = true ∧ t.sock = some k
        · have hserving := (hok.serving k hl.2 hl.1).answer (r := r) hok.conforms hreq fun hb ho =>
            hin h (hb ▸ hreq) ho
          refine ⟨hok.conforms, hok.unserved, fun x hx => ?_, fun x hx hlive => ?_⟩
          · obtain rfl : k = x := Option.some.inj (hl.2.symm.trans hx)
            simp only [St.setSock, Function.update_self]
            exact (hok.replies k hx).mono hle
          · obtain rfl : k = x := Option.some.inj (hl.2.symm.trans hx)
            simp only [St.setSock, Function.update_self]
            exact hserving
        · exact hok.setSock hle fun hlive hk => hl ⟨hlive, hk⟩ }

end Step

theorem inv_step {l : Label} (hi : Inv P p s) (ha : Assumed P s l) (hin : InTime P s l)
    (hs : step P s l = some s') : Inv P p s' := by
  cases l with
  | tick d =>
    simp only [step, Option.map_eq_some_iff] at hs
    obtain ⟨q, hq, rfl⟩ := hs
    exact inv_quiet (i := 0) hi (.inl ⟨d, rfl⟩) hq
  | arrive i req => exact inv_arrive hi ha hs
  | examine i delays => exact inv_examine hi hs
  | connected i => exact inv_connected hi hs
  | refused i msg =>
    simp only [step, Option.bind_eq_some_iff, Option.ite_none_right_eq_some, Option.map_eq_some_iff] at hs
    obtain ⟨t, ht, hacq, q, hq, st, hst, rfl⟩ := hs
    refine inv_unserved hi (.inl rfl) hq ht hacq ?_
    simp only [Inbound.step, (acquiring_iff.mp hacq).2, Option.some.injEq] at hst
    subst hst
    trivial
  | timeout i =>
    simp only [step, Option.bind_eq_some_iff, Option.ite_none_right_eq_some, Option.map_eq_some_iff] at hs
    obtain ⟨t, ht, hacq, q, hq, st, hst, rfl⟩ := hs
    refine inv_unserved hi (.inr rfl) hq ht hacq ?_
    simp only [Inbound.step, (acquiring_iff.mp hacq).2, Option.some.injEq] at hst
    subst hst
    trivial
  | io i l =>
    simp only [step, Option.bind_eq_some_iff, Option.ite_none_right_eq_some] at hs
    obtain ⟨t, ht, ⟨hl, hacq, -⟩, st, hst, hs⟩ := hs
    exact inv_moved hi ht hl (by simpa using hacq) hst hs
  | store i => exact inv_store hi hs
  | cancel i => exact inv_cancel hi hs
  | answer k n r => exact inv_answer hi ha hin hs

theorem paired_of_inv (hi : Inv P p s) : Paired P s where
  exclusive := fun i k h =>
    ⟨held_not_idle hi.pool (hi.holds i k h), fun j hj => hi.unique j i k hj h⟩
  settled := hi.idle
  answered := hi.answered
  spoiled := by
    intro k hk
    obtain ⟨hno, -⟩ := hi.spoiled k hk
    rw [mem_owned] at hno
    exact ⟨fun h => hno (.inl h), fun i h => hno (.inr (.inl (hi.holds i k h)))⟩
  replies := fun i t k ht hk => (hi.tasks i t ht).replies k hk

end Invariant

/-- The runs whose edge and origin are as assumed. -/
def assumed (P : Httparse) (p : Pool Nat) : LTS St Label := (shared P p).guard (Assumed P)

theorem inv_reachable {P : Httparse} {p : Pool Nat} {s : St}
    (h : ((assumed P p).guard (InTime P)).Reachable s) : Inv P p s := by
  refine LTS.Inductive.reachable (M := (assumed P p).guard (InTime P)) ⟨?_, ?_⟩ h
  · intro s hs
    rw [hs]
    exact inv_start P p
  · intro s l s' hi hstep
    obtain ⟨⟨hs, ha⟩, hin⟩ := hstep
    exact inv_step hi ha hin hs

/-- **Requests and responses stay paired** while no oversized request is
answered too early, and a socket once spoiled is never idle or held again. -/
theorem paired (P : Httparse) (p : Pool Nat) {s : St}
    (h : ((assumed P p).guard (InTime P)).Reachable s) :
    Paired P s ∧ ∀ ls s', ((assumed P p).guard (InTime P)).Run s ls s' →
      ∀ k ∈ s.spoiled, k ∉ s'.pool.idleSockets ∧ ∀ i, ¬ s'.Holds i k := by
  refine ⟨paired_of_inv (inv_reachable h), fun ls s' hrun k hk => ?_⟩
  have hstep : ∀ u l u', k ∈ u.spoiled → ((assumed P p).guard (InTime P)).step u l u' → k ∈ u'.spoiled :=
    fun _ _ _ hk hs => (parts_step (p := p) hs.1.1).spoiled hk
  have hstays : k ∈ s'.spoiled := hrun.preserves (I := fun u => k ∈ u.spoiled) hstep hk
  exact (paired_of_inv (inv_reachable (h.run hrun))).spoiled k hstays

/-! ## Runs on given bytes -/

/-- The stream writes its head, gets `emptyOk` on socket 0, passes it on and
gives the socket back. -/
def exchange (i : Nat) : List Label :=
  [.io i (.main .ok), .answer 0 1000 emptyOk, .io i (.main (.read emptyOk))] ++
    List.replicate 5 (.io i (.main .ok)) ++ [.store i]

/-- Conforming requests, and `emptyOk` to a request that begins with `hd`. -/
def Staged (hd : Http.RequestHead) (s : St) : Label → Prop
  | .arrive _ req => conforming req = true
  | .answer k n r => r = emptyOk ∧ (s.pending k n).map Prod.fst = some hd
  | _ => True

instance (hd : Http.RequestHead) (s : St) : ∀ l, Decidable (Staged hd s l)
  | .arrive _ req => inferInstanceAs (Decidable (conforming req = true))
  | .answer k n r => inferInstanceAs (Decidable (r = emptyOk ∧ (s.pending k n).map Prod.fst = some hd))
  | .tick _ | .examine _ _ | .connected _ | .refused _ _ | .timeout _ | .io _ _ | .store _ | .cancel _ =>
    isTrue trivial

theorem response_emptyOk {method : Bytes} (hm : method = ascii "GET" ∨ method = ascii "POST") :
    Http.Response refHttparse.IsHead method emptyOk := by
  have hh : refHttparse.IsHead emptyOk ⟨1, 200, [(ascii "Content-Length", ascii "0")]⟩ := refHttparse.emptyOk
  have hf : Http.framing method ⟨1, 200, [(ascii "Content-Length", ascii "0")]⟩ = some (.length 0) := by
    rcases hm with rfl | rfl <;> decide
  have ha : Http.lengthAllowed method ⟨1, 200, [(ascii "Content-Length", ascii "0")]⟩ = true := by
    rcases hm with rfl | rfl <;> decide
  exact Http.Response.final hh (by decide) ha hf (.length [])

theorem assumed_of_staged {hd : Http.RequestHead} (hm : hd.method = ascii "GET" ∨ hd.method = ascii "POST")
    {s : St} {l : Label} (h : Staged hd s l) : Assumed refHttparse s l := by
  cases l with
  | arrive i req => exact h
  | answer k n r =>
    obtain ⟨rfl, h⟩ := h
    simp only [Option.map_eq_some_iff, Prod.exists, exists_and_right, exists_eq_right] at h
    obtain ⟨b, hb⟩ := h
    exact ⟨hd, b, hb, response_emptyOk hm⟩
  | _ => trivial

theorem inTime_of_staged {hd : Http.RequestHead} (ho : oversized hd = false) {s : St} {l : Label}
    (h : Staged hd s l) : InTime refHttparse s l := by
  cases l with
  | answer k n r =>
    intro h' hpending hover
    have hmap : some h' = some hd := by
      rw [← h.2, hpending]
      rfl
    rw [Option.some.inj hmap, ho] at hover
    cases hover
  | _ => trivial

/-- Two requests in a row on one socket. -/
theorem two_gets_paired : ∃ s, Paired refHttparse s ∧ s.pool.idleSockets = [0] ∧
    (requests (s.sock 0).written).1.length = 2 := by
  obtain ⟨s, hs, hq⟩ := LTS.exists_of_exec (step refHttparse) (Staged (requestHead Pooled.plainGet true))
    (start (Pool.new 8080))
    ([.arrive 0 Pooled.plainGet, .examine 0 [], .connected 0] ++ exchange 0 ++
      [.arrive 1 Pooled.plainGet, .examine 1 []] ++ exchange 1)
    (fun s => s.pool.idleSockets == [0] && (requests (s.sock 0).written).1.length == 2) (by decide +kernel)
  simp only [Bool.and_eq_true, beq_iff_eq] at hq
  have hm : requestMethod Pooled.plainGet = ascii "GET" := by decide
  have ho : oversized (requestHead Pooled.plainGet true) = false := by decide
  have hguard : ((assumed refHttparse (Pool.new 8080)).guard (InTime refHttparse)).Reachable s :=
    (hs.mono_guard fun u l h => ⟨assumed_of_staged (.inl hm) h, inTime_of_staged ho h⟩).guard_guard
  exact ⟨s, (paired refHttparse (Pool.new 8080) hguard).1, hq⟩

/-- A POST that announces 2 ^ 64 bytes, of which none is sent, answered at
once: its socket is idle with the request open. -/
theorem huge_body_left_open :
    ∃ s, (assumed refHttparse (Pool.new 8080)).Reachable s ∧ ¬ Paired refHttparse s := by
  obtain ⟨s, hs, hq⟩ := LTS.exists_of_exec (step refHttparse) (Staged (requestHead Pooled.hugeBody true))
    (start (Pool.new 8080)) ([.arrive 0 Pooled.hugeBody, .examine 0 [], .connected 0] ++ exchange 0)
    (fun s => s.pool.idleSockets == [0] && (requests (s.sock 0).written).2 != []) (by decide +kernel)
  simp only [Bool.and_eq_true, beq_iff_eq, bne_iff_ne, ne_eq] at hq
  have hm : requestMethod Pooled.hugeBody = ascii "POST" := by decide
  refine ⟨s, hs.mono_guard fun u l h => assumed_of_staged (.inr hm) h, fun hp => hq.2 ?_⟩
  exact (hp.settled 0 (by rw [hq.1]; exact List.mem_singleton_self 0)).requests.2

end QuickTunnel.Proxy.Shared
