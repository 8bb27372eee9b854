import QuickTunnel.Proxy.Pairing

/-!
# Who has the open sockets

All streams over one pool (`Shared.shared`), with nothing assumed of edge
and origin: they may send what they like and break off when they like, and
a stream may be cancelled at any await.

* `Owned.step`: a socket that leaves the pool goes to one stream, and comes
  back or is closed with it.
* `no_socket_leaks`: every open socket is idle in the pool or with one live
  stream, so their number is bounded.
-/
namespace QuickTunnel.Proxy

open QuickTunnel.Stream

namespace Inbound

theorem stepFrame_ne_acquire {cont : List EdgeWrite → Pc} {after : Pc} {rest : List EdgeWrite} {e : Ev} {s s' : St}
    (h : stepFrame s cont after rest e = some s') (hcont : ∀ r, cont r ≠ .acquire) (hafter : after ≠ .acquire) :
    s'.pc ≠ .acquire := by
  rcases stepFrame_cases h with ⟨x, rest', rfl, rfl⟩ | ⟨rfl, rfl⟩ | ⟨msg, err, -, rfl⟩
  · exact hcont rest'
  · exact hafter
  · simp

/-- No stream comes back to `pool.acquire`. -/
theorem step_ne_acquire {P : Httparse} {req : ConnectRequest} {s s' : St} {l : Label}
    (h : step P req s l = some s') : s'.pc ≠ .acquire := by
  have hbidi : ∀ up down, joinBidi up down ≠ .acquire := by
    intro up down
    rcases joinBidi_cases up down with ⟨hj, -⟩ | ⟨-, u, -, hj⟩ | ⟨-, e, -, hj⟩ <;> rw [hj] <;> simp
  have htcp : ∀ up down, joinTcp up down ≠ .acquire := by
    intro up down
    rcases joinTcp_cases up down with ⟨hj, -⟩ | ⟨-, r, -, hj⟩ <;> rw [hj] <;> simp
  cases l with
  | timeout =>
    cases hpc : s.pc <;> simp only [step, hpc, Option.some.injEq, reduceCtorEq] at h
    subst h
    simp
  | up e =>
    cases hpc : s.pc <;> simp only [step, hpc, Option.map_eq_some_iff, reduceCtorEq] at h
    · obtain ⟨up', -, rfl⟩ := h
      exact hbidi _ _
    · obtain ⟨up', -, rfl⟩ := h
      exact htcp _ _
  | down e =>
    cases hpc : s.pc <;> simp only [step, hpc, Option.map_eq_some_iff, reduceCtorEq] at h
    · obtain ⟨down', -, rfl⟩ := h
      exact hbidi _ _
    · obtain ⟨down', -, rfl⟩ := h
      exact htcp _ _
  | main e =>
    cases hpc : s.pc with
    | reject rest =>
      simp only [step, hpc] at h
      exact stepFrame_ne_acquire h (by simp) (by simp)
    | accept rest =>
      simp only [step, hpc] at h
      exact stepFrame_ne_acquire h (by simp) (by simp)
    | pooled pc =>
      simp only [step, hpc, Option.map_eq_some_iff] at h
      obtain ⟨t, -, rfl⟩ := h
      rcases ofPooled_cases s t with ⟨r, -, ho⟩ | ⟨-, ho⟩ <;> rw [ho] <;> simp
    | writeHead =>
      cases e <;> simp only [step, hpc, Option.some.injEq, reduceCtorEq] at h <;> subst h
      · show afterHead req ≠ .acquire
        unfold afterHead
        split <;> simp
      · simp
    | _ => cases e <;> simp only [step, hpc, Option.some.injEq, reduceCtorEq] at h <;> subst h <;> simp

end Inbound

namespace Shared

open Inbound (hand)

/-- The sockets out of the pool are those of the live streams. -/
structure Owned (p : Pool Nat) (s : St) : Prop where
  pool : Pool.Concurrent.Inv p s.pool
  held : ∀ k, k ∈ s.pool.held ↔ ∃ i, s.Holds i k
  unique : ∀ i j k, s.Holds i k → s.Holds j k → i = j
  releasing : s.pool.releasing = []
  waiting : ∀ i t, s.task i = some t → t.acquiring = true → t.sock = none

section Steps
variable {P : Httparse} {p : Pool Nat} {s s' : St} {i k : Nat} {t t' : Task}

theorem holds_put_iff {j x : Nat} : (s.put i t).Holds j x ↔
    (j = i ∧ t.live = true ∧ t.sock = some x) ∨ (j ≠ i ∧ s.Holds j x) := by
  constructor
  · exact holds_put
  · intro h
    rcases h with ⟨rfl, hl, hk⟩ | ⟨hj, u, hu, hl, hk⟩
    · exact ⟨t, by simp [St.put], hl, hk⟩
    · exact ⟨u, by rw [St.put]; simp only [Function.update_of_ne hj]; exact hu, hl, hk⟩

theorem holds_iff (ht : s.task i = some t) {x : Nat} : s.Holds i x ↔ t.live = true ∧ t.sock = some x := by
  constructor
  · intro h
    obtain ⟨u, hu, hl, hk⟩ := h
    rw [ht] at hu
    cases hu
    exact ⟨hl, hk⟩
  · intro h
    exact ⟨t, ht, h.1, h.2⟩

/-- A stream that keeps what it has. -/
theorem holds_put_same (ht : s.task i = some t) (hl : t'.live = t.live) (hk : t'.sock = t.sock) (j x : Nat) :
    (s.put i t').Holds j x ↔ s.Holds j x := by
  rw [holds_put_iff]
  by_cases hj : j = i
  · subst hj
    rw [holds_iff ht, hl, hk]
    simp
  · simp [hj]

/-- A stream that has nothing before and behind. -/
theorem holds_put_none (hold : ∀ x, ¬ s.Holds i x) (hk : t'.live = true → t'.sock = none) (j x : Nat) :
    (s.put i t').Holds j x ↔ s.Holds j x := by
  rw [holds_put_iff]
  by_cases hj : j = i
  · subst hj
    refine iff_of_false ?_ (hold x)
    simp only [true_and, not_true_eq_false, false_and, or_false, ne_eq]
    intro h
    rw [hk h.1] at h
    cases h.2
  · simp [hj]

/-- A stream that ends with its socket. -/
theorem Owned.holds_put_dead (ho : Owned p s) (ht : s.task i = some t) (hl : t.live = true)
    (hk : t.sock = some k) (hdead : t'.live = false) (j x : Nat) :
    (s.put i t').Holds j x ↔ s.Holds j x ∧ x ≠ k := by
  have hold : s.Holds i k := ⟨t, ht, hl, hk⟩
  rw [holds_put_iff]
  by_cases hj : j = i
  · subst hj
    rw [holds_iff ht, hdead, hk]
    simp only [Bool.false_eq_true, false_and, and_false, not_true_eq_false, or_false, ne_eq,
      Option.some.injEq, false_iff, not_and, not_not]
    exact fun h => h.2.symm
  · simp only [hj, false_and, ne_eq, not_false_eq_true, true_and, false_or]
    constructor
    · intro h
      refine ⟨h, ?_⟩
      intro hx
      subst hx
      exact hj (ho.unique j i x h hold)
    · exact And.left

/-- Nothing changes hands. -/
theorem Owned.same (ho : Owned p s) (hpool : Pool.Concurrent.Inv p s'.pool) (hheld : s'.pool.held = s.pool.held)
    (hrel : s'.pool.releasing = s.pool.releasing) (hholds : ∀ j x, s'.Holds j x ↔ s.Holds j x)
    (hwait : ∀ i t, s'.task i = some t → t.acquiring = true → t.sock = none) : Owned p s' where
  pool := hpool
  held := by
    intro x
    rw [hheld, ho.held]
    exact exists_congr fun j => (hholds j x).symm
  unique := fun a b x h h' => ho.unique a b x ((hholds a x).mp h) ((hholds b x).mp h')
  releasing := hrel.trans ho.releasing
  waiting := hwait

/-- A socket goes to a stream. -/
theorem Owned.gain (ho : Owned p s) (hpool : Pool.Concurrent.Inv p s'.pool)
    (hheld : s'.pool.held = k :: s.pool.held) (hrel : s'.pool.releasing = s.pool.releasing)
    (hnew : k ∉ s.pool.held) (hholds : ∀ j x, s'.Holds j x ↔ s.Holds j x ∨ (j = i ∧ x = k))
    (hwait : ∀ i t, s'.task i = some t → t.acquiring = true → t.sock = none) : Owned p s' where
  pool := hpool
  held := by
    intro x
    rw [hheld, List.mem_cons, ho.held]
    constructor
    · intro h
      rcases h with rfl | ⟨j, hj⟩
      · exact ⟨i, (hholds i x).mpr (.inr ⟨rfl, rfl⟩)⟩
      · exact ⟨j, (hholds j x).mpr (.inl hj)⟩
    · intro h
      obtain ⟨j, hj⟩ := h
      rcases (hholds j x).mp hj with h | ⟨-, rfl⟩
      · exact .inr ⟨j, h⟩
      · exact .inl rfl
  unique := by
    have hfree : ∀ j, ¬ s.Holds j k := fun j hj => hnew ((ho.held k).mpr ⟨j, hj⟩)
    intro a b x h h'
    rcases (hholds a x).mp h with h | ⟨ha, hx⟩
    · rcases (hholds b x).mp h' with h' | ⟨-, hx⟩
      · exact ho.unique a b x h h'
      · exact absurd (hx ▸ h) (hfree a)
    · rcases (hholds b x).mp h' with h' | ⟨hb, -⟩
      · exact absurd (hx ▸ h') (hfree b)
      · exact ha.trans hb.symm
  releasing := hrel.trans ho.releasing
  waiting := hwait

/-- A stream's socket leaves it. -/
theorem Owned.loss (ho : Owned p s) (hpool : Pool.Concurrent.Inv p s'.pool)
    (hheld : s'.pool.held = s.pool.held.erase k) (hrel : s'.pool.releasing = [])
    (hholds : ∀ j x, s'.Holds j x ↔ s.Holds j x ∧ x ≠ k)
    (hwait : ∀ i t, s'.task i = some t → t.acquiring = true → t.sock = none) : Owned p s' where
  pool := hpool
  held := by
    have hnodup : s.pool.held.Nodup := (List.nodup_append.mp (List.nodup_append.mp ho.pool.nodup).2.1).1
    intro x
    rw [hheld, hnodup.mem_erase_iff, ho.held]
    constructor
    · intro h
      obtain ⟨hx, j, hj⟩ := h
      exact ⟨j, (hholds j x).mpr ⟨hj, hx⟩⟩
    · intro h
      obtain ⟨j, hj⟩ := h
      obtain ⟨hj, hx⟩ := (hholds j x).mp hj
      exact ⟨hx, j, hj⟩
  unique := fun a b x h h' => ho.unique a b x ((hholds a x).mp h).1 ((hholds b x).mp h').1
  releasing := hrel
  waiting := hwait

/-- One stream changes, and has no socket if it waits for one. -/
theorem Owned.waiting_put (ho : Owned p s) (hw : t'.acquiring = true → t'.sock = none) :
    ∀ j u, (s.put i t').task j = some u → u.acquiring = true → u.sock = none := by
  intro j u hu
  by_cases hj : j = i
  · subst hj
    simp only [St.put, Function.update_self, Option.some.injEq] at hu
    exact hu ▸ hw
  · simp only [St.put, Function.update_of_ne hj] at hu
    exact ho.waiting j u hu

/-- The pool's part of a step that moves no socket. -/
def isQuiet : Pool.Concurrent.Label → Bool
  | .tick _ => true
  | .acquire _ => true
  | .refused _ => true
  | .cancel _ => true
  | _ => false

theorem quiet_pool {q q' : Pool.Concurrent.St} {l : Pool.Concurrent.Label} (hl : isQuiet l = true)
    (h : Pool.Concurrent.step q l = some q') : q'.held = q.held ∧ q'.releasing = q.releasing := by
  cases l with
  | tick d =>
    simp only [Pool.Concurrent.step, Option.some.injEq] at h
    subst h
    exact ⟨rfl, rfl⟩
  | acquire i | refused i | cancel i =>
    simp only [Pool.Concurrent.step, Option.ite_none_right_eq_some, Option.some.injEq] at h
    obtain ⟨-, rfl⟩ := h
    exact ⟨rfl, rfl⟩
  | _ => cases hl

/-- `acquire` returns a socket that nobody has. -/
theorem Owned.acquired (ho : Owned p s) {q : Pool.Concurrent.St} (hpool : Pool.Concurrent.Inv p q)
    (hheld : q.held = k :: s.pool.held) (hrel : q.releasing = s.pool.releasing) (hnew : k ∉ s.pool.held)
    (ht : s.task i = some t) (ha : t.acquiring = true)
    (hs : St.acquired P { s with pool := q } i t k = some s') : Owned p s' := by
  simp only [St.acquired, Option.map_eq_some_iff] at hs
  obtain ⟨st, hst, rfl⟩ := hs
  obtain ⟨hlive, -⟩ := acquiring_iff.mp ha
  have hnone := ho.waiting i t ht ha
  refine ho.gain (i := i) hpool hheld hrel hnew ?_ ?_
  · intro j x
    show (s.put i (t.on st k (s.sock k))).Holds j x ↔ _
    rw [holds_put_iff]
    by_cases hj : j = i
    · subst hj
      rw [holds_iff ht, hnone]
      simp only [Task.on, hlive, true_and, Option.some.injEq, not_true_eq_false, or_false, ne_eq,
        reduceCtorEq, and_false, false_or]
      exact eq_comm
    · simp [hj]
  · refine ho.waiting_put ?_
    intro hacq
    exact absurd (acquiring_iff.mp hacq).2 (Inbound.step_ne_acquire hst)

/-- A stream goes on with its socket, or returns and drops it. -/
theorem Owned.moved (ho : Owned p s) (ht : s.task i = some t) (hl : t.live = true) {st : Inbound.St}
    {l : Inbound.Label} (hst : Inbound.step P t.req t.st l = some st) (hs : s.moved i t st = some s') :
    Owned p s' := by
  have hwait : (t.moved st).acquiring = true → (t.moved st).sock = none := fun hacq =>
    absurd (acquiring_iff.mp hacq).2 (Inbound.step_ne_acquire hst)
  unfold St.moved at hs
  cases hk : t.sock with
  | none =>
    simp only [hk, Option.some.injEq] at hs
    subst hs
    refine ho.same ho.pool rfl rfl (holds_put_none ?_ fun _ => hk) (ho.waiting_put hwait)
    intro x hx
    rw [holds_iff ht, hk] at hx
    cases hx.2
  | some k =>
    simp only [hk, Option.ite_none_right_eq_some] at hs
    obtain ⟨-, hs⟩ := hs
    split at hs
    · rename_i hret
      simp only [St.lose, Option.map_eq_some_iff] at hs
      obtain ⟨q, hq, rfl⟩ := hs
      have hdrop := hq
      simp only [Pool.Concurrent.step, Option.ite_none_right_eq_some, Option.some.injEq] at hdrop
      obtain ⟨-, rfl⟩ := hdrop
      refine ho.loss (Pool.Concurrent.inv_step ho.pool hq) rfl ho.releasing ?_ (ho.waiting_put hwait)
      exact ho.holds_put_dead ht hl hk (by simp [Task.moved, hret])
    · rename_i hret
      cases hs
      refine ho.same ho.pool rfl rfl ?_ (ho.waiting_put hwait)
      exact holds_put_same ht (by simp [Task.moved, hret, hl]) rfl

/-- **A step** of the whole. -/
theorem Owned.step {l : Label} (ho : Owned p s) (hs : step P s l = some s') : Owned p s' := by
  cases l with
  | tick d =>
    simp only [Shared.step, Option.map_eq_some_iff] at hs
    obtain ⟨q, hq, rfl⟩ := hs
    obtain ⟨hheld, hrel⟩ := quiet_pool rfl hq
    exact ho.same (Pool.Concurrent.inv_step ho.pool hq) hheld hrel (fun _ _ => Iff.rfl) ho.waiting
  | arrive i req =>
    simp only [Shared.step, Option.ite_none_right_eq_some, Option.map_eq_some_iff] at hs
    obtain ⟨⟨hnone, -⟩, q, hq, rfl⟩ := hs
    obtain ⟨hheld, hrel⟩ := quiet_pool rfl hq
    refine ho.same (Pool.Concurrent.inv_step ho.pool hq) hheld hrel
      (holds_put_none ?_ fun _ => rfl) (ho.waiting_put fun _ => rfl)
    intro x hx
    obtain ⟨t, ht, -⟩ := hx
    rw [ht] at hnone
    cases hnone
  | examine i delays =>
    simp only [Shared.step, Option.bind_eq_some_iff, Option.ite_none_right_eq_some] at hs
    obtain ⟨t, ht, ha, q, hq, hs⟩ := hs
    have hpool := Pool.Concurrent.inv_step ho.pool hq
    obtain ⟨-, ⟨e, rest, he, -, rfl⟩ | ⟨-, now, -, rfl⟩⟩ := Pool.Concurrent.examine_cases ho.pool hq
    · simp only [Function.update_self] at hs
      refine ho.acquired hpool rfl rfl ?_ ht ha hs
      intro hmem
      exact held_not_idle ho.pool hmem (by simp [Pool.Concurrent.St.idleSockets, he])
    · simp only [Function.update_self, Option.some.injEq] at hs
      subst hs
      exact ho.same hpool rfl rfl (fun _ _ => Iff.rfl) ho.waiting
  | connected i =>
    simp only [Shared.step, Option.bind_eq_some_iff, Option.ite_none_right_eq_some] at hs
    obtain ⟨t, ht, ha, q, hq, hs⟩ := hs
    have hpool := Pool.Concurrent.inv_step ho.pool hq
    simp only [Pool.Concurrent.step, Option.ite_none_right_eq_some, Option.some.injEq] at hq
    obtain ⟨-, rfl⟩ := hq
    refine ho.acquired hpool rfl rfl ?_ ht ha hs
    intro hmem
    exact Nat.lt_irrefl _ (ho.pool.opened _ (mem_owned.mpr (.inr (.inl hmem))))
  | refused i msg =>
    simp only [Shared.step, Option.bind_eq_some_iff, Option.ite_none_right_eq_some, Option.map_eq_some_iff] at hs
    obtain ⟨t, ht, ha, q, hq, st, hst, rfl⟩ := hs
    obtain ⟨hheld, hrel⟩ := quiet_pool rfl hq
    exact ho.same (Pool.Concurrent.inv_step ho.pool hq) hheld hrel
      (holds_put_same ht rfl rfl) (ho.waiting_put fun _ => ho.waiting i t ht ha)
  | timeout i =>
    simp only [Shared.step, Option.bind_eq_some_iff, Option.ite_none_right_eq_some, Option.map_eq_some_iff] at hs
    obtain ⟨t, ht, ha, q, hq, st, hst, rfl⟩ := hs
    obtain ⟨hheld, hrel⟩ := quiet_pool rfl hq
    exact ho.same (Pool.Concurrent.inv_step ho.pool hq) hheld hrel
      (holds_put_same ht rfl rfl) (ho.waiting_put fun _ => ho.waiting i t ht ha)
  | io i l =>
    simp only [Shared.step, Option.bind_eq_some_iff, Option.ite_none_right_eq_some] at hs
    obtain ⟨t, ht, hg, st, hst, hs⟩ := hs
    exact ho.moved ht hg.1 hst hs
  | store i =>
    simp only [Shared.step, Option.bind_eq_some_iff, Option.ite_none_right_eq_some, Option.map_eq_some_iff] at hs
    obtain ⟨t, ht, k, hk, hr, q, hq, q', hq', st, hst, rfl⟩ := hs
    obtain ⟨hl, -⟩ := releasing_iff.mp hr
    have hpool := Pool.Concurrent.inv_step (Pool.Concurrent.inv_step ho.pool hq) hq'
    simp only [Pool.Concurrent.step, Option.ite_none_right_eq_some, Option.some.injEq] at hq hq'
    obtain ⟨-, rfl⟩ := hq
    obtain ⟨-, rfl⟩ := hq'
    refine ho.loss hpool rfl ?_ (ho.holds_put_dead ht hl hk rfl) (ho.waiting_put fun hacq => ?_)
    · show (k :: s.pool.releasing).erase k = []
      rw [ho.releasing, List.erase_cons_head]
    · cases (acquiring_iff.mp hacq).1
  | cancel i =>
    simp only [Shared.step, Option.bind_eq_some_iff, Option.ite_none_right_eq_some] at hs
    obtain ⟨t, ht, hl, hs⟩ := hs
    have hwait : ∀ j u, (s.put i { t with live := false }).task j = some u → u.acquiring = true → u.sock = none :=
      ho.waiting_put fun hacq => by cases (acquiring_iff.mp hacq).1
    split at hs
    · rename_i k hk
      simp only [St.lose, Option.map_eq_some_iff] at hs
      obtain ⟨q, hq, rfl⟩ := hs
      have hpool := Pool.Concurrent.inv_step ho.pool hq
      simp only [Pool.Concurrent.step, Option.ite_none_right_eq_some, Option.some.injEq] at hq
      obtain ⟨-, rfl⟩ := hq
      exact ho.loss hpool rfl ho.releasing (ho.holds_put_dead ht hl hk rfl) hwait
    · rename_i hk
      have hholds : ∀ j x, (s.put i { t with live := false }).Holds j x ↔ s.Holds j x := by
        refine holds_put_none ?_ fun _ => hk
        intro x hx
        rw [holds_iff ht, hk] at hx
        cases hx.2
      split at hs
      · simp only [Option.map_eq_some_iff] at hs
        obtain ⟨q, hq, rfl⟩ := hs
        obtain ⟨hheld, hrel⟩ := quiet_pool rfl hq
        exact ho.same (Pool.Concurrent.inv_step ho.pool hq) hheld hrel hholds hwait
      · cases hs
        exact ho.same ho.pool rfl rfl hholds hwait
  | answer k n r =>
    simp only [Shared.step, Option.some.injEq] at hs
    subst hs
    exact ho.same ho.pool rfl rfl (fun _ _ => Iff.rfl) ho.waiting

theorem owned_reachable (h : (shared P p).Reachable s) : Owned p s := by
  refine LTS.Inductive.reachable (M := shared P p) ⟨?_, fun _ _ _ ho hs => Owned.step ho hs⟩ h
  intro s heq
  subst heq
  have hnone : ∀ i k, ¬ (start p).Holds i k := by
    intro i k hk
    obtain ⟨t, ht, -⟩ := hk
    cases ht
  refine ⟨Pool.Concurrent.inv_start p, ?_, fun i j k hk => absurd hk (hnone i k), rfl, ?_⟩
  · intro k
    exact iff_of_false (by simp [start, Pool.Concurrent.start]) fun ⟨i, hk⟩ => hnone i k hk
  · intro i t ht
    cases ht

/-- A stream has one socket. -/
theorem holds_functional {x : Nat} (h : s.Holds i k) (h' : s.Holds i x) : k = x := by
  obtain ⟨t, ht, -, hk⟩ := h
  obtain ⟨-, hx⟩ := (holds_iff ht).mp h'
  rw [hk] at hx
  exact Option.some.inj hx

/-- As many streams as there are sockets out of the pool, one for each. -/
theorem Owned.holders (ho : Owned p s) : ∃ streams : List Nat, streams.Nodup ∧
    streams.length = s.pool.held.length ∧ ∀ i ∈ streams, ∃ k, s.Holds i k := by
  classical
  have hnodup : s.pool.held.Nodup := (List.nodup_append.mp (List.nodup_append.mp ho.pool.nodup).2.1).1
  let holder : Nat → Nat := fun k => if h : ∃ i, s.Holds i k then h.choose else 0
  have hholder : ∀ k ∈ s.pool.held, s.Holds (holder k) k := by
    intro k hk
    have h := (ho.held k).mp hk
    simp only [holder, dif_pos h]
    exact h.choose_spec
  refine ⟨s.pool.held.map holder, hnodup.map_on ?_, List.length_map holder, ?_⟩
  · intro x hx y hy heq
    have hx' := hholder x hx
    rw [heq] at hx'
    exact holds_functional hx' (hholder y hy)
  · intro i hi
    obtain ⟨k, hk, rfl⟩ := List.mem_map.mp hi
    exact ⟨k, hholder k hk⟩

/-- The sockets out of the pool are no more than the live streams. -/
theorem Owned.held_le (ho : Owned p s) (streams : List Nat)
    (hall : ∀ i t, s.task i = some t → t.live = true → i ∈ streams) : s.pool.held.length ≤ streams.length := by
  obtain ⟨holders, hnodup, hlen, hholds⟩ := ho.holders
  rw [← hlen]
  refine hnodup.length_le_of_subset ?_
  intro i hi
  obtain ⟨k, t, ht, hl, -⟩ := hholds i hi
  exact hall i t ht hl

/-- **No socket leaks.** Whatever edge and origin do and whichever streams
are cancelled: an open socket is idle in the pool or with exactly one live
stream, not both; so at most `max_idle` are open beyond one for each live
stream, and at most `max_idle` once all streams are through. -/
theorem no_socket_leaks (h : (shared P p).Reachable s) :
    (∀ k ∈ s.pool.owned, k ∈ s.pool.idleSockets ∨ ∃ i, s.Holds i k) ∧
      (∀ i k, s.Holds i k → k ∉ s.pool.idleSockets ∧ ∀ j, s.Holds j k → j = i) ∧
      ∀ streams : List Nat, (∀ i t, s.task i = some t → t.live = true → i ∈ streams) →
        s.pool.owned.length ≤ p.maxIdle + streams.length := by
  have ho := owned_reachable h
  refine ⟨?_, ?_, ?_⟩
  · intro k hk
    rcases mem_owned.mp hk with hk | hk | hk
    · exact .inl hk
    · exact .inr ((ho.held k).mp hk)
    · rw [ho.releasing] at hk
      cases hk
  · intro i k hk
    exact ⟨held_not_idle ho.pool ((ho.held k).mpr ⟨i, hk⟩), fun j hj => ho.unique j i k hj hk⟩
  · intro streams hall
    have hidle := ho.pool.length
    have hheld := ho.held_le streams hall
    have hlen : s.pool.owned.length = s.pool.pool.idle.length + s.pool.held.length := by
      simp [Pool.Concurrent.St.owned, Pool.Concurrent.St.idleSockets, ho.releasing]
    omega

end Steps

/-- A stream has opened a socket, another has been cancelled. -/
def oneOpen : St :=
  (LTS.exec (step refHttparse) (start (Pool.new 8080))
    [.arrive 0 ⟨[47], .http, []⟩, .examine 0 [], .connected 0, .arrive 1 ⟨[47], .http, []⟩, .cancel 1]).getD
      (start (Pool.new 8080))

theorem no_socket_leaks_one : oneOpen.pool.owned = [0] ∧
    ∀ streams : List Nat, (∀ i t, oneOpen.task i = some t → t.live = true → i ∈ streams) →
      oneOpen.pool.owned.length ≤ 16 + streams.length := by
  have h : LTS.exec (step refHttparse) (start (Pool.new 8080)) [.arrive 0 ⟨[47], .http, []⟩, .examine 0 [],
      .connected 0, .arrive 1 ⟨[47], .http, []⟩, .cancel 1] = some oneOpen := rfl
  exact ⟨rfl, (no_socket_leaks (LTS.reachable_of_exec _ _ _ h)).2.2⟩

end Shared
end QuickTunnel.Proxy
