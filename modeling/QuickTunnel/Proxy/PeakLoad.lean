import QuickTunnel.Pool.Reuse
import QuickTunnel.Proxy.OpenSockets

/-!
# Sockets against streams

All streams over one pool again. A stream that waits for a socket has none,
so the streams that wait and the sockets out of the pool count different
streams, and the bound of the pool is one on the streams at work.

* `Waiting.step`: whoever waits in the pool is a live stream at its start.
* `sockets_bounded`: no more origin sockets than there were streams at a
  time.
-/
namespace QuickTunnel.Proxy.Shared

open Pool.Concurrent (AtWork Bounded)

/-- Who waits for a socket in the pool is a stream at `pool.acquire`. -/
def Waiting (s : St) : Prop :=
  ∀ i, (s.pool.call i).waiting = true → ∃ t, s.task i = some t ∧ t.acquiring = true

/-- No more than `k` streams are live. -/
def AtOnce (k : Nat) (s : St) : Prop :=
  ∀ ids : List Nat, ids.Nodup → (∀ i ∈ ids, ∃ t, s.task i = some t ∧ t.live = true) → ids.length ≤ k

section Steps
variable {P : Httparse} {p : Pool Nat} {k : Nat} {s s' : St} {i : Nat} {t : Task}

/-- The calls in the pool are where they were, and so are the other
streams; stream `i` does not wait. -/
theorem Waiting.put (h : Waiting s) (hother : ∀ j, j ≠ i → (s'.pool.call j).waiting = true →
      (s.pool.call j).waiting = true ∧ s'.task j = s.task j)
    (hown : (s'.pool.call i).waiting = true → ∃ t, s'.task i = some t ∧ t.acquiring = true) : Waiting s' := by
  intro j hj
  by_cases hji : j = i
  · subst hji
    exact hown hj
  · obtain ⟨hw, htask⟩ := hother j hji hj
    obtain ⟨t, ht, ha⟩ := h j hw
    exact ⟨t, htask.trans ht, ha⟩

theorem task_put_of_ne {j : Nat} (hj : j ≠ i) : (s.put i t).task j = s.task j := by
  simp only [St.put, Function.update_of_ne hj]

/-- The streams that wait and the streams with a socket are different
ones. -/
theorem atWork_of_atOnce (ho : Owned p s) (hw : Waiting s) (hk : AtOnce k s) : AtWork k s.pool := by
  intro ids hnd hids
  obtain ⟨holders, hnodup, hlen, hholds⟩ := ho.holders
  have hdisj : ∀ i ∈ ids, i ∉ holders := by
    intro i hi hmem
    obtain ⟨t, ht, ha⟩ := hw i (hids i hi)
    obtain ⟨x, hx⟩ := hholds i hmem
    have hsock := ((holds_iff ht).mp hx).2
    rw [ho.waiting i t ht ha] at hsock
    cases hsock
  have hall := hk (ids ++ holders) ?_ ?_
  · rw [List.length_append, hlen] at hall
    rw [ho.releasing, List.length_nil]
    omega
  · exact List.nodup_append.mpr ⟨hnd, hnodup, fun a ha b hb hab => hdisj a ha (hab ▸ hb)⟩
  · intro i hi
    rcases List.mem_append.mp hi with hi | hi
    · obtain ⟨t, ht, ha⟩ := hw i (hids i hi)
      exact ⟨t, ht, (acquiring_iff.mp ha).1⟩
    · obtain ⟨x, t, ht, hl, -⟩ := hholds i hi
      exact ⟨t, ht, hl⟩

/-- A stream that goes on makes no call in the pool, or drops its socket. -/
theorem moved_fields {st : Inbound.St} (hs : s.moved i t st = some s') :
    (s'.pool = s.pool ∨ ∃ x, Pool.Concurrent.step s.pool (.drop x) = some s'.pool) ∧
      ∀ j, j ≠ i → s'.task j = s.task j := by
  unfold St.moved at hs
  split at hs
  · cases hs
    exact ⟨.inl rfl, fun j hj => task_put_of_ne hj⟩
  · simp only [Option.ite_none_right_eq_some] at hs
    obtain ⟨-, hs⟩ := hs
    split at hs
    · simp only [St.lose, Option.map_eq_some_iff] at hs
      obtain ⟨q, hq, rfl⟩ := hs
      exact ⟨.inr ⟨_, hq⟩, fun j hj => task_put_of_ne hj⟩
    · cases hs
      exact ⟨.inl rfl, fun j hj => task_put_of_ne hj⟩

theorem acquired_fields {q : Pool.Concurrent.St} {x : Nat}
    (hs : St.acquired P { s with pool := q } i t x = some s') :
    s'.pool = q ∧ ∀ j, j ≠ i → s'.task j = s.task j := by
  simp only [St.acquired, Option.map_eq_some_iff] at hs
  obtain ⟨st, -, rfl⟩ := hs
  refine ⟨rfl, fun j hj => ?_⟩
  simp only [St.setSock, St.put, Function.update_of_ne hj]

/-- What a step of the whole is to the pool: one step of it at most, or a
whole `release`. -/
theorem pool_step {l : Label} (hs : step P s l = some s') : s'.pool = s.pool ∨
    (∃ m, Pool.Concurrent.step s.pool m = some s'.pool) ∨
    ∃ x q, Pool.Concurrent.step s.pool (.release x) = some q ∧
      Pool.Concurrent.step q (.store x) = some s'.pool := by
  cases l with
  | tick d =>
    simp only [step, Option.map_eq_some_iff] at hs
    obtain ⟨q, hq, rfl⟩ := hs
    exact .inr (.inl ⟨_, hq⟩)
  | arrive i req =>
    simp only [step, Option.ite_none_right_eq_some, Option.map_eq_some_iff] at hs
    obtain ⟨-, q, hq, rfl⟩ := hs
    exact .inr (.inl ⟨_, hq⟩)
  | examine i delays =>
    simp only [step, Option.bind_eq_some_iff, Option.ite_none_right_eq_some] at hs
    obtain ⟨t, -, -, q, hq, hs⟩ := hs
    have hpool : s'.pool = q := by
      split at hs
      · exact (acquired_fields hs).1
      · cases hs
        rfl
    exact .inr (.inl ⟨_, hpool ▸ hq⟩)
  | connected i =>
    simp only [step, Option.bind_eq_some_iff, Option.ite_none_right_eq_some] at hs
    obtain ⟨t, -, -, q, hq, hs⟩ := hs
    exact .inr (.inl ⟨_, (acquired_fields hs).1 ▸ hq⟩)
  | refused i msg =>
    simp only [step, Option.bind_eq_some_iff, Option.ite_none_right_eq_some, Option.map_eq_some_iff] at hs
    obtain ⟨t, -, -, q, hq, st, -, rfl⟩ := hs
    exact .inr (.inl ⟨_, hq⟩)
  | timeout i =>
    simp only [step, Option.bind_eq_some_iff, Option.ite_none_right_eq_some, Option.map_eq_some_iff] at hs
    obtain ⟨t, -, -, q, hq, st, -, rfl⟩ := hs
    exact .inr (.inl ⟨_, hq⟩)
  | io i l =>
    simp only [step, Option.bind_eq_some_iff, Option.ite_none_right_eq_some] at hs
    obtain ⟨t, -, -, st, -, hs⟩ := hs
    rcases (moved_fields hs).1 with h | ⟨x, hx⟩
    · exact .inl h
    · exact .inr (.inl ⟨_, hx⟩)
  | store i =>
    simp only [step, Option.bind_eq_some_iff, Option.ite_none_right_eq_some, Option.map_eq_some_iff] at hs
    obtain ⟨t, -, x, -, -, q, hq, q', hq', st, -, rfl⟩ := hs
    exact .inr (.inr ⟨x, q, hq, hq'⟩)
  | cancel i =>
    simp only [step, Option.bind_eq_some_iff, Option.ite_none_right_eq_some] at hs
    obtain ⟨t, -, -, hs⟩ := hs
    split at hs
    · simp only [St.lose, Option.map_eq_some_iff] at hs
      obtain ⟨q, hq, rfl⟩ := hs
      exact .inr (.inl ⟨_, hq⟩)
    · split at hs
      · simp only [Option.map_eq_some_iff] at hs
        obtain ⟨q, hq, rfl⟩ := hs
        exact .inr (.inl ⟨_, hq⟩)
      · cases hs
        exact .inl rfl
  | answer k n r =>
    simp only [step, Option.some.injEq] at hs
    subst hs
    exact .inl rfl

theorem bounded_step {l : Label} (ho : Owned p s) (hw : Waiting s) (hk : AtOnce k s)
    (hb : Bounded k s.pool) (hs : step P s l = some s') : Bounded k s'.pool := by
  rcases pool_step hs with h | ⟨m, hm⟩ | ⟨x, q, hq, hq'⟩
  · rw [h]
    exact hb
  · exact hb.step ho.pool (fun _ _ _ => atWork_of_atOnce ho hw hk) hm
  · have hreleased := hb.step ho.pool (fun _ _ he => by cases he) hq
    exact hreleased.step (Pool.Concurrent.inv_step ho.pool hq) (fun _ _ he => by cases he) hq'

/-- Stream `i` has moved, and it does not wait any more. -/
theorem Waiting.moved (h : Waiting s) {c : Pool.Concurrent.Call} (hc : c.waiting = false)
    (hcall : s'.pool.call = Function.update s.pool.call i c) (htask : ∀ j, j ≠ i → s'.task j = s.task j) :
    Waiting s' := by
  refine h.put (i := i) (fun j hj hw => ?_) (fun hw => ?_)
  · rw [hcall, Function.update_of_ne hj] at hw
    exact ⟨hw, htask j hj⟩
  · rw [hcall, Function.update_self, hc] at hw
    cases hw

/-- Stream `i` has moved, and it did not wait before. -/
theorem Waiting.same (h : Waiting s) (ht : s.task i = some t) (ha : t.acquiring = false)
    (hcall : s'.pool.call = s.pool.call) (htask : ∀ j, j ≠ i → s'.task j = s.task j) : Waiting s' := by
  refine h.put (i := i) (fun j hj hw => ⟨hcall ▸ hw, htask j hj⟩) (fun hw => ?_)
  obtain ⟨u, hu, hacq⟩ := h i (hcall ▸ hw)
  rw [ht, Option.some.injEq] at hu
  rw [← hu, ha] at hacq
  cases hacq

theorem drop_call {q q' : Pool.Concurrent.St} {x : Nat} (h : Pool.Concurrent.step q (.drop x) = some q') :
    q'.call = q.call := by
  simp only [Pool.Concurrent.step, Option.ite_none_right_eq_some, Option.some.injEq] at h
  obtain ⟨-, rfl⟩ := h
  rfl

theorem Waiting.step {l : Label} (h : Waiting s) (ho : Owned p s) (hs : step P s l = some s') : Waiting s' := by
  cases l with
  | tick d =>
    simp only [Shared.step, Pool.Concurrent.step, Option.map_some, Option.some.injEq] at hs
    subst hs
    exact h
  | arrive i req =>
    simp only [Shared.step, Option.ite_none_right_eq_some, Option.map_eq_some_iff] at hs
    obtain ⟨⟨-, hc⟩, q, hq, rfl⟩ := hs
    simp only [Pool.Concurrent.step, Option.ite_none_right_eq_some, Option.some.injEq] at hq
    obtain ⟨-, rfl⟩ := hq
    refine h.put (i := i) (fun j hj hw => ?_) (fun _ => ⟨{ req := req, st := Inbound.start req }, by simp [St.put], ?_⟩)
    · simp only [Function.update_of_ne hj] at hw
      exact ⟨hw, task_put_of_ne hj⟩
    · refine acquiring_iff.mpr ⟨rfl, ?_⟩
      cases hct : req.connType with
      | tcp => exact absurd hct hc
      | _ => simp [Inbound.start, hct]
  | examine i delays =>
    simp only [Shared.step, Option.bind_eq_some_iff, Option.ite_none_right_eq_some] at hs
    obtain ⟨t, ht, ha, q, hq, hs⟩ := hs
    obtain ⟨-, ⟨e, rest, he, -, rfl⟩ | ⟨-, now, -, rfl⟩⟩ := Pool.Concurrent.examine_cases ho.pool hq
    · simp only [Function.update_self] at hs
      obtain ⟨hpool, htask⟩ := acquired_fields hs
      refine h.moved (c := .hit e.stream) rfl ?_ htask
      rw [hpool]
    · simp only [Function.update_self, Option.some.injEq] at hs
      subst hs
      refine h.put (i := i) (fun j hj hw => ?_) (fun _ => ⟨t, ht, ha⟩)
      simp only [Function.update_of_ne hj] at hw
      exact ⟨hw, rfl⟩
  | connected i =>
    simp only [Shared.step, Option.bind_eq_some_iff, Option.ite_none_right_eq_some] at hs
    obtain ⟨t, -, -, q, hq, hs⟩ := hs
    simp only [Pool.Concurrent.step, Option.ite_none_right_eq_some, Option.some.injEq] at hq
    obtain ⟨-, rfl⟩ := hq
    obtain ⟨hpool, htask⟩ := acquired_fields hs
    refine h.moved (c := .fresh s.pool.opened) rfl ?_ htask
    rw [hpool]
  | refused i msg | timeout i =>
    simp only [Shared.step, Option.bind_eq_some_iff, Option.ite_none_right_eq_some, Option.map_eq_some_iff] at hs
    obtain ⟨t, -, -, q, hq, st, -, rfl⟩ := hs
    simp only [Pool.Concurrent.step, Option.ite_none_right_eq_some, Option.some.injEq] at hq
    obtain ⟨-, rfl⟩ := hq
    exact h.moved rfl rfl fun j hj => task_put_of_ne hj
  | io i l =>
    simp only [Shared.step, Option.bind_eq_some_iff, Option.ite_none_right_eq_some] at hs
    obtain ⟨t, ht, hg, st, -, hs⟩ := hs
    obtain ⟨hpool, htask⟩ := moved_fields hs
    refine h.same ht (by simpa using hg.2.1) ?_ htask
    rcases hpool with hpool | ⟨x, hx⟩
    · rw [hpool]
    · exact drop_call hx
  | store i =>
    simp only [Shared.step, Option.bind_eq_some_iff, Option.ite_none_right_eq_some, Option.map_eq_some_iff] at hs
    obtain ⟨t, ht, x, -, hr, q, hq, q', hq', st, -, rfl⟩ := hs
    simp only [Pool.Concurrent.step, Option.ite_none_right_eq_some, Option.some.injEq] at hq hq'
    obtain ⟨-, rfl⟩ := hq
    obtain ⟨-, rfl⟩ := hq'
    refine h.same ht ?_ rfl fun j hj => task_put_of_ne hj
    obtain ⟨-, head, hpc⟩ := releasing_iff.mp hr
    rw [← Bool.not_eq_true, acquiring_iff, hpc]
    exact fun hacq => by cases hacq.2
  | cancel i =>
    simp only [Shared.step, Option.bind_eq_some_iff, Option.ite_none_right_eq_some] at hs
    obtain ⟨t, ht, -, hs⟩ := hs
    split at hs
    · rename_i x hk
      simp only [St.lose, Option.map_eq_some_iff] at hs
      obtain ⟨q, hq, rfl⟩ := hs
      refine h.same ht ?_ (drop_call hq) fun j hj => task_put_of_ne hj
      rw [← Bool.not_eq_true]
      intro hacq
      have hnone := ho.waiting i t ht hacq
      rw [hk] at hnone
      cases hnone
    · split at hs
      · simp only [Option.map_eq_some_iff] at hs
        obtain ⟨q, hq, rfl⟩ := hs
        simp only [Pool.Concurrent.step, Option.ite_none_right_eq_some, Option.some.injEq] at hq
        obtain ⟨-, rfl⟩ := hq
        exact h.moved rfl rfl fun j hj => task_put_of_ne hj
      · rename_i hacq
        cases hs
        exact h.same ht (by simpa using hacq) rfl fun j hj => task_put_of_ne hj
  | answer k n r =>
    simp only [Shared.step, Option.some.injEq] at hs
    subst hs
    exact h

theorem owned_start (p : Pool Nat) : Owned p (start p) :=
  owned_reachable (P := refHttparse) (.of_init rfl)

/-- **No more sockets than streams.** In every run in which no more than `k`
streams are live at a time, whatever edge and origin do, no more than `k`
connections to the origin are open, the idle ones and those being opened
included. -/
theorem sockets_bounded (h : ((shared P p).guard fun s _ => AtOnce k s).Reachable s) :
    s.pool.owned.length ≤ k ∧ ∀ ids : List Nat, ids.Nodup →
      (∀ i ∈ ids, s.pool.call i = .connecting) → ids.length + s.pool.owned.length ≤ k := by
  have hind : ((shared P p).guard fun s _ => AtOnce k s).Inductive
      fun s => Owned p s ∧ Waiting s ∧ Bounded k s.pool :=
    { init := by
        intro s hs
        rw [hs]
        exact ⟨owned_start p, (fun i hi => by cases hi), Pool.Concurrent.bounded_start p k⟩
      step := fun s l s' hi hs =>
        ⟨hi.1.step hs.1, hi.2.1.step hi.1 hs.1, bounded_step hi.1 hi.2.1 hs.2 hi.2.2 hs.1⟩ }
  have hb := (hind.reachable h).2.2
  refine ⟨?_, hb⟩
  have := hb [] List.nodup_nil (by simp)
  rwa [List.length_nil, Nat.zero_add] at this

end Steps

theorem atOnce_of_forall {s : St} (live : List Nat) (h : ∀ i, i ∉ live → s.task i = none) :
    AtOnce live.length s := by
  intro ids hnd hids
  have hsub : ids ⊆ live := by
    intro i hi
    by_contra hne
    obtain ⟨t, ht, -⟩ := hids i hi
    rw [h i hne] at ht
    cases ht
  exact hnd.length_le_of_subset hsub

/-- Two streams at once open a socket each. -/
theorem sockets_bounded_two : ∃ s,
    ((shared refHttparse (Pool.new 8080)).guard fun s _ => AtOnce 2 s).Reachable s ∧
      s.pool.owned.length = 2 ∧ s.pool.owned.length ≤ 2 := by
  obtain ⟨s, hs, howned⟩ : ∃ s, ((shared refHttparse (Pool.new 8080)).guard fun s _ => AtOnce 2 s).Reachable s ∧
      s.pool.owned.length = 2 := by
    have hlive : ∀ i, i ∉ [0, 1] → i ≠ 0 ∧ i ≠ 1 := by simp
    refine ⟨_, ⟨_, [.arrive 0 ⟨[47], .http, []⟩, .arrive 1 ⟨[47], .http, []⟩, .examine 0 [], .examine 1 [],
      .connected 0, .connected 1], rfl,
      .cons ⟨rfl, atOnce_of_forall [0, 1] fun i hi => ?_⟩ <|
      .cons ⟨rfl, atOnce_of_forall [0, 1] fun i hi => ?_⟩ <|
      .cons ⟨rfl, atOnce_of_forall [0, 1] fun i hi => ?_⟩ <|
      .cons ⟨rfl, atOnce_of_forall [0, 1] fun i hi => ?_⟩ <|
      .cons ⟨rfl, atOnce_of_forall [0, 1] fun i hi => ?_⟩ <|
      .cons ⟨rfl, atOnce_of_forall [0, 1] fun i hi => ?_⟩ (.nil _)⟩, rfl⟩ <;> obtain ⟨h0, h1⟩ := hlive i hi
    · rfl
    · exact Function.update_of_ne h0 _ _
    · exact (Function.update_of_ne h1 _ _).trans (Function.update_of_ne h0 _ _)
    · exact (Function.update_of_ne h1 _ _).trans (Function.update_of_ne h0 _ _)
    · exact (Function.update_of_ne h1 _ _).trans (Function.update_of_ne h0 _ _)
    · exact (Function.update_of_ne h0 _ _).trans
        ((Function.update_of_ne h1 _ _).trans (Function.update_of_ne h0 _ _))
  exact ⟨s, hs, howned, (sockets_bounded hs).1⟩

end QuickTunnel.Proxy.Shared
