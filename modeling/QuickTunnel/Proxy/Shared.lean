import QuickTunnel.Pool.Concurrent
import QuickTunnel.Proxy.Socket

/-!
# All HTTP streams over one pool

Any number of streams run `proxy_http` at the same time; the reactors of all
HA connections share one `Pool`. A step is one await of one stream
(`Inbound.step`), one critical section of the pool (`Pool.Concurrent.step`),
a tick of the clock, or a response of the origin. A stream can be cancelled
at any await; it then drops its socket.

A socket carries what has been written to it and the responses the origin
has given there. `answer k n r` is the origin's next response on socket `k`,
settled on when the first `n` bytes handed to that socket have arrived; its
bytes come as the reads take them, in pieces of any length. The end of the
file and any error may come at any moment.

**What is assumed** (`Assumed`): the edge sends conforming requests; the
origin sends responses to the requests it has received, in order, and
nothing else.
-/
namespace QuickTunnel.Proxy.Shared

open QuickTunnel.Stream
open QuickTunnel.Http (requests request)
open Inbound (hand)

structure Sock where
  /-- completed writes -/
  written : Bytes := []
  /-- everything `write_all` has been called with -/
  handed : Bytes := []
  responses : List Bytes := []
  /-- the bytes of the responses that have not been read yet -/
  unread : Bytes := []

/-- A stream. The last three are ghosts: what was written on the socket and
how many responses were given there before, and the bytes the stream itself
has handed over. -/
structure Task where
  req : ConnectRequest
  st : Inbound.St
  live : Bool := true
  sock : Option Nat := none
  base : Bytes := []
  skip : Nat := 0
  handed : Bytes := []

/-- `spoiled` is a ghost: the sockets whose exchange ended other than by
`pool.release` (an error, a cancelled stream, `run_bidi`, the drain). -/
structure St where
  pool : Pool.Concurrent.St
  task : Nat → Option Task
  sock : Nat → Sock
  spoiled : List Nat

def start (p : Pool Nat) : St where
  pool := Pool.Concurrent.start p
  task := fun _ => none
  sock := fun _ => {}
  spoiled := []

inductive Label
  | tick (d : Nat)
  | arrive (i : Nat) (req : ConnectRequest)
  /-- stream `i` gets the mutex of the pool in `acquire` -/
  | examine (i : Nat) (delays : List Nat)
  | connected (i : Nat)
  | refused (i : Nat) (msg : String)
  | timeout (i : Nat)
  /-- an await of stream `i` other than those of the pool -/
  | io (i : Nat) (l : Inbound.Label)
  /-- stream `i` gets the mutex of the pool in `release` -/
  | store (i : Nat)
  | cancel (i : Nat)
  | answer (k n : Nat) (r : Bytes)

def Task.acquiring (t : Task) : Bool :=
  t.live && match t.st.pc with
    | .acquire => true
    | _ => false

def Task.releasing (t : Task) : Bool :=
  t.live && match t.st.pc with
    | .pooled (.release _) => true
    | _ => false

def St.put (s : St) (i : Nat) (t : Task) : St := { s with task := Function.update s.task i (some t) }

def St.setSock (s : St) (k : Nat) (sk : Sock) : St := { s with sock := Function.update s.sock k sk }

/-- The stream that has just acquired a socket. -/
def Task.on (t : Task) (st : Inbound.St) (k : Nat) (sk : Sock) : Task :=
  { t with
    st := st, sock := some k, base := sk.written, skip := sk.responses.length, handed := hand t.req st [] }

/-- `pool.acquire` returns socket `k` to stream `i`. -/
def St.acquired (P : Httparse) (s : St) (i : Nat) (t : Task) (k : Nat) : Option St :=
  (Inbound.step P t.req t.st (.main .ok)).map fun st =>
    let sk := s.sock k
    (s.put i (t.on st k sk)).setSock k { sk with handed := sk.written ++ hand t.req st [] }

/-- The socket is dropped. -/
def St.lose (s : St) (k : Nat) : Option St :=
  (Pool.Concurrent.step s.pool (.drop k)).map fun p => { s with pool := p, spoiled := k :: s.spoiled }

/-- The stream behind its step. -/
def Task.moved (t : Task) (st : Inbound.St) : Task :=
  { t with st := st, handed := hand t.req st t.handed, live := !st.returned }

/-- What a step has read from the origin. -/
def took (st st' : Inbound.St) : Bytes := (st'.wire.fromOrigin.drop st.wire.fromOrigin.length).flatten

/-- The socket behind the step of its stream. -/
def Sock.moved (sk : Sock) (t : Task) (st : Inbound.St) : Sock :=
  { sk with
    written := t.base ++ st.wire.toOrigin
    handed := t.base ++ hand t.req st t.handed
    unread := sk.unread.drop (took t.st st).length }

/-- Stream `i` moves on; returning, it drops its socket. -/
def St.moved (s : St) (i : Nat) (t : Task) (st : Inbound.St) : Option St :=
  match t.sock with
  | none => some (s.put i (t.moved st))
  | some k =>
    if took t.st st <+: (s.sock k).unread then
      let s' := (s.put i (t.moved st)).setSock k ((s.sock k).moved t st)
      if st.returned then s'.lose k else some s'
    else none

def step (P : Httparse) (s : St) : Label → Option St
  | .tick d => (Pool.Concurrent.step s.pool (.tick d)).map fun p => { s with pool := p }
  | .arrive i req =>
    if (s.task i).isNone ∧ req.connType ≠ .tcp then
      (Pool.Concurrent.step s.pool (.acquire i)).map fun p =>
        { s.put i { req := req, st := Inbound.start req } with pool := p }
    else none
  | .examine i delays => (s.task i).bind fun t =>
    if t.acquiring then (Pool.Concurrent.step s.pool (.examine i delays)).bind fun p =>
      match p.call i with
      | .hit k => { s with pool := p }.acquired P i t k
      | _ => some { s with pool := p }
    else none
  | .connected i => (s.task i).bind fun t =>
    if t.acquiring then (Pool.Concurrent.step s.pool (.connected i)).bind fun p =>
      { s with pool := p }.acquired P i t s.pool.opened
    else none
  | .refused i msg => (s.task i).bind fun t =>
    if t.acquiring then (Pool.Concurrent.step s.pool (.refused i)).bind fun p =>
      (Inbound.step P t.req t.st (.main (.fail msg))).map fun st =>
        { s.put i { t with st := st } with pool := p }
    else none
  | .timeout i => (s.task i).bind fun t =>
    if t.acquiring then (Pool.Concurrent.step s.pool (.cancel i)).bind fun p =>
      (Inbound.step P t.req t.st .timeout).map fun st =>
        { s.put i { t with st := st } with pool := p }
    else none
  | .io i l => (s.task i).bind fun t =>
    if t.live ∧ !t.acquiring ∧ !t.releasing then
      (Inbound.step P t.req t.st l).bind fun st => s.moved i t st
    else none
  | .store i => (s.task i).bind fun t => t.sock.bind fun k =>
    if t.releasing then
      (Pool.Concurrent.step s.pool (.release k)).bind fun p => (Pool.Concurrent.step p (.store k)).bind fun p =>
        (Inbound.step P t.req t.st (.main .ok)).map fun st =>
          { s.put i { t with st := st, live := false } with pool := p }
    else none
  | .cancel i => (s.task i).bind fun t =>
    if t.live then
      let s' := s.put i { t with live := false }
      match t.sock with
      | some k => s'.lose k
      | none =>
        if t.acquiring then (Pool.Concurrent.step s.pool (.cancel i)).map fun p => { s' with pool := p }
        else some s'
    else none
  | .answer k _ r =>
    let sk := s.sock k
    some (s.setSock k { sk with responses := sk.responses ++ [r], unread := sk.unread ++ r })

def shared (P : Httparse) (p : Pool Nat) : LTS St Label := LTS.ofFn (· = start p) (step P)

/-! ## The parts run as they do alone -/

/-- The streams of a state are streams of `proxy_http`. -/
def Streams (P : Httparse) (task : Nat → Option Task) : Prop :=
  ∀ i t, task i = some t → (Inbound.inbound P t.req).Reachable t.st

/-- What a step of the whole is to its parts. -/
structure PartsStep (P : Httparse) (p : Pool Nat) (s s' : St) : Prop where
  pool : ∃ ls, (Pool.Concurrent.system p).Run s.pool ls s'.pool
  streams : Streams P s.task → Streams P s'.task
  spoiled : s.spoiled ⊆ s'.spoiled

section Parts
variable {P : Httparse} {p : Pool Nat} {s s' u : St} {i k : Nat} {t : Task}

theorem PartsStep.trans (h : PartsStep P p s u) (h' : PartsStep P p u s') : PartsStep P p s s' := by
  obtain ⟨ls, hrun⟩ := h.pool
  obtain ⟨ms, hrun'⟩ := h'.pool
  exact ⟨⟨ls ++ ms, hrun.append hrun'⟩, fun hi => h'.streams (h.streams hi),
    List.Subset.trans h.spoiled h'.spoiled⟩

theorem PartsStep.ofPool {q : Pool.Concurrent.St} {l : Pool.Concurrent.Label}
    (h : Pool.Concurrent.step s.pool l = some q) : PartsStep P p s { s with pool := q } :=
  ⟨⟨[l], .single h⟩, id, List.Subset.refl _⟩

theorem PartsStep.setSock (s : St) (k : Nat) (sk : Sock) : PartsStep P p s (s.setSock k sk) :=
  ⟨⟨[], .nil _⟩, id, List.Subset.refl _⟩

theorem PartsStep.put (s : St) (i : Nat) {t : Task}
    (h : Streams P s.task → (Inbound.inbound P t.req).Reachable t.st) : PartsStep P p s (s.put i t) := by
  refine ⟨⟨[], .nil _⟩, fun hi j t' ht' => ?_, List.Subset.refl _⟩
  by_cases hj : j = i
  · subst hj
    simp only [St.put, Function.update_self, Option.some.injEq] at ht'
    exact ht' ▸ h hi
  · simp only [St.put, Function.update_of_ne hj] at ht'
    exact hi j t' ht'

theorem PartsStep.lose (h : s.lose k = some s') : PartsStep P p s s' := by
  simp only [St.lose, Option.map_eq_some_iff] at h
  obtain ⟨q, hq, rfl⟩ := h
  exact ⟨⟨_, .single hq⟩, id, List.subset_cons_self _ _⟩

/-- One await of a stream of the state. -/
theorem PartsStep.stream {st : Inbound.St} {l : Inbound.Label} (t' : Task) (ht : s.task i = some t)
    (hst : Inbound.step P t.req t.st l = some st) (hreq : t'.req = t.req) (hst' : t'.st = st) :
    PartsStep P p s (s.put i t') := by
  refine .put s i fun hi => ?_
  rw [hreq, hst']
  exact (hi i t ht).step hst

theorem PartsStep.acquired (ht : s.task i = some t) (h : s.acquired P i t k = some s') :
    PartsStep P p s s' := by
  simp only [St.acquired, Option.map_eq_some_iff] at h
  obtain ⟨st, hst, rfl⟩ := h
  exact (PartsStep.stream (t.on st k (s.sock k)) ht hst rfl rfl).trans (.setSock _ _ _)

theorem PartsStep.moved {st : Inbound.St} {l : Inbound.Label} (ht : s.task i = some t)
    (hst : Inbound.step P t.req t.st l = some st) (h : s.moved i t st = some s') : PartsStep P p s s' := by
  have hput : PartsStep P p s (s.put i (t.moved st)) := .stream (t.moved st) ht hst rfl rfl
  unfold St.moved at h
  split at h
  · cases h
    exact hput
  · simp only [Option.ite_none_right_eq_some] at h
    obtain ⟨-, h⟩ := h
    split at h
    · exact (hput.trans (.setSock _ _ _)).trans (.lose h)
    · cases h
      exact hput.trans (.setSock _ _ _)

/-- **Every step is made of steps of the parts.** -/
theorem parts_step {l : Label} (hs : step P s l = some s') : PartsStep P p s s' := by
  cases l with
  | tick d =>
    simp only [step, Option.map_eq_some_iff] at hs
    obtain ⟨q, hq, rfl⟩ := hs
    exact .ofPool hq
  | arrive i req =>
    simp only [step, Option.ite_none_right_eq_some, Option.map_eq_some_iff] at hs
    obtain ⟨-, q, hq, rfl⟩ := hs
    exact (PartsStep.ofPool hq).trans (.put { s with pool := q } i fun _ => .of_init rfl)
  | examine i delays =>
    simp only [step, Option.bind_eq_some_iff, Option.ite_none_right_eq_some] at hs
    obtain ⟨t, ht, -, q, hq, hs⟩ := hs
    split at hs
    · exact (PartsStep.ofPool hq).trans (.acquired ht hs)
    · cases hs
      exact .ofPool hq
  | connected i =>
    simp only [step, Option.bind_eq_some_iff, Option.ite_none_right_eq_some] at hs
    obtain ⟨t, ht, -, q, hq, hs⟩ := hs
    exact (PartsStep.ofPool hq).trans (.acquired ht hs)
  | refused i msg =>
    simp only [step, Option.bind_eq_some_iff, Option.ite_none_right_eq_some, Option.map_eq_some_iff] at hs
    obtain ⟨t, ht, -, q, hq, st, hst, rfl⟩ := hs
    exact (PartsStep.ofPool hq).trans (.stream (s := { s with pool := q }) { t with st := st } ht hst rfl rfl)
  | timeout i =>
    simp only [step, Option.bind_eq_some_iff, Option.ite_none_right_eq_some, Option.map_eq_some_iff] at hs
    obtain ⟨t, ht, -, q, hq, st, hst, rfl⟩ := hs
    exact (PartsStep.ofPool hq).trans (.stream (s := { s with pool := q }) { t with st := st } ht hst rfl rfl)
  | io i l =>
    simp only [step, Option.bind_eq_some_iff, Option.ite_none_right_eq_some] at hs
    obtain ⟨t, ht, -, st, hst, hs⟩ := hs
    exact .moved ht hst hs
  | store i =>
    simp only [step, Option.bind_eq_some_iff, Option.ite_none_right_eq_some, Option.map_eq_some_iff] at hs
    obtain ⟨t, ht, k, -, -, q, hq, q', hq', st, hst, rfl⟩ := hs
    exact ((PartsStep.ofPool hq).trans (.ofPool (s := { s with pool := q }) hq')).trans
      (.stream (s := { s with pool := q' }) { t with st := st, live := false } ht hst rfl rfl)
  | cancel i =>
    simp only [step, Option.bind_eq_some_iff, Option.ite_none_right_eq_some] at hs
    obtain ⟨t, ht, -, hs⟩ := hs
    have hput : PartsStep P p s (s.put i { t with live := false }) := .put s i fun hi => hi i t ht
    split at hs
    · exact hput.trans (.lose hs)
    · split at hs
      · simp only [Option.map_eq_some_iff] at hs
        obtain ⟨q, hq, rfl⟩ := hs
        exact hput.trans (.ofPool (s := s.put i { t with live := false }) hq)
      · cases hs
        exact hput
  | answer k n r =>
    simp only [step, Option.some.injEq] at hs
    subst hs
    exact .setSock _ _ _

/-- **Refinement.** In every run the pool takes steps of its own system, and
every stream steps of its own. -/
theorem parts_reachable (h : (shared P p).Reachable s) :
    (Pool.Concurrent.system p).Reachable s.pool ∧ Streams P s.task := by
  refine LTS.Inductive.reachable (M := shared P p)
    (I := fun s => (Pool.Concurrent.system p).Reachable s.pool ∧ Streams P s.task) ⟨?_, ?_⟩ h
  · intro s heq
    subst heq
    exact ⟨LTS.Reachable.of_init (M := Pool.Concurrent.system p) rfl, by intro i t ht; cases ht⟩
  · intro s l s' hi hs
    have hparts : PartsStep P p s s' := parts_step hs
    obtain ⟨ls, hrun⟩ := hparts.pool
    exact ⟨hi.1.run hrun, hparts.streams hi.2⟩

end Parts

/-! ## What is assumed -/

/-- The request the origin of socket `k` answers next, having received `n`
bytes there, and whether it has received all of it. -/
def St.pending (s : St) (k n : Nat) : Option (Http.RequestHead × Bool) :=
  request ((s.sock k).handed.take n) (s.sock k).responses.length

/-- The edge sends valid HTTP; the origin answers, in order, what it has
received. -/
def Assumed (P : Httparse) (s : St) : Label → Prop
  | .arrive _ req => conforming req = true
  | .answer k n r => ∃ h b, s.pending k n = some (h, b) ∧ Http.Response P.IsHead h.method r
  | _ => True

/-- `ResponseShape::poolable` of what the head reader sees first. -/
def poolableReply (P : Httparse) (r : Bytes) : Bool :=
  match P.parse r with
  | .complete _ ⟨_, some status, headers⟩ => (analyseResponse status (lossyHeaders headers)).responsePoolable
  | _ => false

/-- A request for the pooled path whose body is longer than a `u64` says. -/
def oversized (h : Http.RequestHead) : Bool :=
  (scan h.fields ⟨none, false, false, false⟩).requestPoolable &&
    match h.fixedLength with
    | some n => U64_BOUND ≤ n
    | none => false

/-- No origin answers an oversized request, before it has received all of
it, by a response after which the socket goes back to the pool. -/
def InTime (P : Httparse) (s : St) : Label → Prop
  | .answer k n r => ∀ h, s.pending k n = some (h, false) → oversized h = true → poolableReply P r = false
  | _ => True

/-! ## Pairing -/

/-- A live stream has this socket. -/
def St.Holds (s : St) (i k : Nat) : Prop := ∃ t, s.task i = some t ∧ t.live = true ∧ t.sock = some k

/-- The last request is completely written and every response read, one for
each request. -/
structure Settled (sk : Sock) : Prop where
  written : sk.handed = sk.written
  requests : (requests sk.written).1 ≠ [] ∧ (Http.requests sk.written).2 = []
  answered : sk.responses.length = (Http.requests sk.written).1.length
  read : sk.unread = []

/-- Every response answers the request of its number. -/
def Answered (P : Httparse) (sk : Sock) : Prop :=
  ∀ (m : Nat) (r : Bytes), sk.responses[m]? = some r → ∃ h b, request sk.handed m = some (h, b) ∧
    Http.Response P.IsHead h.method r

/-- What the stream has read comes from the responses to its own requests,
beginning with the request it was opened for; on the pooled path that is the
only one. -/
def OwnReplies (P : Httparse) (t : Task) (sk : Sock) : Prop :=
  ∃ n, t.st.wire.fromOrigin.flatten <+: ((sk.responses.drop t.skip).take n).flatten ∧
    ((analyseRequest t.req).requestPoolable = true → n ≤ 1) ∧
    ∀ j < n, ∃ r h b b', sk.responses[t.skip + j]? = some r ∧ request t.handed j = some (h, b) ∧
      request sk.handed (t.skip + j) = some (h, b') ∧ Http.Response P.IsHead h.method r ∧
      (j = 0 → h = requestHead t.req (analyseRequest t.req).requestPoolable)

structure Paired (P : Httparse) (s : St) : Prop where
  exclusive : ∀ i k, s.Holds i k → k ∉ s.pool.idleSockets ∧ ∀ j, s.Holds j k → j = i
  settled : ∀ k ∈ s.pool.idleSockets, Settled (s.sock k)
  answered : ∀ k, Answered P (s.sock k)
  spoiled : ∀ k ∈ s.spoiled, k ∉ s.pool.idleSockets ∧ ∀ i, ¬ s.Holds i k
  replies : ∀ i t k, s.task i = some t → t.sock = some k → OwnReplies P t (s.sock k)

end QuickTunnel.Proxy.Shared
