import QuickTunnel.Proxy.Pooled

/-!
# Runs of the pooled path

An invariant says what a run of `run_pooled` cannot do; this file says what
one can do: any body of the announced length is forwarded, any chunking of
a head is read, the answer is written, and then the run either relays the
rest and releases the socket or waits at a read.

* `run_reqBody`, `run_head`, `run_frame`, `run_respBody`, `run_drain`: one
  phase each.
* `reach_answered`: a head read in the given pieces, and answered.
* `reach_released`, `reach_drained`: from there to `pool.release`, and to
  the read of the drain with everything relayed.
-/
namespace QuickTunnel.Proxy.Pooled

open QuickTunnel.Stream

section Phases
variable {P : Httparse} (req : ConnectRequest)

theorem step_run {s s' : St} {e : Ev} (h : step P s e = some s') : (runPooled P req).Run s [e] s' :=
  .single h

/-- A stream as reads of at most `k` bytes. -/
def Sized (k : Nat) (bs : List Bytes) : Prop := ∀ b ∈ bs, b ≠ [] ∧ b.length ≤ k

theorem Sized.tail {k : Nat} {b : Bytes} {bs : List Bytes} (h : Sized k (b :: bs)) : Sized k bs :=
  fun x hx => h x (List.mem_cons_of_mem _ hx)

/-- Every stream can be cut so that the last read is needed. -/
theorem exists_reads {k : Nat} (hk : 0 < k) (S : Bytes) :
    ∃ bs, Sized k bs ∧ bs.flatten = S ∧ (S ≠ [] → bs.dropLast.flatten.length < S.length) := by
  induction hn : S.length using Nat.strong_induction_on generalizing S with
  | _ n ih =>
    by_cases hle : S.length ≤ k
    · by_cases hS : S = []
      · exact ⟨[], fun _ h => (List.not_mem_nil h).elim, by simp [hS], fun h => absurd hS h⟩
      · exact ⟨[S], by simpa [Sized] using ⟨hS, hle⟩, by simp,
          fun _ => by simpa [← hn] using List.length_pos_iff.mpr hS⟩
    · have hlen : (S.drop k).length = S.length - k := List.length_drop
      obtain ⟨bs, hsz, hfl, hlast⟩ := ih (S.drop k).length (by omega) (S.drop k) rfl
      have hne : S.drop k ≠ [] := List.ne_nil_of_length_pos (by omega)
      have hbs : bs ≠ [] := fun h => hne (by rw [← hfl, h, List.flatten_nil])
      have htake : (S.take k).length = k := by
        rw [List.length_take]
        omega
      refine ⟨S.take k :: bs, fun b hb => ?_, by simp [hfl], fun _ => ?_⟩
      · rcases List.mem_cons.mp hb with rfl | hb
        · exact ⟨List.ne_nil_of_length_pos (by omega), Nat.le_of_eq htake⟩
        · exact hsz b hb
      · have := hlast hne
        rw [List.dropLast_cons_of_ne_nil hbs, List.flatten_cons, List.length_append]
        omega

/-- One turn of a pump that still wants at least the chunk. -/
theorem pumpTurn (eofText : Nat → String) {n : Nat} {b : Bytes} (hb : b ≠ [])
    (hle : b.length ≤ PUMP_BUF) (hn : b.length ≤ n) :
    pumpStep eofText (.read (some n)) (.read b) = some (.next (.write (some n) b)) ∧
      pumpStep eofText (.write (some n) b) .ok = some (pumpTop (some (n - b.length))) := by
  have : b.length ≤ want (some n) := Nat.le_min.mpr ⟨hle, hn⟩
  simp [pumpStep, this, hb]

/-- Step 1 forwards any body of the announced length, however it arrives. -/
theorem run_reqBody : ∀ {bs : List Bytes} {s : St}, Sized PUMP_BUF bs → bs ≠ [] →
    s.pc = .reqBody (.read (some bs.flatten.length)) → ∃ es s', (runPooled P req).Run s es s' ∧
      s'.pc = .head [] ∧
      s'.wire = { s.wire with
        fromEdge := s.wire.fromEdge ++ bs
        toOrigin := s.wire.toOrigin ++ bs.flatten
        bytesIn := s.wire.bytesIn + bs.flatten.length } := by
  intro bs
  induction bs with
  | nil => exact fun _ h => absurd rfl h
  | cons b bs ih =>
    intro s hsz _ hpc
    obtain ⟨hb, hle⟩ := hsz b List.mem_cons_self
    obtain ⟨hread, hwrite⟩ := pumpTurn
      (fun n => "source EOF with " ++ toString n ++ " bytes still expected") hb hle
      (n := (b :: bs).flatten.length) (by simp)
    have h₁ : step P s (.read b) = some { s with
        pc := .reqBody (.write (some (b :: bs).flatten.length) b)
        wire := { s.wire with fromEdge := s.wire.fromEdge ++ [b] } } := by
      simp only [step, hpc, pumpNFuturesToTokio, hread, Option.map_some, Wire.up, if_neg hb]
    have hleft : (b :: bs).flatten.length - b.length = bs.flatten.length := by simp
    cases bs with
    | nil =>
      refine ⟨[.read b, .ok], ⟨.head [], _, s.released⟩, .cons h₁ (step_run req ?_), rfl, rfl⟩
      simp only [step, pumpNFuturesToTokio, hwrite, hleft, Option.map_some]
      simp [pumpTop, Wire.up]
    | cons b' bs =>
      have hpos : 0 < (b' :: bs).flatten.length := by
        have := List.length_pos_iff.mpr (hsz b' (by simp)).1
        simp only [List.flatten_cons, List.length_append]
        omega
      obtain ⟨es, s', hrun, hpc', hw⟩ := ih (s := ⟨.reqBody (.read (some (b' :: bs).flatten.length)),
          ({ s.wire with fromEdge := s.wire.fromEdge ++ [b] } : Wire).up
            (.write (some (b :: b' :: bs).flatten.length) b) .ok, s.released⟩)
        hsz.tail (by simp) rfl
      refine ⟨.read b :: .ok :: es, s', .cons h₁ (.cons ?_ hrun), hpc', ?_⟩
      · simp only [LTS.ofFn, runPooled, step, pumpNFuturesToTokio, hwrite, hleft, Option.map_some,
          pumpTop, Option.some.injEq, Nat.ne_of_gt hpos, if_false]
      · rw [hw]
        simp [Wire.up, Nat.add_assoc]

/-- Every call can get past step 1. -/
theorem reach_head (P : Httparse) {b : Bytes} (hb : b.length = bodyLen req) :
    ∃ s, (runPooled P req).Reachable s ∧ s.pc = .head [] ∧ s.wire.fromEdge.flatten = b ∧
      s.wire.edgeEof = false ∧ s.wire.fromOrigin = [] := by
  have h₀ : (runPooled P req).Reachable (start req) := .of_init rfl
  obtain ⟨bs, hsz, hfl, -⟩ := exists_reads (k := PUMP_BUF) (by decide) b
  rcases pumpTop_cases (some (bodyLen req)) with ⟨h0, hp⟩ | ⟨h0, hp⟩
  · rw [Option.some.injEq] at h0
    rw [h0, List.length_eq_zero_iff] at hb
    exact ⟨start req, h₀, by simp only [start, hp], by simp [start, hb], rfl, rfl⟩
  · have hne : bs ≠ [] := by
      intro heq
      subst heq
      rw [← hb, ← hfl] at h0
      exact h0 rfl
    obtain ⟨es, s, hrun, hpc, hw⟩ := run_reqBody (P := P) req (s := start req) hsz hne
      (by rw [hfl, hb]; simp only [start, hp])
    refine ⟨s, h₀.run hrun, hpc, ?_⟩
    rw [hw]
    exact ⟨by simpa [start] using hfl, rfl, rfl⟩

/-- Step 2 reads a head in any pieces. -/
theorem run_head {raw lo : Bytes} {hd : Http.Head} (hh : P.IsHead raw hd)
    (hm : (raw ++ lo).length ≤ MAX_HEADER_BYTES) : ∀ {hs : List Bytes} {buf : Bytes} {s : St},
    Sized HEAD_BUF hs → hs ≠ [] → buf ++ hs.flatten = raw ++ lo →
    (buf ++ hs.dropLast.flatten).length < raw.length → s.pc = .head buf →
    ∃ es s', (runPooled P req).Run s es s' ∧
      s'.pc = .respond ⟨hd.status, lossyHeaders hd.fields, lo⟩
        (frame ⟨hd.status, lossyHeaders hd.fields, lo⟩) ∧
      s'.wire = { s.wire with fromOrigin := s.wire.fromOrigin ++ hs } := by
  intro hs
  induction hs with
  | nil => exact fun _ h => absurd rfl h
  | cons t hs ih =>
    intro buf s hsz _ hfl hshort hpc
    obtain ⟨ht, hle⟩ := hsz t List.mem_cons_self
    cases hs with
    | nil =>
      have hr := onHeadRead_of_head hh ht (by simpa using hfl) hm
      refine ⟨[.read t], ⟨_, _, s.released⟩, step_run req ?_, rfl, rfl⟩
      simp only [step, hpc, readHttpResponseHead, if_pos hle, hr, Option.map_some, Wire.gotOrigin,
        if_neg ht]
    | cons t' hs =>
      have hpre : buf ++ t <+: raw ++ lo := by
        rw [← hfl]
        exact ⟨(t' :: hs).flatten, by simp⟩
      have hlt : (buf ++ t).length < raw.length := by
        simp only [List.dropLast_cons_cons, List.flatten_cons, List.length_append] at hshort ⊢
        omega
      have hpre' : buf ++ t <+: raw :=
        List.prefix_of_prefix_length_le hpre (List.prefix_append _ _) (Nat.le_of_lt hlt)
      rw [List.length_append] at hm
      have hr := onHeadRead_of_lt hh ht hpre' hlt (by omega)
      have h₁ : step P s (.read t) = some { s with pc := .head (buf ++ t), wire := s.wire.gotOrigin t } := by
        simp only [step, hpc, readHttpResponseHead, if_pos hle, hr, Option.map_some]
      obtain ⟨es, s', hrun, hpc', hw⟩ :=
        ih (s := { s with pc := .head (buf ++ t), wire := s.wire.gotOrigin t })
        hsz.tail (by simp) (by simpa using hfl)
        (by simpa using hshort) rfl
      refine ⟨_, s', .cons h₁ hrun, hpc', ?_⟩
      rw [hw]
      simp [Wire.gotOrigin, ht]

/-- Steps 3 and 4 with an edge that takes every write. -/
theorem run_frame {h : ResponseHead} : ∀ {rest : List EdgeWrite} {s : St}, s.pc = .respond h rest →
    ∃ es s', (runPooled P req).Run s es s' ∧ s'.pc = afterLeftover h ∧
      s'.wire.fromOrigin = s.wire.fromOrigin ∧ s'.wire.fromEdge = s.wire.fromEdge ∧
      s'.wire.edgeEof = s.wire.edgeEof := by
  intro rest
  induction rest with
  | nil =>
    intro s hpc
    have h₁ : step P s .ok = some { s with pc := afterRespond h } := by simp only [step, hpc]
    by_cases hl : h.leftover = []
    · refine ⟨_, _, step_run req h₁, ?_, rfl, rfl, rfl⟩
      simp [afterRespond, hl]
    · have h₂ : step P { s with pc := afterRespond h } .ok =
          some { s with pc := afterLeftover h, wire := s.wire.sentBody h.leftover } := by
        simp [step, afterRespond, hl]
      exact ⟨[.ok, .ok], _, .cons h₁ (step_run req h₂), rfl, rfl, rfl, rfl⟩
  | cons x rest ih =>
    intro s hpc
    have h₁ : step P s .ok =
        some { s with pc := .respond h rest, wire := { s.wire with toEdge := s.wire.toEdge ++ [x] } } := by
      simp only [step, hpc]
    obtain ⟨es, s', hrun, hpc', hfo, hfe, heof⟩ :=
      ih (s := { s with pc := .respond h rest, wire := { s.wire with toEdge := s.wire.toEdge ++ [x] } }) rfl
    exact ⟨_, s', .cons h₁ hrun, hpc', hfo, hfe, heof⟩

/-- Step 5a relays any rest of the announced length, however it arrives. -/
theorem run_respBody {h : ResponseHead} : ∀ {bs : List Bytes} {s : St}, Sized PUMP_BUF bs → bs ≠ [] →
    s.pc = .respBody h (.read (some bs.flatten.length)) → ∃ es s', (runPooled P req).Run s es s' ∧
      s'.pc = .closePooled h ∧
      s'.wire = { s.wire with
        fromOrigin := s.wire.fromOrigin ++ bs
        toEdge := s.wire.toEdge ++ bs.map .data
        bytesOut := s.wire.bytesOut + bs.flatten.length } := by
  intro bs
  induction bs with
  | nil => exact fun _ h => absurd rfl h
  | cons b bs ih =>
    intro s hsz _ hpc
    obtain ⟨hb, hle⟩ := hsz b List.mem_cons_self
    obtain ⟨hread, hwrite⟩ := pumpTurn
      (fun n => "tcp EOF with " ++ toString n ++ " bytes still expected") hb hle
      (n := (b :: bs).flatten.length) (by simp)
    have h₁ : step P s (.read b) = some { s with
        pc := .respBody h (.write (some (b :: bs).flatten.length) b)
        wire := { s.wire with fromOrigin := s.wire.fromOrigin ++ [b] } } := by
      simp only [step, hpc, pumpNTokioToFutures, hread, Option.map_some, Wire.down, Wire.gotOrigin, if_neg hb]
    have hleft : (b :: bs).flatten.length - b.length = bs.flatten.length := by simp
    cases bs with
    | nil =>
      refine ⟨[.read b, .ok], ⟨.closePooled h, _, s.released⟩, .cons h₁ (step_run req ?_), rfl, rfl⟩
      simp only [step, pumpNTokioToFutures, hwrite, hleft, Option.map_some]
      simp [pumpTop, Wire.down, Wire.sentBody]
    | cons b' bs =>
      have hpos : 0 < (b' :: bs).flatten.length := by
        have := List.length_pos_iff.mpr (hsz b' (by simp)).1
        simp only [List.flatten_cons, List.length_append]
        omega
      obtain ⟨es, s', hrun, hpc', hw⟩ := ih (s := ⟨.respBody h (.read (some (b' :: bs).flatten.length)),
          ({ s.wire with fromOrigin := s.wire.fromOrigin ++ [b] } : Wire).down
            (.write (some (b :: b' :: bs).flatten.length) b) .ok, s.released⟩)
        hsz.tail (by simp) rfl
      refine ⟨.read b :: .ok :: es, s', .cons h₁ (.cons ?_ hrun), hpc', ?_⟩
      · simp only [LTS.ofFn, runPooled, step, pumpNTokioToFutures, hwrite, hleft, Option.map_some,
          pumpTop, Option.some.injEq, Nat.ne_of_gt hpos, if_false]
      · rw [hw]
        simp [Wire.down, Wire.sentBody, Nat.add_assoc]

/-- Step 5b relays any bytes and waits for more. -/
theorem run_drain {h : ResponseHead} : ∀ {bs : List Bytes} {s : St}, Sized PUMP_BUF bs →
    s.pc = .drain h (.read none) → ∃ es s', (runPooled P req).Run s es s' ∧
      s'.pc = .drain h (.read none) ∧ s'.wire.fromOrigin = s.wire.fromOrigin ++ bs := by
  intro bs
  induction bs with
  | nil => exact fun {s} _ hpc => ⟨[], s, .nil s, hpc, by simp⟩
  | cons b bs ih =>
    intro s hsz hpc
    obtain ⟨hb, hle⟩ := hsz b List.mem_cons_self
    have h₁ : step P s (.read b) = some { s with
        pc := .drain h (.write none b)
        wire := s.wire.down (.read none) (.read b) } := by
      simp [step, hpc, pumpTokioToFuturesCounted, pumpStep, want, hle, hb]
    have h₂ : step P ⟨.drain h (.write none b), s.wire.down (.read none) (.read b), s.released⟩ .ok =
        some ⟨.drain h (.read none), (s.wire.down (.read none) (.read b)).down (.write none b) .ok,
          s.released⟩ := by
      simp [step, pumpTokioToFuturesCounted, pumpStep, pumpTop]
    obtain ⟨es, s', hrun, hpc', hfo⟩ := ih
      (s := ⟨.drain h (.read none), (s.wire.down (.read none) (.read b)).down (.write none b) .ok,
      s.released⟩) hsz.tail rfl
    refine ⟨_, s', .cons h₁ (.cons h₂ hrun), hpc', ?_⟩
    rw [hfo]
    simp [Wire.down, Wire.gotOrigin, Wire.sentBody, hb]

end Phases

/-! ## Whole calls -/

section Calls
variable {P : Httparse} {req : ConnectRequest} {raw lo : Bytes} {hd : Http.Head} {hs : List Bytes}

/-- What `read_http_response_head` makes of the head `hd` with `lo` behind it. -/
def readAs (hd : Http.Head) (lo : Bytes) : ResponseHead := ⟨hd.status, lossyHeaders hd.fields, lo⟩

theorem pooledLength_readAs (hd : Http.Head) (lo : Bytes) : pooledLength (readAs hd lo) =
    (responseShape hd).contentLength.filter fun _ => (responseShape hd).responsePoolable := rfl

/-- A call with any request body, whose head phase takes the reads `hs`,
answers the edge. -/
theorem reach_answered (hh : P.IsHead raw hd) (hm : (raw ++ lo).length ≤ MAX_HEADER_BYTES)
    (hsz : Sized HEAD_BUF hs) (hr : HeadReads raw lo hs) {b : Bytes} (hb : b.length = bodyLen req) :
    ∃ s, (runPooled P req).Reachable s ∧ s.pc = afterLeftover (readAs hd lo) ∧
      s.wire.fromOrigin = hs ∧ s.wire.fromEdge.flatten = b ∧ s.wire.edgeEof = false := by
  have hne : hs ≠ [] := by
    intro heq
    subst heq
    have := congrArg List.length hr.flatten
    have := hh.pos
    simp at *
    omega
  obtain ⟨s₁, hr₁, hpc₁, hfe₁, heof₁, hfo₁⟩ := reach_head req P hb
  obtain ⟨es₂, s₂, hr₂, hpc₂, hw₂⟩ := run_head req hh hm hsz hne
    (by simpa using hr.flatten) (by simpa using hr.short) hpc₁
  obtain ⟨es₃, s₃, hr₃, hpc₃, hfo₃, hfe₃, heof₃⟩ := run_frame (P := P) req hpc₂
  refine ⟨s₃, (hr₁.run hr₂).run hr₃, hpc₃, ?_, ?_, ?_⟩
  · rw [hfo₃, hw₂, hfo₁, List.nil_append]
  · rw [hfe₃, hw₂, hfe₁]
  · rw [heof₃, hw₂, heof₁]

/-- With a pooled length such a call can go on to `pool.release`, reading
any `rest` that completes the length. -/
theorem reach_released (hh : P.IsHead raw hd) (hm : (raw ++ lo).length ≤ MAX_HEADER_BYTES)
    (hsz : Sized HEAD_BUF hs) (hr : HeadReads raw lo hs) {b : Bytes} (hb : b.length = bodyLen req)
    {total : Nat} (ht : pooledLength (readAs hd lo) = some total) {rest : Bytes}
    (hrest : rest.length = total - lo.length) :
    ∃ s, (runPooled P req).Reachable s ∧ s.pc = .release (readAs hd lo) ∧
      (∃ bs, s.wire.fromOrigin = hs ++ bs ∧ bs.flatten = rest) ∧ s.wire.fromEdge.flatten = b ∧
      s.wire.edgeEof = false := by
  obtain ⟨s, hreach, hpc, hfo, hfe, heof⟩ := reach_answered hh hm hsz hr hb
  have hclose : ∃ s', (runPooled P req).Reachable s' ∧ s'.pc = .closePooled (readAs hd lo) ∧
      (∃ bs, s'.wire.fromOrigin = hs ++ bs ∧ bs.flatten = rest) ∧ s'.wire.fromEdge.flatten = b ∧
      s'.wire.edgeEof = false := by
    simp only [afterLeftover, ht] at hpc
    rcases pumpTop_cases (some (total - lo.length)) with ⟨h0, hp⟩ | ⟨h0, hp⟩
    · have h0' : rest = [] := by
        rw [Option.some.injEq] at h0
        rw [← List.length_eq_zero_iff, hrest, h0]
      rw [show (readAs hd lo).leftover = lo from rfl, hp] at hpc
      exact ⟨s, hreach, hpc, ⟨[], by simp [hfo], by simp [h0']⟩, hfe, heof⟩
    · obtain ⟨bs, hbs, hfl, -⟩ := exists_reads (k := PUMP_BUF) (by decide) rest
      rw [show (readAs hd lo).leftover = lo from rfl, hp, ← hrest, ← hfl] at hpc
      have hne : bs ≠ [] := by
        intro heq
        subst heq
        rw [← hrest, ← hfl] at h0
        exact h0 rfl
      obtain ⟨es, s', hrun, hpc', hw⟩ := run_respBody (P := P) req hbs hne hpc
      refine ⟨s', hreach.run hrun, hpc', ⟨bs, by rw [hw, hfo], hfl⟩, ?_, ?_⟩
      · rw [hw, hfe]
      · rw [hw, heof]
  obtain ⟨s', hreach', hpc', hfo', hfe', heof'⟩ := hclose
  refine ⟨⟨.release (readAs hd lo), { s'.wire with edgeClosed := true }, s'.released⟩,
    hreach'.step (l := .ok) ?_, rfl, hfo', hfe', heof'⟩
  simp only [runPooled, LTS.ofFn, step, hpc']

/-- Without one it relays any bytes and waits for more. -/
theorem reach_drained (hh : P.IsHead raw hd) (hm : (raw ++ lo).length ≤ MAX_HEADER_BYTES)
    (hsz : Sized HEAD_BUF hs) (hr : HeadReads raw lo hs) {b : Bytes} (hb : b.length = bodyLen req)
    (ht : pooledLength (readAs hd lo) = none) (rest : Bytes) :
    ∃ s, (runPooled P req).Reachable s ∧ s.pc = .drain (readAs hd lo) (.read none) ∧
      s.wire.fromOrigin.flatten = raw ++ lo ++ rest := by
  obtain ⟨s, hreach, hpc, hfo, -, -⟩ := reach_answered hh hm hsz hr hb
  simp only [afterLeftover, ht] at hpc
  obtain ⟨bs, hbs, hfl, -⟩ := exists_reads (k := PUMP_BUF) (by decide) rest
  obtain ⟨es, s', hrun, hpc', hfo'⟩ := run_drain (P := P) req hbs hpc
  exact ⟨s', hreach.run hrun, hpc', by rw [hfo', hfo, List.flatten_append, hr.flatten, hfl]⟩

end Calls

end QuickTunnel.Proxy.Pooled
