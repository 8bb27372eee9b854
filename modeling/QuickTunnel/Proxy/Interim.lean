import QuickTunnel.Proxy.Relay

/-!
# Interim responses

`read_http_response_head` returns the first complete head. An origin that
sends interim responses (100, 102, 103) in front of the final one has the
first of them passed on as the response, and everything behind it as body.

* `ToldFirst`: what both paths tell the edge, in terms of the first head.
* `final_only_iff`: on either path only the final response reaches the edge,
  over all chunkings, iff nothing precedes it (or the first head is longer
  than the reader admits, and nothing reaches the edge).
* `continue_passed_on`: a `100 Continue` in front of a 200.
-/
namespace QuickTunnel.Proxy

open QuickTunnel.Stream
open Pooled (Sized)

/-- The bytes of a list of heads. -/
def headBytes (heads : List (Bytes × Http.Head)) : Bytes := (heads.map Prod.fst).flatten

/-- The edge has been told nothing but the response with the head `hd` and
the body `body`: a part of its frame, or the frame and a part of the body. -/
def FinalOnly (hd : Http.Head) (body : Bytes) (w : Wire) : Prop :=
  ∃ h : ResponseHead, h.status = hd.status ∧ h.headers = lossyHeaders hd.fields ∧
    (w.toEdge <+: Pooled.frame h ∨
      ∃ ds : List Bytes, w.toEdge = Pooled.frame h ++ ds.map .data ∧ ds.flatten <+: body)

/-- The edge has been told nothing, or a part of the response that begins
with the first head the origin sent. -/
def ToldFirst (P : Httparse) (w : Wire) : Prop :=
  w.toEdge = [] ∨ ∃ h raw hd body, GotHead P h raw hd ∧ w.fromOrigin.flatten = raw ++ body ∧
    (w.toEdge <+: Pooled.frame h ∨
      ∃ ds : List Bytes, w.toEdge = Pooled.frame h ++ ds.map .data ∧ ds.flatten <+: body)

theorem ToldFirst.mono {P : Httparse} {w w' : Wire} (h : ToldFirst P w) (hte : w'.toEdge = w.toEdge)
    (hfo : w.fromOrigin <+: w'.fromOrigin) : ToldFirst P w' := by
  rcases h with h | ⟨r, raw, hd, body, hg, hb, hout⟩
  · exact .inl (hte.trans h)
  · obtain ⟨t, ht⟩ := hfo
    refine .inr ⟨r, raw, hd, body ++ t.flatten, hg, ?_, ?_⟩
    · rw [← ht, List.flatten_append, hb, List.append_assoc]
    · rw [hte]
      exact hout.imp_right fun ⟨ds, hds, hpre⟩ => ⟨ds, hds, hpre.trans (List.prefix_append _ _)⟩

theorem ToldFirst.of_originToEdge {P : Httparse} {w : Wire}
    (h : Inbound.OriginToEdge (Inbound.HeadFrame P) w) : ToldFirst P w := by
  cases h with
  | nothing hte _ => exact .inl hte
  | partly hf hfr hte _ =>
    obtain ⟨r, hd, hg, rfl⟩ := hf
    obtain ⟨body, hb⟩ := hfr
    exact .inr ⟨r, _, hd, body, hg, hb.symm, .inl hte⟩
  | relayed hf hdl hpre _ =>
    obtain ⟨r, hd, hg, rfl⟩ := hf
    obtain ⟨ds, hds, rfl⟩ := hdl.toEdge
    exact .inr ⟨r, _, hd, _, hg, hdl.fromOrigin, .inr ⟨ds, hds, hpre⟩⟩

/-! ## The pooled path -/

namespace Pooled

section Step
variable {P : Httparse} {req : ConnectRequest} {s s' : St} {e : Ev}

theorem Relayed.told {h : ResponseHead} {w : Wire} {raw body out : Bytes} {hd : Http.Head}
    (hr : Relayed P req h w raw hd body out) (hpre : out <+: body) : ToldFirst P w := by
  obtain ⟨ds, hds, rfl⟩ := hr.toEdge
  exact .inr ⟨h, raw, hd, body, hr.got, hr.fromOrigin, .inr ⟨ds, hds, hpre⟩⟩

/-- A pump that does not go on has written nothing in its last step, unless
it was counting. -/
theorem down_of_ended {eofText : Nat → String} {p : Pump} {o : PumpNext} (w : Wire)
    (ho : pumpStep eofText p e = some o) (hn : ∀ p', o ≠ .next p')
    (hu : o = .returned → p.unbounded = true) :
    (w.down p e).toEdge = w.toEdge ∧ w.fromOrigin <+: (w.down p e).fromOrigin := by
  rcases pumpStep_cases ho with ⟨limit, b, -, -, -, -, rfl⟩ | ⟨rfl, rfl, -⟩ |
    ⟨n, rfl, rfl, -⟩ | ⟨limit, chunk, rfl, rfl, rfl⟩ | ⟨msg, err, rfl, -⟩
  · exact absurd rfl (hn _)
  · exact ⟨rfl, List.prefix_rfl⟩
  · exact ⟨rfl, List.prefix_rfl⟩
  · rcases pumpTop_cases (limit.map (· - chunk.length)) with ⟨h0, hp⟩ | ⟨-, hp⟩
    · have hnone := hu hp
      simp only [Pump.unbounded, Option.isNone_iff_eq_none] at hnone
      rw [hnone] at h0
      cases h0
    · exact absurd hp (hn _)
  · cases p <;> exact ⟨rfl, List.prefix_rfl⟩

def Pc.ending : Pc → Bool
  | .closeDrain _ => true
  | .done _ => true
  | _ => false

theorem afterLeftover_not_ending (h : ResponseHead) : (afterLeftover h).ending = false := by
  unfold afterLeftover
  split
  · split <;> rfl
  · rfl

theorem afterRespond_not_ending (h : ResponseHead) : (afterRespond h).ending = false := by
  unfold afterRespond
  split
  · rfl
  · exact afterLeftover_not_ending h

/-- A step into the close behind a drain, or out of the call, writes nothing
to the edge. -/
theorem ending_step (hi : Inv P req s) (hs : step P s e = some s') (hend : s'.pc.ending = true) :
    s'.wire.toEdge = s.wire.toEdge ∧ s.wire.fromOrigin <+: s'.wire.fromOrigin := by
  cases hpc : s.pc with
  | reqBody p =>
    simp only [step, hpc, Option.map_eq_some_iff] at hs
    obtain ⟨o, -, rfl⟩ := hs
    obtain ⟨hfo, -, hte, -⟩ := Inbound.Up.sameDown s.wire (.pump p) e
    cases o with
    | failed err => exact ⟨hte, [], (List.append_nil _).trans hfo.symm⟩
    | next p' => cases hend
    | returned => cases hend
  | head buf =>
    simp only [step, hpc, Option.map_eq_some_iff] at hs
    obtain ⟨o, -, rfl⟩ := hs
    cases o with
    | failed err =>
      cases e with
      | read b =>
        simp only [failed, Wire.gotOrigin]
        split
        · exact ⟨rfl, List.prefix_rfl⟩
        · exact ⟨rfl, List.prefix_append _ _⟩
      | ok => exact ⟨rfl, List.prefix_rfl⟩
      | fail msg => exact ⟨rfl, List.prefix_rfl⟩
    | more buf' => cases hend
    | returned h => cases hend
  | respond h rest =>
    cases e with
    | read b => simp [step, hpc] at hs
    | fail msg =>
      simp only [step, hpc, Option.some.injEq] at hs
      subst hs
      exact ⟨rfl, List.prefix_rfl⟩
    | ok =>
      cases rest with
      | cons x rest =>
        simp only [step, hpc, Option.some.injEq] at hs
        subst hs
        cases hend
      | nil =>
        simp only [step, hpc, Option.some.injEq] at hs
        subst hs
        simp only [afterRespond_not_ending] at hend
        cases hend
  | leftover h =>
    cases e <;> simp only [step, hpc, Option.some.injEq, reduceCtorEq] at hs <;> subst hs
    · simp only [afterLeftover_not_ending] at hend
      cases hend
    · exact ⟨rfl, List.prefix_rfl⟩
  | respBody h p =>
    simp only [step, hpc, Option.map_eq_some_iff] at hs
    obtain ⟨o, ho, rfl⟩ := hs
    cases o with
    | failed err => exact down_of_ended s.wire ho (by simp) (by simp)
    | next p' => cases hend
    | returned => cases hend
  | drain h p =>
    simp only [Inv, hpc] at hi
    obtain ⟨-, -, -, -, raw, hd, body, out, hr, hp⟩ := hi
    simp only [step, hpc, Option.map_eq_some_iff] at hs
    obtain ⟨o, ho, rfl⟩ := hs
    cases o with
    | failed err => exact down_of_ended s.wire ho (by simp) (by simp)
    | next p' => cases hend
    | returned => exact down_of_ended s.wire ho (by simp) fun _ => hp.unbounded
  | closePooled h =>
    cases e <;> simp only [step, hpc, Option.some.injEq, reduceCtorEq] at hs <;> subst hs
    · cases hend
    · exact ⟨rfl, List.prefix_rfl⟩
  | release h =>
    cases e <;> simp only [step, hpc, Option.some.injEq, reduceCtorEq] at hs
    subst hs
    exact ⟨rfl, List.prefix_rfl⟩
  | closeDrain h =>
    cases e <;> simp only [step, hpc, Option.some.injEq, reduceCtorEq] at hs <;> subst hs
    · exact ⟨rfl, List.prefix_rfl⟩
    · exact ⟨rfl, List.prefix_rfl⟩
  | done r => simp [step, hpc] at hs

/-- Where the invariant says how much of the body has been delivered. -/
theorem told_of_inv (hi : Inv P req s) (hend : s.pc.ending = false) : ToldFirst P s.wire := by
  cases hpc : s.pc with
  | reqBody p =>
    simp only [Inv, hpc] at hi
    exact .inl hi.2.1.toEdge
  | head buf =>
    simp only [Inv, hpc] at hi
    exact .inl hi.2.2.2.2.1
  | respond h rest =>
    simp only [Inv, hpc] at hi
    obtain ⟨-, -, -, -, -, hte, raw, hd, hg, hr⟩ := hi
    exact .inr ⟨h, raw, hd, h.leftover, hg, hr.flatten, .inl (hte ▸ List.prefix_append _ _)⟩
  | leftover h =>
    simp only [Inv, hpc] at hi
    obtain ⟨-, -, -, raw, hd, hr⟩ := hi
    exact hr.told List.nil_prefix
  | respBody h p =>
    simp only [Inv, hpc] at hi
    obtain ⟨-, -, -, raw, hd, body, out, total, hr, -, -, hp⟩ := hi
    exact hr.told hp.out_prefix
  | closePooled h =>
    simp only [Inv, hpc] at hi
    obtain ⟨-, -, -, raw, hd, body, total, hr, -⟩ := hi
    exact hr.told List.prefix_rfl
  | release h =>
    simp only [Inv, hpc] at hi
    obtain ⟨-, -, -, raw, hd, body, total, hr, -⟩ := hi
    exact hr.told List.prefix_rfl
  | drain h p =>
    simp only [Inv, hpc] at hi
    obtain ⟨-, -, -, -, raw, hd, body, out, hr, hp⟩ := hi
    exact hr.told hp.out_prefix
  | closeDrain h => simp [hpc, Pc.ending] at hend
  | done r => simp [hpc, Pc.ending] at hend

theorem told_step (hi : Inv P req s) (ht : ToldFirst P s.wire) (hs : step P s e = some s') :
    ToldFirst P s'.wire := by
  cases hend : s'.pc.ending with
  | false => exact told_of_inv (inv_step hi hs) hend
  | true =>
    obtain ⟨hte, hfo⟩ := ending_step hi hs hend
    exact ht.mono hte hfo

end Step

theorem told_reachable {P : Httparse} {req : ConnectRequest} {s : St}
    (h : (runPooled P req).Reachable s) : ToldFirst P s.wire := by
  have hind : (runPooled P req).Inductive fun s => Inv P req s ∧ ToldFirst P s.wire :=
    { init := by
        intro s hs
        rw [hs]
        exact ⟨inv_start P req, .inl rfl⟩
      step := fun s e s' hi hs => ⟨inv_step hi.1 hs, told_step hi.1 hi.2 hs⟩ }
  exact (hind.reachable h).2

end Pooled

/-! ## Streams with interim responses -/

section Streams
variable {P : Httparse} {req : ConnectRequest} {raw body : Bytes} {hd : Http.Head}
  {heads : List (Bytes × Http.Head)} {w : Wire}

/-- Complete interim heads. -/
def Interims (P : Httparse) (heads : List (Bytes × Http.Head)) : Prop :=
  ∀ i ∈ heads, P.IsHead i.1 i.2 ∧ i.2.interim = true

/-- The first interim head, if there is one, is longer than the head reader
admits. -/
def NonePassable (heads : List (Bytes × Http.Head)) : Prop :=
  ∀ i, heads.head? = some i → MAX_HEADER_BYTES < i.1.length

/-- Over all runs of `run_pooled` on the origin's bytes `S`. -/
def PooledFinalOnly (P : Httparse) (req : ConnectRequest) (hd : Http.Head) (body S : Bytes) : Prop :=
  ∀ s, (Pooled.runPooled P req).Reachable s → s.wire.fromOrigin.flatten <+: S → FinalOnly hd body s.wire

/-- Over all runs of `run_bidi`. -/
def BidiFinalOnly (P : Httparse) (req : ConnectRequest) (hd : Http.Head) (body S : Bytes) : Prop :=
  ∀ s, (Inbound.runBidi P req).Reachable s → s.wire.fromOrigin.flatten <+: S → FinalOnly hd body s.wire

theorem finalOnly_of_told (hh : P.IsHead raw hd) (hint : Interims P heads)
    (hnone : NonePassable heads) (ht : ToldFirst P w)
    (hfed : w.fromOrigin.flatten <+: headBytes heads ++ (raw ++ body)) : FinalOnly hd body w := by
  rcases ht with hte | ⟨h, raw', hd', body', hg, hb, hout⟩
  · exact ⟨⟨hd.status, lossyHeaders hd.fields, []⟩, rfl, rfl, .inl (hte ▸ List.nil_prefix)⟩
  · rw [hb] at hfed
    have hraw' : raw' <+: headBytes heads ++ (raw ++ body) := (List.prefix_append _ _).trans hfed
    cases heads with
    | nil =>
      obtain ⟨rfl, rfl⟩ := Httparse.head_unique hg.isHead hh hraw' (List.prefix_append _ _)
      have hbody : body' <+: body := (List.prefix_append_right_inj raw').1 hfed
      exact ⟨h, hg.status, hg.headers,
        hout.imp_right fun ⟨ds, hds, hpre⟩ => ⟨ds, hds, hpre.trans hbody⟩⟩
    | cons i rest =>
      -- the first head is what the reader gets, and it does not fit
      have hi : i.1 <+: headBytes (i :: rest) ++ (raw ++ body) := by
        simp only [headBytes, List.map_cons, List.flatten_cons, List.append_assoc]
        exact List.prefix_append _ _
      obtain ⟨rfl, -⟩ := Httparse.head_unique hg.isHead (hint i List.mem_cons_self).1 hraw' hi
      have hlong := hnone i rfl
      have hsize := hg.size
      rw [List.length_append] at hsize
      omega

/-- Two frames at the front of the same writes are of the same status. -/
theorem status_of_frame {h h' : ResponseHead} {ws : List EdgeWrite} (hw : Pooled.frame h <+: ws)
    (hw' : Pooled.frame h' <+: ws) : h.status = h'.status := by
  have hpre := List.prefix_of_prefix_length_le hw hw' (Nat.le_of_eq rfl)
  have heq : Pooled.frame h = Pooled.frame h' := hpre.eq_of_length rfl
  simp only [Pooled.frame, writeConnectResponse, Pooled.responseMeta, List.cons.injEq,
    EdgeWrite.message.injEq, Prod.mk.injEq, true_and, and_true] at heq
  exact decimal_inj heq.1

/-- Once the frame of an interim head is out, it is too late. -/
theorem not_finalOnly {i : Http.Head} {lo : Bytes} (hi : i.interim = true) (hf : hd.interim = false)
    (hw : Pooled.frame (Pooled.readAs i lo) <+: w.toEdge) : ¬ FinalOnly hd body w := by
  rintro ⟨h, hst, -, hte | ⟨ds, hds, -⟩⟩
  · have hsame := status_of_frame (hw.trans hte) List.prefix_rfl
    rw [hst] at hsame
    simp only [Http.Head.interim, Pooled.readAs] at hi hf hsame
    rw [hsame, hf] at hi
    cases hi
  · have hsame := status_of_frame hw (hds ▸ List.prefix_append _ _)
    rw [hst] at hsame
    simp only [Http.Head.interim, Pooled.readAs] at hi hf hsame
    rw [hsame, hf] at hi
    cases hi

end Streams

/-! ## Runs that pass an interim head on -/

namespace Pooled

theorem relayed_of_afterLeftover {P : Httparse} {req : ConnectRequest} {s : St} {h : ResponseHead}
    (hi : Inv P req s) (hpc : s.pc = afterLeftover h) :
    ∃ raw hd body out, Relayed P req h s.wire raw hd body out := by
  unfold afterLeftover at hpc
  split at hpc
  · split at hpc
    · simp only [Inv, hpc] at hi
      obtain ⟨-, -, -, raw, hd, body, out, -, hr, -⟩ := hi
      exact ⟨raw, hd, body, out, hr⟩
    · simp only [Inv, hpc] at hi
      obtain ⟨-, -, -, raw, hd, body, -, hr, -⟩ := hi
      exact ⟨raw, hd, body, body, hr⟩
  · simp only [Inv, hpc] at hi
    obtain ⟨-, -, -, -, raw, hd, body, out, hr, -⟩ := hi
    exact ⟨raw, hd, body, out, hr⟩

/-- `run_pooled` can answer the edge with any head that fits. -/
theorem reach_frame {P : Httparse} {raw : Bytes} {hd : Http.Head} (req : ConnectRequest)
    (hh : P.IsHead raw hd) (hm : raw.length ≤ MAX_HEADER_BYTES) :
    ∃ s, (runPooled P req).Reachable s ∧ s.wire.fromOrigin.flatten = raw ∧
      frame (readAs hd []) <+: s.wire.toEdge := by
  obtain ⟨hs, hsz, hfl, hshort⟩ := exists_reads (k := HEAD_BUF) (by decide) raw
  have hne : raw ≠ [] := List.ne_nil_of_length_pos hh.pos
  have hhs : HeadReads raw [] hs := ⟨by rw [hfl, List.append_nil], hshort hne⟩
  have hlen : (List.replicate (bodyLen req) (0 : UInt8)).length = bodyLen req := by simp
  obtain ⟨s, hreach, hpc, hfo, -⟩ := reach_answered hh (by simpa using hm) hsz hhs hlen
  obtain ⟨raw', hd', body, out, hr⟩ := relayed_of_afterLeftover (inv_reachable hreach) hpc
  obtain ⟨ds, hds, -⟩ := hr.toEdge
  exact ⟨s, hreach, by rw [hfo, hfl], hds ▸ List.prefix_append _ _⟩

end Pooled

namespace Inbound

/-- While the edge-to-origin half waits for its first bytes, the other half
moves freely. -/
theorem step_down_alone {P : Httparse} {req : ConnectRequest} {s : St} {down down' : Down} {e : Ev}
    (hpc : s.pc = .bidi (.pump (.read none)) down) (hd : down.step P e = some down') :
    step P req s (.down e) = some { s with
      pc := .bidi (.pump (.read none)) down'
      wire := down.wire s.wire e } := by
  simp only [step, hpc, hd, Option.map_some, joinBidi]

/-- The head reader of `run_bidi` reads a head in any pieces. -/
theorem run_head {P : Httparse} {req : ConnectRequest} {raw : Bytes} {hd : Http.Head}
    (hh : P.IsHead raw hd) (hm : raw.length ≤ MAX_HEADER_BYTES) : ∀ {hs : List Bytes} {buf : Bytes}
    {s : St}, Sized HEAD_BUF hs → hs ≠ [] → buf ++ hs.flatten = raw →
    (buf ++ hs.dropLast.flatten).length < raw.length →
    s.pc = .bidi (.pump (.read none)) (.head buf) →
    ∃ ls s', (runBidi P req).Run s ls s' ∧
      s'.pc = .bidi (.pump (.read none))
        (.respond (Pooled.readAs hd []) (Pooled.frame (Pooled.readAs hd []))) ∧
      s'.wire = { s.wire with fromOrigin := s.wire.fromOrigin ++ hs } := by
  intro hs
  induction hs with
  | nil => exact fun _ h => absurd rfl h
  | cons t hs ih =>
    intro buf s hsz _ hfl hshort hpc
    obtain ⟨ht, hle⟩ := hsz t List.mem_cons_self
    cases hs with
    | nil =>
      have hr : onHeadRead P buf t = .returned ⟨hd.status, lossyHeaders hd.fields, []⟩ :=
        onHeadRead_of_head hh ht (by simpa using hfl) (by simpa using hm)
      have hd' : (Down.head buf).step P (.read t) =
          some (.respond (Pooled.readAs hd []) (Pooled.frame (Pooled.readAs hd []))) := by
        simp only [Down.step, readHttpResponseHead, if_pos hle, hr, Option.map_some]
        rfl
      refine ⟨_, _, .single (step_down_alone hpc hd'), rfl, ?_⟩
      simp only [Down.wire, Wire.gotOrigin, if_neg ht]
    | cons t' hs =>
      have hpre : buf ++ t <+: raw := by
        rw [← hfl]
        exact ⟨(t' :: hs).flatten, by simp⟩
      have hlt : (buf ++ t).length < raw.length := by
        simp only [List.dropLast_cons_cons, List.flatten_cons, List.length_append] at hshort ⊢
        omega
      have hr := onHeadRead_of_lt hh ht hpre hlt hm
      have hd' : (Down.head buf).step P (.read t) = some (.head (buf ++ t)) := by
        simp only [Down.step, readHttpResponseHead, if_pos hle, hr, Option.map_some]
      obtain ⟨ls, s', hrun, hpc', hw⟩ := ih (s := { s with
          pc := .bidi (.pump (.read none)) (.head (buf ++ t))
          wire := Down.wire s.wire (.head buf) (.read t) })
        hsz.tail (by simp) (by simpa using hfl) (by simpa using hshort) rfl
      refine ⟨_, s', .cons (step_down_alone hpc hd') hrun, hpc', ?_⟩
      rw [hw]
      simp [Down.wire, Wire.gotOrigin, ht]

/-- `run_bidi` can answer the edge with any head that fits. -/
theorem reach_frame {P : Httparse} {raw : Bytes} {hd : Http.Head} (req : ConnectRequest)
    (hh : P.IsHead raw hd) (hm : raw.length ≤ MAX_HEADER_BYTES) :
    ∃ s, (runBidi P req).Reachable s ∧ s.wire.fromOrigin.flatten = raw ∧
      Pooled.frame (Pooled.readAs hd []) <+: s.wire.toEdge := by
  obtain ⟨hs, hsz, hfl, hshort⟩ := Pooled.exists_reads (k := HEAD_BUF) (by decide) raw
  have hne : raw ≠ [] := List.ne_nil_of_length_pos hh.pos
  have hs_ne : hs ≠ [] := by
    intro heq
    subst heq
    exact hne (by rw [← hfl, List.flatten_nil])
  obtain ⟨ls, s, hrun, hpc, hw⟩ := run_head (s := bidiStart req) hh hm hsz hs_ne
    (by simpa using hfl) (by simpa using hshort hne) rfl
  have hreach : (runBidi P req).Reachable s := (LTS.Reachable.of_init rfl).run hrun
  have h₁ := hreach.step (step_down_alone (e := .ok) hpc rfl)
  have h₂ := h₁.step (step_down_alone (e := .ok) rfl rfl)
  have h₃ := h₂.step (step_down_alone (e := .ok) rfl rfl)
  refine ⟨_, h₃, ?_, ?_⟩
  · simp [Down.wire, Pooled.frame, writeConnectResponse, hw, bidiStart, hfl]
  · simp [Down.wire, Pooled.frame, writeConnectResponse, hw, bidiStart]

end Inbound

section Streams
variable {P : Httparse} {req : ConnectRequest} {raw body : Bytes} {hd : Http.Head}
  {heads : List (Bytes × Http.Head)}

/-- **A first interim head that fits is passed on**, on both paths. -/
theorem interim_passed_on {i : Bytes × Http.Head} (hf : hd.interim = false)
    (hint : Interims P heads) (hi : heads.head? = some i) (hm : i.1.length ≤ MAX_HEADER_BYTES) :
    ¬ PooledFinalOnly P req hd body (headBytes heads ++ (raw ++ body)) ∧
    ¬ BidiFinalOnly P req hd body (headBytes heads ++ (raw ++ body)) := by
  obtain ⟨rest, rfl⟩ := List.head?_eq_some_iff.1 hi
  obtain ⟨hh, hinterim⟩ := hint i List.mem_cons_self
  have hfront : i.1 <+: headBytes (i :: rest) ++ (raw ++ body) := by
    simp only [headBytes, List.map_cons, List.flatten_cons, List.append_assoc]
    exact List.prefix_append _ _
  constructor
  · intro h
    obtain ⟨s, hreach, hfo, hte⟩ := Pooled.reach_frame req hh hm
    exact not_finalOnly hinterim hf hte (h s hreach (hfo ▸ hfront))
  · intro h
    obtain ⟨s, hreach, hfo, hte⟩ := Inbound.reach_frame req hh hm
    exact not_finalOnly hinterim hf hte (h s hreach (hfo ▸ hfront))

/-- **Only the final response reaches the edge**, over every chunking of
interim heads, a final head and its body, iff no first interim head fits the
head reader: on the pooled path and in `run_bidi`. -/
theorem final_only_iff (hh : P.IsHead raw hd) (hf : hd.interim = false) (hint : Interims P heads) :
    (PooledFinalOnly P req hd body (headBytes heads ++ (raw ++ body)) ↔ NonePassable heads) ∧
    (BidiFinalOnly P req hd body (headBytes heads ++ (raw ++ body)) ↔ NonePassable heads) := by
  refine ⟨⟨fun h i hi => ?_, fun h s hs hfed => ?_⟩, ⟨fun h i hi => ?_, fun h s hs hfed => ?_⟩⟩
  · by_contra hle
    exact (interim_passed_on hf hint hi (Nat.not_lt.1 hle)).1 h
  · exact finalOnly_of_told hh hint h (Pooled.told_reachable hs) hfed
  · by_contra hle
    exact (interim_passed_on hf hint hi (Nat.not_lt.1 hle)).2 h
  · exact finalOnly_of_told hh hint h
      (ToldFirst.of_originToEdge (Inbound.bidi_reachable hs).directions.2) hfed

end Streams

theorem final_only_five :
    (PooledFinalOnly refHttparse Pooled.plainGet Pooled.fiveHead (ascii "hello")
      (headBytes [] ++ (Pooled.fiveRaw ++ ascii "hello")) ↔ NonePassable []) ∧
    (BidiFinalOnly refHttparse Pooled.plainGet Pooled.fiveHead (ascii "hello")
      (headBytes [] ++ (Pooled.fiveRaw ++ ascii "hello")) ↔ NonePassable []) :=
  final_only_iff Pooled.fiveHead_isHead (by decide) (fun _ hi => absurd hi List.not_mem_nil)

def continueRaw : Bytes := ascii "HTTP/1.1 100 Continue\r\n\r\n"

def continueHead : Http.Head := ⟨1, 100, []⟩

theorem continueHead_isHead : refHttparse.IsHead continueRaw continueHead := by
  unfold Httparse.IsHead
  decide

/-- A `100 Continue` in front of a 200 is passed on as the response. -/
theorem continue_passed_on :
    ¬ PooledFinalOnly refHttparse Pooled.plainGet Pooled.fiveHead (ascii "hello")
      (headBytes [(continueRaw, continueHead)] ++ (Pooled.fiveRaw ++ ascii "hello")) ∧
    ¬ BidiFinalOnly refHttparse Pooled.plainGet Pooled.fiveHead (ascii "hello")
      (headBytes [(continueRaw, continueHead)] ++ (Pooled.fiveRaw ++ ascii "hello")) := by
  have hint : Interims refHttparse [(continueRaw, continueHead)] := by
    intro i hi
    rw [List.mem_singleton.1 hi]
    exact ⟨continueHead_isHead, by decide⟩
  exact interim_passed_on (by decide) hint rfl (by decide)

end QuickTunnel.Proxy
