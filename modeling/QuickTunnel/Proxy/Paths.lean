import QuickTunnel.Proxy.Talk
import QuickTunnel.Proxy.Truncation
import QuickTunnel.Proxy.Delimiting

/-!
# The two ways of an HTTP answer

`run_pooled` copies as many bytes as the head announces, or drains behind a
head that announces none; `run_bidi` copies until the origin's end of file.
Both make one frame from the head.

* `drained_reachable`: a drain that has seen the end of the file has handed
  everything over.
* `handed_of_bidi`: `run_bidi` that returns `Ok` has handed over the whole
  answer.
* `paths_agree`: what the pooled path hands the edge against the plain one.
-/
namespace QuickTunnel.Proxy

open QuickTunnel.Stream

/-- The edge has been handed the head `hd` and `out` behind it, and the end
of the stream. -/
structure Handed (hd : Http.Head) (out : Bytes) (w : Wire) : Prop where
  toEdge : ∃ ds : List Bytes, w.toEdge = Pooled.frame (Pooled.readAs hd []) ++ ds.map .data ∧
    ds.flatten = out
  bytesOut : w.bytesOut = out.length
  edgeClosed : w.edgeClosed = true

namespace Pooled
variable {P : Httparse} {req : ConnectRequest} {s s' : St} {e : Ev}

/-- A drain hands over what it has read, from the front; behind the end of
the file nothing of it is left. -/
def Drained (P : Httparse) (req : ConnectRequest) (s : St) : Prop :=
  match s.pc with
  | .closeDrain _ | .done (.ok _) => s.released = false → ∃ h raw hd body out,
      Relayed P req h s.wire raw hd body out ∧ out <+: body ∧ (s.wire.originEof = true → out = body)
  | _ => True

theorem drained_afterLeftover (s : St) (h : ResponseHead) (w : Wire) :
    Drained P req { s with pc := afterLeftover h, wire := w } := by
  unfold afterLeftover
  split
  · split <;> trivial
  · trivial

theorem drained_drain {h : ResponseHead} {p : Pump} (hpc : s.pc = .drain h p) (hi : Inv P req s)
    (hs : step P s e = some s') : Drained P req s' := by
  simp only [Inv, hpc] at hi
  obtain ⟨-, heof, -, -, raw, hd, body, out, hr, hp⟩ := hi
  simp only [step, hpc, Option.map_eq_some_iff] at hs
  obtain ⟨o, ho, rfl⟩ := hs
  rcases pumpStep_cases ho with ⟨limit, b, rfl, rfl, -, -, rfl⟩ | ⟨rfl, rfl, rfl⟩ |
    ⟨n, rfl, -, -⟩ | ⟨limit, chunk, rfl, rfl, rfl⟩ | ⟨msg, err, rfl, rfl⟩
  · trivial
  · -- the end of the file: the pump holds no chunk
    obtain ⟨-, rfl⟩ := hp.of_read
    exact fun _ => ⟨h, raw, hd, body, body, ⟨⟨hr.1.1, hr.1.2, hr.1.3⟩, hr.got, hr.fromOrigin, hr.reads,
      hr.leftover, hr.toEdge, hr.bytesOut⟩, List.prefix_rfl, fun _ => rfl⟩
  · cases hp.of_read.1
  · obtain ⟨rfl, -⟩ := hp.of_write
    trivial
  · -- a failure is swallowed, but it is not the end of the file
    have hsame : s.wire.down p (.fail msg) = s.wire := by
      cases p <;> rfl
    intro _
    refine ⟨h, raw, hd, body, out, ?_, hp.out_prefix, fun he => ?_⟩
    · show Relayed P req h (s.wire.down p (.fail msg)) raw hd body out
      rw [hsame]
      exact hr
    · have he' : (s.wire.down p (.fail msg)).originEof = true := he
      rw [hsame, heof] at he'
      cases he'

theorem drained_step (hi : Inv P req s) (hd : Drained P req s) (hs : step P s e = some s') :
    Drained P req s' := by
  cases hpc : s.pc with
  | drain h p => exact drained_drain hpc hi hs
  | reqBody p =>
    simp only [step, hpc, Option.map_eq_some_iff] at hs
    obtain ⟨o, -, rfl⟩ := hs
    cases o <;> trivial
  | head buf =>
    simp only [step, hpc, Option.map_eq_some_iff] at hs
    obtain ⟨o, -, rfl⟩ := hs
    cases o <;> trivial
  | respond h rest =>
    cases e with
    | read b => simp [step, hpc] at hs
    | fail msg =>
      simp only [step, hpc, Option.some.injEq] at hs
      subst hs
      trivial
    | ok =>
      cases rest with
      | cons x rest =>
        simp only [step, hpc, Option.some.injEq] at hs
        subst hs
        trivial
      | nil =>
        simp only [step, hpc, Option.some.injEq] at hs
        subst hs
        unfold afterRespond
        split
        · trivial
        · exact drained_afterLeftover s h s.wire
  | leftover h =>
    cases e <;> simp only [step, hpc, Option.some.injEq, reduceCtorEq] at hs <;> subst hs
    · exact drained_afterLeftover s h _
    · trivial
  | respBody h p =>
    simp only [step, hpc, Option.map_eq_some_iff] at hs
    obtain ⟨o, -, rfl⟩ := hs
    cases o <;> trivial
  | closePooled h =>
    cases e <;> simp only [step, hpc, Option.some.injEq, reduceCtorEq] at hs <;> subst hs <;> trivial
  | release h =>
    cases e <;> simp only [step, hpc, Option.some.injEq, reduceCtorEq] at hs
    subst hs
    intro hrel
    cases hrel
  | closeDrain h =>
    simp only [Drained, hpc] at hd
    cases e <;> simp only [step, hpc, Option.some.injEq, reduceCtorEq] at hs <;> subst hs
    · intro hrel
      obtain ⟨h, raw, hd, body, out, hr, hpre, heof⟩ := hd hrel
      exact ⟨h, raw, hd, body, out, ⟨⟨hr.1.1, hr.1.2, hr.1.3⟩, hr.got, hr.fromOrigin, hr.reads, hr.leftover,
        hr.toEdge, hr.bytesOut⟩, hpre, heof⟩
    · trivial
  | done r => simp [step, hpc] at hs

theorem drained_reachable (h : (runPooled P req).Reachable s) : Drained P req s := by
  have hind : (runPooled P req).Inductive fun s => Inv P req s ∧ Drained P req s :=
    { init := by
        intro s hs
        rw [hs]
        refine ⟨inv_start P req, ?_⟩
        unfold start
        cases pumpTop (some (bodyLen req)) <;> trivial
      step := fun s e s' hi hs => ⟨inv_step hi.1 hs, drained_step hi.1 hi.2 hs⟩ }
  exact (hind.reachable h).2

section Answer
variable {raw content raw' body out : Bytes} {hd hd' : Http.Head} {h : ResponseHead} {w : Wire}

/-- A head that announces a length reads the same with any leftover. -/
theorem pooledLength_of_head (hs : h.status = hd.status) (hf : h.headers = lossyHeaders hd.fields) :
    pooledLength h = pooledLength (readAs hd []) := by
  simp only [pooledLength, readAs, hs, hf]

/-- What a run fed by the answer `raw ++ content` has relayed of it. -/
theorem Relayed.of_answer (hr : Relayed P req h w raw' hd' body out) (hh : P.IsHead raw hd)
    (hfed : w.fromOrigin.flatten <+: raw ++ content) :
    body <+: content ∧ pooledLength h = pooledLength (readAs hd []) ∧
      ∃ ds : List Bytes, w.toEdge = frame (readAs hd []) ++ ds.map .data ∧ ds.flatten = out := by
  obtain ⟨rfl, hs, hf⟩ := Inbound.gotHead_of_stream hr.got hh hr.fromOrigin hfed
  rw [hr.fromOrigin, List.prefix_append_right_inj] at hfed
  exact ⟨hfed, pooledLength_of_head hs hf, Inbound.frame_of_head hs hf ▸ hr.toEdge⟩

end Answer

end Pooled

namespace Inbound
variable {P : Httparse} {req : ConnectRequest} {s s' : St}

/-- `run_bidi` returns `Ok` behind the whole answer only. -/
def Whole (P : Httparse) (s : St) : Prop :=
  s.pc = .done (.ok ()) → s.wire.edgeClosed = true ∧ BidiDown P s.wire (.done (.ok ()))

theorem joinBidi_ne_ok (up : Up) (down : Down) : joinBidi up down ≠ .done (.ok ()) := by
  rcases joinBidi_cases up down with ⟨h, -⟩ | ⟨-, u, -, h⟩ | ⟨-, e, -, h⟩ <;> rw [h] <;> nofun

theorem whole_step {l : Label} (hi : BidiInv P req s) (hs : step P req s l = some s') : Whole P s' := by
  intro hok
  cases hpc : s.pc with
  | bidi up down =>
    cases l with
    | main e => simp [step, hpc] at hs
    | timeout => simp [step, hpc] at hs
    | up e =>
      simp only [step, hpc, Option.map_eq_some_iff] at hs
      obtain ⟨up', -, rfl⟩ := hs
      exact absurd hok (joinBidi_ne_ok up' down)
    | down e =>
      simp only [step, hpc, Option.map_eq_some_iff] at hs
      obtain ⟨down', -, rfl⟩ := hs
      exact absurd hok (joinBidi_ne_ok up down')
  | closeBidi =>
    simp only [BidiInv, hpc] at hi
    cases l with
    | main e =>
      simp only [step, hpc] at hs
      cases e <;> cases hs
      · exact ⟨rfl, hi.2.congr ⟨rfl, rfl, rfl, rfl⟩⟩
      · cases hok
    | _ => simp [step, hpc] at hs
  | done r => cases l <;> simp [step, hpc] at hs
  | _ => simp only [BidiInv, hpc] at hi

theorem whole_reachable (h : (runBidi P req).Reachable s) : Whole P s := by
  have hind : (runBidi P req).Inductive fun s => BidiInv P req s ∧ Whole P s :=
    { init := by
        intro s hs
        rw [hs]
        exact ⟨bidiInv_start P req, nofun⟩
      step := fun s l s' hi hs => ⟨bidiInv_step hi.1 hs, whole_step hi.1 hs⟩ }
  exact (hind.reachable h).2

end Inbound

section Paths
variable {P : Httparse} {req : ConnectRequest} {raw content : Bytes} {hd : Http.Head}

theorem handed_of_bidi (hh : P.IsHead raw hd) {s : Inbound.St} (hs : (Inbound.runBidi P req).Reachable s)
    (hok : s.pc = .done (.ok ())) (hfed : Pooled.FedBy (raw ++ content) s.wire) :
    Handed hd content s.wire := by
  obtain ⟨hcl, heof, h, raw', hd', body, hg, hb⟩ := Inbound.whole_reachable hs hok
  obtain ⟨rfl, hst, hf⟩ := Inbound.gotHead_of_stream hg hh hb.fromOrigin hfed.prefixed
  have hbody : body = content := by
    have := hfed.eof heof
    rw [hb.fromOrigin] at this
    exact List.append_cancel_left this
  subst hbody
  exact ⟨Inbound.frame_of_head hst hf ▸ hb.toEdge, hb.bytesOut, hcl⟩

/-- Of what `run_pooled` has handed over when it returns `Ok`: at least the
announced length, or, behind a head that announces none to it, everything up
to an end of the file that it has seen. -/
theorem handed_of_pooled (hh : P.IsHead raw hd) {s : Pooled.St} (hs : (Pooled.runPooled P req).Reachable s)
    (hok : s.pc = .done (.ok ())) (hfed : Pooled.FedBy (raw ++ content) s.wire) :
    ∃ out, Handed hd out s.wire ∧ out <+: content ∧
      (s.released = true → ∃ n, Pooled.pooledLength (Pooled.readAs hd []) = some n ∧ n ≤ out.length) ∧
      (s.released = false → Pooled.pooledLength (Pooled.readAs hd []) = none ∧
        (s.wire.originEof = true → out = content)) := by
  have hi := Pooled.inv_reachable hs
  have hdr := Pooled.drained_reachable hs
  simp only [Pooled.Inv, Pooled.Drained, hok] at hi hdr
  obtain ⟨hcl, h, ⟨hrel, -, raw', hd', body, total, hr, hl, hlen⟩ | ⟨hrel, hl, raw', hd', body', out', hr'⟩⟩ := hi
  · obtain ⟨hpre, hlen', hte⟩ := hr.of_answer hh hfed.prefixed
    refine ⟨body, ⟨hte, hr.bytesOut, hcl⟩, hpre, fun _ => ⟨total, hlen' ▸ hl, by omega⟩, fun h0 => ?_⟩
    rw [hrel] at h0
    cases h0
  · obtain ⟨h₁, raw₁, hd₁, body, out, hr, hout, heof⟩ := hdr hrel
    obtain ⟨-, hlen', -⟩ := hr'.of_answer hh hfed.prefixed
    obtain ⟨hpre, -, hte⟩ := hr.of_answer hh hfed.prefixed
    refine ⟨out, ⟨hte, hr.bytesOut, hcl⟩, hout.trans hpre, fun h0 => ?_, fun _ => ⟨hlen' ▸ hl, fun he => ?_⟩⟩
    · rw [hrel] at h0
      cases h0
    · -- the whole answer has been read, and all of it handed over
      obtain ⟨rfl, -, -⟩ := Inbound.gotHead_of_stream hr.got hh hr.fromOrigin hfed.prefixed
      have hbody : body = content := by
        have hall := hfed.eof he
        rw [hr.fromOrigin] at hall
        exact List.append_cancel_left hall
      rw [heof he, hbody]

/-- **The pooled path agrees with the plain one.** Whatever an origin
answers, and however the two paths read it: where both return `Ok`,
`run_bidi` has handed the edge the whole answer, and `run_pooled` the same
frame and the front of the same body; all of it if the origin sends as much
as its head announces, or if the drain has come to the end of the file. -/
theorem paths_agree (hh : P.IsHead raw hd)
    {p : Pooled.St} (hp : (Pooled.runPooled P req).Reachable p) (hpok : p.pc = .done (.ok ()))
    (hpfed : Pooled.FedBy (raw ++ content) p.wire)
    {b : Inbound.St} (hb : (Inbound.runBidi P req).Reachable b) (hbok : b.pc = .done (.ok ()))
    (hbfed : Pooled.FedBy (raw ++ content) b.wire) :
    Handed hd content b.wire ∧ ∃ out, Handed hd out p.wire ∧ out <+: content ∧
      (∀ n, Pooled.pooledLength (Pooled.readAs hd []) = some n →
        p.released = true ∧ n ≤ content.length ∧ (content.length = n → out = content)) ∧
      (Pooled.pooledLength (Pooled.readAs hd []) = none →
        p.released = false ∧ (p.wire.originEof = true → out = content)) := by
  refine ⟨handed_of_bidi hh hb hbok hbfed, ?_⟩
  obtain ⟨out, hout, hpre, hrel, hdr⟩ := handed_of_pooled hh hp hpok hpfed
  refine ⟨out, hout, hpre, ?_⟩
  cases hr : p.released with
  | true =>
    obtain ⟨n, hn, hle⟩ := hrel hr
    have hlen := hpre.length_le
    refine ⟨fun m hm => ?_, fun h0 => ?_⟩
    · rw [hn, Option.some.injEq] at hm
      subst hm
      exact ⟨rfl, by omega, fun heq => hpre.eq_of_length_le (by omega)⟩
    · rw [hn] at h0
      cases h0
  | false =>
    obtain ⟨hn, hall⟩ := hdr hr
    refine ⟨fun m hm => ?_, fun _ => ⟨rfl, hall⟩⟩
    rw [hn] at hm
    cases hm

/-- `run_bidi` has returned `Ok`. -/
def relayedOk (s : Inbound.St) : Bool :=
  match s.pc with
  | .done (.ok _) => true
  | _ => false

theorem pc_of_relayedOk {s : Inbound.St} (h : relayedOk s = true) : s.pc = .done (.ok ()) := by
  unfold relayedOk at h
  split at h
  · assumption
  · cases h

/-- A run of `run_pooled` that reads the whole answer. -/
theorem pooled_of_exec (raw : Bytes) (eof : Bool) (ls : List Ev)
    (h : (LTS.exec (Pooled.step refHttparse) (Pooled.start Pooled.plainGet) ls).any (fun s =>
      s.closedOk && s.wire.originEof == eof && s.wire.fromOrigin.flatten == raw ++ ascii "hello") = true) :
    ∃ p, (Pooled.runPooled refHttparse Pooled.plainGet).Reachable p ∧ p.pc = .done (.ok ()) ∧
      p.wire.originEof = eof ∧ Pooled.FedBy (raw ++ ascii "hello") p.wire := by
  obtain ⟨p, hp, hq⟩ := (Option.any_eq_true _ _).mp h
  simp only [Bool.and_eq_true, beq_iff_eq, Pooled.St.closedOk_iff] at hq
  obtain ⟨⟨⟨hpc, -⟩, heof⟩, hall⟩ := hq
  exact ⟨p, LTS.reachable_of_exec _ _ _ hp, hpc, heof, ⟨hall ▸ List.prefix_rfl, fun _ => hall⟩⟩

/-- The run of `run_bidi` that reads it in one piece. -/
def relayed (raw : Bytes) : List Inbound.Label :=
  [.down (.read (raw ++ ascii "hello")), .down .ok, .up (.read []), .down .ok, .down .ok, .up .ok,
    .down .ok, .down .ok, .down (.read []), .main .ok]

theorem bidi_of_exec (raw : Bytes)
    (h : (LTS.exec (Inbound.step refHttparse Pooled.plainGet) (Inbound.bidiStart Pooled.plainGet)
      (relayed raw)).any (fun s => relayedOk s && s.wire.fromOrigin.flatten == raw ++ ascii "hello") = true) :
    ∃ b, (Inbound.runBidi refHttparse Pooled.plainGet).Reachable b ∧ b.pc = .done (.ok ()) ∧
      Pooled.FedBy (raw ++ ascii "hello") b.wire := by
  obtain ⟨b, hb, hq⟩ := (Option.any_eq_true _ _).mp h
  simp only [Bool.and_eq_true, beq_iff_eq] at hq
  obtain ⟨hok, hall⟩ := hq
  exact ⟨b, LTS.reachable_of_exec _ _ _ hb, pc_of_relayedOk hok, ⟨hall ▸ List.prefix_rfl, fun _ => hall⟩⟩

/-- Both paths have returned `Ok` and handed over `hello` behind the head. -/
def HandHello (hd : Http.Head) (eof : Bool) : Prop :=
  ∃ p b, (Pooled.runPooled refHttparse Pooled.plainGet).Reachable p ∧
    (Inbound.runBidi refHttparse Pooled.plainGet).Reachable b ∧ p.wire.originEof = eof ∧
    Handed hd (ascii "hello") b.wire ∧ Handed hd (ascii "hello") p.wire

/-- The five bytes on both paths: the counted copy leaves the connection
open, and the drain and the plain path read to its end. -/
theorem paths_agree_hello : HandHello Pooled.fiveHead false ∧ HandHello closingHead true := by
  constructor
  · obtain ⟨p, hp, hpok, hopen, hpfed⟩ := pooled_of_exec Pooled.fiveRaw false
      [.read (Pooled.fiveRaw ++ ascii "he"), .ok, .ok, .ok, .ok, .ok, .read (ascii "llo"), .ok, .ok, .ok]
      (by decide)
    obtain ⟨b, hb, hbok, hbfed⟩ := bidi_of_exec Pooled.fiveRaw (by decide)
    obtain ⟨hplain, out, hout, -, hlen, -⟩ := paths_agree Pooled.fiveHead_isHead hp hpok hpfed hb hbok hbfed
    obtain rfl : out = ascii "hello" := (hlen 5 (by decide)).2.2 (by decide)
    exact ⟨p, b, hp, hb, hopen, hplain, hout⟩
  · obtain ⟨p, hp, hpok, heof, hpfed⟩ := pooled_of_exec closingRaw true
      [.read (closingRaw ++ ascii "he"), .ok, .ok, .ok, .ok, .ok, .read (ascii "llo"), .ok, .read [], .ok]
      (by decide)
    obtain ⟨b, hb, hbok, hbfed⟩ := bidi_of_exec closingRaw (by decide)
    obtain ⟨hplain, out, hout, -, -, hdrain⟩ := paths_agree closingHead_isHead hp hpok hpfed hb hbok hbfed
    obtain rfl : out = ascii "hello" := (hdrain (by decide)).2 heof
    exact ⟨p, b, hp, hb, heof, hplain, hout⟩

end Paths

end QuickTunnel.Proxy
