import QuickTunnel.Proxy.Peers
import QuickTunnel.Proxy.PooledRuns

/-!
# What the peers of a stream have to say

`Talk` is what an edge and an origin will send on one stream, and when each
of them is willing to go on. `Talk.Own` are the steps of the three parties
in which nothing fails. As long as a talk is on, every one of these steps
takes something off `Talk.left`, so what a talk comes to is decided by which
steps are possible.

* `Spoken.own`: every step keeps what has been said and takes the measure down.
* `Spoken.edge_speaks`, `Spoken.origin_speaks`: a willing peer can speak.
-/
namespace QuickTunnel.Proxy

open QuickTunnel.Stream

def Ev.faultless : Ev → Bool
  | .fail _ => false
  | _ => true

namespace Inbound

/-- `up` and `down` are what the edge and the origin have to say; the edge
goes on speaking when it has been sent `w` with `edgeMay w`, the origin when
it has been sent `b` with `originMay b`. -/
structure Talk where
  up : Bytes
  down : Bytes
  edgeMay : List EdgeWrite → Prop
  originMay : Bytes → Prop

def Label.faultless : Label → Bool
  | .main e => e.faultless
  | .timeout => false
  | .up e => e.faultless
  | .down e => e.faultless

namespace Talk

/-- The steps in which nothing fails: the stream's own, a peer that says
something more, a peer that has said everything and ends its side. -/
def Own (X : Talk) (s : Sys) : SysLabel → Prop
  | .proxy l => l.faultless = true
  | .edgeSends b => b ≠ [] ∧ X.edgeMay s.st.wire.toEdge ∧ s.heardEdge ++ b <+: X.up
  | .edgeEnds => s.net.edge.fin = false ∧ s.heardEdge = X.up
  | .originSends b => b ≠ [] ∧ X.originMay s.st.wire.toOrigin ∧ s.heardOrigin ++ b <+: X.down
  | .originEnds => s.net.origin.fin = false ∧ s.heardOrigin = X.down

/-- What has been heard is what was to be said, up to some point; and all of
it where the end is there. -/
structure Spoken (X : Talk) (s : Sys) : Prop where
  halves : Halves s.st
  edge : s.heardEdge <+: X.up
  edgeFin : s.net.edge.fin = true → s.heardEdge = X.up
  edgeEof : s.st.wire.edgeEof = true → s.st.wire.fromEdge.flatten = X.up
  origin : s.heardOrigin <+: X.down
  originFin : s.net.origin.fin = true → s.heardOrigin = X.down
  originEof : s.st.wire.originEof = true → s.st.wire.fromOrigin.flatten = X.down

/-- What is still to be said, and then what it takes to pass it on. -/
def left (X : Talk) (s : Sys) : Nat :=
  3 * (X.up.length - s.heardEdge.length + (X.down.length - s.heardOrigin.length)) +
    (if s.net.edge.fin then 0 else 1) + (if s.net.origin.fin then 0 else 1) + budget s

section Own
variable {X : Talk} {P : Httparse} {req : ConnectRequest} {s s' : Sys}

/-- One direction: what is heard after a step that draws what it reads. -/
theorem heard_same {r : Option Bytes} {got got' : List Bytes} {eof eof' : Bool} {q q' : Queue}
    (hh : Heard r got got' eof eof') (hd : Drawn r q q') :
    got'.flatten ++ q'.bytes = got.flatten ++ q.bytes := by
  rw [hh.bytes, hd.bytes, List.append_assoc]

theorem eof_all {r : Option Bytes} {got got' : List Bytes} {eof eof' : Bool} {q q' : Queue}
    {all : Bytes} (hh : Heard r got got' eof eof') (hd : Drawn r q q')
    (hpre : got.flatten ++ q.bytes <+: all) (hfin : q.fin = true → got.flatten ++ q.bytes = all)
    (heof : eof = true → got.flatten = all) (h : eof' = true) : got'.flatten = all := by
  rcases hh.eof h with he | hr
  · have hb : q.bytes = [] := by
      have := hpre.length_le
      rw [← heof he, List.length_append] at this
      exact List.length_eq_zero_iff.mp (by omega)
    have hr : r.getD [] = [] := (List.append_eq_nil_iff.mp (hd.bytes.symm.trans hb)).1
    rw [hh.bytes, hr, List.append_nil, heof he]
  · obtain ⟨hb, hf⟩ := hd.eof hr
    have := hfin hf
    rw [hb, List.append_nil] at this
    rw [hh.bytes, hr, this]
    exact List.append_nil _

theorem Spoken.proxy {l : Label} (hs : X.Spoken s) (h : (sys P req).step s (.proxy l) s') :
    X.Spoken s' ∧ X.left s' < X.left s := by
  have hlt := proxy_spends hs.halves h
  obtain ⟨hst, hw, hde, hdo⟩ := proxy_reads h
  have he : s'.heardEdge = s.heardEdge := heard_same hw.edge hde
  have ho : s'.heardOrigin = s.heardOrigin := heard_same hw.origin hdo
  refine ⟨⟨halves_sys_step hs.halves h, he ▸ hs.edge, ?_, ?_, ho ▸ hs.origin, ?_, ?_⟩, ?_⟩
  · rw [he, hde.fin]
    exact hs.edgeFin
  · exact eof_all hw.edge hde hs.edge hs.edgeFin hs.edgeEof
  · rw [ho, hdo.fin]
    exact hs.originFin
  · exact eof_all hw.origin hdo hs.origin hs.originFin hs.originEof
  · simp only [left, he, ho, hde.fin, hdo.fin]
    omega

theorem push_cases {q q' : Queue} {b : Bytes} (h : q.push b = some q') :
    q.fin = false ∧ q' = { q with bytes := q.bytes ++ b } := by
  unfold Queue.push at h
  split at h
  · cases h
  · rename_i hf
    cases h
    exact ⟨by simpa using hf, rfl⟩

/-- **Nobody goes round in circles.** Every step of the three parties keeps
the talk and takes something off what is left of it. -/
theorem Spoken.own {l : SysLabel} (hs : X.Spoken s) (ho : X.Own s l) (h : (sys P req).step s l s') :
    X.Spoken s' ∧ X.left s' < X.left s := by
  cases l with
  | proxy l => exact hs.proxy h
  | edgeSends b =>
    obtain ⟨hb, -, hpre⟩ := ho
    simp only [sys, LTS.ofFn, Sys.step, Option.map_eq_some_iff] at h
    obtain ⟨q, hq, rfl⟩ := h
    obtain ⟨hf, rfl⟩ := push_cases hq
    have hpos := List.length_pos_iff.mpr hb
    have hle := hpre.length_le
    simp only [Sys.heardEdge, List.length_append] at hle
    refine ⟨⟨hs.halves, ?_, ?_, hs.edgeEof, hs.origin, hs.originFin, hs.originEof⟩, ?_⟩
    · simpa [Sys.heardEdge] using hpre
    · simp [hf]
    · simp only [left, budget, Sys.heardEdge, Sys.heardOrigin, List.length_append]
      omega
  | originSends b =>
    obtain ⟨hb, -, hpre⟩ := ho
    simp only [sys, LTS.ofFn, Sys.step, Option.map_eq_some_iff] at h
    obtain ⟨q, hq, rfl⟩ := h
    obtain ⟨hf, rfl⟩ := push_cases hq
    have hpos := List.length_pos_iff.mpr hb
    have hle := hpre.length_le
    simp only [Sys.heardOrigin, List.length_append] at hle
    refine ⟨⟨hs.halves, hs.edge, hs.edgeFin, hs.edgeEof, ?_, ?_, hs.originEof⟩, ?_⟩
    · simpa [Sys.heardOrigin] using hpre
    · simp [hf]
    · simp only [left, budget, Sys.heardEdge, Sys.heardOrigin, List.length_append]
      omega
  | edgeEnds =>
    obtain ⟨hf, hall⟩ := ho
    cases h
    refine ⟨⟨hs.halves, hs.edge, fun _ => hall, hs.edgeEof, hs.origin, hs.originFin, hs.originEof⟩, ?_⟩
    simp only [left, budget, Sys.heardEdge, Sys.heardOrigin, hf, if_true, Bool.false_eq_true, if_false]
    omega
  | originEnds =>
    obtain ⟨hf, hall⟩ := ho
    cases h
    refine ⟨⟨hs.halves, hs.edge, hs.edgeFin, hs.edgeEof, hs.origin, fun _ => hall, hs.originEof⟩, ?_⟩
    simp only [left, budget, Sys.heardEdge, Sys.heardOrigin, hf, if_true, Bool.false_eq_true, if_false]
    omega

/-- A peer with something left to say, and willing to, can say it. -/
theorem Spoken.edge_speaks (hs : X.Spoken s) (hmay : X.edgeMay s.st.wire.toEdge)
    (hne : s.heardEdge ≠ X.up) : ∃ l s', X.Own s l ∧ (sys P req).step s l s' := by
  obtain ⟨t, ht⟩ := hs.edge
  have ht₀ : t ≠ [] := by
    intro h0
    rw [h0, List.append_nil] at ht
    exact hne ht
  have hf : s.net.edge.fin = false := by
    cases h : s.net.edge.fin with
    | false => rfl
    | true => exact absurd (hs.edgeFin h) hne
  refine ⟨.edgeSends t,
    ⟨s.st, { s.net with edge := { s.net.edge with bytes := s.net.edge.bytes ++ t } }⟩,
    ⟨ht₀, hmay, ht ▸ List.prefix_rfl⟩, ?_⟩
  simp [sys, LTS.ofFn, Sys.step, Queue.push, hf]

theorem Spoken.origin_speaks (hs : X.Spoken s) (hmay : X.originMay s.st.wire.toOrigin)
    (hne : s.heardOrigin ≠ X.down) : ∃ l s', X.Own s l ∧ (sys P req).step s l s' := by
  obtain ⟨t, ht⟩ := hs.origin
  have ht₀ : t ≠ [] := by
    intro h0
    rw [h0, List.append_nil] at ht
    exact hne ht
  have hf : s.net.origin.fin = false := by
    cases h : s.net.origin.fin with
    | false => rfl
    | true => exact absurd (hs.originFin h) hne
  refine ⟨.originSends t,
    ⟨s.st, { s.net with origin := { s.net.origin with bytes := s.net.origin.bytes ++ t } }⟩,
    ⟨ht₀, hmay, ht ▸ List.prefix_rfl⟩, ?_⟩
  simp [sys, LTS.ofFn, Sys.step, Queue.push, hf]

theorem spoken_start (X : Talk) (req : ConnectRequest) : X.Spoken ⟨start req, {}⟩ :=
  ⟨halves_start req, List.nil_prefix, by simp, by simp [start], List.nil_prefix, by simp, by simp [start]⟩

end Own
end Talk

/-! ## Steps that need no case analysis -/

section Plain
variable {P : Httparse} {req : ConnectRequest}

/-- A step of a peer leaves the stream alone. -/
theorem peer_st {s s' : Sys} {l : SysLabel} (hl : l.isProxy = false) (h : (sys P req).step s l s') :
    s'.st = s.st := by
  cases l with
  | proxy l => cases hl
  | edgeSends b =>
    simp only [sys, LTS.ofFn, Sys.step, Option.map_eq_some_iff] at h
    obtain ⟨q, -, rfl⟩ := h
    rfl
  | originSends b =>
    simp only [sys, LTS.ofFn, Sys.step, Option.map_eq_some_iff] at h
    obtain ⟨q, -, rfl⟩ := h
    rfl
  | edgeEnds => cases h; rfl
  | originEnds => cases h; rfl

/-- Awaits that return nothing but `Ok(())` or an error. -/
def Pc.isPlain : Pc → Bool
  | .acquire => true
  | .writeHead => true
  | .connect => true
  | .closeBidi => true
  | _ => false

/-- There a step in which nothing fails is `Ok(())`. -/
theorem plain_ok {s s' : St} {l : Label} (hp : s.pc.isPlain = true) (hl : l.faultless = true)
    (h : Inbound.step P req s l = some s') : l = .main .ok := by
  cases l with
  | main e =>
    cases e with
    | ok => rfl
    | fail msg => cases hl
    | read b => cases hpc : s.pc <;> simp [Inbound.step, hpc, Pc.isPlain] at h hp
  | timeout => cases hl
  | up e => cases hpc : s.pc <;> simp [Inbound.step, hpc, Pc.isPlain] at h hp
  | down e => cases hpc : s.pc <;> simp [Inbound.step, hpc, Pc.isPlain] at h hp

/-- And it is possible. -/
theorem plain_moves {X : Talk} {s : Sys} (hp : s.st.pc.isPlain = true) :
    ∃ l s', X.Own s l ∧ (sys P req).step s l s' := by
  cases hpc : s.st.pc <;> simp [hpc, Pc.isPlain] at hp <;>
    exact ⟨.proxy (.main .ok), ⟨_, s.net⟩, rfl,
      by simp only [sys, LTS.ofFn, Sys.step, Inbound.step, hpc, Net.take]; rfl⟩

end Plain

/-- A head read off bytes that begin with the head `hd` is that head. -/
theorem gotHead_of_stream {P : Httparse} {h : ResponseHead} {raw raw' body content said : Bytes}
    {hd hd' : Http.Head} (hg : GotHead P h raw' hd') (hh : P.IsHead raw hd) (hsaid : said = raw' ++ body)
    (hpre : said <+: raw ++ content) :
    raw' = raw ∧ h.status = hd.status ∧ h.headers = lossyHeaders hd.fields := by
  obtain ⟨rfl, rfl⟩ := Httparse.head_unique hg.isHead hh
    ((List.prefix_append _ _).trans (hsaid ▸ hpre)) (List.prefix_append _ _)
  exact ⟨rfl, hg.status, hg.headers⟩

/-- The frame is made from the head alone. -/
theorem frame_of_head {h : ResponseHead} {hd : Http.Head} (hs : h.status = hd.status)
    (hf : h.headers = lossyHeaders hd.fields) : Pooled.frame h = Pooled.frame (Pooled.readAs hd []) := by
  simp [Pooled.frame, Pooled.responseMeta, Pooled.readAs, hs, hf]

/-- A buffer the parser had asked to extend ends inside the head. -/
theorem buf_in_head {P : Httparse} {raw content buf : Bytes} {hd : Http.Head} (hh : P.IsHead raw hd)
    (hbuf : buf = [] ∨ P.parse buf = .incomplete ∧ buf.length ≤ MAX_HEADER_BYTES)
    (hpre : buf <+: raw ++ content) : buf.length < raw.length := by
  rcases hbuf with rfl | ⟨hp, -⟩
  · exact hh.pos
  · by_contra hge
    have := Httparse.parse_of_prefix hh (List.prefix_append _ _) hpre
    rw [if_pos (by omega), hp] at this
    cases this

/-- A head that leaves room for one read behind it gives the head reader no
occasion to fail. -/
theorem head_usable {P : Httparse} {raw content buf tmp : Bytes} {hd : Http.Head}
    (hh : P.IsHead raw hd) (hfits : raw.length + min content.length 2047 ≤ MAX_HEADER_BYTES)
    (hbuf : buf = [] ∨ P.parse buf = .incomplete ∧ buf.length ≤ MAX_HEADER_BYTES)
    (hle : tmp.length ≤ HEAD_BUF) (hpre : buf ++ tmp <+: raw ++ content) :
    ¬ (MAX_HEADER_BYTES < (buf ++ tmp).length ∨ ∃ msg, P.parse (buf ++ tmp) = .error msg) := by
  have hshort := buf_in_head hh hbuf ((List.prefix_append _ _).trans hpre)
  intro hbad
  rcases hbad with hbig | ⟨msg, hmsg⟩
  · have h₁ := hpre.length_le
    simp only [List.length_append, HEAD_BUF] at *
    omega
  · have hparse := Httparse.parse_of_prefix hh (List.prefix_append _ _) hpre
    rw [hmsg] at hparse
    split at hparse <;> cases hparse

/-- A piece of at most `k` bytes of a queue that holds some. -/
theorem Queue.take_piece {q : Queue} {k : Nat} (hk : 0 < k) (hq : q.bytes ≠ []) :
    ∃ b q', b ≠ [] ∧ b.length ≤ k ∧ q.take b = some q' := by
  have hb : q.bytes.take k ≠ [] := by
    simp [hq]
    omega
  refine ⟨_, { q with bytes := q.bytes.drop (q.bytes.take k).length }, hb, List.length_take_le _ _, ?_⟩
  simp [Queue.take, hb, List.take_prefix]

end Inbound
end QuickTunnel.Proxy
