import QuickTunnel.Proxy.Talk
import QuickTunnel.Proxy.Delimiting

/-!
# A keep-alive exchange completes

The invariants of `run_pooled` say what an exchange has done once it is
over; here it is shown to come about. The edge holds a body of the announced
length, the origin answers a complete request with one head and the body it
announces, and nothing fails. Then, however the three parties interleave and
wherever the bytes are cut, the stream comes to `pool.release` with every
byte passed on in both directions (`exchange_served`).

The origin may begin its answer at any time, at the latest with the whole
request, and both peers may end their sides behind their last byte.
-/
namespace QuickTunnel.Proxy.Inbound

open QuickTunnel.Stream
open Pooled (readAs bodyLen pooledLength)

/-- A request of the pooled path with its body, and the answer to it. -/
structure Exchange (P : Httparse) (req : ConnectRequest) where
  body : Bytes
  raw : Bytes
  hd : Http.Head
  content : Bytes
  edgeMay : List EdgeWrite → Prop
  originMay : Bytes → Prop
  http : req.connType ≠ .tcp
  pooled : (analyseRequest req).requestPoolable = true
  length : body.length = bodyLen req
  isHead : P.IsHead raw hd
  announced : (responseShape hd).contentLength = some content.length
  keeps : (responseShape hd).responsePoolable = true
  /-- The last read of the head phase may bring 2047 bytes of the body. -/
  fits : raw.length + min content.length 2047 ≤ MAX_HEADER_BYTES
  asks : edgeMay []
  answers : originMay (buildRequestHead req true ++ body)

namespace Exchange

variable {P : Httparse} {req : ConnectRequest} (X : Exchange P req)

def talk : Talk := ⟨X.body, X.raw ++ X.content, X.edgeMay, X.originMay⟩

/-- The exchange is over: each side has been sent all it was to be sent, the
socket is back in the pool, and nothing of the answer is left on it. -/
structure Served (s : Sys) : Prop where
  returned : s.st.pc = .done (.ok ())
  released : s.st.released = true
  toOrigin : s.st.wire.toOrigin = buildRequestHead req true ++ X.body
  toEdge : ∃ ds : List Bytes, s.st.wire.toEdge = Pooled.frame (readAs X.hd []) ++ ds.map .data ∧
    ds.flatten = X.content
  edgeClosed : s.st.wire.edgeClosed = true
  bytesIn : s.st.wire.bytesIn = X.body.length
  bytesOut : s.st.wire.bytesOut = X.content.length
  fromOrigin : s.st.wire.fromOrigin.flatten = X.raw ++ X.content

/-- The exchange is on its way. -/
structure Serving (s : Sys) : Prop where
  spoken : X.talk.Spoken s
  at_pc : match s.st.pc with
    | .acquire | .writeHead => s.st.wire = {} ∧ s.st.released = false
    | .pooled pc => Pooled.Inv P req ⟨pc, s.st.wire, s.st.released⟩ ∧ ∀ r, pc ≠ .done r
    | _ => False

section Reply
variable {X} {w : Wire} {h : ResponseHead}

theorem pooledLength_eq (hs : h.status = X.hd.status) (hf : h.headers = lossyHeaders X.hd.fields) :
    pooledLength h = some X.content.length := by
  have hshape : analyseResponse h.status h.headers = responseShape X.hd := by
    rw [hs, hf, responseShape]
  simp [pooledLength, hshape, X.announced, X.keeps]

/-- What a released socket has carried. -/
theorem finished_eq (hfin : Pooled.Finished P req h w)
    (hpre : w.fromOrigin.flatten <+: X.raw ++ X.content) :
    w.fromOrigin.flatten = X.raw ++ X.content ∧ w.bytesOut = X.content.length ∧
      ∃ ds : List Bytes, w.toEdge = Pooled.frame (readAs X.hd []) ++ ds.map .data ∧
        ds.flatten = X.content := by
  obtain ⟨raw, hd, body, total, hr, hl, hlen⟩ := hfin
  obtain ⟨rfl, hs, hf⟩ := gotHead_of_stream hr.got X.isHead hr.fromOrigin hpre
  rw [pooledLength_eq hs hf, Option.some.injEq] at hl
  have hle := hpre
  rw [hr.fromOrigin, List.prefix_append_right_inj] at hle
  have hbody : body = X.content := hle.eq_of_length_le (by omega)
  obtain ⟨ds, hds, hfl⟩ := hr.toEdge
  subst hbody
  exact ⟨hr.fromOrigin, hr.bytesOut, ds, frame_of_head hs hf ▸ hds, hfl⟩

end Reply

/-! ## Nothing fails by itself -/

/-- Where no await fails, `run_pooled` fails only at an end of file that
comes too early, or on a head it cannot use. -/
inductive Spoilt (P : Httparse) : Pooled.Pc → Ev → Prop
  | reqBody (n : Nat) : Spoilt P (.reqBody (.read (some n))) (.read [])
  | head {buf tmp : Bytes} : tmp.length ≤ HEAD_BUF →
      (tmp = [] ∨ MAX_HEADER_BYTES < (buf ++ tmp).length ∨ ∃ msg, P.parse (buf ++ tmp) = .error msg) →
      Spoilt P (.head buf) (.read tmp)
  | respBody (h : ResponseHead) (n : Nat) : Spoilt P (.respBody h (.read (some n))) (.read [])

theorem spoilt_of_failed {s t : Pooled.St} {e : Ev} {err : TunnelError}
    (hs : Pooled.step P s e = some t) (he : e.faultless = true) (ht : t.pc = .done (.error err)) :
    Spoilt P s.pc e := by
  cases hpc : s.pc with
  | reqBody p =>
    simp only [Pooled.step, hpc, Option.map_eq_some_iff] at hs
    obtain ⟨o, ho, rfl⟩ := hs
    rcases pumpStep_cases ho with ⟨limit, b, -, -, -, -, rfl⟩ | ⟨-, -, rfl⟩ | ⟨n, rfl, rfl, -⟩ |
      ⟨limit, chunk, -, -, rfl⟩ | ⟨msg, err', rfl, -⟩
    · cases ht
    · cases ht
    · exact .reqBody n
    · rcases pumpTop_cases (limit.map (· - chunk.length)) with ⟨-, h⟩ | ⟨-, h⟩ <;> rw [h] at ht <;> cases ht
    · cases he
  | head buf =>
    simp only [Pooled.step, hpc, Option.map_eq_some_iff] at hs
    obtain ⟨o, ho, rfl⟩ := hs
    have hle : ∀ tmp, e = .read tmp → tmp.length ≤ HEAD_BUF := by
      intro tmp heq
      subst heq
      simp only [readHttpResponseHead] at ho
      split at ho
      · assumption
      · cases ho
    rcases readHead_cases ho with ⟨err', -, ⟨msg, rfl⟩ | rfl | ⟨tmp, rfl, -, hbad⟩⟩ |
      ⟨tmp, -, -, rfl, -⟩ | ⟨tmp, r, raw, hd, -, -, rfl, -⟩
    · cases he
    · exact .head (by simp) (.inl rfl)
    · exact .head (hle tmp rfl) (.inr hbad)
    · cases ht
    · cases ht
  | respBody h p =>
    simp only [Pooled.step, hpc, Option.map_eq_some_iff] at hs
    obtain ⟨o, ho, rfl⟩ := hs
    rcases pumpStep_cases ho with ⟨limit, b, -, -, -, -, rfl⟩ | ⟨-, -, rfl⟩ | ⟨n, rfl, rfl, -⟩ |
      ⟨limit, chunk, -, -, rfl⟩ | ⟨msg, err', rfl, -⟩
    · cases ht
    · cases ht
    · exact .respBody h n
    · rcases pumpTop_cases (limit.map (· - chunk.length)) with ⟨-, h⟩ | ⟨-, h⟩ <;> rw [h] at ht <;> cases ht
    · cases he
  | respond h rest =>
    cases e with
    | ok =>
      cases rest <;> simp only [Pooled.step, hpc, Option.some.injEq] at hs <;> subst hs
      · exact absurd ht (Pooled.afterRespond_ne_done h _)
      · cases ht
    | read b => simp [Pooled.step, hpc] at hs
    | fail msg => cases he
  | leftover h =>
    cases e with
    | ok =>
      simp only [Pooled.step, hpc, Option.some.injEq] at hs
      subst hs
      exact absurd ht (Pooled.afterLeftover_ne_done h _)
    | read b => simp [Pooled.step, hpc] at hs
    | fail msg => cases he
  | drain h p =>
    simp only [Pooled.step, hpc, Option.map_eq_some_iff] at hs
    obtain ⟨o, -, rfl⟩ := hs
    cases o <;> cases ht
  | done r => simp [Pooled.step, hpc] at hs
  | _ =>
    cases e with
    | ok =>
      simp only [Pooled.step, hpc, Option.some.injEq] at hs
      subst hs
      cases ht
    | read b => simp [Pooled.step, hpc] at hs
    | fail msg => cases he

section Steps
variable {X} {s s' : Sys} {pc : Pooled.Pc} {e : Ev}

/-- The request is out, so the origin will answer. -/
theorem requested_all {w : Wire} (hr : Pooled.Requested req w) (hpre : w.fromEdge.flatten <+: X.body) :
    w.fromEdge.flatten = X.body ∧ w.toOrigin = buildRequestHead req true ++ X.body := by
  have hlen : X.body.length ≤ w.fromEdge.flatten.length := by
    rw [hr.length, X.length]
  have heq := hpre.eq_of_length_le hlen
  exact ⟨heq, heq ▸ hr.toOrigin⟩

/-- An exchange gives no occasion to fail. -/
theorem not_spoilt (hs : X.talk.Spoken s) (hpc : s.st.pc = .pooled pc)
    (hi : Pooled.Inv P req ⟨pc, s.st.wire, s.st.released⟩)
    (hde : Drawn (readEdge s.st.pc (.main e)) s.net.edge s'.net.edge)
    (hdo : Drawn (readOrigin s.st.pc (.main e)) s.net.origin s'.net.origin) : ¬ Spoilt P pc e := by
  intro hsp
  have hfe : s.st.wire.fromEdge.flatten <+: X.body := (List.prefix_append _ _).trans hs.edge
  have hfo : s.st.wire.fromOrigin.flatten <+: X.raw ++ X.content :=
    (List.prefix_append _ _).trans hs.origin
  -- a read of nothing finds everything said
  have hall : readOrigin s.st.pc (.main e) = some [] →
      s.st.wire.fromOrigin.flatten = X.raw ++ X.content := by
    intro hr
    obtain ⟨hb, hf⟩ := hdo.eof hr
    have := hs.originFin hf
    rwa [Sys.heardOrigin, hb, List.append_nil] at this
  rw [hpc] at hde hdo hall
  cases hsp with
  | reqBody n =>
    obtain ⟨-, -, sent, -, hlt, -, hp⟩ := hi
    obtain ⟨hb, hf⟩ := hde.eof rfl
    have hsaid := hs.edgeFin hf
    rw [Sys.heardEdge, hb, List.append_nil, hp.of_read.2] at hsaid
    rw [hsaid] at hlt
    exact absurd X.length (Nat.ne_of_lt hlt)
  | @head buf tmp hle hbad =>
    obtain ⟨-, -, hflat, -, -, -, -, hbuf⟩ := hi
    simp only at hflat
    have hheard : buf ++ tmp <+: X.raw ++ X.content := by
      have h₁ := hs.origin
      rw [Sys.heardOrigin, hflat, hdo.bytes, ← List.append_assoc] at h₁
      exact (List.prefix_append _ _).trans h₁
    rcases hbad with rfl | hbad
    · have h₁ := hall rfl
      have h₂ := buf_in_head X.isHead hbuf ((List.prefix_append _ _).trans hheard)
      rw [hflat] at h₁
      rw [h₁, List.length_append] at h₂
      omega
    · exact head_usable X.isHead X.fits hbuf hle hheard hbad
  | respBody h n =>
    obtain ⟨-, -, -, raw, hd, body, out, total, hr, hl, hlt, hp⟩ := hi
    obtain ⟨rfl, hst, hf⟩ := gotHead_of_stream hr.got X.isHead hr.fromOrigin hfo
    rw [pooledLength_eq hst hf, Option.some.injEq] at hl
    have h₁ := hall rfl
    rw [hr.fromOrigin] at h₁
    have h₂ := List.append_cancel_left h₁
    rw [← hp.of_read.2, h₂] at hlt
    omega

/-- A step of `run_pooled` in an exchange. -/
theorem serving_pooled (hs : X.Serving s) (hpc : s.st.pc = .pooled pc) (he : e.faultless = true)
    (h : (sys P req).step s (.proxy (.main e)) s') : X.Served s' ∨ X.Serving s' := by
  obtain ⟨hst, -, hde, hdo⟩ := proxy_reads h
  have hspoken := (hs.spoken.proxy h).1
  have hat := hs.at_pc
  simp only [hpc] at hat
  simp only [Inbound.step, hpc, Option.map_eq_some_iff] at hst
  obtain ⟨t, ht, hst⟩ := hst
  have hi := Pooled.inv_step hat.1 ht
  have hw : s'.st.wire = t.wire := by rw [← hst]; rfl
  have hrel : s'.st.released = t.released := by rw [← hst]; rfl
  have hfo : s'.st.wire.fromOrigin.flatten <+: X.raw ++ X.content :=
    (List.prefix_append _ _).trans hspoken.origin
  rcases ofPooled_cases s.st t with ⟨r, hr, hof⟩ | ⟨hno, hof⟩
  · cases r with
    | error err =>
      exact absurd (spoilt_of_failed ht he hr) (not_spoilt hs.spoken hpc hat.1 hde hdo)
    | ok u =>
      left
      simp only [Pooled.Inv, hr] at hi
      obtain ⟨hcl, h, ⟨hrelt, -, hfin⟩ | ⟨-, hnone, raw, hd, body, out, hrel'⟩⟩ := hi
      · have hreq : Pooled.Requested req t.wire := by
          obtain ⟨raw, hd, body, total, hr', -⟩ := hfin
          exact hr'.requested
        have hfe : s'.st.wire.fromEdge.flatten <+: X.body := (List.prefix_append _ _).trans hspoken.edge
        have hup := requested_all hreq (hw ▸ hfe)
        obtain ⟨hall, hout, hte⟩ := finished_eq hfin (hw ▸ hfo)
        refine ⟨by rw [← hst, hof], hrel.trans hrelt, ?_, ?_, ?_, ?_, ?_, ?_⟩
        · rw [hw, hup.2]
        · rw [hw]
          exact hte
        · rw [hw, hcl]
        · rw [hw, hreq.bytesIn, X.length]
        · rw [hw, hout]
        · rw [hw, hall]
      · obtain ⟨-, hs', hf'⟩ := gotHead_of_stream hrel'.got X.isHead hrel'.fromOrigin (hw ▸ hfo)
        rw [pooledLength_eq hs' hf'] at hnone
        cases hnone
  · refine .inr ⟨hspoken, ?_⟩
    rw [← hst, hof]
    exact ⟨hi, hno⟩

/-- Every step of the three parties keeps an exchange on its way, or ends it. -/
theorem serving_own {l : SysLabel} (hs : X.Serving s) (ho : X.talk.Own s l)
    (h : (sys P req).step s l s') : X.Served s' ∨ X.Serving s' := by
  have hspoken := (hs.spoken.own ho h).1
  have hat := hs.at_pc
  have hpeer : s'.st = s.st → X.Served s' ∨ X.Serving s' := by
    intro hst
    refine .inr ⟨hspoken, ?_⟩
    rw [hst]
    exact hat
  cases l with
  | proxy l =>
    have hfine : l.faultless = true := ho
    obtain ⟨hst, -, -, -⟩ := proxy_reads h
    cases hpc : s.st.pc with
    | acquire =>
      simp only [hpc] at hat
      obtain rfl := plain_ok (by rw [hpc]; rfl) hfine hst
      simp only [Inbound.step, hpc, Option.some.injEq] at hst
      refine .inr ⟨hspoken, ?_⟩
      rw [← hst]
      exact hat
    | writeHead =>
      simp only [hpc] at hat
      obtain rfl := plain_ok (by rw [hpc]; rfl) hfine hst
      simp only [Inbound.step, hpc, Option.some.injEq] at hst
      refine .inr ⟨hspoken, ?_⟩
      rw [← hst]
      simp only [afterHead, X.pooled, if_true, hat.1, hat.2, List.nil_append]
      refine ⟨Pooled.inv_start P req, fun r => ?_⟩
      unfold Pooled.start
      rcases pumpTop_cases (some (bodyLen req)) with ⟨-, hp⟩ | ⟨-, hp⟩ <;> simp [hp]
    | pooled pc =>
      cases l with
      | main e => exact serving_pooled hs hpc hfine h
      | timeout => cases hfine
      | up e => simp [Inbound.step, hpc] at hst
      | down e => simp [Inbound.step, hpc] at hst
    | _ => simp only [hpc] at hat
  | _ => exact hpeer (peer_st rfl h)

/-! ## Somebody can always move -/

theorem proxy_moves {t : Pooled.St} (hpc : s.st.pc = .pooled pc) (he : e.got = none)
    (ht : Pooled.step P ⟨pc, s.st.wire, s.st.released⟩ e = some t) :
    (sys P req).step s (.proxy (.main e)) ⟨ofPooled s.st t, s.net⟩ := by
  have htake : s.net.take s.st.pc (.main e) = some s.net := by
    cases e with
    | read b => cases he
    | _ => rw [hpc]; cases pc <;> rfl
  simp [sys, LTS.ofFn, Sys.step, Inbound.step, hpc, ht]
  rw [← hpc, htake]

/-- At a step that reads nothing. -/
theorem moves_ok {t : Pooled.St} (hpc : s.st.pc = .pooled pc)
    (ht : Pooled.step P ⟨pc, s.st.wire, s.st.released⟩ .ok = some t) :
    ∃ l s', X.talk.Own s l ∧ (sys P req).step s l s' :=
  ⟨.proxy (.main .ok), _, rfl, proxy_moves hpc rfl ht⟩

/-- At a read from the edge with bytes in the queue. -/
theorem moves_edge {n : Nat} (hpc : s.st.pc = .pooled (.reqBody (.read (some n)))) (hn : n ≠ 0)
    (hq : s.net.edge.bytes ≠ []) : ∃ l s', X.talk.Own s l ∧ (sys P req).step s l s' := by
  have hk : 0 < want (some n) := Nat.lt_min.mpr ⟨by decide, Nat.pos_of_ne_zero hn⟩
  obtain ⟨b, q, hb, hle, htake⟩ := Queue.take_piece hk hq
  have ht : ∃ t, Pooled.step P ⟨.reqBody (.read (some n)), s.st.wire, s.st.released⟩ (.read b) = some t := by
    simp [Pooled.step, pumpNFuturesToTokio, pumpStep, hle, hb]
  obtain ⟨t, ht⟩ := ht
  refine ⟨.proxy (.main (.read b)), ⟨ofPooled s.st t, { s.net with edge := q }⟩, rfl, ?_⟩
  simp [sys, LTS.ofFn, Sys.step, Inbound.step, hpc, ht, Net.take, htake]

/-- At a read from the origin with bytes in the queue. -/
theorem moves_origin {k : Nat} (hk : 0 < k) (hpc : s.st.pc = .pooled pc) (hpc' : ∀ p, pc ≠ .reqBody p)
    (hread : ∀ b, b ≠ [] → b.length ≤ k →
      ∃ t, Pooled.step P ⟨pc, s.st.wire, s.st.released⟩ (.read b) = some t)
    (hq : s.net.origin.bytes ≠ []) : ∃ l s', X.talk.Own s l ∧ (sys P req).step s l s' := by
  obtain ⟨b, q, hb, hle, htake⟩ := Queue.take_piece hk hq
  obtain ⟨t, ht⟩ := hread b hb hle
  refine ⟨.proxy (.main (.read b)), ⟨ofPooled s.st t, { s.net with origin := q }⟩, rfl, ?_⟩
  have hnet : s.net.take (.pooled pc) (.main (.read b)) = some { s.net with origin := q } := by
    cases pc with
    | reqBody p => exact absurd rfl (hpc' p)
    | _ => simp [Net.take, htake]
  simp [sys, LTS.ofFn, Sys.step, Inbound.step, hpc, ht, hnet]

theorem moves_pooled (hs : X.Serving s) (hpc : s.st.pc = .pooled pc) :
    ∃ l s', X.talk.Own s l ∧ (sys P req).step s l s' := by
  have hi := hs.at_pc
  simp only [hpc] at hi
  obtain ⟨hi, hno⟩ := hi
  have hfe : s.st.wire.fromEdge.flatten <+: X.body := (List.prefix_append _ _).trans hs.spoken.edge
  have hfo : s.st.wire.fromOrigin.flatten <+: X.raw ++ X.content :=
    (List.prefix_append _ _).trans hs.spoken.origin
  -- behind the request the origin has bytes to read, or can send some
  have horigin : Pooled.Requested req s.st.wire → s.st.wire.fromOrigin.flatten ≠ X.raw ++ X.content →
      s.net.origin.bytes = [] → ∃ l s', X.talk.Own s l ∧ (sys P req).step s l s' := by
    intro hr hne hb
    refine hs.spoken.origin_speaks ?_ ?_
    · rw [(requested_all hr hfe).2]
      exact X.answers
    · rw [Sys.heardOrigin, hb, List.append_nil]
      exact hne
  cases pc with
  | reqBody p =>
    obtain ⟨-, hquiet, sent, -, hlt, -, hp⟩ := hi
    cases p with
    | write l c => exact moves_ok hpc rfl
    | read l =>
      obtain ⟨rfl, hflat⟩ := hp.of_read
      by_cases hb : s.net.edge.bytes = []
      · refine hs.spoken.edge_speaks ?_ ?_
        · rw [hquiet.toEdge]
          exact X.asks
        · rw [Sys.heardEdge, hb, List.append_nil, hflat]
          intro heq
          rw [heq] at hlt
          exact absurd X.length (Nat.ne_of_lt hlt)
      · exact moves_edge hpc (by omega) hb
  | head buf =>
    obtain ⟨-, hreq, hflat, -, -, -, -, hbuf⟩ := hi
    by_cases hb : s.net.origin.bytes = []
    · refine horigin hreq ?_ hb
      intro heq
      rcases hbuf with rfl | ⟨hp, -⟩
      · have := X.isHead.pos
        have hnil := heq.symm.trans hflat
        rw [List.append_eq_nil_iff] at hnil
        rw [hnil.1] at this
        cases this
      · have := P.extend X.isHead X.content
        rw [← heq, hflat, hp] at this
        cases this
    · refine moves_origin (k := HEAD_BUF) (by decide) hpc (by simp) ?_ hb
      intro b _ hle
      simp [Pooled.step, readHttpResponseHead, hle]
  | respond h rest => cases rest <;> exact moves_ok hpc rfl
  | leftover h => exact moves_ok hpc rfl
  | respBody h p =>
    obtain ⟨-, -, -, raw, hd, body, out, total, hr, hl, hlt, hp⟩ := hi
    cases p with
    | write l c => exact moves_ok hpc rfl
    | read l =>
      obtain ⟨rfl, rfl⟩ := hp.of_read
      by_cases hb : s.net.origin.bytes = []
      · refine horigin hr.requested ?_ hb
        intro heq
        obtain ⟨rfl, hst, hf⟩ := gotHead_of_stream hr.got X.isHead hr.fromOrigin hfo
        rw [pooledLength_eq hst hf, Option.some.injEq] at hl
        have h₁ := hr.fromOrigin.symm.trans heq
        rw [List.append_cancel_left h₁] at hlt
        omega
      · have hk : 0 < want (some (total - body.length)) := Nat.lt_min.mpr ⟨by decide, by omega⟩
        refine moves_origin hk hpc (by simp) ?_ hb
        intro b hne hle
        simp [Pooled.step, pumpNTokioToFutures, pumpStep, hle, hne]
  | closePooled h => exact moves_ok hpc rfl
  | release h => exact moves_ok hpc rfl
  | drain h p =>
    obtain ⟨-, -, -, hnone, raw, hd, body, out, hr, -⟩ := hi
    obtain ⟨-, hst, hf⟩ := gotHead_of_stream hr.got X.isHead hr.fromOrigin hfo
    rw [pooledLength_eq hst hf] at hnone
    cases hnone
  | closeDrain h => exact moves_ok hpc rfl
  | done r => exact absurd rfl (hno r)

/-- Somebody can always move. -/
theorem serving_moves (hs : X.Serving s) : ∃ l s', X.talk.Own s l ∧ (sys P req).step s l s' := by
  have hat := hs.at_pc
  cases hpc : s.st.pc with
  | acquire => exact plain_moves (by rw [hpc]; rfl)
  | writeHead => exact plain_moves (by rw [hpc]; rfl)
  | pooled pc => exact moves_pooled hs hpc
  | _ => simp only [hpc] at hat

/-- Every step leaves less to be done. -/
theorem serving_closer {l : SysLabel} (hs : X.Serving s) (ho : X.talk.Own s l)
    (h : (sys P req).step s l s') :
    X.Served s' ∨ X.Serving s' ∧ X.talk.left s' < X.talk.left s := by
  rcases serving_own hs ho h with hdone | hgo
  · exact .inl hdone
  · exact .inr ⟨hgo, (hs.spoken.own ho h).2⟩

theorem serving_start : X.Serving ⟨start req, {}⟩ := by
  refine ⟨X.talk.spoken_start req, ?_⟩
  cases hc : req.connType with
  | tcp => exact absurd hc X.http
  | _ => simp [start, hc]

end Steps

/-- **A keep-alive exchange completes.** From the start of the stream, over
every interleaving of the stream with its two peers and every way to cut
their bytes: as long as nothing fails the exchange comes to its end, and is
never stuck before. -/
theorem exchange_served (P : Httparse) (req : ConnectRequest) (X : Exchange P req) :
    (sys P req).Inevitable X.talk.Own X.Served ⟨start req, {}⟩ := by
  apply LTS.inevitable_of_measure (I := X.Serving) X.talk.left
  · intro s hs
    exact .inr (serving_moves hs)
  · intro s l s' hs ho h
    exact serving_closer hs ho h
  · exact serving_start

/-- A POST of five bytes. -/
def postHello : ConnectRequest :=
  ⟨ascii "/", .http, [(HTTP_METHOD_KEY, ascii "POST"),
    (HTTP_HEADER_KEY ++ ascii ":Content-Length", ascii "5")]⟩

/-- Its origin answers once it has the whole request. -/
def helloExchange : Exchange refHttparse postHello where
  body := ascii "hello"
  raw := Pooled.fiveRaw
  hd := Pooled.fiveHead
  content := ascii "world"
  edgeMay _ := True
  originMay b := b = buildRequestHead postHello true ++ ascii "hello"
  http := by decide
  pooled := by decide
  length := by decide
  isHead := Pooled.fiveHead_isHead
  announced := by decide
  keeps := by decide
  fits := by decide
  asks := trivial
  answers := rfl

theorem hello_served : (sys refHttparse postHello).Inevitable helloExchange.talk.Own helloExchange.Served
    ⟨start postHello, {}⟩ := exchange_served _ _ helloExchange

end Exchange
end QuickTunnel.Proxy.Inbound
