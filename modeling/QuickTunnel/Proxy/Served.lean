import QuickTunnel.Proxy.Shared

/-!
# A socket in the hands of a stream

What holds of one socket while a stream of `Shared.shared` has it
(`Serving`). The stream found it at rest: behind `base` no request was open,
and `skip` responses answered all of them. Whatever the origin says there
from then on, it says to the stream's own bytes; on the pooled path these
are one request, so there is one response.

* `serving_of_rest`: a socket at rest is acquired.
* `Serving.moved`: the stream moves on.
* `Serving.answer`: the origin responds.
* `Serving.settled`: the stream gives the socket back, at rest again.
* `Served.ownReplies`: the stream reads the responses to its own requests.
-/
namespace QuickTunnel.Proxy.Shared

open QuickTunnel.Stream
open QuickTunnel.Http (requests request)
open Inbound (hand Handing Route onSocket)
open Pooled (bodyLen)

/-- A socket that has been acquired, seen by its stream. -/
structure Served (P : Httparse) (t : Task) (sk : Sock) : Prop where
  written : sk.written = t.base ++ t.st.wire.toOrigin
  handed : sk.handed = t.base ++ t.handed
  head : buildRequestHead t.req (analyseRequest t.req).requestPoolable <+: t.handed
  rest : (requests t.base).2 = []
  skip : t.skip = (requests t.base).1.length
  le : t.skip ≤ sk.responses.length
  taken : t.st.wire.fromOrigin.flatten ++ sk.unread = (sk.responses.drop t.skip).flatten
  one : (analyseRequest t.req).requestPoolable = true → sk.responses.length ≤ t.skip + 1
  fits : (analyseRequest t.req).requestPoolable = true → ∀ r, sk.responses[t.skip]? = some r →
    poolableReply P r = true → bodyLen t.req = entryLength t.req

/-- The same while the stream is on it. -/
structure Serving (P : Httparse) (t : Task) (sk : Sock) : Prop extends Served P t sk where
  on : onSocket t.st.pc = true
  route : Route P t.req t.st
  handing : Handing t.req t.st t.handed

/-- At rest: nothing open in either direction. -/
structure Rest (sk : Sock) : Prop where
  written : sk.handed = sk.written
  requests : (Http.requests sk.written).2 = []
  answered : sk.responses.length = (Http.requests sk.written).1.length
  read : sk.unread = []

theorem Settled.rest {sk : Sock} (h : Settled sk) : Rest sk := ⟨h.written, h.requests.2, h.answered, h.read⟩

theorem rest_fresh : Rest {} := ⟨rfl, rfl, rfl, rfl⟩

/-- More has been handed over, more has been answered. -/
structure Sock.le (sk sk' : Sock) : Prop where
  handed : sk.handed <+: sk'.handed
  responses : sk.responses <+: sk'.responses

theorem Sock.le_refl (sk : Sock) : sk.le sk := ⟨List.prefix_rfl, List.prefix_rfl⟩

section Socket
variable {P : Httparse} {t : Task} {sk sk' : Sock}

theorem Answered.mono (h : Answered P sk) (hh : sk.handed <+: sk'.handed)
    (hr : sk'.responses = sk.responses) : Answered P sk' := by
  intro m r hm
  rw [hr] at hm
  obtain ⟨hd, b, hreq, hresp⟩ := h m r hm
  obtain ⟨b', hreq'⟩ := Http.request_of_prefix hreq hh
  exact ⟨hd, b', hreq', hresp⟩

theorem OwnReplies.mono (h : OwnReplies P t sk) (hle : sk.le sk') : OwnReplies P t sk' := by
  obtain ⟨n, hpre, hone, hall⟩ := h
  have hget : ∀ (m : Nat) (r : Bytes), sk.responses[m]? = some r → sk'.responses[m]? = some r := by
    intro m r hm
    obtain ⟨x, hx⟩ := hle.responses
    rw [← hx, List.getElem?_append_left (List.getElem?_eq_some_iff.mp hm).1, hm]
  refine ⟨n, ?_, hone, fun j hj => ?_⟩
  · obtain ⟨x, hx⟩ := hle.responses
    refine hpre.trans (List.IsPrefix.flatten ?_)
    rw [← hx]
    exact ((List.prefix_append _ x).drop t.skip).take n
  · obtain ⟨r, hd, b, b', hr, hown, hreq, hresp, hfirst⟩ := hall j hj
    obtain ⟨b'', hreq'⟩ := Http.request_of_prefix hreq hle.handed
    exact ⟨r, hd, b, b'', hget _ _ hr, hown, hreq', hresp, hfirst⟩

theorem requestHead_print (req : ConnectRequest) (ka : Bool) (x : Bytes) (hc : conforming req = true) :
    ∃ b, request (buildRequestHead req ka ++ x) 0 = some (requestHead req ka, b) := by
  rw [buildRequestHead_eq_print]
  exact Http.request_print (requestHead_valid (printable_of_conforming hc)) x

/-- The stream reads what was said to its own bytes. -/
theorem Served.ownReplies (h : Served P t sk) (ha : Answered P sk) (hc : conforming t.req = true) :
    OwnReplies P t sk := by
  refine ⟨sk.responses.length - t.skip, ?_, fun hp => ?_, fun j hj => ?_⟩
  · rw [List.take_of_length_le (by rw [List.length_drop]), ← h.taken]
    exact List.prefix_append _ _
  · have := h.one hp
    omega
  · have hlt : t.skip + j < sk.responses.length := by omega
    obtain ⟨hd, b, hreq, hresp⟩ := ha _ _ (List.getElem?_eq_getElem hlt)
    have hown : request t.handed j = some (hd, b) := by
      have := Http.request_append_of_rest h.rest t.handed j
      rw [← h.handed, ← h.skip, hreq] at this
      exact this.symm
    refine ⟨_, hd, b, b, List.getElem?_eq_getElem hlt, hown, hreq, hresp, ?_⟩
    intro heq
    subst heq
    obtain ⟨x, hx⟩ := h.head
    obtain ⟨b', hfirst⟩ := requestHead_print t.req (analyseRequest t.req).requestPoolable x hc
    rw [← hx, hfirst, Option.some.injEq, Prod.mk.injEq] at hown
    exact hown.1.symm

/-- **`pool.acquire` returns a socket at rest.** -/
theorem serving_of_rest {st : Inbound.St} (hrest : Rest sk) (k : Nat) (hpc : t.st.pc = .acquire)
    (hw : t.st.wire = {}) (hrel : t.st.released = false)
    (hs : Inbound.step P t.req t.st (.main .ok) = some st) :
    Serving P (t.on st k sk) { sk with handed := sk.written ++ hand t.req st [] } := by
  simp only [Inbound.step, hpc, Option.some.injEq] at hs
  subst hs
  have hhand : hand t.req { t.st with pc := .writeHead, connected := some true } [] =
      buildRequestHead t.req (analyseRequest t.req).requestPoolable := by
    simp [hand, Inbound.outgoing, hw]
  exact
    { written := by simp [Task.on, hw]
      handed := rfl
      head := by simp only [Task.on, hhand, List.prefix_rfl]
      rest := hrest.requests
      skip := hrest.answered
      le := Nat.le_refl _
      taken := by simp [Task.on, hw, hrest.read]
      one := fun _ => Nat.le_succ _
      fits := by
        intro _ r hr
        simp [Task.on] at hr
      on := rfl
      route := ⟨hw, hrel⟩
      handing := by simp [Task.on, Handing, hand, Inbound.outgoing] }

/-! ## A stream moves on -/

theorem onSocket_of_route {req : ConnectRequest} {st : Inbound.St} (hp : Route P req st)
    (hr : st.returned = false) : onSocket st.pc = true := by
  cases hpc : st.pc with
  | done r => simp [Inbound.St.returned, hpc] at hr
  | _ => first | rfl | simp only [Route, hpc] at hp

theorem took_append {st st' : Inbound.St} (h : st.wire.fromOrigin <+: st'.wire.fromOrigin) :
    st'.wire.fromOrigin.flatten = st.wire.fromOrigin.flatten ++ took st st' := by
  obtain ⟨x, hx⟩ := h
  rw [took, ← hx, List.drop_left, List.flatten_append]

theorem Serving.moved {st : Inbound.St} {l : Inbound.Label} (h : Serving P t sk)
    (hs : Inbound.step P t.req t.st l = some st) (hgot : took t.st st <+: sk.unread) :
    Served P (t.moved st) (sk.moved t st) ∧
      (st.returned = false → Serving P (t.moved st) (sk.moved t st)) ∧ sk.le (sk.moved t st) := by
  obtain ⟨hhand, hgrow⟩ := Inbound.handing_step h.on h.handing hs
  have hroute := Inbound.route_step h.route h.on hs
  have hserved : Served P (t.moved st) (sk.moved t st) :=
    { written := rfl
      handed := rfl
      head := h.head.trans hgrow
      rest := h.rest
      skip := h.skip
      le := h.le
      taken := by
        obtain ⟨y, hy⟩ := hgot
        have htaken := h.taken
        show st.wire.fromOrigin.flatten ++ sk.unread.drop (took t.st st).length =
          (sk.responses.drop t.skip).flatten
        rw [← htaken, took_append (Inbound.fromOrigin_step h.on hs), ← hy, List.drop_left, List.append_assoc]
      one := h.one
      fits := h.fits }
  refine ⟨hserved, fun hr => ?_, ?_, List.prefix_rfl⟩
  · exact { hserved with on := onSocket_of_route hroute hr, route := hroute, handing := hhand }
  · rw [h.handed]
    exact (List.prefix_append_right_inj _).mpr hgrow

/-! ## The origin answers -/

/-- On the pooled path the origin can only be asked for one response. -/
theorem asked_once {req : ConnectRequest} {base own body : Bytes} {hd : Http.RequestHead} {b : Bool}
    {m n : Nat} (hc : conforming req = true) (hp : (analyseRequest req).requestPoolable = true)
    (hbase : (requests base).2 = []) (hown : own = buildRequestHead req true ++ body)
    (hbody : body.length ≤ bodyLen req) (hm : (requests base).1.length ≤ m)
    (hreq : request ((base ++ own).take n) m = some (hd, b)) :
    m = (requests base).1.length ∧ hd = requestHead req true ∧
      (b = true → bodyLen req = entryLength req) := by
  have hle := bodyLen_le hc
  obtain ⟨j, rfl⟩ := Nat.exists_eq_add_of_le hm
  rw [List.take_append] at hreq
  by_cases hn : n ≤ base.length
  · -- everything that has arrived was answered before
    rw [Nat.sub_eq_zero_of_le hn, List.take_zero, List.append_nil] at hreq
    obtain ⟨b', hreq'⟩ := Http.request_of_prefix hreq (List.take_prefix _ _)
    rw [Http.request_of_rest hbase hm] at hreq'
    cases hreq'
  · rw [List.take_of_length_le (Nat.le_of_not_le hn)] at hreq
    have hpre : own.take (n - base.length) <+: (requestHead req true).print ++ body := by
      rw [← buildRequestHead_eq_print, ← hown]
      exact List.take_prefix _ _
    rw [Http.request_front hbase (requestHead_valid (printable_of_conforming hc))
      (requestHead_fixedLength hc hp)
      (Nat.le_trans hbody hle) hpre] at hreq
    split at hreq
    · rename_i hj
      simp only [Option.some.injEq, Prod.mk.injEq] at hreq
      refine ⟨by rw [hj.1, Nat.add_zero], hreq.1.symm, fun hb => ?_⟩
      have hfull := of_decide_eq_true (hreq.2.trans hb)
      have hlen := hpre.length_le
      rw [List.length_append] at hlen
      omega
    · cases hreq

/-- The oversized requests are those whose length the shape has lost. -/
theorem bodyLen_of_not_oversized {req : ConnectRequest} (hc : conforming req = true)
    (hp : (analyseRequest req).requestPoolable = true)
    (ho : oversized (requestHead req true) = false) : bodyLen req = entryLength req := by
  refine bodyLen_of_fits hc (Nat.lt_of_not_le fun hle => ?_)
  have hscan : (scan (requestHead req true).fields ⟨none, false, false, false⟩).requestPoolable = true := by
    show (scan (requestFields req true) _).requestPoolable = true
    rw [scan_requestFields, hp]
  simp only [oversized, hscan, requestHead_fixedLength hc hp, Bool.true_and, decide_eq_false_iff_not] at ho
  exact ho hle

theorem Serving.answer (h : Serving P t sk) (hc : conforming t.req = true) {n : Nat} {r : Bytes}
    {hd : Http.RequestHead} {b : Bool} (hreq : request (sk.handed.take n) sk.responses.length = some (hd, b))
    (htime : b = false → oversized hd = true → poolableReply P r = false) :
    Serving P t { sk with responses := sk.responses ++ [r], unread := sk.unread ++ r } := by
  -- what the pooled path has handed over holds one request
  have hasked : (analyseRequest t.req).requestPoolable = true → sk.responses.length = t.skip ∧
      hd = requestHead t.req true ∧ (b = true → bodyLen t.req = entryLength t.req) := by
    intro hp
    obtain ⟨body, hown, hbody⟩ := Inbound.handed_pooled h.route h.on hp h.handing
    rw [h.handed] at hreq
    rw [h.skip]
    exact asked_once hc hp h.rest hown hbody (h.skip ▸ h.le) hreq
  refine { h with le := ?_, taken := ?_, one := fun hp => ?_, fits := fun hp r' hr' hpool => ?_ }
  · rw [List.length_append]
    exact Nat.le_add_right_of_le h.le
  · rw [← List.append_assoc, h.taken, List.drop_append_of_le_length h.le, List.flatten_append,
      List.flatten_singleton]
  · rw [List.length_append, List.length_singleton, (hasked hp).1]
  · obtain ⟨hlen, rfl, hfull⟩ := hasked hp
    rw [← hlen, List.getElem?_concat_length, Option.some.injEq] at hr'
    subst hr'
    cases b with
    | true => exact hfull rfl
    | false =>
      refine bodyLen_of_not_oversized hc hp (Bool.eq_false_iff.mpr fun ho => ?_)
      rw [htime rfl ho] at hpool
      cases hpool

/-! ## The stream gives its socket back -/

/-- **A response with a poolable shape** is its head and at most as many
bytes as the shape says. -/
theorem response_length_le {method r raw : Bytes} {h : Http.Head} {n : Nat}
    (hr : Http.Response P.IsHead method r) (hh : P.IsHead raw h) (hraw : raw <+: r)
    (hp : (responseShape h).responsePoolable = true) (hn : (responseShape h).contentLength = some n) :
    r.length ≤ raw.length + n := by
  cases hr with
  | interim hh' hint ha hrest =>
    obtain ⟨rfl, rfl⟩ := Httparse.head_unique hh hh' hraw (List.prefix_append _ _)
    obtain ⟨k, v, hmem, hk, -⟩ := responseShape_contentLength hn
    have hfin := (Http.lengthAllowed_of_mem ha (Http.mem_values.mpr ⟨k, hmem, hk⟩)).2.1
    rw [hint] at hfin
    cases hfin
  | final hh' hfin ha hf hd =>
    obtain ⟨rfl, rfl⟩ := Httparse.head_unique hh hh' hraw (List.prefix_append _ _)
    have hle := body_length_le ha hp hn hf hd
    rw [List.length_append]
    omega

theorem poolableReply_of_head {raw : Bytes} {h : Http.Head} (hh : P.IsHead raw h) (x : Bytes) :
    poolableReply P (raw ++ x) = (responseShape h).responsePoolable := by
  have hp := P.extend hh x
  simp only [poolableReply, hp]
  rfl

theorem pooledLength_some {h : ResponseHead} {n : Nat} (hl : Pooled.pooledLength h = some n) :
    (analyseResponse h.status h.headers).responsePoolable = true ∧
      (analyseResponse h.status h.headers).contentLength = some n := by
  unfold Pooled.pooledLength at hl
  simp only [Option.filter_eq_some_iff] at hl
  exact ⟨hl.2, hl.1⟩

/-- **`pool.release` is called on a settled socket.** -/
theorem Serving.settled {hr : ResponseHead} (h : Serving P t sk) (ha : Answered P sk)
    (hc : conforming t.req = true) (hpc : t.st.pc = .pooled (.release hr)) : Settled sk := by
  obtain ⟨hp, hhanded, raw, hd, body, total, hrel, hlen, hmax⟩ :=
    Inbound.finished_of_releasing h.route hpc h.handing
  obtain ⟨hpool, hcl⟩ := pooledLength_some hlen
  rw [hrel.got.shape] at hpool hcl
  have htaken := h.taken
  rw [hrel.fromOrigin] at htaken
  -- one response, which begins with the head that was read
  obtain ⟨r, hr, hflat⟩ : ∃ r, sk.responses.drop t.skip = [r] ∧ r = raw ++ body ++ sk.unread := by
    have hone : (sk.responses.drop t.skip).length ≤ 1 := by
      have := h.one hp
      rw [List.length_drop]
      omega
    cases hdrop : sk.responses.drop t.skip with
    | nil =>
      rw [hdrop, List.flatten_nil] at htaken
      have hzero := congrArg List.length htaken
      have hpos := hrel.got.isHead.pos
      simp only [List.length_append, List.length_nil] at hzero
      omega
    | cons r rs =>
      rw [hdrop, List.length_cons] at hone
      obtain rfl : rs = [] := List.length_eq_zero_iff.mp (by omega)
      rw [hdrop, List.flatten_singleton] at htaken
      exact ⟨r, rfl, htaken.symm⟩
  have hget : sk.responses[t.skip]? = some r := by
    have := congrArg (fun l : List Bytes => l[0]?) hr
    simpa using this
  have hcount : sk.responses.length = t.skip + 1 := by
    have := congrArg List.length hr
    rw [List.length_drop, List.length_singleton] at this
    omega
  have hraw : raw <+: r := by
    rw [hflat, List.append_assoc]
    exact List.prefix_append _ _
  obtain ⟨hd', b, -, hresp⟩ := ha _ _ hget
  have hle := response_length_le hresp hrel.got.isHead hraw hpool hcl
  have hunread : sk.unread = [] := by
    rw [hflat] at hle
    simp only [List.length_append] at hle
    exact List.length_eq_zero_iff.mp (by omega)
  have hfits : bodyLen t.req = entryLength t.req := by
    apply h.fits hp r hget
    rw [hflat, List.append_assoc, poolableReply_of_head hrel.got.isHead]
    exact hpool
  -- the request is complete
  obtain ⟨hto, hbody, -⟩ := hrel.requested
  rw [buildRequestHead_eq_print] at hto
  have hfront := Http.requests_front (requestHead_valid (printable_of_conforming hc))
    (requestHead_fixedLength hc hp) (Nat.le_of_eq (hbody.trans hfits))
    (List.prefix_rfl (l := (requestHead t.req true).print ++ t.st.wire.fromEdge.flatten))
  rw [if_pos (by rw [List.length_append, hbody, hfits])] at hfront
  have hreqs : requests sk.written = ((requests t.base).1 ++ [requestHead t.req true], []) := by
    rw [h.written, hto, Http.requests_append_of_rest h.rest, hfront]
  refine ⟨by rw [h.handed, hhanded, h.written], ⟨?_, by rw [hreqs]⟩, ?_, hunread⟩
  · rw [hreqs]
    simp
  · rw [hreqs, hcount, h.skip]
    simp

end Socket

end QuickTunnel.Proxy.Shared
