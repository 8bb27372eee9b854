import QuickTunnel.Proxy.EdgeRequest
import QuickTunnel.Proxy.Relay

/-!
# A stream and its socket

What a stream does with the socket that `pool.acquire` gave it, from the
request head on: which bytes it has handed to `write_all`, which of them
are written, which bytes it has read. `Route` says at every await where on
its way the stream is; on the pooled path it carries `Pooled.Inv`.

* `handing_step`: bytes once handed over stay, more follow behind them.
* `fromOrigin_step`: so do the bytes read.
* `handed_pooled`: on the pooled path the bytes handed over are the head and
  at most `bodyLen` bytes behind it.
* `finished_of_releasing`: a stream that gives its socket back has written
  all of them and read one response.
-/
namespace QuickTunnel.Proxy

open QuickTunnel.Stream

/-- A pump's chunk on its way. -/
def Pump.chunk : Pump → Bytes
  | .read _ => []
  | .write _ chunk => chunk

def Up.chunk : Up → Option Bytes
  | .pump p => some p.chunk
  | _ => none

namespace Inbound

/-- The program points with a socket in hand. -/
def onSocket : Pc → Bool
  | .writeHead | .pooled _ | .bidi _ _ | .closeBidi => true
  | _ => false

def pooledChunk : Pooled.Pc → Bytes
  | .reqBody p => p.chunk
  | _ => []

/-- The bytes of the `write_all` under way; `none` once the stream has
stopped writing to the socket. -/
def outgoing (req : ConnectRequest) : Pc → Option Bytes
  | .writeHead => some (buildRequestHead req (analyseRequest req).requestPoolable)
  | .pooled pc => some (pooledChunk pc)
  | .bidi up _ => up.chunk
  | _ => none

/-- `handed` is everything handed to `write_all` so far. A failed write may
leave more behind than was written. -/
def Handing (req : ConnectRequest) (s : St) (handed : Bytes) : Prop :=
  match outgoing req s.pc with
  | some chunk => handed = s.wire.toOrigin ++ chunk
  | none => s.wire.toOrigin <+: handed

/-- What has been handed over in the state `s`, if it was `handed` before. -/
def hand (req : ConnectRequest) (s : St) (handed : Bytes) : Bytes :=
  match outgoing req s.pc with
  | some chunk => s.wire.toOrigin ++ chunk
  | none => handed

/-- Where a stream with a socket is. -/
def Route (P : Httparse) (req : ConnectRequest) (s : St) : Prop :=
  match s.pc with
  | .writeHead => s.wire = {} ∧ s.released = false
  | .pooled pc => (analyseRequest req).requestPoolable = true ∧ (∀ r, pc ≠ .done r) ∧
      Pooled.Inv P req ⟨pc, s.wire, s.released⟩
  | .bidi _ _ | .closeBidi => (analyseRequest req).requestPoolable = false
  | .done _ => True
  | _ => False

section Step
variable {P : Httparse} {req : ConnectRequest} {s s' : St} {l : Label} {handed : Bytes}

/-- Everything a stream with a socket can do. -/
theorem socket_cases (hon : onSocket s.pc = true) (hs : step P req s l = some s') :
    (s.pc = .writeHead ∧ l = .main .ok ∧ s' = { s with
      pc := afterHead req
      wire := { s.wire with
        toOrigin := s.wire.toOrigin ++ buildRequestHead req (analyseRequest req).requestPoolable } }) ∨
    (s.pc = .writeHead ∧ ∃ err, s' = { s with pc := .done (.error err) }) ∨
    (∃ pc e t, s.pc = .pooled pc ∧ l = .main e ∧ Pooled.step P ⟨pc, s.wire, s.released⟩ e = some t ∧
      s' = ofPooled s t) ∨
    (∃ up down e up', s.pc = .bidi up down ∧ l = .up e ∧ up.step true e = some up' ∧
      s' = { s with pc := joinBidi up' down, wire := up.wire s.wire e }) ∨
    (∃ up down e down', s.pc = .bidi up down ∧ l = .down e ∧ down.step P e = some down' ∧
      s' = { s with pc := joinBidi up down', wire := down.wire s.wire e }) ∨
    (s.pc = .closeBidi ∧
      ∃ r closed, s' = { s with pc := .done r, wire := { s.wire with edgeClosed := closed } }) := by
  cases hpc : s.pc with
  | writeHead =>
    cases l with
    | main e =>
      simp only [step, hpc] at hs
      cases e <;> cases hs
      · exact .inl ⟨rfl, rfl, rfl⟩
      · exact .inr (.inl ⟨rfl, _, rfl⟩)
    | _ => simp [step, hpc] at hs
  | pooled pc =>
    cases l with
    | main e =>
      simp only [step, hpc, Option.map_eq_some_iff] at hs
      obtain ⟨t, ht, rfl⟩ := hs
      exact .inr (.inr (.inl ⟨pc, e, t, rfl, rfl, ht, rfl⟩))
    | _ => simp [step, hpc] at hs
  | bidi up down =>
    cases l with
    | up e =>
      simp only [step, hpc, Option.map_eq_some_iff] at hs
      obtain ⟨up', hup, rfl⟩ := hs
      exact .inr (.inr (.inr (.inl ⟨up, down, e, up', rfl, rfl, hup, rfl⟩)))
    | down e =>
      simp only [step, hpc, Option.map_eq_some_iff] at hs
      obtain ⟨down', hd, rfl⟩ := hs
      exact .inr (.inr (.inr (.inr (.inl ⟨up, down, e, down', rfl, rfl, hd, rfl⟩))))
    | _ => simp [step, hpc] at hs
  | closeBidi =>
    cases l with
    | main e =>
      simp only [step, hpc] at hs
      cases e <;> cases hs
      · exact .inr (.inr (.inr (.inr (.inr ⟨rfl, _, _, rfl⟩))))
      · exact .inr (.inr (.inr (.inr (.inr ⟨rfl, _, s.wire.edgeClosed, rfl⟩))))
    | _ => simp [step, hpc] at hs
  | _ => simp [onSocket, hpc] at hon

theorem down_sameUp (w : Wire) (p : Pump) (e : Ev) : SameUp w (w.down p e) := Down.sameUp w (.pump p) e

theorem pooledChunk_afterLeftover (h : ResponseHead) : pooledChunk (Pooled.afterLeftover h) = [] := by
  unfold Pooled.afterLeftover
  split
  · split <;> rfl
  · rfl

theorem pooledChunk_afterRespond (h : ResponseHead) : pooledChunk (Pooled.afterRespond h) = [] := by
  unfold Pooled.afterRespond
  split
  · rfl
  · exact pooledChunk_afterLeftover h

section Pooled
variable {t t' : Pooled.St} {e : Ev}

/-- Behind the request body nothing is written. -/
theorem pooled_quiet (hpc : ∀ p, t.pc ≠ .reqBody p) (hs : Pooled.step P t e = some t') :
    t.wire.fromOrigin <+: t'.wire.fromOrigin ∧ t'.wire.toOrigin = t.wire.toOrigin ∧
      pooledChunk t'.pc = [] := by
  cases hp : t.pc with
  | reqBody p => exact absurd hp (hpc p)
  | head buf =>
    simp only [Pooled.step, hp, Option.map_eq_some_iff] at hs
    obtain ⟨o, -, rfl⟩ := hs
    cases e with
    | read b => cases o <;> exact ⟨gotOrigin_fromOrigin _ b, (gotOrigin_sameUp _ b).toOrigin, rfl⟩
    | _ => cases o <;> exact ⟨List.prefix_rfl, rfl, rfl⟩
  | respond h rest =>
    simp only [Pooled.step, hp] at hs
    cases e with
    | read b => cases hs
    | fail msg => cases hs; exact ⟨List.prefix_rfl, rfl, rfl⟩
    | ok =>
      cases rest with
      | nil => cases hs; exact ⟨List.prefix_rfl, rfl, pooledChunk_afterRespond h⟩
      | cons x rest => cases hs; exact ⟨List.prefix_rfl, rfl, rfl⟩
  | leftover h =>
    simp only [Pooled.step, hp] at hs
    cases e with
    | read b => cases hs
    | fail msg => cases hs; exact ⟨List.prefix_rfl, rfl, rfl⟩
    | ok => cases hs; exact ⟨List.prefix_rfl, rfl, pooledChunk_afterLeftover h⟩
  | respBody h p =>
    simp only [Pooled.step, hp, Option.map_eq_some_iff] at hs
    obtain ⟨o, -, rfl⟩ := hs
    cases o <;> exact ⟨down_fromOrigin _ _ _, (down_sameUp _ _ _).toOrigin, rfl⟩
  | drain h p =>
    simp only [Pooled.step, hp, Option.map_eq_some_iff] at hs
    obtain ⟨o, -, rfl⟩ := hs
    cases o <;> exact ⟨down_fromOrigin _ _ _, (down_sameUp _ _ _).toOrigin, rfl⟩
  | closePooled h =>
    simp only [Pooled.step, hp] at hs
    cases e <;> cases hs <;> exact ⟨List.prefix_rfl, rfl, rfl⟩
  | release h =>
    simp only [Pooled.step, hp] at hs
    cases e <;> cases hs
    exact ⟨List.prefix_rfl, rfl, rfl⟩
  | closeDrain h =>
    simp only [Pooled.step, hp] at hs
    cases e <;> cases hs <;> exact ⟨List.prefix_rfl, rfl, rfl⟩
  | done r => simp [Pooled.step, hp] at hs

/-- What a step of the pump of the request body does. -/
theorem pooled_reqBody {p : Pump} (hp : t.pc = .reqBody p) (hs : Pooled.step P t e = some t') :
    t'.wire.fromOrigin = t.wire.fromOrigin ∧
      ((∃ r, t'.pc = .done r) ∧ t'.wire.toOrigin = t.wire.toOrigin ∨
        (∀ r, t'.pc ≠ .done r) ∧
          t.wire.toOrigin ++ p.chunk <+: t'.wire.toOrigin ++ pooledChunk t'.pc) := by
  simp only [Pooled.step, hp, Option.map_eq_some_iff] at hs
  obtain ⟨o, ho, rfl⟩ := hs
  have hfrom : (t.wire.up p e).fromOrigin = t.wire.fromOrigin := (Up.sameDown t.wire (.pump p) e).fromOrigin
  rcases pumpStep_cases ho with ⟨limit, b, rfl, rfl, hb, -, rfl⟩ | ⟨rfl, rfl, rfl⟩ |
    ⟨n, rfl, rfl, rfl⟩ | ⟨limit, chunk, rfl, rfl, rfl⟩ | ⟨msg, err, rfl, rfl⟩
  · refine ⟨hfrom, .inr ⟨by simp, ?_⟩⟩
    simp [Wire.up, hb, pooledChunk, Pump.chunk]
  · refine ⟨hfrom, .inr ⟨by simp, ?_⟩⟩
    simp [Wire.up, pooledChunk, Pump.chunk]
  · exact ⟨hfrom, .inl ⟨⟨_, rfl⟩, by simp [Pooled.failed, Wire.up]⟩⟩
  · rcases pumpTop_cases (limit.map (· - chunk.length)) with ⟨-, htop⟩ | ⟨-, htop⟩ <;> rw [htop]
    · exact ⟨hfrom, .inr ⟨by simp, by simp [Wire.up, pooledChunk, Pump.chunk]⟩⟩
    · exact ⟨hfrom, .inr ⟨by simp, by simp [Wire.up, pooledChunk, Pump.chunk]⟩⟩
  · refine ⟨hfrom, .inl ⟨⟨_, rfl⟩, ?_⟩⟩
    cases p <;> rfl

end Pooled

theorem joinBidi_outgoing (up : Up) (down : Down) : outgoing req (joinBidi up down) = up.chunk := by
  rcases joinBidi_cases up down with ⟨h, -⟩ | ⟨rfl, u, rfl, h⟩ | ⟨rfl, e, rfl, h⟩ <;> rw [h] <;> rfl

theorem afterHead_outgoing (req : ConnectRequest) : outgoing req (afterHead req) = some [] := by
  unfold afterHead
  split
  · unfold Pooled.start
    split <;> simp only [outgoing, pooledChunk, Option.some.injEq]
    rename_i htop
    rcases pumpTop_cases (some (Pooled.bodyLen req)) with ⟨-, h⟩ | ⟨-, h⟩
    · rw [h] at htop
      cases htop
    · rw [h, PumpNext.next.injEq] at htop
      rw [← htop]
      rfl
  · rfl

/-- What a step of the edge-to-origin half writes. -/
theorem up_chunk {shut : Bool} {up up' : Up} {e : Ev} (w : Wire) (hs : up.step shut e = some up') :
    (∃ c, up.chunk = some c ∧
      ((∃ c', up'.chunk = some c' ∧ w.toOrigin ++ c <+: (up.wire w e).toOrigin ++ c') ∨
        (up'.chunk = none ∧ (up.wire w e).toOrigin <+: w.toOrigin ++ c))) ∨
      (up.chunk = none ∧ up'.chunk = none ∧ (up.wire w e).toOrigin = w.toOrigin) := by
  cases up with
  | pump p =>
    refine .inl ⟨p.chunk, rfl, ?_⟩
    have hend : (if shut then Up.shutdown else Up.done).chunk = none := by cases shut <;> rfl
    simp only [Up.step, Option.map_eq_some_iff] at hs
    obtain ⟨o, ho, rfl⟩ := hs
    rcases pumpStep_cases ho with ⟨limit, b, rfl, rfl, hb, -, rfl⟩ | ⟨rfl, rfl, rfl⟩ |
      ⟨n, rfl, rfl, rfl⟩ | ⟨limit, chunk, rfl, rfl, rfl⟩ | ⟨msg, err, rfl, rfl⟩
    · exact .inl ⟨b, rfl, by simp [Up.wire, Wire.up, hb, Pump.chunk]⟩
    · exact .inr ⟨hend, by simp [Up.wire, Wire.up]⟩
    · exact .inr ⟨hend, by simp [Up.wire, Wire.up]⟩
    · rcases pumpTop_cases (limit.map (· - chunk.length)) with ⟨-, htop⟩ | ⟨-, htop⟩ <;> rw [htop]
      · exact .inr ⟨hend, List.prefix_rfl⟩
      · exact .inl ⟨[], rfl, by simp [Up.wire, Wire.up, Pump.chunk]⟩
    · refine .inr ⟨hend, ?_⟩
      cases p <;> exact List.prefix_append _ _
  | shutdown => cases e <;> cases hs <;> exact .inr ⟨rfl, rfl, rfl⟩
  | done => cases e <;> cases hs

/-- **What is handed over stays handed over.** -/
theorem handing_step (hon : onSocket s.pc = true) (hi : Handing req s handed)
    (hs : step P req s l = some s') :
    Handing req s' (hand req s' handed) ∧ handed <+: hand req s' handed := by
  -- while the stream goes on writing, `hand` is by definition all it has handed over
  have hsome : ∀ {c c'}, outgoing req s.pc = some c → outgoing req s'.pc = some c' →
      s.wire.toOrigin ++ c <+: s'.wire.toOrigin ++ c' →
      Handing req s' (hand req s' handed) ∧ handed <+: hand req s' handed := by
    intro c c' hc hc' hle
    simp only [Handing, hc] at hi
    simp only [Handing, hand, hc', hi, true_and]
    exact hle
  have hnone : outgoing req s'.pc = none → s'.wire.toOrigin <+: handed →
      Handing req s' (hand req s' handed) ∧ handed <+: hand req s' handed := by
    intro hc' hle
    simp only [Handing, hand, hc']
    exact ⟨hle, List.prefix_rfl⟩
  rcases socket_cases hon hs with ⟨hpc, rfl, rfl⟩ | ⟨hpc, err, rfl⟩ | ⟨pc, e, t, hpc, rfl, ht, rfl⟩ |
    ⟨up, down, e, up', hpc, rfl, hup, rfl⟩ | ⟨up, down, e, down', hpc, rfl, hd, rfl⟩ |
    ⟨hpc, r, closed, rfl⟩
  · exact hsome (by rw [hpc]; rfl) (afterHead_outgoing req) (by simp)
  · apply hnone rfl
    simp only [Handing, outgoing, hpc] at hi
    rw [hi]
    exact List.prefix_append _ _
  · have hout : outgoing req s.pc = some (pooledChunk pc) := by rw [hpc]; rfl
    have hi' := hi
    simp only [Handing, hout] at hi'
    have hstep : (∃ r, t.pc = .done r) ∧ t.wire.toOrigin = s.wire.toOrigin ∨
        (∀ r, t.pc ≠ .done r) ∧
          s.wire.toOrigin ++ pooledChunk pc <+: t.wire.toOrigin ++ pooledChunk t.pc := by
      by_cases hreq : ∃ p, pc = .reqBody p
      · obtain ⟨p, rfl⟩ := hreq
        exact (pooled_reqBody rfl ht).2
      · obtain ⟨-, hto, hch⟩ := pooled_quiet (fun p hp => hreq ⟨p, hp⟩) ht
        have h0 : pooledChunk pc = [] := by
          cases pc with
          | reqBody p => exact absurd ⟨p, rfl⟩ hreq
          | _ => rfl
        by_cases hdone : ∃ r, t.pc = .done r
        · exact .inl ⟨hdone, hto⟩
        · exact .inr ⟨fun r hr => hdone ⟨r, hr⟩, by rw [hto, hch, h0]⟩
    rcases ofPooled_cases s t with ⟨r, hr, he⟩ | ⟨hnd, he⟩
    · rcases hstep with ⟨-, hto⟩ | ⟨hnd, -⟩
      · rw [he] at hsome hnone ⊢
        apply hnone rfl
        rw [hi']
        show t.wire.toOrigin <+: _
        rw [hto]
        exact List.prefix_append _ _
      · exact absurd hr (hnd r)
    · rcases hstep with ⟨⟨r, hr⟩, -⟩ | ⟨-, hle⟩
      · exact absurd hr (hnd r)
      · rw [he] at hsome hnone ⊢
        exact hsome hout rfl hle
  · have hout : outgoing req s.pc = up.chunk := by rw [hpc]; rfl
    rcases up_chunk s.wire hup with ⟨c, hc, ⟨c', hc', hle⟩ | ⟨hc', hle⟩⟩ | ⟨hc, hc', hle⟩
    · exact hsome (hout.trans hc) ((joinBidi_outgoing up' down).trans hc') hle
    · refine hnone ((joinBidi_outgoing up' down).trans hc') ?_
      simp only [Handing, hout, hc] at hi
      rw [hi]
      exact hle
    · refine hnone ((joinBidi_outgoing up' down).trans hc') ?_
      simp only [Handing, hout, hc] at hi
      exact hle ▸ hi
  · have hout : outgoing req s.pc = up.chunk := by rw [hpc]; rfl
    have hto := (Down.sameUp s.wire down e).toOrigin
    cases hc : up.chunk with
    | some c =>
      exact hsome (hout.trans hc) ((joinBidi_outgoing up down').trans hc)
        (by simp only [hto, List.prefix_rfl])
    | none =>
      refine hnone ((joinBidi_outgoing up down').trans hc) ?_
      simp only [Handing, hout, hc] at hi
      exact hto ▸ hi
  · apply hnone rfl
    simpa only [Handing, outgoing, hpc] using hi

/-- Bytes read stay read. -/
theorem fromOrigin_step (hon : onSocket s.pc = true) (hs : step P req s l = some s') :
    s.wire.fromOrigin <+: s'.wire.fromOrigin := by
  rcases socket_cases hon hs with ⟨hpc, rfl, rfl⟩ | ⟨hpc, err, rfl⟩ | ⟨pc, e, t, hpc, rfl, ht, rfl⟩ |
    ⟨up, down, e, up', hpc, rfl, hup, rfl⟩ | ⟨up, down, e, down', hpc, rfl, hd, rfl⟩ |
    ⟨hpc, r, closed, rfl⟩
  · exact List.prefix_rfl
  · exact List.prefix_rfl
  · show s.wire.fromOrigin <+: t.wire.fromOrigin
    by_cases hreq : ∃ p, pc = .reqBody p
    · obtain ⟨p, rfl⟩ := hreq
      rw [(pooled_reqBody rfl ht).1]
    · exact (pooled_quiet (fun p hp => hreq ⟨p, hp⟩) ht).1
  · show s.wire.fromOrigin <+: (up.wire s.wire e).fromOrigin
    rw [(Up.sameDown s.wire up e).fromOrigin]
  · show s.wire.fromOrigin <+: (down.wire s.wire e).fromOrigin
    cases down with
    | head buf =>
      cases e with
      | read b => exact gotOrigin_fromOrigin _ b
      | _ => exact List.prefix_rfl
    | respond h rest => cases rest <;> cases e <;> exact List.prefix_rfl
    | leftover h => cases e <;> exact List.prefix_rfl
    | pump p => exact down_fromOrigin s.wire p e
    | done r => cases e <;> exact List.prefix_rfl
  · exact List.prefix_rfl

theorem route_step (hi : Route P req s) (hon : onSocket s.pc = true) (hs : step P req s l = some s') :
    Route P req s' := by
  have hjoin : (analyseRequest req).requestPoolable = false → ∀ up down w,
      Route P req { s with pc := joinBidi up down, wire := w } := by
    intro hp up down w
    rcases joinBidi_cases up down with ⟨h, -⟩ | ⟨-, u, -, h⟩ | ⟨-, e, -, h⟩ <;> rw [h]
    · exact hp
    · exact hp
    · trivial
  rcases socket_cases hon hs with ⟨hpc, rfl, rfl⟩ | ⟨hpc, err, rfl⟩ | ⟨pc, e, t, hpc, rfl, ht, rfl⟩ |
    ⟨up, down, e, up', hpc, rfl, hup, rfl⟩ | ⟨up, down, e, down', hpc, rfl, hd, rfl⟩ |
    ⟨hpc, r, closed, rfl⟩
  · simp only [Route, hpc] at hi
    obtain ⟨hw, hrel⟩ := hi
    unfold afterHead
    split
    · rename_i hp
      refine ⟨hp, fun r h => ?_, ?_⟩
      · simp only [Pooled.start] at h
        split at h <;> cases h
      · simpa [hw, hrel, hp, Pooled.start] using Pooled.inv_start P req
    · rename_i hp
      simpa [Route] using hp
  · trivial
  · simp only [Route, hpc] at hi
    obtain ⟨hp, -, hi⟩ := hi
    have hi' := Pooled.inv_step hi ht
    rcases ofPooled_cases s t with ⟨r, hr, he⟩ | ⟨hnd, he⟩ <;> rw [he]
    · trivial
    · exact ⟨hp, hnd, hi'⟩
  · simp only [Route, hpc] at hi
    exact hjoin hi _ _ _
  · simp only [Route, hpc] at hi
    exact hjoin hi _ _ _
  · trivial

/-! ## The pooled path -/

theorem requested_of_inv {t : Pooled.St} (hi : Pooled.Inv P req t) (hb : ∀ p, t.pc ≠ .reqBody p)
    (hd : ∀ r, t.pc ≠ .done r) : Pooled.Requested req t.wire := by
  cases hpc : t.pc with
  | reqBody p => exact absurd hpc (hb p)
  | done r => exact absurd hpc (hd r)
  | head buf =>
    simp only [Pooled.Inv, hpc] at hi
    exact hi.2.1
  | respond h rest =>
    simp only [Pooled.Inv, hpc] at hi
    exact hi.2.2.2.2.1
  | leftover h =>
    simp only [Pooled.Inv, hpc] at hi
    obtain ⟨-, -, -, raw, hd, hr⟩ := hi
    exact hr.requested
  | respBody h p =>
    simp only [Pooled.Inv, hpc] at hi
    obtain ⟨-, -, -, raw, hd, body, out, total, hr, -⟩ := hi
    exact hr.requested
  | closePooled h =>
    simp only [Pooled.Inv, hpc] at hi
    obtain ⟨-, -, -, raw, hd, body, total, hr, -⟩ := hi
    exact hr.requested
  | release h =>
    simp only [Pooled.Inv, hpc] at hi
    obtain ⟨-, -, -, raw, hd, body, total, hr, -⟩ := hi
    exact hr.requested
  | drain h p =>
    simp only [Pooled.Inv, hpc] at hi
    obtain ⟨-, -, -, -, raw, hd, body, out, hr, -⟩ := hi
    exact hr.requested
  | closeDrain h =>
    simp only [Pooled.Inv, hpc] at hi
    obtain ⟨-, -, -, raw, hd, body, out, hr⟩ := hi
    exact hr.requested

/-- **The head and no more than the body**, on the pooled path. -/
theorem handed_pooled (hi : Route P req s) (hon : onSocket s.pc = true)
    (hp : (analyseRequest req).requestPoolable = true) (hh : Handing req s handed) :
    ∃ body, handed = buildRequestHead req true ++ body ∧ body.length ≤ Pooled.bodyLen req := by
  cases hpc : s.pc with
  | writeHead =>
    simp only [Route, hpc] at hi
    simp only [Handing, outgoing, hpc, hi.1, hp] at hh
    exact ⟨[], by rw [hh, List.append_nil]; rfl, Nat.zero_le _⟩
  | pooled pc =>
    simp only [Route, hpc] at hi
    obtain ⟨-, hnd, hi⟩ := hi
    simp only [Handing, outgoing, hpc] at hh
    by_cases hreq : ∃ p, pc = .reqBody p
    · obtain ⟨p, rfl⟩ := hreq
      simp only [Pooled.Inv] at hi
      obtain ⟨-, -, sent, hto, hlt, -, hpump⟩ := hi
      refine ⟨sent ++ p.chunk, by rw [hh, hto, List.append_assoc]; rfl, ?_⟩
      rw [List.length_append]
      cases p with
      | read left =>
        simp only [Pump.chunk, List.length_nil]
        omega
      | write left chunk =>
        have hle := Nat.le_trans hpump.of_write.2.2.1 (want_le _)
        simp only [Pump.chunk]
        omega
    · obtain ⟨hto, hlen, -⟩ := requested_of_inv hi (fun p h => hreq ⟨p, h⟩) hnd
      have h0 : pooledChunk pc = [] := by
        cases pc with
        | reqBody p => exact absurd ⟨p, rfl⟩ hreq
        | _ => rfl
      exact ⟨s.wire.fromEdge.flatten, by rw [hh, h0, List.append_nil, hto], Nat.le_of_eq hlen⟩
  | bidi up down =>
    simp only [Route, hpc] at hi
    rw [hp] at hi
    cases hi
  | closeBidi =>
    simp only [Route, hpc] at hi
    rw [hp] at hi
    cases hi
  | _ => simp [onSocket, hpc] at hon

/-- A stream that gives its socket back has written all it was to write, and
has read one head and the body the head announces. -/
theorem finished_of_releasing {h : ResponseHead} (hi : Route P req s) (hpc : s.pc = .pooled (.release h))
    (hh : Handing req s handed) :
    (analyseRequest req).requestPoolable = true ∧ handed = s.wire.toOrigin ∧
      Pooled.Finished P req h s.wire := by
  simp only [Route, hpc] at hi
  obtain ⟨hp, -, hi⟩ := hi
  simp only [Pooled.Inv] at hi
  simp only [Handing, outgoing, hpc, pooledChunk, List.append_nil] at hh
  exact ⟨hp, hh, hi.2.2.2⟩

end Step
end Inbound
end QuickTunnel.Proxy
