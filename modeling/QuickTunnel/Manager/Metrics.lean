import QuickTunnel.Core.Tally
import QuickTunnel.Manager.Reconnect
import QuickTunnel.Proxy.Answer

/-!
# The tunnel's metrics

Every leg accepts streams, every stream runs in a task of its own, and all
of them add to four shared counters, which `metrics()` loads one after the
other. A step is one of the legs' (`Manager.Reconnect`), an accepted stream,
the result of `read_connect_request` on one, or a step of a stream's proxy
(`Inbound.step`). A stream goes on when its leg does not.

* `booked_step`: what a step of a stream adds to its own counts is what it
  has written.
* `counters_exact`: the counters stand at the sums over all streams, and all
  legs, of what each of them has done.
* `metrics_between`: each value that `metrics()` returns lies between what
  was done when the call began and when it ended.
-/
namespace QuickTunnel.Proxy.Inbound

open QuickTunnel.Stream

/-! ## What one stream counts -/

/-- What goes to the origin in front of the edge's bytes. -/
def headOf (req : ConnectRequest) : Bytes :=
  match req.connType with
  | .http | .websocket => buildRequestHead req (analyseRequest req).requestPoolable
  | .tcp => []

/-- What has been written to the origin behind the request head. -/
def bodyToOrigin (req : ConnectRequest) (w : Wire) : Nat := w.toOrigin.length - (headOf req).length

/-- What has been written to the edge behind a frame. -/
def bodyToEdge (w : Wire) : Nat := (bodyBytes w.toEdge).length

/-- Nothing has gone to the origin. -/
structure Early (w : Wire) : Prop where
  toOrigin : w.toOrigin = []
  bytesIn : w.bytesIn = 0

/-- The request head has gone to the origin, if there is one. -/
def Behind (req : ConnectRequest) (w : Wire) : Prop :=
  ∃ sent, w.toOrigin = headOf req ++ sent ∧ w.bytesIn = sent.length

/-- What a step has written, `sent` towards the origin and `out` towards the
edge, each counted as it is. -/
structure Wrote (w w' : Wire) (sent out : Bytes) : Prop where
  bytesIn : w'.bytesIn = w.bytesIn + sent.length
  bytesOut : w'.bytesOut = w.bytesOut + out.length
  toEdge : bodyBytes w'.toEdge = bodyBytes w.toEdge ++ out
  toOrigin : w'.toOrigin = w.toOrigin ++ sent

/-- The same with what it has written left open. -/
def Writes (w w' : Wire) : Prop := ∃ sent out, Wrote w w' sent out

theorem Writes.nothing {w w' : Wire} (h₁ : w'.bytesIn = w.bytesIn) (h₂ : w'.bytesOut = w.bytesOut)
    (h₃ : w'.toEdge = w.toEdge) (h₄ : w'.toOrigin = w.toOrigin) : Writes w w' :=
  ⟨[], [], h₁, h₂, by rw [h₃, List.append_nil], by rw [h₄, List.append_nil]⟩

theorem Writes.refl (w : Wire) : Writes w w := .nothing rfl rfl rfl rfl

theorem writes_gotOrigin (w : Wire) (b : Bytes) : Writes w (w.gotOrigin b) := by
  unfold Wire.gotOrigin
  split <;> exact .nothing rfl rfl rfl rfl

theorem writes_sentBody (w : Wire) (c : Bytes) : Writes w (w.sentBody c) :=
  ⟨[], c, rfl, rfl, by simp [Wire.sentBody], (List.append_nil _).symm⟩

theorem writes_up (w : Wire) (p : Pump) (e : Ev) : Writes w (w.up p e) := by
  cases p with
  | read l =>
    cases e with
    | read b =>
      simp only [Wire.up]
      split <;> exact .nothing rfl rfl rfl rfl
    | _ => exact .refl w
  | write l c =>
    cases e with
    | ok => exact ⟨c, [], rfl, rfl, (List.append_nil _).symm, rfl⟩
    | _ => exact .refl w

theorem writes_down (w : Wire) (p : Pump) (e : Ev) : Writes w (w.down p e) := by
  cases p with
  | read l =>
    cases e with
    | read b => exact writes_gotOrigin w b
    | _ => exact .refl w
  | write l c =>
    cases e with
    | ok => exact writes_sentBody w c
    | _ => exact .refl w

/-- The writes of a frame still to be made. -/
def pending : Pc → List EdgeWrite
  | .reject rest => rest
  | .accept rest => rest
  | .pooled (.respond _ rest) => rest
  | .bidi _ (.respond _ rest) => rest
  | .tcp _ (.respond _ rest) => rest
  | _ => []

theorem pending_bidi (up : Up) (down : Down) : pending (.bidi up down) = pending (.bidi .done down) := by
  cases down <;> rfl

theorem pending_tcp (up : Up) (down : Down) : pending (.tcp up down) = pending (.bidi .done down) := by
  cases down <;> rfl

/-- A write of a frame is no body byte. -/
theorem writes_frame {w : Wire} {x : EdgeWrite} {rest : List EdgeWrite} (h : bodyBytes (x :: rest) = []) :
    Writes w { w with toEdge := w.toEdge ++ [x] } ∧ bodyBytes rest = [] := by
  have hsplit : bodyBytes [x] ++ bodyBytes rest = [] := by
    rw [← bodyBytes_append]
    exact h
  obtain ⟨hx, hrest⟩ := List.append_eq_nil_iff.mp hsplit
  exact ⟨⟨[], [], rfl, rfl, by simp [hx], (List.append_nil _).symm⟩, hrest⟩

section Steps
variable {P : Httparse} {req : ConnectRequest} {s s' : St}

theorem stepFrame_writes {cont : List EdgeWrite → Pc} {after : Pc} {rest : List EdgeWrite} {e : Ev}
    (h : stepFrame s cont after rest e = some s') (hrest : bodyBytes rest = []) :
    Writes s.wire s'.wire ∧ (s'.pc = after ∨ (∃ r, s'.pc = .done r) ∨
      ∃ rest', s'.pc = cont rest' ∧ bodyBytes rest' = []) := by
  rcases stepFrame_cases h with ⟨x, rest', rfl, rfl⟩ | ⟨rfl, rfl⟩ | ⟨msg, err, -, rfl⟩
  · obtain ⟨hw, hr⟩ := writes_frame (w := s.wire) hrest
    exact ⟨hw, .inr (.inr ⟨rest', rfl, hr⟩)⟩
  · exact ⟨.refl _, .inl rfl⟩
  · exact ⟨.refl _, .inr (.inl ⟨_, rfl⟩)⟩

theorem afterLeftover_pending (h : ResponseHead) : pending (.pooled (Pooled.afterLeftover h)) = [] := by
  unfold Pooled.afterLeftover
  split
  · split <;> rfl
  · rfl

theorem afterRespond_pending (h : ResponseHead) : pending (.pooled (Pooled.afterRespond h)) = [] := by
  unfold Pooled.afterRespond
  split
  · rfl
  · exact afterLeftover_pending h

theorem pooled_writes {s t : Pooled.St} {e : Ev} (hp : bodyBytes (pending (.pooled s.pc)) = [])
    (hs : Pooled.step P s e = some t) :
    Writes s.wire t.wire ∧ bodyBytes (pending (.pooled t.pc)) = [] := by
  cases hpc : s.pc with
  | reqBody p =>
    simp only [Pooled.step, hpc, Option.map_eq_some_iff] at hs
    obtain ⟨o, -, rfl⟩ := hs
    cases o <;> exact ⟨writes_up _ _ _, rfl⟩
  | head buf =>
    simp only [Pooled.step, hpc, Option.map_eq_some_iff] at hs
    obtain ⟨o, -, rfl⟩ := hs
    cases e with
    | read tmp => cases o <;> exact ⟨writes_gotOrigin _ _, rfl⟩
    | _ => cases o <;> exact ⟨.refl _, rfl⟩
  | respond h rest =>
    rw [hpc] at hp
    cases e with
    | read b => simp [Pooled.step, hpc] at hs
    | fail msg =>
      simp only [Pooled.step, hpc, Option.some.injEq] at hs
      subst hs
      exact ⟨.refl _, rfl⟩
    | ok =>
      cases rest with
      | nil =>
        simp only [Pooled.step, hpc, Option.some.injEq] at hs
        subst hs
        exact ⟨.refl _, by rw [afterRespond_pending]; rfl⟩
      | cons x rest =>
        simp only [Pooled.step, hpc, Option.some.injEq] at hs
        subst hs
        exact writes_frame hp
  | leftover h =>
    cases e with
    | read b => simp [Pooled.step, hpc] at hs
    | fail msg =>
      simp only [Pooled.step, hpc, Option.some.injEq] at hs
      subst hs
      exact ⟨.refl _, rfl⟩
    | ok =>
      simp only [Pooled.step, hpc, Option.some.injEq] at hs
      subst hs
      exact ⟨writes_sentBody _ _, by rw [afterLeftover_pending]; rfl⟩
  | respBody h p =>
    simp only [Pooled.step, hpc, Option.map_eq_some_iff] at hs
    obtain ⟨o, -, rfl⟩ := hs
    cases o <;> exact ⟨writes_down _ _ _, rfl⟩
  | drain h p =>
    simp only [Pooled.step, hpc, Option.map_eq_some_iff] at hs
    obtain ⟨o, -, rfl⟩ := hs
    cases o <;> exact ⟨writes_down _ _ _, rfl⟩
  | done r => simp [Pooled.step, hpc] at hs
  | _ =>
    cases e <;> simp only [Pooled.step, hpc, Option.some.injEq, reduceCtorEq] at hs <;> subst hs <;>
      exact ⟨.nothing rfl rfl rfl rfl, rfl⟩

theorem up_half_writes (w : Wire) (up : Up) (e : Ev) : Writes w (up.wire w e) := by
  cases up with
  | pump p => exact writes_up w p e
  | shutdown => exact .nothing rfl rfl rfl rfl
  | done => exact .refl w

theorem down_half_writes {w : Wire} {down down' : Down} {e : Ev}
    (hp : bodyBytes (pending (.bidi .done down)) = []) (hs : down.step P e = some down') :
    Writes w (down.wire w e) ∧ bodyBytes (pending (.bidi .done down')) = [] := by
  cases down with
  | head buf =>
    simp only [Down.step, Option.map_eq_some_iff] at hs
    obtain ⟨o, -, rfl⟩ := hs
    have hw : Writes w (Down.wire w (.head buf) e) := by
      cases e with
      | read b => exact writes_gotOrigin _ _
      | _ => exact .refl _
    cases o <;> exact ⟨hw, rfl⟩
  | respond h rest =>
    cases e with
    | read b => cases rest <;> cases hs
    | fail msg => cases rest <;> cases hs <;> exact ⟨.refl _, rfl⟩
    | ok =>
      cases rest with
      | nil =>
        cases hs
        refine ⟨.refl _, ?_⟩
        split <;> rfl
      | cons x rest =>
        cases hs
        exact writes_frame hp
  | leftover h => cases e <;> cases hs <;> exact ⟨by first | exact writes_sentBody _ _ | exact .refl _, rfl⟩
  | pump p =>
    simp only [Down.step, Option.map_eq_some_iff] at hs
    obtain ⟨o, -, rfl⟩ := hs
    cases o <;> exact ⟨writes_down w p e, rfl⟩
  | done r => cases e <;> cases hs

/-- What the origin has got where the stream is. -/
def Phase (req : ConnectRequest) (w : Wire) : Pc → Prop
  | .acquire => Early w ∧ req.connType ≠ .tcp
  | .writeHead => Early w ∧ req.connType ≠ .tcp
  | .reject _ => Early w
  | .connect => Early w ∧ req.connType = .tcp
  | .accept _ => Early w ∧ req.connType = .tcp
  | .done _ => Early w ∨ Behind req w
  | _ => Behind req w

/-- The stream has counted what it has forwarded. -/
structure Booked (req : ConnectRequest) (s : St) : Prop where
  frame : bodyBytes (pending s.pc) = []
  bytesOut : s.wire.bytesOut = bodyToEdge s.wire
  phase : Phase req s.wire s.pc

theorem Booked.bytesIn (h : Booked req s) : s.wire.bytesIn = bodyToOrigin req s.wire := by
  have hcases : Early s.wire ∨ Behind req s.wire := by
    have hp := h.phase
    cases hpc : s.pc <;> rw [hpc] at hp
    case acquire => exact .inl hp.1
    case writeHead => exact .inl hp.1
    case reject => exact .inl hp
    case connect => exact .inl hp.1
    case accept => exact .inl hp.1
    case done => exact hp
    all_goals exact .inr hp
  rcases hcases with ⟨h₁, h₂⟩ | ⟨sent, h₁, h₂⟩
  · simp [bodyToOrigin, h₁, h₂]
  · simp [bodyToOrigin, h₁, h₂]

theorem booked_start (req : ConnectRequest) : Booked req (start req) := by
  have hpc : (req.connType ≠ .tcp ∧ (start req).pc = .acquire) ∨
      (req.connType = .tcp ∧ (start req).pc = .connect) := by
    cases h : req.connType <;> simp [start, h]
  obtain ⟨ht, hpc⟩ | ⟨ht, hpc⟩ := hpc
  · exact ⟨by rw [hpc]; rfl, rfl, by rw [hpc]; exact ⟨⟨rfl, rfl⟩, ht⟩⟩
  · exact ⟨by rw [hpc]; rfl, rfl, by rw [hpc]; exact ⟨⟨rfl, rfl⟩, ht⟩⟩

theorem Behind.writes {w w' : Wire} (hb : Behind req w) (hw : Writes w w') : Behind req w' := by
  obtain ⟨sent, h₁, h₂⟩ := hb
  obtain ⟨more, out, hw⟩ := hw
  refine ⟨sent ++ more, ?_, ?_⟩
  · rw [hw.toOrigin, h₁, List.append_assoc]
  · rw [hw.bytesIn, h₂, List.length_append]

theorem Writes.bytesOut {w w' : Wire} (hw : Writes w w') (h : w.bytesOut = bodyToEdge w) :
    w'.bytesOut = bodyToEdge w' := by
  obtain ⟨sent, out, hw⟩ := hw
  rw [hw.bytesOut, h, bodyToEdge, bodyToEdge, hw.toEdge, List.length_append]

theorem Writes.grows {w w' : Wire} (hw : Writes w w') :
    w.bytesIn ≤ w'.bytesIn ∧ w.bytesOut ≤ w'.bytesOut := by
  obtain ⟨sent, out, hw⟩ := hw
  rw [hw.bytesIn, hw.bytesOut]
  omega

/-- A step that only writes leaves the books right, wherever it leads behind
the request head. -/
theorem Booked.behind (hb : Booked req s) (hw : Writes s.wire s'.wire) (hh : Behind req s.wire)
    (hf : bodyBytes (pending s'.pc) = []) (hp : Behind req s'.wire → Phase req s'.wire s'.pc) :
    Booked req s' ∧ s.wire.bytesIn ≤ s'.wire.bytesIn ∧ s.wire.bytesOut ≤ s'.wire.bytesOut :=
  ⟨⟨hf, hw.bytesOut hb.bytesOut, hp (hh.writes hw)⟩, hw.grows⟩

/-- The same in front of it. -/
theorem Booked.early (hb : Booked req s) (hw : Writes s.wire s'.wire) (hf : bodyBytes (pending s'.pc) = [])
    (hp : Phase req s'.wire s'.pc) :
    Booked req s' ∧ s.wire.bytesIn ≤ s'.wire.bytesIn ∧ s.wire.bytesOut ≤ s'.wire.bytesOut :=
  ⟨⟨hf, hw.bytesOut hb.bytesOut, hp⟩, hw.grows⟩

theorem stepFrame_early {cont : List EdgeWrite → Pc} {after : Pc} {rest : List EdgeWrite} {e : Ev}
    (h : stepFrame s cont after rest e = some s') (he : Early s.wire) : Early s'.wire := by
  rcases stepFrame_cases h with ⟨x, rest', rfl, rfl⟩ | ⟨rfl, rfl⟩ | ⟨msg, err, -, rfl⟩ <;>
    exact ⟨he.toOrigin, he.bytesIn⟩

/-- No frame is under way where the request head has just gone out. -/
theorem afterHead_pending (req : ConnectRequest) : pending (afterHead req) = [] := by
  unfold afterHead Pooled.start
  split
  · split <;> rfl
  · rfl

theorem phase_afterHead {w : Wire} (h : Behind req w) : Phase req w (afterHead req) := by
  unfold afterHead
  split <;> exact h

theorem joinBidi_booked {w : Wire} {up : Up} {down : Down} (hf : bodyBytes (pending (.bidi .done down)) = [])
    (hh : Behind req w) :
    bodyBytes (pending (joinBidi up down)) = [] ∧ Phase req w (joinBidi up down) := by
  rcases joinBidi_cases up down with ⟨hj, -⟩ | ⟨-, u, -, hj⟩ | ⟨-, err, -, hj⟩ <;> rw [hj]
  · exact ⟨by rw [pending_bidi]; exact hf, hh⟩
  · exact ⟨rfl, hh⟩
  · exact ⟨rfl, .inr hh⟩

theorem joinTcp_booked {w : Wire} {up : Up} {down : Down} (hf : bodyBytes (pending (.bidi .done down)) = [])
    (hh : Behind req w) :
    bodyBytes (pending (joinTcp up down)) = [] ∧ Phase req w (joinTcp up down) := by
  rcases joinTcp_cases up down with ⟨hj, -⟩ | ⟨-, r, -, hj⟩ <;> rw [hj]
  · exact ⟨by rw [pending_tcp]; exact hf, hh⟩
  · exact ⟨rfl, .inr hh⟩

/-- The step of the stream's only future. -/
theorem main_booked {e : Ev} (hb : Booked req s) (hs : step P req s (.main e) = some s') :
    Booked req s' ∧ s.wire.bytesIn ≤ s'.wire.bytesIn ∧ s.wire.bytesOut ≤ s'.wire.bytesOut := by
  have hp := hb.phase
  have hf := hb.frame
  cases hpc : s.pc with
  | acquire =>
    rw [hpc] at hp
    cases e <;> simp only [step, hpc, Option.some.injEq, reduceCtorEq] at hs <;> subst hs
    · exact hb.early (.refl _) rfl hp
    · exact hb.early (.refl _) rfl hp.1
  | reject rest =>
    rw [hpc] at hp hf
    simp only [step, hpc] at hs
    obtain ⟨hw, hpc' | ⟨r, hpc'⟩ | ⟨rest', hpc', hr⟩⟩ := stepFrame_writes hs hf
    · exact hb.early hw (by rw [hpc']; rfl) (by rw [hpc']; exact .inl (stepFrame_early hs hp))
    · exact hb.early hw (by rw [hpc']; rfl) (by rw [hpc']; exact .inl (stepFrame_early hs hp))
    · exact hb.early hw (by rw [hpc']; exact hr) (by rw [hpc']; exact stepFrame_early hs hp)
  | writeHead =>
    rw [hpc] at hp
    obtain ⟨he, ht⟩ := hp
    cases e <;> simp only [step, hpc, Option.some.injEq, reduceCtorEq] at hs <;> subst hs
    · have hh : headOf req = buildRequestHead req (analyseRequest req).requestPoolable := by
        unfold headOf
        cases hc : req.connType <;> first | rfl | exact absurd hc ht
      refine ⟨⟨?_, hb.bytesOut, phase_afterHead ⟨[], ?_, he.bytesIn⟩⟩, Nat.le_refl _, Nat.le_refl _⟩
      · show bodyBytes (pending (afterHead req)) = []
        rw [afterHead_pending]
        rfl
      · simp [he.toOrigin, hh]
    · exact hb.early (.refl _) rfl (.inl he)
  | pooled pc =>
    rw [hpc] at hp hf
    simp only [step, hpc, Option.map_eq_some_iff] at hs
    obtain ⟨t, ht, rfl⟩ := hs
    obtain ⟨hw, hf'⟩ := pooled_writes (s := ⟨pc, s.wire, s.released⟩) hf ht
    rcases ofPooled_cases s t with ⟨r, -, ho⟩ | ⟨-, ho⟩ <;> rw [ho]
    · exact hb.behind hw hp rfl .inr
    · exact hb.behind hw hp hf' id
  | closeBidi =>
    rw [hpc] at hp
    cases e <;> simp only [step, hpc, Option.some.injEq, reduceCtorEq] at hs <;> subst hs
    · exact hb.behind (.nothing rfl rfl rfl rfl) hp rfl .inr
    · exact hb.behind (.refl _) hp rfl .inr
  | connect =>
    rw [hpc] at hp
    cases e <;> simp only [step, hpc, Option.some.injEq, reduceCtorEq] at hs <;> subst hs
    · exact hb.early (.refl _) rfl hp
    · exact hb.early (.refl _) rfl (.inl hp.1)
  | accept rest =>
    rw [hpc] at hp hf
    obtain ⟨he, ht⟩ := hp
    simp only [step, hpc] at hs
    have he' := stepFrame_early hs he
    obtain ⟨hw, hpc' | ⟨r, hpc'⟩ | ⟨rest', hpc', hr⟩⟩ := stepFrame_writes hs hf
    · refine hb.early hw (by rw [hpc']; rfl) ?_
      rw [hpc']
      -- there is no head on a TCP stream
      exact ⟨[], by rw [headOf, ht, he'.toOrigin]; rfl, he'.bytesIn⟩
    · exact hb.early hw (by rw [hpc']; rfl) (by rw [hpc']; exact .inl he')
    · exact hb.early hw (by rw [hpc']; exact hr) (by rw [hpc']; exact ⟨he', ht⟩)
  | bidi up down => simp [step, hpc] at hs
  | tcp up down => simp [step, hpc] at hs
  | done r => simp [step, hpc] at hs

/-- **A step of a stream** adds to its counts what it has written. -/
theorem booked_step {l : Label} (hb : Booked req s) (hs : step P req s l = some s') :
    Booked req s' ∧ s.wire.bytesIn ≤ s'.wire.bytesIn ∧ s.wire.bytesOut ≤ s'.wire.bytesOut := by
  have hp := hb.phase
  have hf := hb.frame
  cases l with
  | main e => exact main_booked hb hs
  | timeout =>
    cases hpc : s.pc <;> rw [hpc] at hp <;>
      simp only [step, hpc, Option.some.injEq, reduceCtorEq] at hs
    subst hs
    exact hb.early (.refl _) rfl hp.1
  | up e =>
    cases hpc : s.pc <;> rw [hpc] at hp hf <;>
      simp only [step, hpc, Option.map_eq_some_iff, reduceCtorEq] at hs
    case bidi up down =>
      rw [pending_bidi] at hf
      obtain ⟨up', -, rfl⟩ := hs
      have hw := up_half_writes s.wire up e
      exact hb.behind hw hp (joinBidi_booked hf (hp.writes hw)).1 fun h => (joinBidi_booked hf h).2
    case tcp up down =>
      rw [pending_tcp] at hf
      obtain ⟨up', -, rfl⟩ := hs
      have hw := up_half_writes s.wire up e
      exact hb.behind hw hp (joinTcp_booked hf (hp.writes hw)).1 fun h => (joinTcp_booked hf h).2
  | down e =>
    cases hpc : s.pc <;> rw [hpc] at hp hf <;>
      simp only [step, hpc, Option.map_eq_some_iff, reduceCtorEq] at hs
    case bidi up down =>
      rw [pending_bidi] at hf
      obtain ⟨down', hd, rfl⟩ := hs
      obtain ⟨hw, hf'⟩ := down_half_writes (w := s.wire) hf hd
      exact hb.behind hw hp (joinBidi_booked hf' (hp.writes hw)).1 fun h => (joinBidi_booked hf' h).2
    case tcp up down =>
      rw [pending_tcp] at hf
      obtain ⟨down', hd, rfl⟩ := hs
      obtain ⟨hw, hf'⟩ := down_half_writes (w := s.wire) hf hd
      exact hb.behind hw hp (joinTcp_booked hf' (hp.writes hw)).1 fun h => (joinTcp_booked hf' h).2

end Steps

end QuickTunnel.Proxy.Inbound

namespace QuickTunnel.Manager.Metrics

open QuickTunnel.Proxy QuickTunnel.Stream
open QuickTunnel.Proxy.Inbound (bodyToOrigin bodyToEdge Booked)

/-- The task of an accepted stream: at `read_connect_request`, ended by its
error, or at what the request asks for.
mirrors src/proxy.rs:60-71 -/
inductive Task
  | reading
  | rejected
  | serving (req : ConnectRequest) (st : Inbound.St)

/-- mirrors src/proxy.rs:62-71 -/
def Task.behind : Option ConnectRequest → Task
  | some req => .serving req (Inbound.start req)
  | none => .rejected

/-- What the task has forwarded to the origin behind the request head. -/
def Task.bytesIn : Task → Nat
  | .serving req st => bodyToOrigin req st.wire
  | _ => 0

/-- What the task has forwarded to the edge behind the response frame. -/
def Task.bytesOut : Task → Nat
  | .serving _ st => bodyToEdge st.wire
  | _ => 0

/-- The legs, the streams accepted so far, and the four counters.
mirrors src/supervisor.rs:32-37, src/manager.rs:78-79 -/
structure St where
  legs : Reconnect.St
  streams : List Task := []
  streamsTotal : UInt64 := 0
  bytesIn : UInt64 := 0
  bytesOut : UInt64 := 0
  reconnects : UInt64 := 0

/-- `accept`: leg `i` gets a stream from `conn.accept_bi()`; `request`: what
`read_connect_request` returned on a stream. -/
inductive Label
  | manager (l : Manager.Label)
  | accept (i : Nat)
  | request (k : Nat) (r : Option ConnectRequest)
  | stream (k : Nat) (l : Inbound.Label)

def start (haConnections : UInt8) : St where
  legs := Reconnect.start haConnections

/-- Whether a leg polls `conn.accept_bi()`. -/
def Leg.accepting : Leg → Bool
  | .supervise _ true => true
  | _ => false

/-- What a step of the legs adds to `reconnects`. mirrors src/manager.rs:378 -/
def reconnected (s : Reconnect.St) : Manager.Label → Nat
  | .leg i l =>
    match s.tasks[i]? with
    | some t => Reconnect.Leg.counts t.leg l
    | none => 0
  | _ => 0

/-- mirrors src/supervisor.rs:85-102, src/proxy.rs:53-72 -/
def step (P : Httparse) (s : St) : Label → Option St
  | .manager l => (Reconnect.step s.legs l).map fun legs' =>
      { s with legs := legs', reconnects := fetchAdd s.reconnects (reconnected s.legs l) }
  | .accept i => (s.legs.tasks[i]?).bind fun t =>
      if Leg.accepting t.leg then
        some { s with streams := s.streams ++ [.reading], streamsTotal := fetchAdd s.streamsTotal 1 }
      else none
  | .request k r =>
    match s.streams[k]? with
    | some .reading =>
      some { s with streams := s.streams.set k (.behind r) }
    | _ => none
  | .stream k l =>
    match s.streams[k]? with
    | some (.serving req st) => (Inbound.step P req st l).map fun st' =>
        { s with
          streams := s.streams.set k (.serving req st')
          -- the one `fetch_add` of the step, if it has any
          bytesIn := fetchAdd s.bytesIn (st'.wire.bytesIn - st.wire.bytesIn)
          bytesOut := fetchAdd s.bytesOut (st'.wire.bytesOut - st.wire.bytesOut) }
    | _ => none

def tunnel (P : Httparse) (haConnections : UInt8) : LTS St Label :=
  LTS.ofFn (· = start haConnections) (step P)

/-- mirrors src/manager.rs:44-51 -/
structure TunnelMetrics where
  streamsTotal : UInt64
  bytesIn : UInt64
  bytesOut : UInt64
  reconnects : UInt64
  deriving DecidableEq, Repr

/-- The four loads, each at a state of its own.
mirrors src/supervisor.rs:46-52, src/manager.rs:83-91 -/
def metrics (s₁ s₂ s₃ s₄ : St) : TunnelMetrics := ⟨s₁.streamsTotal, s₂.bytesIn, s₃.bytesOut, s₄.reconnects⟩

/-! ## What the counters stand at -/

/-- What has been done so far. -/
structure Done where
  streams : Nat
  bytesIn : Nat
  bytesOut : Nat
  reconnects : Nat
  deriving DecidableEq, Repr

/-- Read off the streams and the histories of the legs. -/
def St.done (s : St) : Done where
  streams := s.streams.length
  bytesIn := total Task.bytesIn s.streams
  bytesOut := total Task.bytesOut s.streams
  reconnects := total (fun t => Reconnect.reconnections t.history) s.legs.tasks

/-- Every counter stands at what has been done. -/
structure Exact (s : St) : Prop where
  streams : Tally s.streamsTotal s.done.streams
  bytesIn : Tally s.bytesIn s.done.bytesIn
  bytesOut : Tally s.bytesOut s.done.bytesOut
  reconnects : Tally s.reconnects s.done.reconnects

/-- A step takes every counter on together with what it counts. -/
structure Advance (s s' : St) : Prop where
  streams : Advances s.streamsTotal s'.streamsTotal s.done.streams s'.done.streams
  bytesIn : Advances s.bytesIn s'.bytesIn s.done.bytesIn s'.done.bytesIn
  bytesOut : Advances s.bytesOut s'.bytesOut s.done.bytesOut s'.done.bytesOut
  reconnects : Advances s.reconnects s'.reconnects s.done.reconnects s'.done.reconnects

theorem Advance.exact {s s' : St} (h : Advance s s') (he : Exact s) : Exact s' :=
  ⟨h.streams.tally he.streams, h.bytesIn.tally he.bytesIn, h.bytesOut.tally he.bytesOut,
    h.reconnects.tally he.reconnects⟩

/-- Every task has counted what it has forwarded. -/
def Task.Booked : Task → Prop
  | .serving req st => Inbound.Booked req st
  | _ => True

structure Inv (n : UInt8) (s : St) : Prop where
  legs : (Reconnect.reactors n).Reachable s.legs
  tasks : ∀ t ∈ s.streams, t.Booked

section Steps
variable {P : Httparse} {n : UInt8} {s s' : St}

theorem start_exact (n : UInt8) : Exact (start n) := by
  have hlegs : (start n).done.reconnects = 0 :=
    (Reconnect.inv_reachable (LTS.Reachable.of_init rfl)).counter.symm
  exact ⟨.zero, .zero, .zero, by rw [hlegs]; exact .zero⟩

/-- The legs' own count. -/
theorem legs_reconnects {t t' : Reconnect.St} {l : Manager.Label} (hs : Reconnect.step t l = some t') :
    t'.reconnects = t.reconnects + reconnected t l := by
  cases l with
  | leg i l =>
    simp only [Reconnect.step, Option.bind_eq_some_iff, Option.map_eq_some_iff] at hs
    obtain ⟨x, hx, leg', -, rfl⟩ := hs
    simp [reconnected, hx]
  | _ =>
    simp only [Reconnect.step, Option.ite_none_right_eq_some, Option.some.injEq] at hs
    obtain ⟨-, rfl⟩ := hs
    rfl

theorem manager_step {l : Manager.Label} (hi : Inv n s) (hs : step P s (.manager l) = some s') :
    Inv n s' ∧ Advance s s' := by
  simp only [step, Option.map_eq_some_iff] at hs
  obtain ⟨legs', hl, rfl⟩ := hs
  have hreach : (Reconnect.reactors n).Reachable legs' := hi.legs.step hl
  have hold : s.legs.reconnects = s.done.reconnects := (Reconnect.inv_reachable hi.legs).counter
  have hnew : total (fun t => Reconnect.reconnections t.history) legs'.tasks = legs'.reconnects :=
    (Reconnect.inv_reachable hreach).counter.symm
  refine ⟨⟨hreach, hi.tasks⟩, .still _ rfl, .still _ rfl, .still _ rfl, reconnected s.legs l, rfl, ?_⟩
  rw [← hold, ← legs_reconnects hl]
  exact hnew

theorem accept_step {i : Nat} (hi : Inv n s) (hs : step P s (.accept i) = some s') :
    Inv n s' ∧ Advance s s' := by
  simp only [step, Option.bind_eq_some_iff, Option.ite_none_right_eq_some, Option.some.injEq] at hs
  obtain ⟨t, -, -, rfl⟩ := hs
  refine ⟨⟨hi.legs, ?_⟩, ⟨1, rfl, List.length_append⟩, .still _ (total_snoc _ _),
    .still _ (total_snoc _ _), .still _ rfl⟩
  intro t ht
  rcases List.mem_append.mp ht with ht | ht
  · exact hi.tasks t ht
  · obtain rfl := List.mem_singleton.mp ht
    trivial

theorem request_step {k : Nat} {r : Option ConnectRequest} (hi : Inv n s)
    (hs : step P s (.request k r) = some s') : Inv n s' ∧ Advance s s' := by
  simp only [step] at hs
  split at hs <;> cases hs
  rename_i hk
  refine ⟨⟨hi.legs, ?_⟩, .still _ List.length_set, ?_, ?_, .still _ rfl⟩
  · intro t ht
    rcases List.mem_or_eq_of_mem_set ht with ht | rfl
    · exact hi.tasks t ht
    · cases r with
      | some req => exact Inbound.booked_start req
      | none => trivial
  · refine .still _ (total_set_same hk ?_)
    cases r with
    | some req => exact (Inbound.booked_start req).bytesIn.symm
    | none => rfl
  · refine .still _ (total_set_same hk ?_)
    cases r <;> rfl

theorem stream_step {k : Nat} {l : Inbound.Label} (hi : Inv n s)
    (hs : step P s (.stream k l) = some s') : Inv n s' ∧ Advance s s' := by
  simp only [step] at hs
  split at hs
  on_goal 2 => cases hs
  rename_i req st hk
  obtain ⟨st', hst, rfl⟩ := Option.map_eq_some_iff.mp hs
  have hb : Inbound.Booked req st := hi.tasks _ (List.mem_of_getElem? hk)
  obtain ⟨hb', hin, hout⟩ := Inbound.booked_step hb hst
  refine ⟨⟨hi.legs, ?_⟩, .still _ List.length_set, ⟨_, rfl, total_set hk ?_⟩,
    ⟨_, rfl, total_set hk ?_⟩, .still _ rfl⟩
  · intro t ht
    rcases List.mem_or_eq_of_mem_set ht with ht | rfl
    · exact hi.tasks t ht
    · exact hb'
  · show bodyToOrigin req st'.wire = bodyToOrigin req st.wire + _
    rw [← hb'.bytesIn, ← hb.bytesIn]
    omega
  · show bodyToEdge st'.wire = bodyToEdge st.wire + _
    rw [← hb'.bytesOut, ← hb.bytesOut]
    omega

theorem inv_step {l : Label} (hi : Inv n s) (hs : step P s l = some s') : Inv n s' ∧ Advance s s' := by
  cases l with
  | manager l => exact manager_step hi hs
  | accept i => exact accept_step hi hs
  | request k r => exact request_step hi hs
  | stream k l => exact stream_step hi hs

theorem inv_reachable (h : (tunnel P n).Reachable s) : Inv n s ∧ Exact s := by
  refine LTS.Inductive.reachable (M := tunnel P n) (I := fun s => Inv n s ∧ Exact s) ⟨?_, ?_⟩ h
  · intro s heq
    subst heq
    exact ⟨⟨.of_init rfl, by simp [start]⟩, start_exact n⟩
  · intro s l s' hi hs
    obtain ⟨hi', ha⟩ := inv_step hi.1 hs
    exact ⟨hi', ha.exact hi.2⟩

/-- **The counters are exact** up to their 64 bits: over all legs and all
streams, in any interleaving, they stand at what has been done. -/
theorem counters_exact (h : (tunnel P n).Reachable s) :
    s.streamsTotal.toNat = s.streams.length % 2 ^ 64 ∧
      s.bytesIn.toNat = total Task.bytesIn s.streams % 2 ^ 64 ∧
      s.bytesOut.toNat = total Task.bytesOut s.streams % 2 ^ 64 ∧
      s.reconnects.toNat = total (fun t => Reconnect.reconnections t.history) s.legs.tasks % 2 ^ 64 := by
  have he := (inv_reachable h).2
  exact ⟨he.streams.toNat, he.bytesIn.toNat, he.bytesOut.toNat, he.reconnects.toNat⟩

end Steps

/-! ## What a caller of `metrics()` sees -/

/-- Nothing is undone. -/
structure Done.Le (d d' : Done) : Prop where
  streams : d.streams ≤ d'.streams
  bytesIn : d.bytesIn ≤ d'.bytesIn
  bytesOut : d.bytesOut ≤ d'.bytesOut
  reconnects : d.reconnects ≤ d'.reconnects

/-- No counter has wrapped. -/
structure Done.Fits (d : Done) : Prop where
  streams : d.streams < 2 ^ 64
  bytesIn : d.bytesIn < 2 ^ 64
  bytesOut : d.bytesOut < 2 ^ 64
  reconnects : d.reconnects < 2 ^ 64

/-- The numbers of a snapshot. -/
def TunnelMetrics.done (m : TunnelMetrics) : Done :=
  ⟨m.streamsTotal.toNat, m.bytesIn.toNat, m.bytesOut.toNat, m.reconnects.toNat⟩

section Snapshots
variable {P : Httparse} {n : UInt8} {s s' s₁ s₂ s₃ s₄ : St}

theorem Done.Le.trans {a b c : Done} (h : a.Le b) (h' : b.Le c) : a.Le c :=
  ⟨Nat.le_trans h.streams h'.streams, Nat.le_trans h.bytesIn h'.bytesIn,
    Nat.le_trans h.bytesOut h'.bytesOut, Nat.le_trans h.reconnects h'.reconnects⟩

/-- Along a run nothing is undone. -/
theorem done_grows {ls : List Label} (hr : (tunnel P n).Run s ls s') (hi : Inv n s) : s.done.Le s'.done := by
  have hgrows : ∀ f : Done → Nat, (∀ s s' : St, Advance s s' → f s.done ≤ f s'.done) → f s.done ≤ f s'.done := by
    intro f hf
    refine hr.grows (I := Inv n) (f := fun s => f s.done) ?_ hi
    intro s l s' hi hs
    obtain ⟨hi', ha⟩ := inv_step hi hs
    exact ⟨hi', hf s s' ha⟩
  exact ⟨hgrows Done.streams fun _ _ h => h.streams.le, hgrows Done.bytesIn fun _ _ h => h.bytesIn.le,
    hgrows Done.bytesOut fun _ _ h => h.bytesOut.le, hgrows Done.reconnects fun _ _ h => h.reconnects.le⟩

theorem Done.Fits.of_le {d d' : Done} (h : d'.Fits) (hle : d.Le d') : d.Fits :=
  ⟨Nat.lt_of_le_of_lt hle.streams h.streams, Nat.lt_of_le_of_lt hle.bytesIn h.bytesIn,
    Nat.lt_of_le_of_lt hle.bytesOut h.bytesOut, Nat.lt_of_le_of_lt hle.reconnects h.reconnects⟩

/-- **A call of `metrics()`** while everything goes on: each of its values
lies between what was done when the call began and when it ended. -/
theorem metrics_between (h : (tunnel P n).Reachable s₁) {ls₂ ls₃ ls₄ : List Label}
    (h₂ : (tunnel P n).Run s₁ ls₂ s₂) (h₃ : (tunnel P n).Run s₂ ls₃ s₃) (h₄ : (tunnel P n).Run s₃ ls₄ s₄)
    (hfits : s₄.done.Fits) :
    s₁.done.Le (metrics s₁ s₂ s₃ s₄).done ∧ (metrics s₁ s₂ s₃ s₄).done.Le s₄.done := by
  have hr₂ := h.run h₂
  have hr₃ := hr₂.run h₃
  have hle₂ := done_grows h₂ (inv_reachable h).1
  have hle₃ := done_grows h₃ (inv_reachable hr₂).1
  have hle₄ := done_grows h₄ (inv_reachable hr₃).1
  have hs := (inv_reachable h).2.streams.exact (hfits.of_le (hle₂.trans (hle₃.trans hle₄))).streams
  have hin := (inv_reachable hr₂).2.bytesIn.exact (hfits.of_le (hle₃.trans hle₄)).bytesIn
  have hout := (inv_reachable hr₃).2.bytesOut.exact (hfits.of_le hle₄).bytesOut
  have hre := (inv_reachable (hr₃.run h₄)).2.reconnects.exact hfits.reconnects
  have heq : (metrics s₁ s₂ s₃ s₄).done =
      ⟨s₁.done.streams, s₂.done.bytesIn, s₃.done.bytesOut, s₄.done.reconnects⟩ := by
    simp only [TunnelMetrics.done, metrics, hs, hin, hout, hre]
  rw [heq]
  exact ⟨⟨Nat.le_refl _, hle₂.bytesIn, (hle₂.trans hle₃).bytesOut, (hle₂.trans (hle₃.trans hle₄)).reconnects⟩,
    ⟨(hle₂.trans (hle₃.trans hle₄)).streams, (hle₃.trans hle₄).bytesIn, hle₄.bytesOut, Nat.le_refl _⟩⟩

end Snapshots

/-- A stream is accepted and asks for TCP, `hey` goes to the origin, another
stream is accepted. -/
def relayed : List Label :=
  [.manager (.leg 0 .run), .manager (.leg 0 .check), .accept 0,
    .request 0 (some ⟨[], .tcp, []⟩), .stream 0 (.main .ok), .stream 0 (.main .ok), .stream 0 (.main .ok),
    .stream 0 (.main .ok), .stream 0 (.main .ok), .stream 0 (.up (.read [104, 101, 121])),
    .stream 0 (.up .ok), .accept 0]

/-- The state behind the first `k` of them. -/
def relayedTo (k : Nat) : St :=
  (LTS.exec (step refHttparse) (start 1) (relayed.take k)).getD (start 1)

theorem counters_exact_relayed : (relayedTo 12).streamsTotal.toNat = 2 ∧ (relayedTo 12).bytesIn.toNat = 3 := by
  have h : LTS.exec (step refHttparse) (start 1) relayed = some (relayedTo 12) := rfl
  obtain ⟨hs, hin, -⟩ := counters_exact (LTS.reachable_of_exec _ _ _ h)
  exact ⟨hs, hin⟩

theorem metrics_between_relayed : metrics (relayedTo 3) (relayedTo 11) (relayedTo 12) (relayedTo 12) = ⟨1, 3, 0, 0⟩ ∧
    (relayedTo 3).done.Le ⟨1, 3, 0, 0⟩ ∧ Done.Le ⟨1, 3, 0, 0⟩ (relayedTo 12).done := by
  have h₁ : LTS.exec (step refHttparse) (start 1) (relayed.take 3) = some (relayedTo 3) := rfl
  have h₂ : LTS.exec (step refHttparse) (relayedTo 3) ((relayed.drop 3).take 8) = some (relayedTo 11) := rfl
  have h₃ : LTS.exec (step refHttparse) (relayedTo 11) [.accept 0] = some (relayedTo 12) := rfl
  exact ⟨rfl, metrics_between (LTS.reachable_of_exec _ _ _ h₁) (LTS.run_of_exec h₂) (LTS.run_of_exec h₃)
    (.nil _) ⟨by decide, by decide, by decide, by decide⟩⟩

end QuickTunnel.Manager.Metrics
