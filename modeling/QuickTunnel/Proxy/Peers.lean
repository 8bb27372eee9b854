import QuickTunnel.Proxy.EofPropagation
import Mathlib.Algebra.Ring.Nat

/-!
# A stream and its two peers

What an edge and an origin send on one stream, however they cut it, and
what the stream makes of it.

* `proxy_reads`: a step of the stream neither loses nor invents a byte that
  a peer has sent: what has been read and what waits stay the same together.
* `proxy_spends`: every step of the stream, failures included, takes
  `budget` down.
* `stream_bounded`: so a stream takes no more steps than its peers' bytes
  pay for, whatever fails and wherever it is cut.
-/
namespace QuickTunnel.Proxy

open QuickTunnel.Stream

/-- What a step has been given to read. -/
def Ev.got : Ev → Option Bytes
  | .read b => some b
  | _ => none

namespace Inbound

/-! ## What has been heard -/

/-- What the edge has sent: what has been read, then what waits. -/
def Sys.heardEdge (s : Sys) : Bytes := s.st.wire.fromEdge.flatten ++ s.net.edge.bytes

def Sys.heardOrigin (s : Sys) : Bytes := s.st.wire.fromOrigin.flatten ++ s.net.origin.bytes

/-- What a step reads from the edge. -/
def readEdge : Pc → Label → Option Bytes
  | _, .up e => e.got
  | .pooled (.reqBody _), .main e => e.got
  | _, _ => none

/-- What a step reads from the origin. -/
def readOrigin : Pc → Label → Option Bytes
  | _, .down e => e.got
  | .pooled (.reqBody _), .main _ => none
  | _, .main e => e.got
  | _, _ => none

/-- One direction across a step that reads `r` (nothing when `none`). -/
structure Heard (r : Option Bytes) (got got' : List Bytes) (eof eof' : Bool) : Prop where
  bytes : got'.flatten = got.flatten ++ r.getD []
  eof : eof' = true → eof = true ∨ r = some []

theorem Heard.refl (got : List Bytes) (eof : Bool) : Heard none got got eof eof :=
  ⟨by simp, .inl⟩

theorem heard_read (b : Bytes) (got : List Bytes) (eof : Bool) :
    Heard (some b) got (if b = [] then got else got ++ [b]) eof (if b = [] then true else eof) := by
  split
  · rename_i hb
    exact ⟨by simp [hb], fun _ => .inr (by rw [hb])⟩
  · exact ⟨by simp, .inl⟩

/-- Both directions across a step of the stream. -/
structure HeardBoth (pc : Pc) (l : Label) (w w' : Wire) : Prop where
  edge : Heard (readEdge pc l) w.fromEdge w'.fromEdge w.edgeEof w'.edgeEof
  origin : Heard (readOrigin pc l) w.fromOrigin w'.fromOrigin w.originEof w'.originEof

/-- A step that returns no bytes reads none. -/
theorem HeardBoth.of_same {pc : Pc} {l : Label} {w w' : Wire} (he : readEdge pc l = none)
    (ho : readOrigin pc l = none) (h₁ : w'.fromEdge = w.fromEdge) (h₂ : w'.edgeEof = w.edgeEof)
    (h₃ : w'.fromOrigin = w.fromOrigin) (h₄ : w'.originEof = w.originEof) : HeardBoth pc l w w' := by
  constructor
  · rw [he, h₁, h₂]
    exact .refl _ _
  · rw [ho, h₃, h₄]
    exact .refl _ _

theorem gotOrigin_heard (w : Wire) (b : Bytes) : Heard (some b) w.fromOrigin
    (w.gotOrigin b).fromOrigin w.originEof (w.gotOrigin b).originEof := by
  have := heard_read b w.fromOrigin w.originEof
  unfold Wire.gotOrigin
  split <;> simp_all

section Reads
variable {P : Httparse} {req : ConnectRequest} {w : Wire} {p : Pump} {e : Ev}

/-- A pump takes reads only at its read. -/
theorem read_of_pump {eofText : Nat → String} {b : Bytes} {o : PumpNext}
    (h : pumpStep eofText p (.read b) = some o) : ∃ l, p = .read l := by
  cases p with
  | read l => exact ⟨l, rfl⟩
  | write l c => cases h

theorem up_heard {eofText : Nat → String} {o : PumpNext} (h : pumpStep eofText p e = some o) :
    Heard e.got w.fromEdge (w.up p e).fromEdge w.edgeEof (w.up p e).edgeEof := by
  cases e with
  | read b =>
    obtain ⟨l, rfl⟩ := read_of_pump h
    have := heard_read b w.fromEdge w.edgeEof
    simp only [Wire.up, Ev.got]
    split <;> simp_all
  | ok => cases p <;> exact .refl _ _
  | fail msg => cases p <;> exact .refl _ _

theorem down_heard {eofText : Nat → String} {o : PumpNext} (h : pumpStep eofText p e = some o) :
    Heard e.got w.fromOrigin (w.down p e).fromOrigin w.originEof (w.down p e).originEof := by
  cases e with
  | read b =>
    obtain ⟨l, rfl⟩ := read_of_pump h
    exact gotOrigin_heard w b
  | ok => cases p <;> exact .refl _ _
  | fail msg => cases p <;> exact .refl _ _

theorem up_sameDown (w : Wire) (p : Pump) (e : Ev) : SameDown w (w.up p e) := Up.sameDown w (.pump p) e

theorem Heard.of_eq {got got' : List Bytes} {eof eof' : Bool} (h : got' = got)
    (h' : eof' = eof) : Heard none got got' eof eof' := by
  rw [h, h']
  exact .refl _ _

theorem pooled_up_heard {s : Pooled.St} {eofText : Nat → String} {o : PumpNext}
    (hpc : s.pc = .reqBody p) (ho : pumpStep eofText p e = some o) :
    HeardBoth (.pooled s.pc) (.main e) s.wire (s.wire.up p e) := by
  have hup := up_heard ho (w := s.wire)
  have hsame := up_sameDown s.wire p e
  rw [hpc]
  exact ⟨hup, .of_eq hsame.fromOrigin hsame.originEof⟩

theorem pooled_down_heard {s : Pooled.St} {eofText : Nat → String} {o : PumpNext}
    (hpc : ∀ q, s.pc ≠ .reqBody q) (ho : pumpStep eofText p e = some o) :
    HeardBoth (.pooled s.pc) (.main e) s.wire (s.wire.down p e) := by
  have hdown := down_heard ho (w := s.wire)
  have hsame : SameUp s.wire (s.wire.down p e) := Down.sameUp s.wire (.pump p) e
  constructor
  · cases hq : s.pc with
    | reqBody q => exact absurd hq (hpc q)
    | _ => exact .of_eq hsame.fromEdge hsame.edgeEof
  · cases hq : s.pc with
    | reqBody q => exact absurd hq (hpc q)
    | _ => exact hdown

/-- `run_pooled` reads the edge at step 1 and the origin behind it. -/
theorem pooled_heard {s s' : Pooled.St} (hs : Pooled.step P s e = some s') :
    HeardBoth (.pooled s.pc) (.main e) s.wire s'.wire := by
  cases hpc : s.pc with
  | reqBody p =>
    simp only [Pooled.step, hpc, Option.map_eq_some_iff] at hs
    obtain ⟨o, ho, rfl⟩ := hs
    have hw := pooled_up_heard hpc ho
    rw [hpc] at hw
    cases o <;> exact hw
  | head buf =>
    simp only [Pooled.step, hpc, Option.map_eq_some_iff] at hs
    obtain ⟨o, ho, rfl⟩ := hs
    cases e with
    | read tmp =>
      have hw : HeardBoth (.pooled (.head buf)) (.main (.read tmp)) s.wire (s.wire.gotOrigin tmp) :=
        ⟨.of_eq (gotOrigin_sameUp _ _).fromEdge (gotOrigin_sameUp _ _).edgeEof, gotOrigin_heard _ _⟩
      cases o <;> exact hw
    | ok => cases ho
    | fail msg => cases o <;> exact .of_same rfl rfl rfl rfl rfl rfl
  | respond h rest =>
    cases e with
    | read b => simp [Pooled.step, hpc] at hs
    | fail msg =>
      simp only [Pooled.step, hpc, Option.some.injEq] at hs
      subst hs
      exact .of_same rfl rfl rfl rfl rfl rfl
    | ok =>
      cases rest <;> simp only [Pooled.step, hpc, Option.some.injEq] at hs <;> subst hs <;>
        exact .of_same rfl rfl rfl rfl rfl rfl
  | respBody h p =>
    simp only [Pooled.step, hpc, Option.map_eq_some_iff] at hs
    obtain ⟨o, ho, rfl⟩ := hs
    have hw := pooled_down_heard (s := s) (by simp [hpc]) ho
    rw [hpc] at hw
    cases o <;> exact hw
  | drain h p =>
    simp only [Pooled.step, hpc, Option.map_eq_some_iff] at hs
    obtain ⟨o, ho, rfl⟩ := hs
    have hw := pooled_down_heard (s := s) (by simp [hpc]) ho
    rw [hpc] at hw
    cases o <;> exact hw
  | done r => simp [Pooled.step, hpc] at hs
  | _ =>
    cases e <;> simp [Pooled.step, hpc, Pooled.failed] at hs <;> subst hs <;>
      exact .of_same rfl rfl rfl rfl rfl rfl

theorem up_half_heard {pc : Pc} {shut : Bool} {up up' : Up} (hs : up.step shut e = some up') :
    HeardBoth pc (.up e) w (up.wire w e) := by
  have hsame := Up.sameDown w up e
  refine ⟨?_, .of_eq hsame.fromOrigin hsame.originEof⟩
  cases up with
  | pump p =>
    simp only [Up.step, Option.map_eq_some_iff] at hs
    obtain ⟨o, ho, -⟩ := hs
    exact up_heard ho
  | shutdown => cases e <;> cases hs <;> exact .refl _ _
  | done => cases e <;> cases hs

theorem down_half_heard {pc : Pc} {down down' : Down} (hs : down.step P e = some down') :
    HeardBoth pc (.down e) w (down.wire w e) := by
  have hsame := Down.sameUp w down e
  refine ⟨.of_eq hsame.fromEdge hsame.edgeEof, ?_⟩
  cases down with
  | head buf =>
    cases e with
    | read tmp => exact gotOrigin_heard _ _
    | ok => exact .refl _ _
    | fail msg => exact .refl _ _
  | respond h rest =>
    cases e with
    | read b => cases rest <;> cases hs
    | _ => cases rest <;> exact .refl _ _
  | leftover h =>
    cases e with
    | read b => cases hs
    | _ => exact .refl _ _
  | pump p =>
    simp only [Down.step, Option.map_eq_some_iff] at hs
    obtain ⟨o, ho, -⟩ := hs
    exact down_heard ho
  | done r => cases e <;> cases hs

theorem reads_none (pc : Pc) (h : e.got = none) :
    readEdge pc (.main e) = none ∧ readOrigin pc (.main e) = none := by
  constructor
  · unfold readEdge
    split <;> simp_all
  · unfold readOrigin
    split <;> simp_all

theorem frame_heard {s s' : St} {cont : List EdgeWrite → Pc} {after : Pc} {rest : List EdgeWrite}
    (h : stepFrame s cont after rest e = some s') (pc : Pc) :
    HeardBoth pc (.main e) s.wire s'.wire := by
  have hgot : e.got = none := by
    cases e with
    | read b => cases rest <;> cases h
    | _ => rfl
  obtain ⟨he, ho⟩ := reads_none pc hgot
  rcases stepFrame_cases h with ⟨x, rest', -, rfl⟩ | ⟨-, rfl⟩ | ⟨msg, err, -, rfl⟩
  · exact .of_same he ho rfl rfl rfl rfl
  · exact .of_same he ho rfl rfl rfl rfl
  · exact .of_same he ho rfl rfl rfl rfl

theorem step_heard {s s' : St} {l : Label} (hs : Inbound.step P req s l = some s') :
    HeardBoth s.pc l s.wire s'.wire := by
  cases l with
  | up e =>
    simp only [Inbound.step] at hs
    split at hs
    · simp only [Option.map_eq_some_iff] at hs
      obtain ⟨up', hup, rfl⟩ := hs
      exact up_half_heard hup
    · simp only [Option.map_eq_some_iff] at hs
      obtain ⟨up', hup, rfl⟩ := hs
      exact up_half_heard hup
    · cases hs
  | down e =>
    simp only [Inbound.step] at hs
    split at hs
    · simp only [Option.map_eq_some_iff] at hs
      obtain ⟨down', hdn, rfl⟩ := hs
      exact down_half_heard hdn
    · simp only [Option.map_eq_some_iff] at hs
      obtain ⟨down', hdn, rfl⟩ := hs
      exact down_half_heard hdn
    · cases hs
  | timeout =>
    simp only [Inbound.step] at hs
    split at hs <;> cases hs
    exact .of_same rfl rfl rfl rfl rfl rfl
  | main e =>
    cases hpc : s.pc with
    | pooled pc =>
      simp only [Inbound.step, hpc, Option.map_eq_some_iff] at hs
      obtain ⟨t, ht, rfl⟩ := hs
      exact pooled_heard ht
    | reject rest =>
      simp only [Inbound.step, hpc] at hs
      exact frame_heard hs _
    | accept rest =>
      simp only [Inbound.step, hpc] at hs
      exact frame_heard hs _
    | bidi up down => simp [Inbound.step, hpc] at hs
    | tcp up down => simp [Inbound.step, hpc] at hs
    | done r => simp [Inbound.step, hpc] at hs
    | _ =>
      cases e <;> simp [Inbound.step, hpc] at hs <;> subst hs <;>
        exact .of_same rfl rfl rfl rfl rfl rfl

/-- A queue from which a step has drawn `r`. -/
structure Drawn (r : Option Bytes) (q q' : Queue) : Prop where
  bytes : q.bytes = r.getD [] ++ q'.bytes
  fin : q'.fin = q.fin
  eof : r = some [] → q.bytes = [] ∧ q.fin = true

theorem Drawn.refl (q : Queue) : Drawn none q q := ⟨rfl, rfl, by simp⟩

theorem Drawn.of_take {q q' : Queue} {b : Bytes} (h : q.take b = some q') : Drawn (some b) q q' := by
  rcases Queue.take_cases h with ⟨rfl, hb, hf, rfl⟩ | ⟨hne, hb, hf⟩
  · exact ⟨rfl, rfl, fun _ => ⟨hb, hf⟩⟩
  · exact ⟨hb, hf, fun h0 => absurd (Option.some.inj h0) hne⟩

theorem take_edge {n n' : Net} {b : Bytes}
    (h : (n.edge.take b).map (fun q => { n with edge := q }) = some n') :
    Drawn (some b) n.edge n'.edge ∧ Drawn none n.origin n'.origin := by
  simp only [Option.map_eq_some_iff] at h
  obtain ⟨q, hq, rfl⟩ := h
  exact ⟨.of_take hq, .refl _⟩

theorem take_origin {n n' : Net} {b : Bytes}
    (h : (n.origin.take b).map (fun q => { n with origin := q }) = some n') :
    Drawn none n.edge n'.edge ∧ Drawn (some b) n.origin n'.origin := by
  simp only [Option.map_eq_some_iff] at h
  obtain ⟨q, hq, rfl⟩ := h
  exact ⟨.refl _, .of_take hq⟩

theorem take_drawn {n n' : Net} {pc : Pc} {l : Label} (h : n.take pc l = some n') :
    Drawn (readEdge pc l) n.edge n'.edge ∧ Drawn (readOrigin pc l) n.origin n'.origin := by
  have hnone : ∀ {e : Ev}, e.got = none → n.take pc (.main e) = some n' →
      Drawn (readEdge pc (.main e)) n.edge n'.edge ∧
        Drawn (readOrigin pc (.main e)) n.origin n'.origin := by
    intro e he h
    obtain ⟨h₁, h₂⟩ := reads_none pc he
    rw [h₁, h₂]
    cases e with
    | read b => cases he
    | _ => cases h; exact ⟨.refl _, .refl _⟩
  cases l with
  | up e =>
    cases e with
    | read b => exact take_edge h
    | _ => cases h; exact ⟨.refl _, .refl _⟩
  | down e =>
    cases e with
    | read b => exact take_origin h
    | _ => cases h; exact ⟨.refl _, .refl _⟩
  | timeout => cases h; exact ⟨.refl _, .refl _⟩
  | main e =>
    cases e with
    | read b =>
      cases pc with
      | pooled pc =>
        cases pc with
        | reqBody p => exact take_edge h
        | _ => exact take_origin h
      | _ => exact take_origin h
    | _ => exact hnone rfl h

/-- **Nothing is lost or invented on the way in.** Across a step of the
stream the bytes read and the bytes waiting are together the same, and an
end of file is read only behind the last of them. -/
theorem proxy_reads {s s' : Sys} {l : Label} (hs : (sys P req).step s (.proxy l) s') :
    Inbound.step P req s.st l = some s'.st ∧ HeardBoth s.st.pc l s.st.wire s'.st.wire ∧
      Drawn (readEdge s.st.pc l) s.net.edge s'.net.edge ∧
      Drawn (readOrigin s.st.pc l) s.net.origin s'.net.origin := by
  simp only [sys, LTS.ofFn, Sys.step, Option.bind_eq_some_iff, Option.map_eq_some_iff] at hs
  obtain ⟨st', hst, net', hnet, rfl⟩ := hs
  exact ⟨hst, step_heard hst, take_drawn hnet⟩

end Reads

/-! ## Steps are paid for -/

def pumpRank : Pump → Nat
  | .read _ => 2
  | .write _ _ => 3

def pooledRank : Pooled.Pc → Nat
  | .reqBody p => 16 + pumpRank p
  | .head _ => 14
  | .respond _ rest => 8 + rest.length
  | .leftover _ => 7
  | .respBody _ p => 3 + pumpRank p
  | .closePooled _ => 2
  | .release _ => 1
  | .drain _ p => 2 + pumpRank p
  | .closeDrain _ => 1
  | .done _ => 0

/-- How many steps are left when nothing waits to be read. -/
def rank : Pc → Nat
  | .acquire => 40
  | .reject rest => 1 + rest.length
  | .writeHead => 30
  | .pooled pc => 1 + pooledRank pc
  | .connect => 40
  | .accept rest => 8 + rest.length
  | pc => pcWeight pc

/-- Every byte that waits is worth one read and one write. -/
def budget (s : Sys) : Nat :=
  2 * (s.net.edge.bytes.length + s.net.origin.bytes.length) + rank s.st.pc

section Budget
variable {P : Httparse} {req : ConnectRequest}

theorem Drawn.length {r : Option Bytes} {q q' : Queue} (h : Drawn r q q') :
    q.bytes.length = (r.getD []).length + q'.bytes.length := by
  rw [h.bytes, List.length_append]

theorem pump_spends {eofText : Nat → String} {p : Pump} {e : Ev} {o : PumpNext}
    (h : pumpStep eofText p e = some o) :
    (∃ p', o = .next p' ∧ pumpRank p' < 2 * (e.got.getD []).length + pumpRank p) ∨
      ∀ p', o ≠ .next p' := by
  rcases pumpStep_cases h with ⟨limit, b, rfl, rfl, hb, -, rfl⟩ | ⟨-, -, rfl⟩ | ⟨n, -, -, rfl⟩ |
    ⟨limit, chunk, rfl, rfl, rfl⟩ | ⟨msg, err, -, rfl⟩
  · have := List.length_pos_iff.mpr hb
    refine .inl ⟨_, rfl, ?_⟩
    simp only [pumpRank, Ev.got, Option.getD_some]
    omega
  · exact .inr (by simp)
  · exact .inr (by simp)
  · rcases pumpTop_cases (limit.map (· - chunk.length)) with ⟨-, h⟩ | ⟨-, h⟩
    · exact .inr (by simp [h])
    · refine .inl ⟨_, h, ?_⟩
      simp only [pumpRank]
      omega
  · exact .inr (by simp)

theorem pooledRank_afterLeftover (h : ResponseHead) : pooledRank (Pooled.afterLeftover h) < 7 := by
  unfold Pooled.afterLeftover
  split
  · rename_i total _
    rcases pumpTop_cases (some (total - h.leftover.length)) with ⟨-, hp⟩ | ⟨-, hp⟩ <;> rw [hp] <;>
      simp [pooledRank, pumpRank]
  · simp [pooledRank, pumpRank]

theorem pooledRank_afterRespond (h : ResponseHead) : pooledRank (Pooled.afterRespond h) < 8 := by
  have := pooledRank_afterLeftover h
  unfold Pooled.afterRespond
  split
  · simp [pooledRank]
  · omega

/-- A step of `run_pooled` pays with what it reads. -/
theorem pooled_spends {s s' : Pooled.St} {e : Ev} (hs : Pooled.step P s e = some s') :
    pooledRank s'.pc < 2 * (e.got.getD []).length + pooledRank s.pc := by
  cases hpc : s.pc with
  | reqBody p =>
    simp only [Pooled.step, hpc, Option.map_eq_some_iff] at hs
    obtain ⟨o, ho, rfl⟩ := hs
    rcases pump_spends ho with ⟨p', rfl, hlt⟩ | hno
    · simp only [pooledRank]
      omega
    · cases o with
      | next p' => exact absurd rfl (hno p')
      | _ => simp only [pooledRank, Pooled.failed]; omega
  | head buf =>
    simp only [Pooled.step, hpc, Option.map_eq_some_iff] at hs
    obtain ⟨o, ho, rfl⟩ := hs
    rcases readHead_cases ho with ⟨err, rfl, -⟩ | ⟨tmp, rfl, ht, rfl, -⟩ |
      ⟨tmp, r, raw, hd, rfl, ht, rfl, -⟩
    · simp only [pooledRank, Pooled.failed]
      omega
    · have := List.length_pos_iff.mpr ht
      simp only [pooledRank, Ev.got, Option.getD_some]
      omega
    · simp only [pooledRank, frame_length]
      omega
  | respond h rest =>
    have hlt := pooledRank_afterRespond h
    cases e with
    | read b => simp [Pooled.step, hpc] at hs
    | fail msg =>
      simp only [Pooled.step, hpc, Option.some.injEq] at hs
      subst hs
      simp only [pooledRank, Pooled.failed]
      omega
    | ok =>
      cases rest with
      | nil =>
        simp only [Pooled.step, hpc, Option.some.injEq] at hs
        subst hs
        show pooledRank (Pooled.afterRespond h) < 2 * 0 + 8
        omega
      | cons x rest =>
        simp only [Pooled.step, hpc, Option.some.injEq] at hs
        subst hs
        simp only [pooledRank, List.length_cons]
        omega
  | leftover h =>
    have hlt := pooledRank_afterLeftover h
    cases e with
    | read b => simp [Pooled.step, hpc] at hs
    | fail msg =>
      simp only [Pooled.step, hpc, Option.some.injEq] at hs
      subst hs
      simp only [pooledRank, Pooled.failed]
      omega
    | ok =>
      simp only [Pooled.step, hpc, Option.some.injEq] at hs
      subst hs
      show pooledRank (Pooled.afterLeftover h) < 2 * 0 + 7
      omega
  | respBody h p =>
    simp only [Pooled.step, hpc, Option.map_eq_some_iff] at hs
    obtain ⟨o, ho, rfl⟩ := hs
    rcases pump_spends ho with ⟨p', rfl, hlt⟩ | hno
    · simp only [pooledRank]
      omega
    · cases o with
      | next p' => exact absurd rfl (hno p')
      | _ => simp only [pooledRank, Pooled.failed]; omega
  | drain h p =>
    simp only [Pooled.step, hpc, Option.map_eq_some_iff] at hs
    obtain ⟨o, ho, rfl⟩ := hs
    rcases pump_spends ho with ⟨p', rfl, hlt⟩ | hno
    · simp only [pooledRank]
      omega
    · cases o with
      | next p' => exact absurd rfl (hno p')
      | _ => simp only [pooledRank]; omega
  | done r => simp [Pooled.step, hpc] at hs
  | _ =>
    cases e <;> simp only [Pooled.step, hpc, Option.some.injEq, reduceCtorEq] at hs <;> subst hs <;>
      simp only [pooledRank, Pooled.failed] <;> omega

theorem rank_ofPooled (s : St) (t : Pooled.St) : rank (ofPooled s t).pc ≤ 1 + pooledRank t.pc := by
  rcases ofPooled_cases s t with ⟨r, -, he⟩ | ⟨-, he⟩
  · rw [he]
    simp [rank, pcWeight]
  · rw [he]
    simp [rank]

theorem rank_relay {shut : Bool} {up : Up} {down : Down} :
    rank (relay shut up down) = upWeight up + downWeight down + 2 := by
  cases shut <;> rfl

theorem rank_join_le (shut : Bool) (up : Up) (down : Down) :
    rank (join shut up down) ≤ upWeight up + downWeight down + 2 := by
  have h := pcWeight_join_le shut up down
  rcases join_cases shut up down with ⟨he, -⟩ | ⟨-, -, he⟩ | ⟨-, -, r, he⟩
  · rw [he, rank_relay]
  · rw [he] at h ⊢
    exact h
  · rw [he]
    simp [rank, pcWeight]

/-- A frame of three writes at most. -/
theorem frame_spends {s s' : St} {cont : List EdgeWrite → Pc} {after : Pc} {rest : List EdgeWrite}
    {e : Ev} {k : Nat} (h : stepFrame s cont after rest e = some s')
    (hcont : ∀ l, rank (cont l) = k + l.length) (hafter : rank after < k) :
    rank s'.pc < rank (cont rest) := by
  rcases stepFrame_cases h with ⟨x, rest', rfl, rfl⟩ | ⟨rfl, rfl⟩ | ⟨msg, err, -, rfl⟩
  · simp only [hcont, List.length_cons]
    omega
  · simp only [hcont, List.length_nil]
    omega
  · simp only [hcont]
    show 0 < k + rest.length
    omega

theorem rank_afterHead (req : ConnectRequest) : rank (afterHead req) < 30 := by
  unfold afterHead
  split
  · unfold Pooled.start
    rcases pumpTop_cases (some (Pooled.bodyLen req)) with ⟨-, hp⟩ | ⟨-, hp⟩
    · simp [hp, rank, pooledRank]
    · simp [hp, rank, pooledRank, pumpRank]
  · simp [rank, pcWeight, upWeight, downWeight]

/-- A step outside the relays pays with what it reads. -/
theorem main_spends {s s' : St} {e : Ev} (hs : Inbound.step P req s (.main e) = some s') :
    rank s'.pc < 2 * (e.got.getD []).length + rank s.pc := by
  have hhead := rank_afterHead req
  cases hpc : s.pc with
  | pooled pc =>
    simp only [Inbound.step, hpc, Option.map_eq_some_iff] at hs
    obtain ⟨t, ht, rfl⟩ := hs
    have h₁ : pooledRank t.pc < 2 * (e.got.getD []).length + pooledRank pc := pooled_spends ht
    have h₂ := rank_ofPooled s t
    show rank (ofPooled s t).pc < 2 * (e.got.getD []).length + (1 + pooledRank pc)
    omega
  | reject rest =>
    simp only [Inbound.step, hpc] at hs
    have := frame_spends (k := 1) hs (fun l => rfl) (by simp [rank, pcWeight])
    omega
  | accept rest =>
    simp only [Inbound.step, hpc] at hs
    have := frame_spends (k := 8) hs (fun l => rfl) (by simp [rank, pcWeight, upWeight, downWeight])
    omega
  | acquire =>
    cases e <;> simp only [Inbound.step, hpc, Option.some.injEq, reduceCtorEq] at hs <;> subst hs <;>
      simp [rank, writeErrorResponse, writeConnectResponse]
  | connect =>
    cases e <;> simp only [Inbound.step, hpc, Option.some.injEq, reduceCtorEq] at hs <;> subst hs <;>
      simp [rank, writeConnectResponse, pcWeight]
  | writeHead =>
    cases e with
    | read b => simp [Inbound.step, hpc] at hs
    | fail msg =>
      simp only [Inbound.step, hpc, Option.some.injEq] at hs
      subst hs
      simp [rank, pcWeight]
    | ok =>
      simp only [Inbound.step, hpc, Option.some.injEq] at hs
      subst hs
      show rank (afterHead req) < 2 * 0 + 30
      omega
  | closeBidi =>
    cases e <;> simp only [Inbound.step, hpc, Option.some.injEq, reduceCtorEq] at hs <;> subst hs <;>
      simp [rank, pcWeight]
  | bidi up down => simp [Inbound.step, hpc] at hs
  | tcp up down => simp [Inbound.step, hpc] at hs
  | done r => simp [Inbound.step, hpc] at hs

theorem reads_main (pc : Pc) (e : Ev) : ((readEdge pc (.main e)).getD []).length +
    ((readOrigin pc (.main e)).getD []).length = (e.got.getD []).length := by
  cases pc with
  | pooled pc => cases pc <;> simp [readEdge, readOrigin]
  | _ => simp [readEdge, readOrigin]

theorem relay_spends {s s' : Sys} {l : Label} {shut : Bool} {up : Up} {down : Down} (hh : Halves s.st)
    (hpc : s.st.pc = relay shut up down) (hs : (sys P req).step s (.proxy l) s') :
    budget s' < budget s := by
  obtain ⟨hu, hd, -, -⟩ := hh.relay hpc
  simp only [budget, hpc, rank_relay]
  rcases relay_step hpc hs with ⟨e, up', -, hup, he, hor, hed⟩ | ⟨e, down', -, hdn, he, hed, hor⟩
  · have h₁ := up_decreases hu hup hed
    have h₂ := rank_join_le shut up' down
    rw [he, hor]
    simp only
    omega
  · have h₁ := down_decreases hd hdn hor
    have h₂ := rank_join_le shut up down'
    rw [he, hed]
    simp only
    omega

/-- Every step of the stream, also one that fails, costs a unit at least. -/
theorem proxy_spends {s s' : Sys} {l : Label} (hh : Halves s.st)
    (hs : (sys P req).step s (.proxy l) s') : budget s' < budget s := by
  obtain ⟨hst, -, hedge, horigin⟩ := proxy_reads hs
  have h₁ := hedge.length
  have h₂ := horigin.length
  cases l with
  | main e =>
    have h₃ := main_spends hst
    have h₄ := reads_main s.st.pc e
    simp only [budget]
    omega
  | timeout =>
    simp only [Inbound.step] at hst
    split at hst
    · rename_i hpc
      simp only [Option.some.injEq] at hst
      have h₃ : rank s'.st.pc = 4 := by
        rw [← hst]
        rfl
      simp only [budget, h₃, hpc]
      simp only [rank]
      omega
    · cases hst
  | up e =>
    simp only [Inbound.step] at hst
    split at hst
    · rename_i up down hpc
      exact relay_spends hh (show s.st.pc = relay true up down from hpc) hs
    · rename_i up down hpc
      exact relay_spends hh (show s.st.pc = relay false up down from hpc) hs
    · cases hst
  | down e =>
    simp only [Inbound.step] at hst
    split at hst
    · rename_i up down hpc
      exact relay_spends hh (show s.st.pc = relay true up down from hpc) hs
    · rename_i up down hpc
      exact relay_spends hh (show s.st.pc = relay false up down from hpc) hs
    · cases hst

/-! ## A stream ends -/

def SysLabel.isProxy : SysLabel → Bool
  | .proxy _ => true
  | _ => false

/-- How many bytes a step puts on the wire towards the proxy. -/
def SysLabel.sent : SysLabel → Nat
  | .edgeSends b => b.length
  | .originSends b => b.length
  | _ => 0

/-- A peer's step pays in what it sends. -/
theorem peer_pays {s s' : Sys} {l : SysLabel} (hl : l.isProxy = false)
    (hs : (sys P req).step s l s') : budget s' = budget s + 2 * l.sent := by
  have hpush : ∀ {q q' : Queue} {b : Bytes}, q.push b = some q' → q'.bytes = q.bytes ++ b := by
    intro q q' b h
    unfold Queue.push at h
    split at h <;> cases h
    rfl
  cases l with
  | proxy l => cases hl
  | edgeSends b =>
    simp only [sys, LTS.ofFn, Sys.step, Option.map_eq_some_iff] at hs
    obtain ⟨q, hq, rfl⟩ := hs
    simp only [budget, hpush hq, List.length_append, SysLabel.sent]
    omega
  | originSends b =>
    simp only [sys, LTS.ofFn, Sys.step, Option.map_eq_some_iff] at hs
    obtain ⟨q, hq, rfl⟩ := hs
    simp only [budget, hpush hq, List.length_append, SysLabel.sent]
    omega
  | edgeEnds => cases hs; rfl
  | originEnds => cases hs; rfl

theorem run_spends {s s' : Sys} {ls : List SysLabel} (hr : (sys P req).Run s ls s') : Halves s.st →
    ls.countP SysLabel.isProxy + budget s' ≤ budget s + 2 * (ls.map SysLabel.sent).sum := by
  induction hr with
  | nil s => simp
  | @cons s s₁ s' l ls hs _ ih =>
    intro hh
    have hi := ih (halves_sys_step hh hs)
    rw [List.countP_cons, List.map_cons, List.sum_cons]
    cases hl : l.isProxy with
    | true =>
      cases l with
      | proxy l =>
        have := proxy_spends hh hs
        simp only [SysLabel.sent, if_true]
        omega
      | _ => cases hl
    | false =>
      have := peer_pays hl hs
      simp only [Bool.false_eq_true, if_false]
      omega

/-- **A stream takes boundedly many steps.** Whatever the path, wherever the
peers' bytes are cut and whatever fails: in every run of a stream the
proxy's own steps number at most two for each byte the peers have sent,
and forty. -/
theorem stream_bounded {s : Sys} {ls : List SysLabel} (hr : (sys P req).Run ⟨start req, {}⟩ ls s) :
    ls.countP SysLabel.isProxy ≤ 2 * (ls.map SysLabel.sent).sum + 40 := by
  have h := run_spends hr (halves_start req)
  have h₀ : budget ⟨start req, {}⟩ = 40 := by
    unfold start budget rank
    cases req.connType <;> rfl
  omega

/-- A GET that is answered, relayed and closed by its origin. -/
theorem answered_bounded : (answeredAndClosed).countP SysLabel.isProxy ≤
    2 * (answeredAndClosed.map SysLabel.sent).sum + 40 := by
  cases h : LTS.exec (Sys.step refHttparse closingGet) ⟨start closingGet, {}⟩ answeredAndClosed with
  | none =>
    have : (LTS.exec (Sys.step refHttparse closingGet) ⟨start closingGet, {}⟩
      answeredAndClosed).isSome = true := by decide
    rw [h] at this
    cases this
  | some s => exact stream_bounded (P := refHttparse) (LTS.run_of_exec h)

end Budget

end Inbound
end QuickTunnel.Proxy
