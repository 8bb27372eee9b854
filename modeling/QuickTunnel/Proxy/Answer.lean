import QuickTunnel.Proxy.Inbound
import QuickTunnel.Proxy.Delimiting

/-!
# One `ConnectResponse` per stream

With an edge that takes every write, which streams are answered by exactly
one frame in front of the body, an error frame when the origin gave no
response head? The HTTP path answers a failed connect itself and an origin
that sends a head; every other fault leaves through `?` without a frame.

* `inv_reachable`: what has been written to the edge at every program point.
* `one_response_iff`: a returned call has answered the edge iff the connect
  failed on the HTTP path, or the origin gave a complete response head (for
  a Tcp stream: accepted the connection).
-/
namespace QuickTunnel.Proxy.Inbound

open QuickTunnel.Stream

/-! ## The property -/

/-- The reads from the origin bring a complete response head within the
reader's bounds. -/
def HeadObtained (P : Httparse) (w : Wire) : Prop :=
  ∃ raw hd lo hs rest, P.IsHead raw hd ∧ w.fromOrigin = hs ++ rest ∧
    Pooled.HeadReads raw lo hs ∧ (raw ++ lo).length ≤ MAX_HEADER_BYTES

/-- A Tcp stream has no response head: there the origin answers by
accepting the connection. -/
def OriginAnswered (P : Httparse) (req : ConnectRequest) (s : St) : Prop :=
  if req.connType = .tcp then s.connected = some true else HeadObtained P s.wire

/-- A frame that reports an error: a text, or a 5xx status. -/
def ReportsError (error : String) (metadata : List (Bytes × Bytes)) : Prop :=
  error ≠ "" ∨ ∃ status, 500 ≤ status ∧ status < 600 ∧ (HTTP_STATUS_KEY, decimal status) ∈ metadata

/-- Exactly one frame has been written, in front of the body bytes, and it
reports an error if the origin has not answered. -/
def OneResponse (P : Httparse) (req : ConnectRequest) (s : St) : Prop :=
  ∃ error metadata, ∃ ds : List Bytes,
    s.wire.toEdge = writeConnectResponse error metadata ++ ds.map .data ∧
      (¬ OriginAnswered P req s → ReportsError error metadata)

/-! ## An edge that stays writable -/

def pooledWritesEdge : Pooled.Pc → Bool
  | .respond _ _ => true
  | .leftover _ => true
  | .respBody _ (.write _ _) => true
  | .closePooled _ => true
  | .drain _ (.write _ _) => true
  | .closeDrain _ => true
  | _ => false

def downWritesEdge : Down → Bool
  | .respond _ _ => true
  | .leftover _ => true
  | .pump (.write _ _) => true
  | _ => false

/-- The step is a write to the edge, or a close, that fails. -/
def failsEdge : Pc → Label → Bool
  | .reject _, .main (.fail _) => true
  | .accept _, .main (.fail _) => true
  | .closeBidi, .main (.fail _) => true
  | .pooled pc, .main (.fail _) => pooledWritesEdge pc
  | .bidi _ down, .down (.fail _) => downWritesEdge down
  | .tcp _ down, .down (.fail _) => downWritesEdge down
  | _, _ => false

/-- The runs on which no write to the edge fails. -/
def writable (P : Httparse) (req : ConnectRequest) : LTS St Label :=
  (inbound P req).guard fun s l => failsEdge s.pc l = false

/-! ## What the edge has been told -/

/-- The origin's head, and then body bytes only. -/
def Told (P : Httparse) (w : Wire) : Prop :=
  HeadObtained P w ∧ ∃ h, ∃ ds : List Bytes, w.toEdge = Pooled.frame h ++ ds.map .data

def Untold (P : Httparse) (w : Wire) : Prop := ¬ HeadObtained P w ∧ w.toEdge = []

section Head
variable {P : Httparse} {w : Wire}

theorem HeadObtained.mono (h : HeadObtained P w) {w' : Wire} (hw : w.fromOrigin <+: w'.fromOrigin) :
    HeadObtained P w' := by
  obtain ⟨raw, hd, lo, hs, rest, hh, he, hr, hm⟩ := h
  obtain ⟨t, ht⟩ := hw
  exact ⟨raw, hd, lo, hs, rest ++ t, hh, by rw [← ht, he, List.append_assoc], hr, hm⟩

theorem Told.mono (h : Told P w) {w' : Wire} (hw : w.fromOrigin <+: w'.fromOrigin)
    (he : ∃ ds : List Bytes, w'.toEdge = w.toEdge ++ ds.map .data) : Told P w' := by
  obtain ⟨ho, r, ds, hds⟩ := h
  obtain ⟨ds', hds'⟩ := he
  exact ⟨ho.mono hw, r, ds ++ ds', by rw [hds', hds, List.append_assoc, List.map_append]⟩

theorem down_fromOrigin (w : Wire) (p : Pump) (e : Ev) : w.fromOrigin <+: (w.down p e).fromOrigin := by
  cases p with
  | write l c => cases e <;> exact List.prefix_rfl
  | read l =>
    cases e with
    | read b => exact gotOrigin_fromOrigin w b
    | ok => exact List.prefix_rfl
    | fail msg => exact List.prefix_rfl

theorem down_toEdge (w : Wire) (p : Pump) (e : Ev) :
    ∃ ds : List Bytes, (w.down p e).toEdge = w.toEdge ++ ds.map .data := by
  cases p with
  | read l =>
    refine ⟨[], ?_⟩
    cases e with
    | read b =>
      simp only [Wire.down, Wire.gotOrigin]
      split <;> simp
    | ok => simp [Wire.down]
    | fail msg => simp [Wire.down]
  | write l c =>
    cases e with
    | ok => exact ⟨[c], by simp [Wire.down, Wire.sentBody]⟩
    | read b => exact ⟨[], by simp [Wire.down]⟩
    | fail msg => exact ⟨[], by simp [Wire.down]⟩

theorem Told.down (h : Told P w) (p : Pump) (e : Ev) : Told P (w.down p e) :=
  h.mono (down_fromOrigin w p e) (down_toEdge w p e)

/-- While the reader asks for more there is no head yet. -/
theorem not_headObtained {buf : Bytes} (hfo : w.fromOrigin.flatten = buf)
    (hbuf : buf = [] ∨ P.parse buf = .incomplete ∧ buf.length ≤ MAX_HEADER_BYTES) :
    ¬ HeadObtained P w := by
  intro h
  obtain ⟨raw, hd, lo, hs, rest, hh, he, hr, -⟩ := h
  rw [he, List.flatten_append, hr.flatten, List.append_assoc] at hfo
  rcases hbuf with rfl | ⟨hp, -⟩
  · have := hh.pos
    rw [List.append_eq_nil_iff] at hfo
    simp [hfo.1] at this
  · rw [← hfo, P.extend hh _] at hp
    cases hp

/-- A read that makes the reader fail brings no head either. -/
theorem not_headObtained_of_failed {buf : Bytes} {e : Ev} {err : TunnelError}
    (hfo : w.fromOrigin.flatten = buf)
    (hbuf : buf = [] ∨ P.parse buf = .incomplete ∧ buf.length ≤ MAX_HEADER_BYTES)
    (h : readHttpResponseHead P buf e = some (.failed err)) :
    ¬ HeadObtained P (Down.wire w (.head buf) e) := by
  have hold := not_headObtained hfo hbuf
  rcases readHead_cases h with ⟨err', -, ⟨msg, rfl⟩ | rfl | ⟨tmp, rfl, ht, hbad⟩⟩ |
    ⟨tmp, -, -, ho, -⟩ | ⟨tmp, r, raw, hd, -, -, ho, -⟩
  · exact hold
  · simpa [Down.wire, Wire.gotOrigin, HeadObtained] using hold
  · simp only [Down.wire, Wire.gotOrigin, if_neg ht]
    intro hex
    obtain ⟨raw, hd, lo, hs, rest, hh, he, hr, hm⟩ := hex
    rcases List.eq_nil_or_concat rest with rfl | ⟨rest', c, rfl⟩
    · -- the head reads include the failing one
      have hall : buf ++ tmp = raw ++ lo := by
        rw [← hr.flatten, ← hfo]
        simpa using congrArg List.flatten he
      rcases hbad with hlt | ⟨msg, hp⟩
      · rw [hall] at hlt
        omega
      · rw [hall, P.extend hh lo] at hp
        cases hp
    · rw [List.concat_eq_append, ← List.append_assoc] at he
      have := (List.append_inj' he rfl).1
      exact hold ⟨raw, hd, lo, hs, rest', hh, this, hr, hm⟩
  · cases ho
  · cases ho

/-- The reads so far are a head phase when the reader returns. -/
theorem headObtained_of_returned {buf tmp : Bytes} {r : ResponseHead} {raw : Bytes} {hd : Http.Head}
    (hfo : w.fromOrigin.flatten = buf)
    (hbuf : buf = [] ∨ P.parse buf = .incomplete ∧ buf.length ≤ MAX_HEADER_BYTES) (ht : tmp ≠ [])
    (hg : GotHead P r raw hd) (hsplit : buf ++ tmp = raw ++ r.leftover) :
    HeadObtained P (w.gotOrigin tmp) := by
  refine ⟨raw, hd, r.leftover, w.fromOrigin ++ [tmp], [], hg.isHead, ?_, ⟨?_, ?_⟩, hg.size⟩
  · simp [Wire.gotOrigin, ht]
  · simp [hfo, hsplit]
  · simpa [hfo] using hg.buf_short hbuf hsplit

theorem told_of_relayed {req : ConnectRequest} {h : ResponseHead}
    {raw body out : Bytes} {hd : Http.Head} (hr : Pooled.Relayed P req h w raw hd body out) :
    Told P w := by
  obtain ⟨hs, rest, he, hhs⟩ := hr.reads
  obtain ⟨ds, hds, -⟩ := hr.toEdge
  exact ⟨⟨raw, hd, _, hs, rest, hr.got.isHead, he, hhs, hr.got.size⟩, h, ds, hds⟩

end Head

/-! ## The invariant -/

/-- The origin-to-edge half of `run_bidi`. -/
def DownInv (P : Httparse) (w : Wire) : Down → Prop
  | .head buf => w.toEdge = [] ∧ w.fromOrigin.flatten = buf ∧
      (buf = [] ∨ P.parse buf = .incomplete ∧ buf.length ≤ MAX_HEADER_BYTES)
  | .respond h rest => w.toEdge ++ rest = Pooled.frame h ∧ HeadObtained P w
  | .leftover _ | .pump _ | .done (.ok _) => Told P w
  | .done (.error _) => Told P w ∨ Untold P w

/-- The origin-to-edge half of `proxy_tcp`. -/
def TcpDown (w : Wire) : Down → Prop
  | .pump _ | .done _ =>
    ∃ ds : List Bytes, w.toEdge = writeConnectResponse "" [] ++ ds.map .data
  | _ => False

/-- What a returned stream has told the edge. -/
inductive Outcome (P : Httparse) (req : ConnectRequest) (s : St) : Prop
  | rejected (status : Nat) (msg : String) : req.connType ≠ .tcp → s.connected = some false →
      msg ≠ "" → s.wire.toEdge = writeErrorResponse status msg → Outcome P req s
  | told : req.connType ≠ .tcp → s.connected = some true → Told P s.wire → Outcome P req s
  | untold : req.connType ≠ .tcp → s.connected = some true → Untold P s.wire → Outcome P req s
  | refused : req.connType = .tcp → s.connected = some false → s.wire.toEdge = [] → Outcome P req s
  | accepted (ds : List Bytes) : req.connType = .tcp → s.connected = some true →
      s.wire.toEdge = writeConnectResponse "" [] ++ ds.map .data → Outcome P req s

def Inv (P : Httparse) (req : ConnectRequest) (s : St) : Prop :=
  match s.pc with
  | .acquire => req.connType ≠ .tcp ∧ s.wire = {} ∧ s.released = false
  | .reject rest => req.connType ≠ .tcp ∧ s.connected = some false ∧
      ∃ status msg, msg ≠ "" ∧ s.wire.toEdge ++ rest = writeErrorResponse status msg
  | .writeHead => req.connType ≠ .tcp ∧ s.connected = some true ∧ s.wire = {} ∧ s.released = false
  | .pooled pc => req.connType ≠ .tcp ∧ s.connected = some true ∧ (∀ r, pc ≠ .done r) ∧
      Pooled.Inv P req ⟨pc, s.wire, s.released⟩
  | .bidi _ down => req.connType ≠ .tcp ∧ s.connected = some true ∧ DownInv P s.wire down
  | .closeBidi => req.connType ≠ .tcp ∧ s.connected = some true ∧ Told P s.wire
  | .connect => req.connType = .tcp ∧ s.wire = {}
  | .accept rest => req.connType = .tcp ∧ s.connected = some true ∧
      s.wire.toEdge ++ rest = writeConnectResponse "" []
  | .tcp _ down => req.connType = .tcp ∧ s.connected = some true ∧ TcpDown s.wire down
  | .done _ => Outcome P req s

section Steps
variable {P : Httparse} {req : ConnectRequest} {s s' : St}

theorem inv_start (P : Httparse) (req : ConnectRequest) : Inv P req (start req) := by
  cases h : req.connType <;> simp [Inv, start, h]

theorem DownInv.congr {w w' : Wire} (he : w'.toEdge = w.toEdge) (ho : w'.fromOrigin = w.fromOrigin)
    {d : Down} (h : DownInv P w d) : DownInv P w' d := by
  have hhead : HeadObtained P w ↔ HeadObtained P w' := by simp only [HeadObtained, ho]
  have htold : Told P w ↔ Told P w' := by simp only [Told, hhead, he]
  have huntold : Untold P w ↔ Untold P w' := by simp only [Untold, hhead, he]
  cases d with
  | head buf => simpa only [DownInv, he, ho] using h
  | respond r rest => simpa only [DownInv, he, ← hhead] using h
  | leftover r => exact htold.mp h
  | pump p => exact htold.mp h
  | done r =>
    cases r with
    | ok u => exact htold.mp h
    | error e => exact h.imp htold.mp huntold.mp

/-- One step of the origin-to-edge half of `run_bidi`. -/
theorem DownInv.step {w : Wire} {d d' : Down} {e : Ev} (hi : DownInv P w d)
    (hw : (∃ msg, e = .fail msg) → downWritesEdge d = false) (hs : d.step P e = some d') :
    DownInv P (d.wire w e) d' := by
  cases d with
  | head buf =>
    obtain ⟨hte, hfo, hbuf⟩ := hi
    simp only [Down.step, Option.map_eq_some_iff] at hs
    obtain ⟨o, ho, rfl⟩ := hs
    cases o with
    | failed err =>
      refine .inr ⟨not_headObtained_of_failed hfo hbuf ho, ?_⟩
      cases e with
      | read b =>
        simp only [Down.wire, Wire.gotOrigin]
        split <;> exact hte
      | ok => exact hte
      | fail msg => exact hte
    | more buf' =>
      rcases readHead_cases ho with ⟨err, h, -⟩ | ⟨tmp, rfl, ht, h, hp, hm⟩ | ⟨tmp, r, raw, hd, -, -, h, -⟩
      · cases h
      · cases h
        simp only [DownInv, Down.wire, Wire.gotOrigin, if_neg ht]
        exact ⟨hte, by simp [hfo], .inr ⟨hp, hm⟩⟩
      · cases h
    | returned r =>
      rcases readHead_cases ho with ⟨err, h, -⟩ | ⟨tmp, -, -, h, -⟩ |
        ⟨tmp, r', raw, hd, rfl, ht, h, hg, hsplit⟩
      · cases h
      · cases h
      · cases h
        refine ⟨?_, headObtained_of_returned hfo hbuf ht hg hsplit⟩
        simp [Down.wire, Wire.gotOrigin, ht, hte]
  | respond h rest =>
    obtain ⟨hte, ho⟩ := hi
    cases e with
    | read b => cases rest <;> cases hs
    | fail msg => exact absurd (hw ⟨msg, rfl⟩) (by simp [downWritesEdge])
    | ok =>
      cases rest with
      | cons x rest =>
        cases hs
        exact ⟨by simpa [Down.wire] using hte, ho⟩
      | nil =>
        have htold : Told P w := ⟨ho, h, [], by simpa using hte⟩
        cases hs
        split <;> exact htold
  | leftover h =>
    cases e with
    | read b => cases hs
    | fail msg => exact absurd (hw ⟨msg, rfl⟩) (by simp [downWritesEdge])
    | ok =>
      cases hs
      exact hi.mono List.prefix_rfl ⟨[h.leftover], by simp [Down.wire, Wire.sentBody]⟩
  | pump p =>
    simp only [Down.step, Option.map_eq_some_iff] at hs
    obtain ⟨o, -, rfl⟩ := hs
    have htold : Told P (w.down p e) := Told.down hi p e
    cases o with
    | next p' => exact htold
    | returned => exact htold
    | failed err => exact .inl htold
  | done r => cases e <;> cases hs

/-- One step of the origin-to-edge half of `proxy_tcp`. -/
theorem TcpDown.step {w : Wire} {d d' : Down} {e : Ev} (hi : TcpDown w d)
    (hs : d.step P e = some d') : TcpDown (d.wire w e) d' := by
  cases d with
  | pump p =>
    obtain ⟨ds, hds⟩ := hi
    obtain ⟨ds', hds'⟩ := down_toEdge w p e
    have hall : ∃ ds : List Bytes, (w.down p e).toEdge = writeConnectResponse "" [] ++ ds.map .data :=
      ⟨ds ++ ds', by rw [hds', hds, List.append_assoc, List.map_append]⟩
    simp only [Down.step, Option.map_eq_some_iff] at hs
    obtain ⟨o, -, rfl⟩ := hs
    cases o <;> exact hall
  | done r => cases e <;> cases hs
  | head buf => exact hi.elim
  | respond h rest => exact hi.elim
  | leftover h => exact hi.elim

/-- `run_pooled` returns with the edge told everything or nothing. -/
theorem outcome_of_pooled {pc : Pooled.Pc} {w : Wire} {rel : Bool} {e : Ev} {t : Pooled.St}
    {r : Except TunnelError Unit} (hi : Pooled.Inv P req ⟨pc, w, rel⟩)
    (hw : (∃ msg, e = .fail msg) → pooledWritesEdge pc = false)
    (hs : Pooled.step P ⟨pc, w, rel⟩ e = some t) (ht : t.pc = .done r) :
    Told P t.wire ∨ Untold P t.wire := by
  have hi' := Pooled.inv_step hi hs
  cases r with
  | ok u =>
    simp only [Pooled.Inv, ht] at hi'
    obtain ⟨-, h, ⟨-, -, raw, hd, body, total, hr, -⟩ | ⟨-, -, raw, hd, body, out, hr⟩⟩ := hi'
    · exact .inl (told_of_relayed hr)
    · exact .inl (told_of_relayed hr)
  | error err =>
    cases pc with
    | reqBody p =>
      right
      simp only [Pooled.Inv] at hi
      simp only [Pooled.step, Option.map_eq_some_iff] at hs
      obtain ⟨o, -, rfl⟩ := hs
      have hwire : (w.up p e).toEdge = [] ∧ (w.up p e).fromOrigin = [] := by
        obtain ⟨h₂, -, h₁, -⟩ := Up.sameDown w (.pump p) e
        exact ⟨h₁.trans hi.2.1.toEdge, h₂.trans hi.2.1.fromOrigin⟩
      have hnone : ¬ HeadObtained P (w.up p e) := not_headObtained (by rw [hwire.2]; rfl) (.inl rfl)
      cases o <;> exact ⟨hnone, hwire.1⟩
    | head buf =>
      right
      simp only [Pooled.Inv] at hi
      simp only [Pooled.step, Option.map_eq_some_iff] at hs
      obtain ⟨o, ho, rfl⟩ := hs
      cases o with
      | more buf' => cases ht
      | returned h => cases ht
      | failed err' =>
        refine ⟨?_, ?_⟩
        · have := not_headObtained_of_failed hi.2.2.1 hi.2.2.2.2.2.2.2 ho
          cases e <;> exact this
        · cases e with
          | read b =>
            simp only [Pooled.failed, Wire.gotOrigin]
            split <;> exact hi.2.2.2.2.1
          | ok => exact hi.2.2.2.2.1
          | fail msg => exact hi.2.2.2.2.1
    | respond h rest =>
      cases e with
      | read b => cases hs
      | fail msg => exact absurd (hw ⟨msg, rfl⟩) (by simp [pooledWritesEdge])
      | ok =>
        cases rest with
        | cons x rest =>
          cases hs
          cases ht
        | nil =>
          cases hs
          exact absurd ht (Pooled.afterRespond_ne_done h _)
    | leftover h =>
      cases e with
      | read b => cases hs
      | fail msg => exact absurd (hw ⟨msg, rfl⟩) (by simp [pooledWritesEdge])
      | ok =>
        cases hs
        exact absurd ht (Pooled.afterLeftover_ne_done h _)
    | respBody h p =>
      simp only [Pooled.Inv] at hi
      obtain ⟨-, -, -, raw, hd, body, out, total, hr, -⟩ := hi
      simp only [Pooled.step, Option.map_eq_some_iff] at hs
      obtain ⟨o, -, rfl⟩ := hs
      cases o <;> exact .inl ((told_of_relayed hr).down p e)
    | drain h p =>
      simp only [Pooled.step, Option.map_eq_some_iff] at hs
      obtain ⟨o, -, rfl⟩ := hs
      cases o <;> cases ht
    | closePooled h =>
      simp only [Pooled.Inv] at hi
      obtain ⟨-, -, -, raw, hd, body, total, hr, -⟩ := hi
      cases e with
      | read b => cases hs
      | ok => cases hs; cases ht
      | fail msg => cases hs; exact .inl (told_of_relayed hr)
    | release h => cases e <;> cases hs; cases ht
    | closeDrain h =>
      simp only [Pooled.Inv] at hi
      obtain ⟨-, -, -, raw, hd, body, out, hr⟩ := hi
      cases e with
      | read b => cases hs
      | ok => cases hs; cases ht
      | fail msg => cases hs; exact .inl (told_of_relayed hr)
    | done r => cases hs

/-- A frame that is being written by `stepFrame`. -/
theorem stepFrame_cases {s s' : St} {cont : List EdgeWrite → Pc} {after : Pc} {rest : List EdgeWrite}
    {e : Ev} (h : stepFrame s cont after rest e = some s') :
    (∃ x rest', rest = x :: rest' ∧
      s' = { s with pc := cont rest', wire := { s.wire with toEdge := s.wire.toEdge ++ [x] } }) ∨
    (rest = [] ∧ s' = { s with pc := after }) ∨
    (∃ msg err, e = .fail msg ∧ s' = { s with pc := .done (.error err) }) := by
  cases e with
  | read b => cases rest <;> cases h
  | fail msg => cases rest <;> cases h <;> exact .inr (.inr ⟨msg, _, rfl, rfl⟩)
  | ok =>
    cases rest with
    | nil => cases h; exact .inr (.inl ⟨rfl, rfl⟩)
    | cons x rest => cases h; exact .inl ⟨x, rest, rfl, rfl⟩

/-- Both halves of `run_bidi` leave the invariant intact. -/
theorem inv_joinBidi (hn : req.connType ≠ .tcp) (hc : s.connected = some true) {w : Wire} {up : Up}
    {down : Down} (hi : DownInv P w down) : Inv P req { s with pc := joinBidi up down, wire := w } := by
  rcases joinBidi_cases up down with ⟨h, -⟩ | ⟨-, u, rfl, h⟩ | ⟨-, e, rfl, h⟩
  · rw [h]
    exact ⟨hn, hc, hi⟩
  · rw [h]
    exact ⟨hn, hc, hi⟩
  · rw [h]
    rcases hi with ht | hu
    · exact .told hn hc ht
    · exact .untold hn hc hu

theorem inv_joinTcp (hn : req.connType = .tcp) (hc : s.connected = some true) {w : Wire} {up : Up}
    {down : Down} (hi : TcpDown w down) : Inv P req { s with pc := joinTcp up down, wire := w } := by
  rcases joinTcp_cases up down with ⟨h, -⟩ | ⟨-, r, rfl, h⟩
  · rw [h]
    exact ⟨hn, hc, hi⟩
  · rw [h]
    obtain ⟨ds, hds⟩ := hi
    exact .accepted ds hn hc hds

theorem inv_main {e : Ev} (hi : Inv P req s) (hw : failsEdge s.pc (.main e) = false)
    (hs : step P req s (.main e) = some s') : Inv P req s' := by
  cases hpc : s.pc with
  | acquire =>
    simp only [Inv, hpc] at hi
    simp only [step, hpc] at hs
    cases e <;> cases hs
    · exact ⟨hi.1, rfl, hi.2.1, hi.2.2⟩
    · rename_i msg
      exact ⟨hi.1, rfl, 502, "local connect: " ++ msg, by simp, by simp [hi.2.1]⟩
  | reject rest =>
    simp only [Inv, hpc] at hi
    obtain ⟨hn, hc, status, msg, hne, hte⟩ := hi
    simp only [step, hpc] at hs
    rcases stepFrame_cases hs with ⟨x, rest', rfl, rfl⟩ | ⟨rfl, rfl⟩ | ⟨msg, err, rfl, -⟩
    · exact ⟨hn, hc, status, msg, hne, by simpa using hte⟩
    · exact .rejected status msg hn hc hne (by simpa using hte)
    · simp [hpc, failsEdge] at hw
  | writeHead =>
    simp only [Inv, hpc] at hi
    obtain ⟨hn, hc, hw₀, hrel⟩ := hi
    simp only [step, hpc] at hs
    cases e <;> cases hs
    · unfold afterHead
      split
      · rename_i hp
        refine ⟨hn, hc, fun r h => ?_, ?_⟩
        · simp only [Pooled.start] at h
          split at h <;> cases h
        · simpa [hw₀, hrel, hp, Pooled.start] using Pooled.inv_start P req
      · exact ⟨hn, hc, by simp [hw₀], by simp [hw₀], .inl rfl⟩
    · exact .untold hn hc ⟨not_headObtained (by simp [hw₀]) (.inl rfl), by simp [hw₀]⟩
  | pooled pc =>
    simp only [Inv, hpc] at hi
    obtain ⟨hn, hc, -, hi⟩ := hi
    simp only [step, hpc, Option.map_eq_some_iff] at hs
    obtain ⟨t, ht, rfl⟩ := hs
    have hw' : (∃ msg, e = .fail msg) → pooledWritesEdge pc = false := by
      intro hex
      obtain ⟨msg, rfl⟩ := hex
      simpa [hpc, failsEdge] using hw
    have hi' := Pooled.inv_step hi ht
    rcases ofPooled_cases s t with ⟨r, hpt, he⟩ | ⟨hnd, he⟩
    · rw [he]
      rcases outcome_of_pooled hi hw' ht hpt with h | h
      · exact .told hn hc h
      · exact .untold hn hc h
    · rw [he]
      exact ⟨hn, hc, hnd, hi'⟩
  | bidi up down => simp [step, hpc] at hs
  | closeBidi =>
    simp only [Inv, hpc] at hi
    simp only [step, hpc] at hs
    cases e <;> cases hs
    · exact .told hi.1 hi.2.1 hi.2.2
    · exact .told hi.1 hi.2.1 hi.2.2
  | connect =>
    simp only [Inv, hpc] at hi
    simp only [step, hpc] at hs
    cases e <;> cases hs
    · exact ⟨hi.1, rfl, by simp [hi.2]⟩
    · exact .refused hi.1 rfl (by simp [hi.2])
  | accept rest =>
    simp only [Inv, hpc] at hi
    obtain ⟨hn, hc, hte⟩ := hi
    simp only [step, hpc] at hs
    rcases stepFrame_cases hs with ⟨x, rest', rfl, rfl⟩ | ⟨rfl, rfl⟩ | ⟨msg, err, rfl, -⟩
    · exact ⟨hn, hc, by simpa using hte⟩
    · exact ⟨hn, hc, [], by simpa using hte⟩
    · simp [hpc, failsEdge] at hw
  | tcp up down => simp [step, hpc] at hs
  | done r => simp [step, hpc] at hs

theorem inv_step {l : Label} (hi : Inv P req s) (hw : failsEdge s.pc l = false)
    (hs : step P req s l = some s') : Inv P req s' := by
  cases l with
  | main e => exact inv_main hi hw hs
  | timeout =>
    simp only [step] at hs
    split at hs
    · rename_i hpc
      cases hs
      simp only [Inv, hpc] at hi
      exact ⟨hi.1, rfl, 504, "local connect timed out", by decide, by simp [hi.2.1]⟩
    · cases hs
  | up e =>
    simp only [step] at hs
    split at hs
    · rename_i up down hpc
      simp only [Inv, hpc] at hi
      simp only [Option.map_eq_some_iff] at hs
      obtain ⟨up', -, rfl⟩ := hs
      obtain ⟨h₂, -, h₁, -⟩ := Up.sameDown s.wire up e
      exact inv_joinBidi hi.1 hi.2.1 (hi.2.2.congr h₁ h₂)
    · rename_i up down hpc
      simp only [Inv, hpc] at hi
      simp only [Option.map_eq_some_iff] at hs
      obtain ⟨up', -, rfl⟩ := hs
      have h₁ := (Up.sameDown s.wire up e).toEdge
      apply inv_joinTcp hi.1 hi.2.1
      have hdown := hi.2.2
      cases down with
      | pump p => simpa only [TcpDown, h₁] using hdown
      | done r => simpa only [TcpDown, h₁] using hdown
      | _ => exact hdown
    · cases hs
  | down e =>
    simp only [step] at hs
    split at hs
    · rename_i up down hpc
      simp only [Inv, hpc] at hi
      simp only [Option.map_eq_some_iff] at hs
      obtain ⟨down', hd, rfl⟩ := hs
      refine inv_joinBidi hi.1 hi.2.1 (hi.2.2.step ?_ hd)
      intro h
      obtain ⟨msg, rfl⟩ := h
      simpa [hpc, failsEdge] using hw
    · rename_i up down hpc
      simp only [Inv, hpc] at hi
      simp only [Option.map_eq_some_iff] at hs
      obtain ⟨down', hd, rfl⟩ := hs
      exact inv_joinTcp hi.1 hi.2.1 (hi.2.2.step hd)
    · cases hs

end Steps

theorem inv_reachable {P : Httparse} {req : ConnectRequest} {s : St}
    (h : (writable P req).Reachable s) : Inv P req s := by
  refine LTS.Inductive.reachable (M := writable P req) ⟨?_, ?_⟩ h
  · intro s heq
    subst heq
    exact inv_start P req
  · intro s l s' hi hstep
    obtain ⟨hs, hw⟩ := hstep
    exact inv_step hi hw hs

/-! ## Who is answered -/

theorem not_oneResponse_of_nil {P : Httparse} {req : ConnectRequest} {s : St}
    (h : s.wire.toEdge = []) : ¬ OneResponse P req s := by
  intro hex
  obtain ⟨error, metadata, ds, hte, -⟩ := hex
  rw [h] at hte
  simp [writeConnectResponse] at hte

/-- The origin's behaviours that reach the edge as one frame. -/
def Answerable (P : Httparse) (req : ConnectRequest) (s : St) : Prop :=
  (req.connType ≠ .tcp ∧ s.connected = some false) ∨ OriginAnswered P req s

theorem answerable_of_outcome {P : Httparse} {req : ConnectRequest} {s : St}
    (h : Outcome P req s) : OneResponse P req s ↔ Answerable P req s := by
  constructor
  · intro hone
    cases h with
    | rejected status msg hn hc => exact .inl ⟨hn, hc⟩
    | told hn hc ht => exact .inr (by rw [OriginAnswered, if_neg hn]; exact ht.1)
    | untold hn hc hu => exact absurd hone (not_oneResponse_of_nil hu.2)
    | refused hn hc h0 => exact absurd hone (not_oneResponse_of_nil h0)
    | accepted ds hn hc => exact .inr (by rw [OriginAnswered, if_pos hn]; exact hc)
  · intro ha
    cases h with
    | rejected status msg hn hc hne hte =>
      exact ⟨msg, [(HTTP_STATUS_KEY, decimal status)], [], by simp [hte, writeErrorResponse],
        fun _ => .inl hne⟩
    | told hn hc ht =>
      obtain ⟨ho, h, ds, hds⟩ := ht
      exact ⟨"", _, ds, hds, fun hno => absurd (by rw [OriginAnswered, if_neg hn]; exact ho) hno⟩
    | untold hn hc hu =>
      rcases ha with ⟨-, hf⟩ | ho
      · rw [hc] at hf
        cases hf
      · rw [OriginAnswered, if_neg hn] at ho
        exact absurd ho hu.1
    | refused hn hc h0 =>
      rcases ha with ⟨hne, -⟩ | ho
      · exact absurd hn hne
      · rw [OriginAnswered, if_pos hn, hc] at ho
        cases ho
    | accepted ds hn hc hte =>
      exact ⟨"", [], ds, hte, fun hno => absurd (by rw [OriginAnswered, if_pos hn]; exact hc) hno⟩

/-- **Every stream gets exactly one `ConnectResponse`**, if it returns with
the edge writable throughout, iff the connect failed on the HTTP path or the
origin answered. -/
theorem one_response_iff {P : Httparse} {req : ConnectRequest} {s : St}
    {r : Except TunnelError Unit} (hs : (writable P req).Reachable s) (hr : s.pc = .done r) :
    OneResponse P req s ↔ Answerable P req s := by
  have hi := inv_reachable hs
  simp only [Inv, hr] at hi
  exact answerable_of_outcome hi

def St.returned (s : St) : Bool :=
  match s.pc with
  | .done _ => true
  | _ => false

theorem St.returned_iff {s : St} : s.returned = true ↔ ∃ r, s.pc = .done r := by
  cases h : s.pc <;> simp [St.returned, h]

/-- A refused connect is answered with a 502 frame. -/
theorem refused_connect_answered : ∃ s, (writable refHttparse Pooled.plainGet).Reachable s ∧
    OneResponse refHttparse Pooled.plainGet s := by
  obtain ⟨s, hs, hq⟩ := LTS.exists_of_exec (step refHttparse Pooled.plainGet)
    (fun s l => failsEdge s.pc l = false)
    (start Pooled.plainGet) [.main (.fail "refused"), .main .ok, .main .ok, .main .ok, .main .ok]
    (fun s => s.returned && s.connected == some false) (by decide)
  simp only [Bool.and_eq_true, beq_iff_eq, St.returned_iff] at hq
  obtain ⟨⟨r, hr⟩, hc⟩ := hq
  exact ⟨s, hs, (one_response_iff hs hr).mpr (.inl ⟨by decide, hc⟩)⟩

/-- An origin that accepts and closes without a byte: the stream ends with
nothing written to the edge. -/
theorem closed_origin_unanswered : ∃ s r, (writable refHttparse Pooled.plainGet).Reachable s ∧
    s.pc = .done r ∧ ¬ OneResponse refHttparse Pooled.plainGet s := by
  obtain ⟨s, hs, hq⟩ := LTS.exists_of_exec (step refHttparse Pooled.plainGet)
    (fun s l => failsEdge s.pc l = false)
    (start Pooled.plainGet) [.main .ok, .main .ok, .main (.read [])]
    (fun s => s.returned && s.wire.toEdge == []) (by decide)
  simp only [Bool.and_eq_true, beq_iff_eq, St.returned_iff] at hq
  obtain ⟨⟨r, hr⟩, hte⟩ := hq
  exact ⟨s, r, hs, hr, not_oneResponse_of_nil hte⟩

end QuickTunnel.Proxy.Inbound
