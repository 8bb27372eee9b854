import QuickTunnel.Proxy.Httparse
import QuickTunnel.Proxy.Shape

/-!
# Awaits, byte pumps and the head reader

An `async fn` of the proxy is a machine that moves from one `await` to the
next. A label (`Ev`) is what the awaited operation returned; the state
names the await and keeps the local variables that are still needed.
`Wire` records what the stream has read and written so far. It is a ghost:
no step looks at it.

A `write_all` that fails is not recorded: `Wire` holds completed writes.

* `Pump`: the four byte pumps. Two stop after `n` bytes and fail on an
  earlier end of file, two stop at the end of file.
* `onHeadRead`: one turn of the loop of `read_http_response_head`.
-/
namespace QuickTunnel.Proxy

open QuickTunnel.Stream

/-- What an awaited operation returned: `read bytes` is `Ok(bytes.len())` of
a read (end of file is `read []`), `ok` is `Ok(())` of anything else. -/
inductive Ev
  | read (bytes : Bytes)
  | ok
  | fail (e : String)
  deriving DecidableEq, Repr

/-- Everything one stream has read and written. `bytesIn` and `bytesOut`
are its contributions to the shared counters. -/
structure Wire where
  fromEdge : List Bytes := []
  edgeEof : Bool := false
  toOrigin : Bytes := []
  originShut : Bool := false
  fromOrigin : List Bytes := []
  originEof : Bool := false
  toEdge : List EdgeWrite := []
  edgeClosed : Bool := false
  bytesIn : Nat := 0
  bytesOut : Nat := 0
  deriving DecidableEq, Repr

/-- mirrors src/proxy.rs:48 -/
def MAX_HEADER_BYTES : Nat := 32 * 1024

/-- mirrors src/proxy.rs:445 (`tmp`) -/
def HEAD_BUF : Nat := 2048

/-- mirrors src/proxy.rs:521,549,578,611 (`buf`) -/
def PUMP_BUF : Nat := 16 * 1024

/-! ## Pumps -/

/-- Where a pump is: at `src.read` or at `dst.write_all(chunk)`. `limit` is
the number of bytes still to forward, `none` for a pump that stops at the
end of file. -/
inductive Pump
  | read (limit : Option Nat)
  | write (limit : Option Nat) (chunk : Bytes)
  deriving DecidableEq, Repr

/-- How a pump goes on after an await. -/
inductive PumpNext
  | next (p : Pump)
  | returned
  | failed (e : TunnelError)
  deriving DecidableEq, Repr

/-- The length of the buffer slice a read may fill. -/
def want : Option Nat → Nat
  | none => PUMP_BUF
  | some n => min PUMP_BUF n

/-- Entering the loop, or coming back to its top: a bounded pump runs
`while n > 0`. -/
def pumpTop (limit : Option Nat) : PumpNext :=
  if limit = some 0 then .returned else .next (.read limit)

/-- One pump step; `eofText n` is the message for an end of file with `n`
bytes still expected.
mirrors src/proxy.rs:514-630 -/
def pumpStep (eofText : Nat → String) : Pump → Ev → Option PumpNext
  | .read limit, .read bytes =>
    if bytes.length ≤ want limit then
      if bytes = [] then
        match limit with
        | none => some .returned
        | some n => some (.failed (.internal (eofText n)))
      else some (.next (.write limit bytes))
    else none
  | .read _, .fail e => some (.failed (.internal ("read: " ++ e)))
  | .write limit chunk, .ok => some (pumpTop (limit.map (· - chunk.length)))
  | .write _ _, .fail e => some (.failed (.internal ("write: " ++ e)))
  | _, _ => none

/-- mirrors src/proxy.rs:514-538; it has no length to miss -/
def pumpFuturesToTokioCounted : Pump → Ev → Option PumpNext := pumpStep fun _ => ""

/-- mirrors src/proxy.rs:540-564 -/
def pumpTokioToFuturesCounted : Pump → Ev → Option PumpNext := pumpStep fun _ => ""

/-- mirrors src/proxy.rs:568-597 -/
def pumpNFuturesToTokio : Pump → Ev → Option PumpNext :=
  pumpStep fun n => "source EOF with " ++ toString n ++ " bytes still expected"

/-- mirrors src/proxy.rs:601-630 -/
def pumpNTokioToFutures : Pump → Ev → Option PumpNext :=
  pumpStep fun n => "tcp EOF with " ++ toString n ++ " bytes still expected"

/-- What a pump from the edge to the origin does to the wire. -/
def Wire.up (w : Wire) : Pump → Ev → Wire
  | .read _, .read bytes =>
    if bytes = [] then { w with edgeEof := true } else { w with fromEdge := w.fromEdge ++ [bytes] }
  | .write _ chunk, .ok =>
    { w with toOrigin := w.toOrigin ++ chunk, bytesIn := w.bytesIn + chunk.length }
  | _, _ => w

/-- What a read from the origin does to the wire. -/
def Wire.gotOrigin (w : Wire) (bytes : Bytes) : Wire :=
  if bytes = [] then { w with originEof := true } else { w with fromOrigin := w.fromOrigin ++ [bytes] }

/-- Body bytes completely written to the edge. -/
def Wire.sentBody (w : Wire) (chunk : Bytes) : Wire :=
  { w with toEdge := w.toEdge ++ [.data chunk], bytesOut := w.bytesOut + chunk.length }

/-- What a pump from the origin to the edge does to the wire. -/
def Wire.down (w : Wire) : Pump → Ev → Wire
  | .read _, .read bytes => w.gotOrigin bytes
  | .write _ chunk, .ok => w.sentBody chunk
  | _, _ => w

/-- Everything a pump step can do. -/
theorem pumpStep_cases {eofText : Nat → String} {p : Pump} {e : Ev} {o : PumpNext}
    (h : pumpStep eofText p e = some o) :
    (∃ limit b, p = .read limit ∧ e = .read b ∧ b ≠ [] ∧ b.length ≤ want limit ∧
      o = .next (.write limit b)) ∨
    (p = .read none ∧ e = .read [] ∧ o = .returned) ∨
    (∃ n, p = .read (some n) ∧ e = .read [] ∧ o = .failed (.internal (eofText n))) ∨
    (∃ limit chunk, p = .write limit chunk ∧ e = .ok ∧
      o = pumpTop (limit.map (· - chunk.length))) ∨
    (∃ msg err, e = .fail msg ∧ o = .failed err) := by
  cases p with
  | read limit =>
    cases e with
    | read b =>
      simp only [pumpStep] at h
      split at h
      · rename_i hle
        split at h
        · rename_i hb
          subst hb
          cases limit with
          | none => cases h; exact .inr (.inl ⟨rfl, rfl, rfl⟩)
          | some n => cases h; exact .inr (.inr (.inl ⟨n, rfl, rfl, rfl⟩))
        · rename_i hb
          cases h
          exact .inl ⟨limit, b, rfl, rfl, hb, hle, rfl⟩
      · cases h
    | ok => cases h
    | fail msg => cases h; exact .inr (.inr (.inr (.inr ⟨msg, _, rfl, rfl⟩)))
  | write limit chunk =>
    cases e with
    | read b => cases h
    | ok => cases h; exact .inr (.inr (.inr (.inl ⟨limit, chunk, rfl, rfl, rfl⟩)))
    | fail msg => cases h; exact .inr (.inr (.inr (.inr ⟨msg, _, rfl, rfl⟩)))

theorem pumpTop_cases (limit : Option Nat) :
    (limit = some 0 ∧ pumpTop limit = .returned) ∨
      (limit ≠ some 0 ∧ pumpTop limit = .next (.read limit)) := by
  unfold pumpTop
  split
  · rename_i h; exact .inl ⟨h, rfl⟩
  · rename_i h; exact .inr ⟨h, rfl⟩

theorem want_le (n : Nat) : want (some n) ≤ n := Nat.min_le_right _ _

/-! ## The head reader -/

/-- The triple `read_http_response_head` returns. -/
structure ResponseHead where
  status : Nat
  headers : List (Bytes × Bytes)
  leftover : Bytes
  deriving DecidableEq, Repr

inductive HeadNext
  | more (buf : Bytes)
  | returned (h : ResponseHead)
  | failed (e : TunnelError)
  deriving DecidableEq, Repr

/-- One turn of the loop of `read_http_response_head`, with `buf` read so
far and `tmp` just read.
mirrors src/proxy.rs:446-485 -/
def onHeadRead (P : Httparse) (buf tmp : Bytes) : HeadNext :=
  if tmp = [] then .failed (.internal "local origin closed before sending response head")
  else
    let buf := buf ++ tmp
    if MAX_HEADER_BYTES < buf.length then
      .failed (.internal ("response header exceeds " ++ toString MAX_HEADER_BYTES ++ " bytes"))
    else
      match P.parse buf with
      | .error e => .failed (.internal ("httparse: " ++ e))
      | .complete consumed resp =>
        match resp.code with
        | none => .failed (.internal "response had no status code")
        | some status => .returned ⟨status, lossyHeaders resp.headers, buf.drop consumed⟩
      | .incomplete => .more buf

/-- The head reader at its `read`.
mirrors src/proxy.rs:441-486 -/
def readHttpResponseHead (P : Httparse) (buf : Bytes) : Ev → Option HeadNext
  | .read tmp => if tmp.length ≤ HEAD_BUF then some (onHeadRead P buf tmp) else none
  | .fail e => some (.failed (.internal ("tcp read head: " ++ e)))
  | .ok => none

/-- `h` was read off the bytes `raw`, the head `hd`, with `h.leftover`
behind them. -/
structure GotHead (P : Httparse) (h : ResponseHead) (raw : Bytes) (hd : Http.Head) : Prop where
  isHead : P.IsHead raw hd
  status : h.status = hd.status
  headers : h.headers = lossyHeaders hd.fields
  size : (raw ++ h.leftover).length ≤ MAX_HEADER_BYTES

theorem GotHead.shape {P : Httparse} {h : ResponseHead} {raw : Bytes} {hd : Http.Head}
    (g : GotHead P h raw hd) : analyseResponse h.status h.headers = responseShape hd := by
  rw [g.status, g.headers, responseShape]

/-- A buffer the parser had asked to extend is shorter than the head. -/
theorem GotHead.buf_short {P : Httparse} {h : ResponseHead} {raw buf tmp : Bytes} {hd : Http.Head}
    (g : GotHead P h raw hd)
    (hbuf : buf = [] ∨ P.parse buf = .incomplete ∧ buf.length ≤ MAX_HEADER_BYTES)
    (hsplit : buf ++ tmp = raw ++ h.leftover) : buf.length < raw.length := by
  rcases hbuf with rfl | ⟨hp, -⟩
  · exact g.isHead.pos
  · by_contra hle
    have := Httparse.parse_of_prefix g.isHead (List.prefix_append raw h.leftover)
      (hsplit ▸ List.prefix_append buf tmp)
    rw [if_pos (by omega), hp] at this
    cases this

/-- Everything one turn of the head reader can do. -/
theorem readHead_cases {P : Httparse} {buf : Bytes} {e : Ev} {o : HeadNext}
    (h : readHttpResponseHead P buf e = some o) :
    (∃ err, o = .failed err ∧ ((∃ msg, e = .fail msg) ∨ e = .read [] ∨
      ∃ tmp, e = .read tmp ∧ tmp ≠ [] ∧ (MAX_HEADER_BYTES < (buf ++ tmp).length ∨
        ∃ msg, P.parse (buf ++ tmp) = .error msg))) ∨
    (∃ tmp, e = .read tmp ∧ tmp ≠ [] ∧ o = .more (buf ++ tmp) ∧
      P.parse (buf ++ tmp) = .incomplete ∧ (buf ++ tmp).length ≤ MAX_HEADER_BYTES) ∨
    (∃ tmp r raw hd, e = .read tmp ∧ tmp ≠ [] ∧ o = .returned r ∧ GotHead P r raw hd ∧
      buf ++ tmp = raw ++ r.leftover) := by
  cases e with
  | ok => cases h
  | fail msg => cases h; exact .inl ⟨_, rfl, .inl ⟨msg, rfl⟩⟩
  | read tmp =>
    simp only [readHttpResponseHead] at h
    split at h
    · simp only [Option.some.injEq] at h
      unfold onHeadRead at h
      split at h
      · rename_i ht
        subst ht
        exact .inl ⟨_, h.symm, .inr (.inl rfl)⟩
      · rename_i ht
        simp only at h
        split at h
        · rename_i hm
          exact .inl ⟨_, h.symm, .inr (.inr ⟨tmp, rfl, ht, .inl hm⟩)⟩
        · rename_i hm
          split at h
          · rename_i msg hp
            exact .inl ⟨_, h.symm, .inr (.inr ⟨tmp, rfl, ht, .inr ⟨msg, hp⟩⟩)⟩
          · rename_i consumed resp hp
            obtain ⟨hd, rfl, hhd, hlen⟩ := Httparse.isHead_of_parse hp
            simp only at h
            refine .inr (.inr ⟨tmp, _, (buf ++ tmp).take consumed, hd, rfl, ht, h.symm,
              ⟨hhd, rfl, rfl, ?_⟩, ?_⟩)
            · rw [List.take_append_drop]
              omega
            · rw [List.take_append_drop]
          · rename_i hp
            exact .inr (.inl ⟨tmp, rfl, ht, h.symm, hp, by omega⟩)
    · cases h

/-- A piece of a stream that begins with the head `raw` and reaches its end
returns that head. -/
theorem onHeadRead_of_head {P : Httparse} {raw : Bytes} {hd : Http.Head} (hh : P.IsHead raw hd)
    {buf tmp lo : Bytes} (ht : tmp ≠ []) (he : buf ++ tmp = raw ++ lo)
    (hm : (raw ++ lo).length ≤ MAX_HEADER_BYTES) :
    onHeadRead P buf tmp = .returned ⟨hd.status, lossyHeaders hd.fields, lo⟩ := by
  have hp := P.extend hh lo
  unfold onHeadRead
  rw [if_neg ht]
  simp only [he, hp]
  rw [if_neg (by omega), List.drop_left]

/-- A piece that stops inside the head asks for more. -/
theorem onHeadRead_of_lt {P : Httparse} {raw : Bytes} {hd : Http.Head} (hh : P.IsHead raw hd)
    {buf tmp : Bytes} (ht : tmp ≠ []) (hp : buf ++ tmp <+: raw)
    (hlt : (buf ++ tmp).length < raw.length) (hm : raw.length ≤ MAX_HEADER_BYTES) :
    onHeadRead P buf tmp = .more (buf ++ tmp) := by
  have hparse : P.parse (buf ++ tmp) = .incomplete := by
    rw [List.prefix_iff_eq_take.mp hp]
    exact P.before hh _ hlt
  unfold onHeadRead
  rw [if_neg ht]
  simp only [hparse]
  rw [if_neg (by omega)]

end QuickTunnel.Proxy
