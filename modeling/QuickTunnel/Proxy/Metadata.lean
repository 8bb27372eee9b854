import QuickTunnel.Core.Utf8
import QuickTunnel.Proxy.Interim

/-!
# The response head as metadata

Both paths make the metadata of the `ConnectResponse` from the pairs of
strings that `read_http_response_head` returns: one entry for each field, in
order. The values have been through `String::from_utf8_lossy` by then.

* `told_message`: the one frame that is written, in terms of the head.
* `heads_told`: what the edge learns of a head on either path.
* `latin1_rewritten`: two heads whose metadata are the same.
-/
namespace QuickTunnel.Proxy

open QuickTunnel.Stream

/-- The metadata of a head whose values are passed through `value`. -/
def metadataOf (value : Bytes → Bytes) (hd : Http.Head) : List (Bytes × Bytes) :=
  (HTTP_STATUS_KEY, decimal hd.status) ::
    hd.fields.map fun f => (HTTP_HEADER_KEY ++ ascii ":" ++ f.1, value f.2)

/-- Every `ConnectResponse` written is the metadata of the head the origin's
bytes begin with. -/
def Tells (P : Httparse) (value : Bytes → Bytes) (w : Wire) : Prop :=
  ∀ error metadata, .message error metadata ∈ w.toEdge → error = "" ∧
    ∃ raw hd, P.IsHead raw hd ∧ raw <+: w.fromOrigin.flatten ∧ metadata = metadataOf value hd

/-- The two heads have different values at a position where `p` holds of
both. -/
def DifferWhere (p : Bytes → Prop) (hd hd' : Http.Head) : Prop :=
  ∃ (i : Nat) (f f' : Http.Field), hd.fields[i]? = some f ∧ hd'.fields[i]? = some f' ∧
    p f.2 ∧ p f'.2 ∧ f.2 ≠ f'.2

/-- What either path makes of a head: it is told in every run and, if it fits,
in some run; and what is told distinguishes values of which `p` holds. -/
structure HeadsTold (P : Httparse) (req : ConnectRequest) (value : Bytes → Bytes) (p : Bytes → Prop) :
    Prop where
  pooled : ∀ s, (Pooled.runPooled P req).Reachable s → Tells P value s.wire
  bidi : ∀ s, (Inbound.runBidi P req).Reachable s → Tells P value s.wire
  pooled_some : ∀ raw hd, P.IsHead raw hd → raw.length ≤ MAX_HEADER_BYTES →
    ∃ s, (Pooled.runPooled P req).Reachable s ∧ .message "" (metadataOf value hd) ∈ s.wire.toEdge
  bidi_some : ∀ raw hd, P.IsHead raw hd → raw.length ≤ MAX_HEADER_BYTES →
    ∃ s, (Inbound.runBidi P req).Reachable s ∧ .message "" (metadataOf value hd) ∈ s.wire.toEdge
  same : ∀ v, p v ↔ value v = v
  distinct : ∀ hd hd', DifferWhere p hd hd' → metadataOf value hd ≠ metadataOf value hd'

section Told
variable {P : Httparse} {w : Wire}

theorem responseMeta_eq {h : ResponseHead} {raw : Bytes} {hd : Http.Head} (hg : GotHead P h raw hd) :
    Pooled.responseMeta h = metadataOf fromUtf8Lossy hd := by
  unfold Pooled.responseMeta metadataOf
  rw [hg.status, hg.headers, lossyHeaders, List.map_map]
  rfl

/-- A frame holds one message, and the body none. -/
theorem message_of_frame {h : ResponseHead} {ds : List Bytes} {error : String}
    {metadata : List (Bytes × Bytes)}
    (hm : .message error metadata ∈ Pooled.frame h ++ ds.map EdgeWrite.data) :
    error = "" ∧ metadata = Pooled.responseMeta h := by
  rcases List.mem_append.1 hm with hm | hm
  · simpa [Pooled.frame, writeConnectResponse] using hm
  · simp at hm

theorem told_message (h : ToldFirst P w) : Tells P fromUtf8Lossy w := by
  intro error metadata hm
  rcases h with hnil | ⟨r, raw, hd, body, hg, hfo, hout⟩
  · rw [hnil] at hm
    cases hm
  · have hin : ∃ ds : List Bytes, .message error metadata ∈ Pooled.frame r ++ ds.map EdgeWrite.data := by
      rcases hout with hpre | ⟨ds, hds, -⟩
      · exact ⟨[], by simpa using hpre.subset hm⟩
      · exact ⟨ds, hds ▸ hm⟩
    obtain ⟨ds, hds⟩ := hin
    obtain ⟨rfl, rfl⟩ := message_of_frame hds
    exact ⟨rfl, raw, hd, hg.isHead, hfo ▸ List.prefix_append raw body, responseMeta_eq hg⟩

theorem frame_tells {hd : Http.Head} (h : Pooled.frame (Pooled.readAs hd []) <+: w.toEdge) :
    .message "" (metadataOf fromUtf8Lossy hd) ∈ w.toEdge := by
  apply h.subset
  have hmeta : Pooled.responseMeta (Pooled.readAs hd []) = metadataOf fromUtf8Lossy hd := by
    simp [Pooled.responseMeta, metadataOf, Pooled.readAs, lossyHeaders]
  simp [Pooled.frame, writeConnectResponse, hmeta]

end Told

theorem metadataOf_ne {value : Bytes → Bytes} {p : Bytes → Prop} (hp : ∀ v, p v → value v = v)
    {hd hd' : Http.Head} (h : DifferWhere p hd hd') : metadataOf value hd ≠ metadataOf value hd' := by
  obtain ⟨i, f, f', hf, hf', hpf, hpf', hne⟩ := h
  intro heq
  have htail := (List.cons.inj heq).2
  have hi := congrArg (fun l => l[i]?.map Prod.snd) htail
  simp only [List.getElem?_map, hf, hf', Option.map_some, Option.some.injEq] at hi
  rw [hp _ hpf, hp _ hpf'] at hi
  exact hne hi

/-- **The response head** reaches the edge field by field on both paths, its
values as `from_utf8_lossy` gives them: unchanged, and distinguishable,
exactly where they are valid UTF-8. -/
theorem heads_told (P : Httparse) (req : ConnectRequest) :
    HeadsTold P req fromUtf8Lossy fun v => isUtf8 v = true where
  pooled s hs := told_message (Pooled.told_reachable hs)
  bidi s hs := told_message (ToldFirst.of_originToEdge (Inbound.bidi_reachable hs).directions.2)
  pooled_some raw hd hh hm := by
    obtain ⟨s, hs, -, hte⟩ := Pooled.reach_frame req hh hm
    exact ⟨s, hs, frame_tells hte⟩
  bidi_some raw hd hh hm := by
    obtain ⟨s, hs, -, hte⟩ := Inbound.reach_frame req hh hm
    exact ⟨s, hs, frame_tells hte⟩
  same v := fromUtf8Lossy_eq_iff.symm
  distinct hd hd' h := metadataOf_ne (fun _ => fromUtf8Lossy_of_isUtf8) h

/-- A head that has been told, and whose values are not what they were. -/
theorem not_tells_id {P : Httparse} {w : Wire} {raw : Bytes} {hd : Http.Head} (hh : P.IsHead raw hd)
    (hfo : w.fromOrigin.flatten = raw) (hte : Pooled.frame (Pooled.readAs hd []) <+: w.toEdge)
    (hne : metadataOf fromUtf8Lossy hd ≠ metadataOf id hd) : ¬ Tells P id w := by
  intro h
  obtain ⟨-, raw', hd', hh', hpre, heq⟩ := h _ _ (frame_tells hte)
  rw [hfo] at hpre
  obtain ⟨-, rfl⟩ := Httparse.head_unique hh hh' List.prefix_rfl hpre
  exact hne heq

def latin1Raw (v : UInt8) : Bytes := ascii "HTTP/1.1 200 OK\r\nX: " ++ [v] ++ ascii "\r\n\r\n"

def latin1Head (v : UInt8) : Http.Head := ⟨1, 200, [(ascii "X", [v])]⟩

/-- `è` and `é` in Latin-1, on both paths: the edge is told U+FFFD for both. -/
theorem latin1_rewritten :
    ¬ HeadsTold refHttparse Pooled.plainGet id (fun _ => True) ∧
    refHttparse.IsHead (latin1Raw 0xE8) (latin1Head 0xE8) ∧
    refHttparse.IsHead (latin1Raw 0xE9) (latin1Head 0xE9) ∧
    metadataOf fromUtf8Lossy (latin1Head 0xE8) = metadataOf fromUtf8Lossy (latin1Head 0xE9) ∧
    (∃ s, (Pooled.runPooled refHttparse Pooled.plainGet).Reachable s ∧ ¬ Tells refHttparse id s.wire) ∧
    ∃ s, (Inbound.runBidi refHttparse Pooled.plainGet).Reachable s ∧ ¬ Tells refHttparse id s.wire := by
  have hh : refHttparse.IsHead (latin1Raw 0xE9) (latin1Head 0xE9) := by
    unfold Httparse.IsHead
    decide
  have hh' : refHttparse.IsHead (latin1Raw 0xE8) (latin1Head 0xE8) := by
    unfold Httparse.IsHead
    decide
  have hne : metadataOf fromUtf8Lossy (latin1Head 0xE9) ≠ metadataOf id (latin1Head 0xE9) := by decide
  obtain ⟨s, hs, hfo, hte⟩ := Pooled.reach_frame Pooled.plainGet hh (by decide)
  obtain ⟨s', hs', hfo', hte'⟩ := Inbound.reach_frame Pooled.plainGet hh (by decide)
  have hpooled := not_tells_id hh hfo hte hne
  exact ⟨fun h => hpooled (h.pooled s hs), hh', hh, by decide, ⟨s, hs, hpooled⟩,
    s', hs', not_tells_id hh hfo' hte' hne⟩

end QuickTunnel.Proxy
