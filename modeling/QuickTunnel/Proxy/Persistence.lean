import QuickTunnel.Proxy.Delimiting

/-!
# What enters the pool

`ResponseShape::poolable` looks at Content-Length, the chunked coding and
the options `close` and `upgrade`, and `read_http_response_head` drops the
version. Whether the connection persists after a response is decided by
HTTP/1.x from the version and the options.

* `released_persistent_iff`: every release follows a response that leaves
  the connection persistent, iff that response is HTTP/1.1, carries a
  `keep-alive` option, or has no poolable shape.
-/
namespace QuickTunnel.Proxy.Pooled

open QuickTunnel.Stream

section Persistence
variable {P : Httparse} {req : ConnectRequest} {raw : Bytes} {hd : Http.Head}

/-- In every run on a stream that begins with the head `raw`: a released
socket is one the response left persistent. -/
def ReleasesPersistent (P : Httparse) (req : ConnectRequest) (raw : Bytes) (hd : Http.Head) : Prop :=
  ∀ S, raw <+: S → ∀ s, (runPooled P req).Reachable s → FedBy S s.wire → Released s →
    Http.persistent hd.version hd.fields = true

/-- A released socket had a response of a poolable shape. -/
theorem poolable_of_released (hh : P.IsHead raw hd) {S : Bytes} (hraw : raw <+: S) {s : St}
    (hreach : (runPooled P req).Reachable s) (hfed : FedBy S s.wire) (hrel : Released s) :
    (responseShape hd).responsePoolable = true := by
  obtain ⟨h, raw', hd', body, total, hr, hl, -⟩ := finished_of_release (inv_reachable hreach) hrel
  obtain ⟨rfl, rfl⟩ := hr.head_eq hh hraw hfed.prefixed
  simp only [pooledLength, Option.filter_eq_some_iff, hr.got.shape] at hl
  exact hl.2

/-- A poolable shape has a length, and is released after that many bytes. -/
theorem released_of_poolable (req : ConnectRequest) (hh : P.IsHead raw hd)
    (hm : raw.length ≤ MAX_HEADER_BYTES)
    (hp : (responseShape hd).responsePoolable = true) : ∃ S s, raw <+: S ∧
      (runPooled P req).Reachable s ∧ FedBy S s.wire ∧ Released s := by
  obtain ⟨hs, hsz, hfl, hshort⟩ := exists_reads (k := HEAD_BUF) (by decide) raw
  have hhs : HeadReads raw [] hs :=
    ⟨by rw [hfl, List.append_nil], hshort (List.ne_nil_of_length_pos hh.pos)⟩
  have hp' := hp
  simp only [Shape.responsePoolable, Bool.and_eq_true, Option.isSome_iff_exists] at hp'
  obtain ⟨⟨⟨⟨total, hl⟩, -⟩, -⟩, -⟩ := hp'
  have ht : pooledLength (readAs hd []) = some total := by
    rw [pooledLength_readAs, Option.filter_eq_some_iff]
    exact ⟨hl, hp⟩
  obtain ⟨s, hreach, hpc, ⟨bs, hfo, -⟩, -⟩ := reach_released hh (by simpa using hm) hsz hhs
    (b := List.replicate (bodyLen req) 0) List.length_replicate ht
    (show (List.replicate total (0 : UInt8)).length = _ by simp)
  refine ⟨s.wire.fromOrigin.flatten, s, ?_, hreach, ⟨List.prefix_rfl, fun _ => rfl⟩, .inl ⟨_, hpc⟩⟩
  rw [hfo, List.flatten_append, hfl]
  exact List.prefix_append _ _

/-- **Only persistent connections enter the pool**, for a head the reader
accepts, iff it is HTTP/1.1, asks to keep the connection or is not of a
poolable shape. -/
theorem released_persistent_iff (hh : P.IsHead raw hd) (hm : raw.length ≤ MAX_HEADER_BYTES) :
    ReleasesPersistent P req raw hd ↔ hd.version = 1 ∨
      Http.hasOption hd.fields (ascii "keep-alive") = true ∨
      (responseShape hd).responsePoolable = false := by
  constructor
  · intro h
    cases hp : (responseShape hd).responsePoolable with
    | false => exact .inr (.inr rfl)
    | true =>
      obtain ⟨S, s, hraw, hreach, hfed, hrel⟩ := released_of_poolable req hh hm hp
      have hper := h S hraw s hreach hfed hrel
      simp only [Http.persistent, Bool.or_eq_true, Bool.and_eq_true, beq_iff_eq] at hper
      rcases hper with ⟨hv, -⟩ | ⟨-, hk⟩
      · exact .inl hv
      · exact .inr (.inl hk)
  · intro hc S hraw s hreach hfed hrel
    have hp := poolable_of_released hh hraw hreach hfed hrel
    have hclose := no_close_of_poolable hp
    have hv := hh.version_le
    simp only [Http.persistent, Bool.or_eq_true, Bool.and_eq_true, beq_iff_eq, hclose]
    rcases hc with h1 | hk | h0
    · exact .inl ⟨h1, rfl⟩
    · rcases Nat.le_one_iff_eq_zero_or_eq_one.mp hv with h0 | h1
      · exact .inr ⟨h0, hk⟩
      · exact .inl ⟨h1, rfl⟩
    · rw [hp] at h0
      cases h0

end Persistence

theorem five_bytes_persistent : ReleasesPersistent refHttparse plainGet fiveRaw fiveHead :=
  (released_persistent_iff fiveHead_isHead (by decide)).mpr (.inl rfl)

/-- The same reply as HTTP/1.0, whose connection ends with it. -/
def oldRaw : Bytes := ascii "HTTP/1.0 200 OK\r\nContent-Length: 5\r\n\r\n"

def oldHead : Http.Head := ⟨0, 200, [(ascii "Content-Length", ascii "5")]⟩

theorem oldHead_isHead : refHttparse.IsHead oldRaw oldHead := by
  unfold Httparse.IsHead
  decide

theorem old_reply_released : (analyseRequest plainGet).requestPoolable = true ∧
    ¬ ReleasesPersistent refHttparse plainGet oldRaw oldHead := by
  refine ⟨by decide, fun h => ?_⟩
  obtain ⟨S, s, hraw, hreach, hfed, hrel⟩ :=
    released_of_poolable plainGet oldHead_isHead (by decide) (by decide)
  exact absurd (h S hraw s hreach hfed hrel) (by decide)

end QuickTunnel.Proxy.Pooled
