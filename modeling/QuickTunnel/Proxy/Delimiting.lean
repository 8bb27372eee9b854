import QuickTunnel.Proxy.PooledRuns

/-!
# Where the pooled path ends a response

`run_pooled` forwards the leftover of the head reader whole and pumps
`total - leftover.len()` bytes, saturating; without a poolable shape it
drains to the end of the file. Both are measured here against the response
as it stands in the origin's bytes.

* `delimits_exactly_iff`: the body is cut at exactly its Content-Length iff
  the reads of the head phase bring no more than that length of it.
* `reads_nothing_behind_iff`: nothing is read behind the last byte of a
  response iff its shape is poolable with the length the body has; a HEAD,
  204 or 304 answer that announces a length, and every chunked one, waits.
-/
namespace QuickTunnel.Proxy.Pooled

open QuickTunnel.Stream

/-- The origin's bytes on this socket are `S`, and then the end of the file. -/
structure FedBy (S : Bytes) (w : Wire) : Prop where
  prefixed : w.fromOrigin.flatten <+: S
  eof : w.originEof = true → w.fromOrigin.flatten = S

/-! ## The reads of the head phase -/

/-- Of two such cuts of one list of reads, neither is longer. -/
theorem HeadReads.unique {raw lo lo' : Bytes} {hs hs' : List Bytes} (h : HeadReads raw lo hs)
    (h' : HeadReads raw lo' hs') (hc : hs <+: hs' ∨ hs' <+: hs) :
    hs = hs' ∧ lo = lo' := by
  -- a proper prefix of the reads is too short to hold the head
  have key : ∀ {a b : List Bytes} {x y : Bytes}, HeadReads raw x a → HeadReads raw y b → a <+: b →
      a = b := by
    intro a b x y ha hb hab
    obtain ⟨t, rfl⟩ := hab
    cases t with
    | nil => simp
    | cons c t =>
      exfalso
      have hlen := congrArg List.length ha.flatten
      have hshort := hb.short
      rw [List.dropLast_append_of_ne_nil (by simp), List.flatten_append, List.length_append] at hshort
      rw [List.length_append] at hlen
      omega
  have heq : hs = hs' := by
    rcases hc with hc | hc
    · exact key h h' hc
    · exact (key h' h hc).symm
  refine ⟨heq, ?_⟩
  have := h.flatten
  rw [heq, h'.flatten] at this
  exact (List.append_cancel_left this).symm

section Delimiting
variable {P : Httparse} {req : ConnectRequest} {raw lo : Bytes} {hd : Http.Head} {hs : List Bytes}
  {S : Bytes} {n : Nat}

/-- A head read by a run on a stream that begins with `hd` is `hd`. -/
theorem Relayed.head_eq {h : ResponseHead} {w : Wire} {raw' body out : Bytes} {hd' : Http.Head}
    (hr : Relayed P req h w raw' hd' body out) (hh : P.IsHead raw hd) (hraw : raw <+: S)
    (hfed : w.fromOrigin.flatten <+: S) : raw' = raw ∧ hd' = hd :=
  Httparse.head_unique hr.got.isHead hh
    ((List.prefix_append _ _).trans (hr.fromOrigin ▸ hfed)) hraw

/-- What such a run took for the leftover is what its first reads brought
behind the head. -/
theorem Relayed.leftover_eq {h : ResponseHead} {w : Wire} {body out : Bytes} {hd' : Http.Head}
    (hr : Relayed P req h w raw hd' body out) (hhs : HeadReads raw lo hs)
    (hc : w.fromOrigin <+: hs ∨ hs <+: w.fromOrigin) : h.leftover = lo := by
  obtain ⟨hs', rest, he, hr'⟩ := hr.reads
  refine (hr'.unique hhs ?_).2
  have hpre : hs' <+: w.fromOrigin := he ▸ List.prefix_append _ _
  rcases hc with hc | hc
  · exact .inl (hpre.trans hc)
  · exact List.prefix_or_prefix_of_prefix hpre hc

/-- A state that has seen the end of the file, or returned `Ok` without
releasing, is one of an unpooled response, or has failed. -/
theorem not_pooled_of_eof {s : St} (hi : Inv P req s) (hnr : ¬ Released s)
    (hs : s.wire.originEof = true ∨ s.pc = .done (.ok ())) :
    (∃ e, s.pc = .done (.error e)) ∨ ∃ h raw hd body out, pooledLength h = none ∧
      Relayed P req h s.wire raw hd body out := by
  have hrel : s.released = false := by
    rw [← Bool.not_eq_true]
    exact fun h => hnr (.inr h)
  cases hpc : s.pc with
  | done r =>
    cases r with
    | error e => exact .inl ⟨e, rfl⟩
    | ok u =>
      simp only [Inv, hpc] at hi
      obtain ⟨-, h, ⟨hr, -⟩ | ⟨-, hl, raw, hd, body, out, hr⟩⟩ := hi
      · rw [hrel] at hr
        cases hr
      · exact .inr ⟨h, raw, hd, body, out, hl, hr⟩
  | closeDrain h =>
    simp only [Inv, hpc] at hi
    obtain ⟨-, -, hl, raw, hd, body, out, hr⟩ := hi
    exact .inr ⟨h, raw, hd, body, out, hl, hr⟩
  | drain h p =>
    simp only [Inv, hpc] at hi
    obtain ⟨-, -, -, hl, raw, hd, body, out, hr, -⟩ := hi
    exact .inr ⟨h, raw, hd, body, out, hl, hr⟩
  | reqBody p =>
    simp only [Inv, hpc] at hi
    simp [hpc, hi.2.1.originEof] at hs
  | head buf =>
    simp only [Inv, hpc] at hi
    simp [hpc, hi.2.2.2.1] at hs
  | respond h rest =>
    simp only [Inv, hpc] at hi
    simp [hpc, hi.2.1] at hs
  | leftover h =>
    simp only [Inv, hpc] at hi
    simp [hpc, hi.2.1] at hs
  | respBody h p =>
    simp only [Inv, hpc] at hi
    simp [hpc, hi.2.1] at hs
  | closePooled h =>
    simp only [Inv, hpc] at hi
    simp [hpc, hi.2.1] at hs
  | release h => exact absurd (.inl ⟨h, hpc⟩) hnr

/-! ## Exact delimiting -/

/-- What a run on the stream `S`, a head with `raw.length` bytes and then
`n` body bytes, owes: at `pool.release` exactly those `n` bytes have been
relayed and nothing behind them read; on a shorter stream it fails. -/
structure Exact (raw : Bytes) (hd : Http.Head) (n : Nat) (S : Bytes) (s : St) : Prop where
  enough : Released s → raw.length + n ≤ S.length
  consumed : Released s → s.wire.fromOrigin.flatten = S.take (raw.length + n)
  relayed : Released s → ∃ ds : List Bytes, s.wire.toEdge = frame (readAs hd []) ++ ds.map .data ∧
    ds.flatten = (S.drop raw.length).take n
  counted : Released s → s.wire.bytesOut = n
  short : S.length < raw.length + n → s.wire.originEof = true ∨ s.pc = .done (.ok ()) →
    ¬ Released s ∧ ∃ e, s.pc = .done (.error e)

/-- In every run fed by `S` whose first reads are `hs`. -/
def DelimitsExactly (P : Httparse) (req : ConnectRequest) (raw : Bytes) (hd : Http.Head) (n : Nat)
    (S : Bytes) (hs : List Bytes) : Prop :=
  ∀ s, (runPooled P req).Reachable s → FedBy S s.wire →
    s.wire.fromOrigin <+: hs ∨ hs <+: s.wire.fromOrigin → Exact raw hd n S s

/-- At `pool.release` the run has relayed `max n lo.len()` bytes. -/
theorem released_length (hh : P.IsHead raw hd) (hraw : raw <+: S)
    (hn : pooledLength (readAs hd lo) = some n) (hhs : HeadReads raw lo hs) {s : St}
    (hreach : (runPooled P req).Reachable s) (hfed : FedBy S s.wire)
    (hc : s.wire.fromOrigin <+: hs ∨ hs <+: s.wire.fromOrigin) (hrel : Released s) :
    ∃ h body, Relayed P req h s.wire raw hd body body ∧ h.leftover = lo ∧
      body.length = max n lo.length := by
  obtain ⟨h, raw', hd', body, total, hr, hl, hlen⟩ := finished_of_release (inv_reachable hreach) hrel
  obtain ⟨rfl, rfl⟩ := hr.head_eq hh hraw hfed.prefixed
  have hlo := hr.leftover_eq hhs hc
  have heq : pooledLength h = pooledLength (readAs hd' lo) := by
    simp only [pooledLength, readAs, hr.got.status, hr.got.headers]
  rw [heq, hn, Option.some.injEq] at hl
  exact ⟨h, body, hr, hlo, by rw [hlen, hlo, hl]⟩

theorem exact_of_le (hh : P.IsHead raw hd) (hraw : raw <+: S)
    (hn : pooledLength (readAs hd lo) = some n) (hhs : HeadReads raw lo hs)
    (hle : lo.length ≤ n ∨ MAX_HEADER_BYTES < (raw ++ lo).length) :
    DelimitsExactly P req raw hd n S hs := by
  intro s hreach hfed hc
  obtain ⟨tail, rfl⟩ := hraw
  have hraw : raw <+: raw ++ tail := List.prefix_append _ _
  -- a released run has relayed `n` bytes
  have hmain : Released s → ∃ h body, Relayed P req h s.wire raw hd body body ∧
      body.length = n ∧ body <+: tail := by
    intro hrel
    obtain ⟨h, body, hr, hlo, hlen⟩ := released_length hh hraw hn hhs hreach hfed hc hrel
    have hsz := hr.got.size
    have hpre := hfed.prefixed
    rw [hr.fromOrigin, List.prefix_append_right_inj] at hpre
    exact ⟨h, body, hr, by rw [hlo] at hsz; omega, hpre⟩
  refine ⟨fun hrel => ?_, fun hrel => ?_, fun hrel => ?_, fun hrel => ?_, fun hlt hs => ?_⟩
  · obtain ⟨h, body, hr, hlen, hpre⟩ := hmain hrel
    have := hpre.length_le
    rw [List.length_append]
    omega
  · obtain ⟨h, body, hr, hlen, hpre⟩ := hmain hrel
    rw [hr.fromOrigin, List.take_length_add_append, ← hlen, ← List.prefix_iff_eq_take.mp hpre]
  · obtain ⟨h, body, hr, hlen, hpre⟩ := hmain hrel
    obtain ⟨ds, hds, hfl⟩ := hr.toEdge
    refine ⟨ds, ?_, ?_⟩
    · rw [hds]
      simp only [frame, responseMeta, readAs, hr.got.status, hr.got.headers]
    · rw [hfl, List.drop_left, ← hlen, ← List.prefix_iff_eq_take.mp hpre]
  · obtain ⟨h, body, hr, hlen, -⟩ := hmain hrel
    rw [hr.bytesOut, hlen]
  · have hnr : ¬ Released s := by
      intro hrel
      obtain ⟨h, body, hr, hlen, hpre⟩ := hmain hrel
      have := hpre.length_le
      rw [List.length_append] at hlt
      omega
    refine ⟨hnr, ?_⟩
    rcases not_pooled_of_eof (inv_reachable hreach) hnr hs with he | ⟨h, raw', hd', body, out, hl, hr⟩
    · exact he
    · obtain ⟨rfl, rfl⟩ := hr.head_eq hh hraw hfed.prefixed
      have heq : pooledLength h = pooledLength (readAs hd' lo) := by
        simp only [pooledLength, readAs, hr.got.status, hr.got.headers]
      rw [heq, hn] at hl
      cases hl

/-- A longer leftover is relayed whole, and the socket released. -/
theorem overrun (hh : P.IsHead raw hd) (hm : (raw ++ lo).length ≤ MAX_HEADER_BYTES)
    (hn : pooledLength (readAs hd lo) = some n) (hsz : Sized HEAD_BUF hs) (hhs : HeadReads raw lo hs)
    (hS : raw ++ lo <+: S) (hlt : n < lo.length) : ¬ DelimitsExactly P req raw hd n S hs := by
  intro h
  obtain ⟨s, hreach, hpc, ⟨bs, hfo, hfl⟩, -⟩ := reach_released hh hm hsz hhs
    (b := List.replicate (bodyLen req) 0) List.length_replicate hn
    (show ([] : Bytes).length = _ by rw [List.length_nil]; omega)
  have hrel : Released s := .inl ⟨_, hpc⟩
  have hflat : s.wire.fromOrigin.flatten = raw ++ lo := by
    rw [hfo, List.flatten_append, hfl, List.append_nil, hhs.flatten]
  have heof : s.wire.originEof = false := by
    have := inv_reachable hreach
    simp only [Inv, hpc] at this
    exact this.2.1
  have hex := h s hreach ⟨hflat ▸ hS, fun he => by rw [heof] at he; cases he⟩
    (.inr (hfo ▸ List.prefix_append _ _))
  have hcons := hex.consumed hrel
  have henough := hex.enough hrel
  rw [hflat] at hcons
  have := congrArg List.length hcons
  rw [List.length_take, List.length_append] at this
  omega

/-- **Exact Content-Length delimiting.** On a stream that begins with a head
of a poolable shape of length `n`, read in the pieces `hs`, a call delimits
the body exactly iff the piece that completes the head carries at most `n`
bytes behind it (or so many that the head is refused). -/
theorem delimits_exactly_iff (hh : P.IsHead raw hd)
    (hn : pooledLength (readAs hd lo) = some n) (hsz : Sized HEAD_BUF hs) (hhs : HeadReads raw lo hs)
    (hS : raw ++ lo <+: S) : DelimitsExactly P req raw hd n S hs ↔
      lo.length ≤ n ∨ MAX_HEADER_BYTES < (raw ++ lo).length := by
  refine ⟨fun h => ?_, exact_of_le hh ((List.prefix_append _ _).trans hS) hn hhs⟩
  by_contra hcon
  rw [not_or, Nat.not_le, Nat.not_lt] at hcon
  exact overrun hh hcon.2 hn hsz hhs hS hcon.1 h

end Delimiting

/-- A GET request without a body, and a reply of length 5. -/
def plainGet : ConnectRequest := ⟨ascii "/", .http, [(HTTP_METHOD_KEY, ascii "GET")]⟩

def fiveRaw : Bytes := ascii "HTTP/1.1 200 OK\r\nContent-Length: 5\r\n\r\n"

def fiveHead : Http.Head := ⟨1, 200, [(ascii "Content-Length", ascii "5")]⟩

theorem fiveHead_isHead : refHttparse.IsHead fiveRaw fiveHead := by
  unfold Httparse.IsHead
  decide

theorem five_bytes_exact : DelimitsExactly refHttparse plainGet fiveRaw fiveHead 5
    (fiveRaw ++ ascii "hello") [fiveRaw ++ ascii "hello"] :=
  (delimits_exactly_iff fiveHead_isHead (by decide) (by unfold Sized; decide)
    (⟨by decide, by decide⟩ : HeadReads fiveRaw (ascii "hello") _) List.prefix_rfl).mpr (.inl (by decide))

/-- One byte too many in the read that brings the head. -/
theorem six_bytes_overrun : ¬ DelimitsExactly refHttparse plainGet fiveRaw fiveHead 5
    (fiveRaw ++ ascii "hello!") [fiveRaw ++ ascii "hello!"] :=
  overrun fiveHead_isHead (by decide) (by decide) (by unfold Sized; decide)
    (⟨by decide, by decide⟩ : HeadReads fiveRaw (ascii "hello!") _) List.prefix_rfl (by decide)

/-! ## Reading behind the end -/

/-- At one of the reads of the origin's socket. -/
def Pc.awaitsOrigin : Pc → Bool
  | .head _ => true
  | .respBody _ (.read _) => true
  | .drain _ (.read _) => true
  | _ => false

/-- The origin sends `M` and keeps the connection open: having read all of
it, the call reads no more before it closes `to_edge`. -/
def ReadsNothingBehind (P : Httparse) (req : ConnectRequest) (M : Bytes) : Prop :=
  ∀ s, (runPooled P req).Reachable s → s.wire.originEof = false → s.wire.fromOrigin.flatten = M →
    s.wire.edgeClosed = false → s.pc.awaitsOrigin = false

section Behind
variable {P : Httparse} {req : ConnectRequest} {raw body : Bytes} {hd : Http.Head} {fr : Http.Framing}

theorem readsNothingBehind_of_shape (hh : P.IsHead raw hd)
    (hsh : MAX_HEADER_BYTES < raw.length ∨ (responseShape hd).responsePoolable = true ∧
      (responseShape hd).contentLength = some body.length) :
    ReadsNothingBehind P req (raw ++ body) := by
  intro s hreach _ hfo _
  have hi := inv_reachable hreach
  have hraw : raw <+: raw ++ body := List.prefix_append _ _
  -- what a run that relays has to do with `raw` and `body`
  have key : ∀ {h raw' hd' body' out}, Relayed P req h s.wire raw' hd' body' out →
      body' = body ∧ pooledLength h = some body.length := by
    intro h raw' hd' body' out hr
    obtain ⟨rfl, rfl⟩ := hr.head_eq hh hraw (hfo ▸ List.prefix_rfl)
    have hb := hr.fromOrigin
    rw [hfo, List.append_cancel_left_eq] at hb
    have hsz := hr.got.size
    rw [List.length_append] at hsz
    rcases hsh with hlt | ⟨hp, hl⟩
    · omega
    · refine ⟨hb.symm, ?_⟩
      simp only [pooledLength, hr.got.shape, hp, hl, Option.filter_some_pos]
  cases hpc : s.pc with
  | head buf =>
    exfalso
    simp only [Inv, hpc] at hi
    obtain ⟨-, -, hbuf, -, -, -, -, hp⟩ := hi
    rw [hfo] at hbuf
    subst hbuf
    have hpos := hh.pos
    rcases hp with h0 | ⟨hp, -⟩
    · rw [List.append_eq_nil_iff] at h0
      rw [h0.1] at hpos
      simp at hpos
    · rw [P.extend hh body] at hp
      cases hp
  | respBody h p =>
    simp only [Inv, hpc] at hi
    obtain ⟨-, -, -, raw', hd', body', out, total, hr, hl, hlt, hp⟩ := hi
    obtain ⟨hb, hl'⟩ := key hr
    cases p with
    | write l c => rfl
    | read l =>
      obtain ⟨-, rfl⟩ := hp.of_read
      rw [hl, Option.some.injEq] at hl'
      rw [hb] at hlt
      omega
  | drain h p =>
    simp only [Inv, hpc] at hi
    obtain ⟨-, -, -, hl, raw', hd', body', out, hr, hp⟩ := hi
    rw [(key hr).2] at hl
    cases hl
  | _ => rfl

/-- A shape that does not know where the body ends waits for more. -/
theorem reads_behind (hh : P.IsHead raw hd) (hf : Http.framing (requestMethod req) hd = some fr)
    (hne : fr ≠ .untilClose) (hb : Http.Delimits fr body) (hm : raw.length ≤ MAX_HEADER_BYTES)
    (hsh : ¬ ((responseShape hd).responsePoolable = true ∧
      (responseShape hd).contentLength = some body.length)) :
    ¬ ReadsNothingBehind P req (raw ++ body) := by
  intro hnone
  obtain ⟨hs, hsz, hfl, hshort⟩ := exists_reads (k := HEAD_BUF) (by decide) raw
  have hne' : raw ≠ [] := List.ne_nil_of_length_pos hh.pos
  have hhs : HeadReads raw [] hs := ⟨by rw [hfl, List.append_nil], hshort hne'⟩
  have hlen : (List.replicate (bodyLen req) (0 : UInt8)).length = bodyLen req := by simp
  cases hl : pooledLength (readAs hd []) with
  | none =>
    obtain ⟨s, hreach, hpc, hfo⟩ := reach_drained hh (by simpa using hm) hsz hhs hlen hl body
    have hi := inv_reachable hreach
    simp only [Inv, hpc] at hi
    have := hnone s hreach hi.2.1 (by rw [hfo, List.append_nil]) hi.2.2.1
    simp [hpc, Pc.awaitsOrigin] at this
  | some total =>
    rw [pooledLength_readAs, Option.filter_eq_some_iff] at hl
    obtain ⟨hcl, hp⟩ := hl
    -- the shape announces `total` bytes where HTTP announces none
    have hbody : body = [] ∧ total ≠ 0 := by
      cases fr with
      | untilClose => exact absurd rfl hne
      | chunked =>
        have := chunked_not_poolable hf
        simp [Shape.responsePoolable, this] at hp
      | length m =>
        exfalso
        refine hsh ⟨hp, ?_⟩
        rw [hcl, framing_length_eq hcl hf, hb.length_eq]
      | empty =>
        refine ⟨hb.empty_eq, ?_⟩
        intro heq
        subst heq
        exact hsh ⟨hp, by rw [hcl, hb.empty_eq]; rfl⟩
    obtain ⟨s, hreach, hpc, hfo, -⟩ := reach_answered hh (by simpa using hm) hsz hhs hlen
    have hpc' : s.pc = .respBody (readAs hd []) (.read (some total)) := by
      have hl : pooledLength (readAs hd []) = some total := by
        rw [pooledLength_readAs, Option.filter_eq_some_iff]
        exact ⟨hcl, hp⟩
      simp only [hpc, afterLeftover, hl]
      rw [show total - (readAs hd []).leftover.length = total from rfl]
      simp [pumpTop, hbody.2]
    have hi := inv_reachable hreach
    simp only [Inv, hpc'] at hi
    have := hnone s hreach hi.2.1 (by rw [hfo, hfl, hbody.1, List.append_nil]) hi.2.2.1
    simp [hpc', Pc.awaitsOrigin] at this

/-- **No read past the end of a response.** For a response whose end
does not depend on the end of the file: nothing is read behind it iff the
shape of its head is poolable with the length the body really has (or the
head is longer than the head reader admits). -/
theorem reads_nothing_behind_iff (hh : P.IsHead raw hd)
    (hf : Http.framing (requestMethod req) hd = some fr) (hne : fr ≠ .untilClose)
    (hb : Http.Delimits fr body) : ReadsNothingBehind P req (raw ++ body) ↔
      MAX_HEADER_BYTES < raw.length ∨ ((responseShape hd).responsePoolable = true ∧
        (responseShape hd).contentLength = some body.length) := by
  refine ⟨fun h => ?_, readsNothingBehind_of_shape hh⟩
  by_contra hcon
  rw [not_or, Nat.not_lt] at hcon
  exact reads_behind hh hf hne hb hcon.1 hcon.2 h

end Behind

theorem five_bytes_nothing_behind :
    ReadsNothingBehind refHttparse plainGet (fiveRaw ++ ascii "hello") :=
  (reads_nothing_behind_iff fiveHead_isHead (by decide : _ = some (.length 5))
    (by decide) (.length (ascii "hello"))).mpr (.inr (by decide))

def plainHead : ConnectRequest := ⟨ascii "/", .http, [(HTTP_METHOD_KEY, ascii "HEAD")]⟩

/-- The same reply to a HEAD request ends with its head, and the call waits
for five bytes more. -/
theorem head_request_reads_behind : (analyseRequest plainHead).requestPoolable = true ∧
    Http.framing (requestMethod plainHead) fiveHead = some .empty ∧
    ¬ ReadsNothingBehind refHttparse plainHead (fiveRaw ++ []) :=
  ⟨by decide, by decide, reads_behind fiveHead_isHead (by decide : _ = some .empty) (by decide)
    .empty (by decide) (by decide)⟩

end QuickTunnel.Proxy.Pooled
