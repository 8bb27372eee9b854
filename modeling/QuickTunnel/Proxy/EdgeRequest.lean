import QuickTunnel.Http.Connection
import QuickTunnel.Proxy.RequestBody

/-!
# Requests of a conforming edge

What `build_request_head` prints, as a request head of HTTP, and what an
edge that sends valid HTTP promises about it: tokens, a target and values
that fit their lines, at most one Content-Length and that one decimal, no
Transfer-Encoding but chunked.

* `buildRequestHead_eq_print`: the head printed is `requestHead`.
* `requestHead_valid`: it is one a server reads back as it is.
* `scan_requestFields`: on the pooled path it has the shape of the metadata.
* `requestHead_fixedLength`: on the pooled path its body length is the
  number of the Content-Length entry, which the shape holds if it fits a
  `u64` (`bodyLen_of_fits`, `bodyLen_of_overflow`).
-/
namespace QuickTunnel.Proxy

open QuickTunnel.Stream
open Pooled (bodyLen contentLengthValues lastContentLength)

/-- The `HttpHeader` entries of the metadata. -/
def headerEntries (req : ConnectRequest) : List Http.Field :=
  req.metadata.filterMap fun kv => (headerName kv.1).map fun name => (name, kv.2)

def isNamed (name : Bytes) (f : Http.Field) : Bool := eqIgnoreAsciiCase f.1 name

/-- The header fields of the head in their order. -/
def requestFields (req : ConnectRequest) (keepAlive : Bool) : List Http.Field :=
  let host := (req.meta HTTP_HOST_KEY).getD []
  let entries := (headerEntries req).filter fun f => !isNamed (ascii "host") f
  (if host ≠ [] then [(ascii "Host", host)] else []) ++ entries ++
    (if entries.any (isNamed (ascii "connection")) then []
      else [(ascii "Connection", if keepAlive then ascii "keep-alive" else ascii "close")])

def requestHead (req : ConnectRequest) (keepAlive : Bool) : Http.RequestHead :=
  ⟨requestMethod req, extractPath req.dest, requestFields req keepAlive⟩

theorem foldl_pushHeader (kvs : List (Bytes × Bytes)) (head : Bytes) (saw : Bool) :
    kvs.foldl pushHeader (head, saw) =
      let entries := (kvs.filterMap fun kv => (headerName kv.1).map fun name => (name, kv.2)).filter
        fun f => !isNamed (ascii "host") f
      (head ++ Http.printFields entries, saw || entries.any (isNamed (ascii "connection"))) := by
  induction kvs generalizing head saw with
  | nil => simp [Http.printFields]
  | cons kv kvs ih =>
    rw [List.foldl_cons]
    cases hn : headerName kv.1 with
    | none => simp only [pushHeader, hn, ih, List.filterMap_cons, Option.map_none]
    | some name =>
      by_cases hh : eqIgnoreAsciiCase name (ascii "host") = true
      · simp only [pushHeader, hn, hh, if_true, ih, List.filterMap_cons, Option.map_some,
          List.filter_cons, isNamed, Bool.not_true, Bool.false_eq_true, if_false]
      · rw [Bool.not_eq_true] at hh
        simp only [pushHeader, hn, hh, Bool.false_eq_true, if_false, ih, List.filterMap_cons,
          Option.map_some, List.filter_cons, isNamed, Bool.not_false, if_true, List.any_cons,
          Http.printFields, List.flatMap_cons, Http.printField, List.append_assoc, Bool.or_assoc]

/-- **The head as HTTP sees it.** -/
theorem buildRequestHead_eq_print (req : ConnectRequest) (keepAlive : Bool) :
    buildRequestHead req keepAlive = (requestHead req keepAlive).print := by
  have hka : ascii "Connection: keep-alive\r\n" =
      Http.printField (ascii "Connection", ascii "keep-alive") := by decide
  have hcl : ascii "Connection: close\r\n" = Http.printField (ascii "Connection", ascii "close") := by
    decide
  have hhost : ascii "Host: " = ascii "Host" ++ ascii ": " := by decide
  unfold buildRequestHead
  simp only [foldl_pushHeader, Bool.false_or, hka, hcl]
  unfold requestHead Http.RequestHead.print requestFields requestMethod headerEntries
  simp only
  generalize (req.metadata.filterMap fun kv => (headerName kv.1).map fun name => (name, kv.2)).filter
    (fun f => !isNamed (ascii "host") f) = entries
  by_cases hh : (req.meta HTTP_HOST_KEY).getD [] ≠ []
  · cases hc : entries.any (isNamed (ascii "connection")) <;> cases keepAlive <;>
      simp [hh, hhost, Http.printFields, Http.printField]
  · cases hc : entries.any (isNamed (ascii "connection")) <;> cases keepAlive <;>
      simp [hh, Http.printFields, Http.printField]

/-! ## Valid requests -/

/-- The parts of the request fit their lines: tokens, a target without blanks
or control bytes, values that a reader gets back as they are. -/
def printableRequest (req : ConnectRequest) : Bool :=
  Http.isToken (requestMethod req) && (req.dest.all fun b => 32 < b && b != 127) &&
    Http.isValue ((req.meta HTTP_HOST_KEY).getD []) &&
    Http.trim ((req.meta HTTP_HOST_KEY).getD []) == (req.meta HTTP_HOST_KEY).getD [] &&
    (headerEntries req).all Http.printable

/-- At most one Content-Length, decimal; no Transfer-Encoding but chunked. -/
def framedAsHttp (req : ConnectRequest) : Bool :=
  (contentLengthValues req).length ≤ 1 && (contentLengthValues req).all (fun v => (decimal? v).isSome) &&
    (headerEntries req).all fun f =>
      !isNamed (ascii "transfer-encoding") f || eqIgnoreAsciiCase f.2 (ascii "chunked")

/-- What a conforming edge sends. -/
def conforming (req : ConnectRequest) : Bool := printableRequest req && framedAsHttp req

/-- The number of the Content-Length entry, 0 without one. -/
def entryLength (req : ConnectRequest) : Nat := ((contentLengthValues req).head?.bind decimal?).getD 0

section Valid
variable {req : ConnectRequest} {keepAlive : Bool}

theorem conforming_iff :
    conforming req = true ↔ printableRequest req = true ∧ framedAsHttp req = true :=
  Bool.and_eq_true_iff

/-- The target is never empty, and made of bytes of `dest`. -/
theorem extractPath_target {dest : Bytes} (h : ∀ b ∈ dest, 32 < b ∧ b ≠ 127) :
    Http.isTarget (extractPath dest) = true := by
  have hof : ∀ s : Bytes, s ≠ [] → (∀ b ∈ s, b ∈ dest) → Http.isTarget s = true := by
    intro s hne hs
    simp only [Http.isTarget, Bool.and_eq_true, bne_iff_ne, List.all_eq_true, decide_eq_true_eq]
    exact ⟨hne, fun b hb => h b (hs b hb)⟩
  have hslash : Http.isTarget (ascii "/") = true := by decide
  have hone : ascii "/" ≠ [] := by decide
  unfold extractPath
  split
  · rename_i i _
    simp only
    split
    · rename_i slash hfind
      refine hof _ ?_ fun b hb => List.mem_of_mem_drop (List.mem_of_mem_drop hb)
      intro hnil
      have hp := find_spec hfind
      rw [hnil] at hp
      exact hone (List.prefix_nil.mp hp)
    · exact hslash
  · split
    · rename_i hp
      refine hof _ ?_ fun b hb => hb
      intro heq
      subst heq
      exact absurd hp (by decide)
    · exact hslash

theorem printableRequest_iff : printableRequest req = true ↔ Http.isToken (requestMethod req) = true ∧
    (∀ b ∈ req.dest, 32 < b ∧ b ≠ 127) ∧ Http.isValue ((req.meta HTTP_HOST_KEY).getD []) = true ∧
    Http.trim ((req.meta HTTP_HOST_KEY).getD []) = (req.meta HTTP_HOST_KEY).getD [] ∧
    ∀ f ∈ headerEntries req, Http.printable f = true := by
  simp only [printableRequest, Bool.and_eq_true, List.all_eq_true, decide_eq_true_eq, bne_iff_ne,
    ne_eq, beq_iff_eq, and_assoc]

theorem printable_of_conforming (hc : conforming req = true) : printableRequest req = true :=
  (conforming_iff.mp hc).1

/-- **The head of a printable request is valid.** -/
theorem requestHead_valid (hc : printableRequest req = true) :
    (requestHead req keepAlive).valid = true := by
  obtain ⟨hm, hd, hhv, hht, hf⟩ := printableRequest_iff.mp hc
  refine Http.valid_iff.mpr ⟨hm, extractPath_target hd, fun f hmem => ?_⟩
  simp only [requestHead, requestFields, List.mem_append] at hmem
  rcases hmem with (hmem | hmem) | hmem
  · split at hmem
    · rw [List.mem_singleton.mp hmem]
      exact Http.printable_iff.mpr ⟨(by decide : Http.isToken (ascii "Host") = true), hhv, hht⟩
    · cases hmem
  · exact hf f (List.mem_of_mem_filter hmem)
  · split at hmem
    · cases hmem
    · rw [List.mem_singleton.mp hmem]
      cases keepAlive <;> decide

/-- Fields of another name are not touched by Host and Connection. -/
theorem values_requestFields {name : Bytes} (hh : eqIgnoreAsciiCase (ascii "Host") name = false)
    (hcn : eqIgnoreAsciiCase (ascii "Connection") name = false)
    (hne : ∀ k, eqIgnoreAsciiCase k name = true → eqIgnoreAsciiCase k (ascii "host") = false) :
    Http.values name (requestFields req keepAlive) = Http.values name (headerEntries req) := by
  have hfilter : ((headerEntries req).filter fun f => !isNamed (ascii "host") f).filter
      (fun f => eqIgnoreAsciiCase f.1 name) =
        (headerEntries req).filter fun f => eqIgnoreAsciiCase f.1 name := by
    rw [List.filter_filter]
    apply List.filter_congr
    intro f _
    cases hn : eqIgnoreAsciiCase f.1 name with
    | false => simp
    | true => simp [isNamed, hne f.1 hn]
  unfold Http.values requestFields
  simp only [List.filter_append, hfilter, List.map_append]
  have hhost : ∀ host : Bytes, ((if host ≠ [] then [(ascii "Host", host)] else []).filter
      fun f : Http.Field => eqIgnoreAsciiCase f.1 name) = [] := by
    intro host
    split <;> simp [hh]
  have hconn : ∀ (c : Bool) (v : Bytes), ((if c then [] else [(ascii "Connection", v)]).filter
      fun f : Http.Field => eqIgnoreAsciiCase f.1 name) = [] := by
    intro c v
    split <;> simp [hcn]
  rw [hhost, hconn]
  simp

theorem contentLengthValues_eq (req : ConnectRequest) :
    contentLengthValues req = Http.values (ascii "content-length") (headerEntries req) := by
  unfold contentLengthValues Http.values headerEntries
  induction req.metadata with
  | nil => rfl
  | cons kv kvs ih =>
    cases hn : headerName kv.1 with
    | none => simpa [hn] using ih
    | some name =>
      cases hc : eqIgnoreAsciiCase name (ascii "content-length") <;> simpa [hn, hc] using ih

/-- The scan of the metadata is the scan of its header entries. -/
theorem analyseRequest_eq_scan (req : ConnectRequest) :
    analyseRequest req = scan (headerEntries req) ⟨none, false, false, false⟩ := by
  unfold analyseRequest scan headerEntries
  generalize (⟨none, false, false, false⟩ : Shape) = shape
  induction req.metadata generalizing shape with
  | nil => rfl
  | cons kv kvs ih =>
    cases hn : headerName kv.1 with
    | none => simpa [hn] using ih shape
    | some name => simpa [hn] using ih (scanHeader shape name kv.2)

theorem not_isNamed {name low k : Bytes} (hlow : toAsciiLowercase name = name)
    (hne : name ≠ toAsciiLowercase low) (hk : eqIgnoreAsciiCase k name = true) :
    eqIgnoreAsciiCase k low = false := by
  have hk' := lower_eq_of_eqIgnoreAsciiCase hlow hk
  simp only [eqIgnoreAsciiCase, hk', beq_eq_false_iff_ne]
  exact hne

/-- On the pooled path a conforming request has no transfer coding. -/
theorem no_transferEncoding (hc : conforming req = true)
    (hp : (analyseRequest req).requestPoolable = true) :
    Http.values (ascii "transfer-encoding") (requestFields req keepAlive) = [] := by
  rw [values_requestFields (by decide) (by decide) fun k => not_isNamed (by decide) (by decide)]
  obtain ⟨-, hf⟩ := conforming_iff.mp hc
  simp only [framedAsHttp, Bool.and_eq_true, List.all_eq_true, Bool.or_eq_true,
    Bool.not_eq_true'] at hf
  rw [List.eq_nil_iff_forall_not_mem]
  intro v hv
  obtain ⟨k, hmem, hk⟩ := Http.mem_values.mp hv
  have hv' := (hf.2 (k, v) hmem).resolve_left (by simp [isNamed, hk])
  have hlow : toAsciiLowercase v = ascii "chunked" := lower_eq_of_eqIgnoreAsciiCase (by decide) hv'
  have hchunked := scan_chunked hmem hk (hlow ▸ List.infix_rfl) ⟨none, false, false, false⟩
  rw [← analyseRequest_eq_scan] at hchunked
  simp [Shape.requestPoolable, hchunked] at hp

/-- The values of a conforming request: none, or one decimal number. -/
theorem contentLengthValues_cases (hc : conforming req = true) :
    (contentLengthValues req = [] ∧ entryLength req = 0) ∨
      ∃ v, contentLengthValues req = [v] ∧ decimal? v = some (entryLength req) := by
  obtain ⟨-, hf⟩ := conforming_iff.mp hc
  simp only [framedAsHttp, Bool.and_eq_true, List.all_eq_true, decide_eq_true_eq] at hf
  obtain ⟨⟨hlen, hdec⟩, -⟩ := hf
  unfold entryLength
  cases hv : contentLengthValues req with
  | nil => exact .inl ⟨rfl, rfl⟩
  | cons v vs =>
    rw [hv, List.length_cons] at hlen
    obtain rfl : vs = [] := List.length_eq_zero_iff.mp (by omega)
    obtain ⟨n, hn⟩ := Option.isSome_iff_exists.mp (hdec v (by rw [hv]; exact List.mem_singleton_self v))
    exact .inr ⟨v, rfl, by simp [hn]⟩

/-- **The body length a server reads off the head.** -/
theorem requestHead_fixedLength (hc : conforming req = true)
    (hp : (analyseRequest req).requestPoolable = true) :
    (requestHead req keepAlive).fixedLength = some (entryLength req) := by
  have hte : Http.values (ascii "transfer-encoding") (requestHead req keepAlive).fields = [] :=
    no_transferEncoding hc hp
  have hcl : Http.values (ascii "content-length") (requestHead req keepAlive).fields =
      contentLengthValues req := by
    rw [contentLengthValues_eq]
    exact values_requestFields (by decide) (by decide) fun k => not_isNamed (by decide) (by decide)
  unfold Http.RequestHead.fixedLength Http.RequestHead.bodyLength Http.contentLength Http.elements
  rw [if_pos hte, hcl]
  rcases contentLengthValues_cases hc with ⟨hnil, h0⟩ | ⟨v, hone, hd⟩
  · rw [hnil, h0]
    rfl
  · rw [hone, List.flatMap_singleton, Http.elements_of_decimal hd, List.map_singleton, hd]
    rfl

theorem bodyLen_of_fits (hc : conforming req = true) (hfit : entryLength req < U64_BOUND) :
    bodyLen req = entryLength req := by
  rw [Pooled.bodyLen_eq, lastContentLength]
  rcases contentLengthValues_cases hc with ⟨hnil, h0⟩ | ⟨v, hone, hd⟩
  · rw [hnil, h0]
    rfl
  · rw [hone]
    simp [parseU64_of_decimal? hd hfit]

/-- A length beyond `u64` counts as none. -/
theorem bodyLen_of_overflow (hc : conforming req = true) (hover : U64_BOUND ≤ entryLength req) :
    bodyLen req = 0 := by
  rw [Pooled.bodyLen_eq, lastContentLength]
  rcases contentLengthValues_cases hc with ⟨hnil, h0⟩ | ⟨v, hone, hd⟩
  · rw [hnil]
    rfl
  · rw [hone]
    simp [parseU64_of_overflow hd hover]

theorem bodyLen_le (hc : conforming req = true) : bodyLen req ≤ entryLength req := by
  by_cases hfit : entryLength req < U64_BOUND
  · exact Nat.le_of_eq (bodyLen_of_fits hc hfit)
  · rw [bodyLen_of_overflow hc (by omega)]
    exact Nat.zero_le _

end Valid

/-! ## The shape of the printed head -/

theorem scanHeader_host {k : Bytes} (hk : eqIgnoreAsciiCase k (ascii "host") = true) (shape : Shape)
    (v : Bytes) : scanHeader shape k v = shape := by
  have hlow : toAsciiLowercase k = ascii "host" := lower_eq_of_eqIgnoreAsciiCase (by decide) hk
  have h₁ : ¬ ascii "host" = ascii "content-length" := by decide
  have h₂ : ¬ ascii "host" = ascii "transfer-encoding" := by decide
  have h₃ : ¬ ascii "host" = ascii "upgrade" := by decide
  have h₄ : ¬ ascii "host" = ascii "connection" := by decide
  unfold scanHeader
  simp only [hlow, h₁, h₂, h₃, h₄, if_false, false_and]

theorem scan_filter_host (fs : List Http.Field) (shape : Shape) :
    scan (fs.filter fun f => !isNamed (ascii "host") f) shape = scan fs shape := by
  induction fs generalizing shape with
  | nil => rfl
  | cons f fs ih =>
    cases hh : isNamed (ascii "host") f with
    | false =>
      simp only [List.filter_cons, hh, Bool.not_false, if_true]
      exact ih _
    | true =>
      simp only [List.filter_cons, hh, Bool.not_true, Bool.false_eq_true, if_false]
      rw [ih]
      show _ = scan fs (scanHeader shape f.1 f.2)
      rw [scanHeader_host hh]

theorem scanHeader_keepAlive (shape : Shape) :
    scanHeader shape (ascii "Connection") (ascii "keep-alive") = shape := by
  have hn : toAsciiLowercase (ascii "Connection") = ascii "connection" := by decide
  have hu : contains (toAsciiLowercase (ascii "keep-alive")) (ascii "upgrade") = false := by decide
  have hc : contains (toAsciiLowercase (ascii "keep-alive")) (ascii "close") = false := by decide
  have h₁ : ¬ ascii "connection" = ascii "content-length" := by decide
  have h₂ : ¬ ascii "connection" = ascii "transfer-encoding" := by decide
  have h₃ : ¬ ascii "connection" = ascii "upgrade" := by decide
  unfold scanHeader
  simp only [hn, hu, hc, h₁, h₂, h₃, if_false, false_and, if_true, Bool.or_false]

/-- The head of a pooled request has the shape of its metadata. -/
theorem scan_requestFields (req : ConnectRequest) :
    scan (requestFields req true) ⟨none, false, false, false⟩ = analyseRequest req := by
  rw [analyseRequest_eq_scan, ← scan_filter_host (headerEntries req)]
  unfold requestFields
  have happ : ∀ fs gs shape, scan (fs ++ gs) shape = scan gs (scan fs shape) :=
    fun fs gs shape => List.foldl_append
  have hname : eqIgnoreAsciiCase (ascii "Host") (ascii "host") = true := by decide
  have hhost : ∀ (host : Bytes) (shape : Shape),
      scan (if host ≠ [] then [(ascii "Host", host)] else []) shape = shape := by
    intro host shape
    split
    · exact scanHeader_host hname shape host
    · rfl
  have hconn : ∀ (c : Bool) (shape : Shape),
      scan (if c then [] else [(ascii "Connection", ascii "keep-alive")]) shape = shape := by
    intro c shape
    split
    · rfl
    · exact scanHeader_keepAlive shape
  simp only [happ, hhost, if_true]
  rw [hconn]

end QuickTunnel.Proxy
