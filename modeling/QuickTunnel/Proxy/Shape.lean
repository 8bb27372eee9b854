import QuickTunnel.Http.Framing
import QuickTunnel.Stream

/-!
# Request and response shapes

`analyse_request` and `analyse_response` scan a header list once and keep
four facts; both paths through `proxy_http` are chosen from them. The two
loops do the same with one header (`scanHeader`).

* `scan_contentLength`: the length kept is the parsed value of some
  Content-Length header.
* `scan_close`, `scan_chunked`: a `close` option or a `chunked` coding, in
  any letter case and position, is seen.
* `no_close_of_poolable`, `chunked_not_poolable`, `body_length_le`: what a
  poolable response shape says about the response as HTTP reads it.
-/
namespace QuickTunnel.Proxy

open QuickTunnel.Stream

/-- `RequestShape` and `ResponseShape`: the same four fields.
mirrors src/proxy.rs:76-88,133-139 -/
structure Shape where
  contentLength : Option Nat
  isChunked : Bool
  isUpgrade : Bool
  wantsClose : Bool
  deriving DecidableEq, Repr

/-- mirrors src/proxy.rs:90-94 (`RequestShape::poolable`) -/
def Shape.requestPoolable (s : Shape) : Bool := !s.isChunked && !s.isUpgrade && !s.wantsClose

/-- mirrors src/proxy.rs:141-145 (`ResponseShape::poolable`) -/
def Shape.responsePoolable (s : Shape) : Bool :=
  s.contentLength.isSome && !s.isChunked && !s.isUpgrade && !s.wantsClose

/-- The `match lname.as_str()` of both loops.
mirrors src/proxy.rs:107-128,154-172 -/
def scanHeader (shape : Shape) (name value : Bytes) : Shape :=
  let lname := toAsciiLowercase name
  let lval := toAsciiLowercase value
  if lname = ascii "content-length" then { shape with contentLength := parseU64 value }
  else if lname = ascii "transfer-encoding" ∧ contains lval (ascii "chunked") then
    { shape with isChunked := true }
  else if lname = ascii "upgrade" then { shape with isUpgrade := true }
  else if lname = ascii "connection" then
    { shape with isUpgrade := shape.isUpgrade || contains lval (ascii "upgrade"),
                 wantsClose := shape.wantsClose || contains lval (ascii "close") }
  else shape

/-- mirrors src/proxy.rs:96-131 -/
def analyseRequest (req : ConnectRequest) : Shape :=
  req.metadata.foldl
    (fun shape kv => match headerName kv.1 with
      | none => shape
      | some name => scanHeader shape name kv.2)
    ⟨none, false, false, false⟩

/-- mirrors src/proxy.rs:147-175 -/
def analyseResponse (status : Nat) (headers : List (Bytes × Bytes)) : Shape :=
  headers.foldl (fun shape h => scanHeader shape h.1 h.2) ⟨none, false, status == 101, false⟩

/-- Header values as `read_http_response_head` hands them on. -/
def lossyHeaders (fields : List Http.Field) : List (Bytes × Bytes) :=
  fields.map fun f => (f.1, fromUtf8Lossy f.2)

/-- The shape of a parsed response head. -/
def responseShape (h : Http.Head) : Shape := analyseResponse h.status (lossyHeaders h.fields)

/-! ## What a scan keeps -/

section Scan
variable (hs : List (Bytes × Bytes))

def scan (shape : Shape) : Shape := hs.foldl (fun shape h => scanHeader shape h.1 h.2) shape

theorem scanHeader_contentLength {shape : Shape} {k v : Bytes} {n : Nat}
    (h : (scanHeader shape k v).contentLength = some n) :
    shape.contentLength = some n ∨
      (eqIgnoreAsciiCase k (ascii "content-length") = true ∧ parseU64 v = some n) := by
  unfold scanHeader at h
  simp only at h
  split at h
  · rename_i hk
    have hlow : toAsciiLowercase (ascii "content-length") = ascii "content-length" := by decide
    exact .inr ⟨by simp [eqIgnoreAsciiCase, hk, hlow], h⟩
  · left
    split at h
    · exact h
    · split at h
      · exact h
      · split at h <;> exact h

theorem scan_contentLength {shape : Shape} {n : Nat} (h : (scan hs shape).contentLength = some n) :
    shape.contentLength = some n ∨ ∃ k v, (k, v) ∈ hs ∧
      eqIgnoreAsciiCase k (ascii "content-length") = true ∧ parseU64 v = some n := by
  induction hs generalizing shape with
  | nil => exact .inl h
  | cons kv hs ih =>
    rcases ih h with h | ⟨k, v, hmem, hk, hv⟩
    · rcases scanHeader_contentLength h with h | ⟨hk, hv⟩
      · exact .inl h
      · exact .inr ⟨kv.1, kv.2, List.mem_cons_self, hk, hv⟩
    · exact .inr ⟨k, v, List.mem_cons_of_mem _ hmem, hk, hv⟩

/-- The flags of a shape only ever go up. -/
def Shape.le (s t : Shape) : Prop :=
  (s.isChunked = true → t.isChunked = true) ∧ (s.isUpgrade = true → t.isUpgrade = true) ∧
    (s.wantsClose = true → t.wantsClose = true)

theorem Shape.le_trans {s t u : Shape} (h : s.le t) (h' : t.le u) : s.le u :=
  ⟨fun a => h'.1 (h.1 a), fun a => h'.2.1 (h.2.1 a), fun a => h'.2.2 (h.2.2 a)⟩

theorem scanHeader_le (shape : Shape) (k v : Bytes) : shape.le (scanHeader shape k v) := by
  unfold scanHeader
  simp only
  split
  · exact ⟨id, id, id⟩
  · split
    · exact ⟨fun _ => rfl, id, id⟩
    · split
      · exact ⟨id, fun _ => rfl, id⟩
      · split
        · exact ⟨id, fun h => by simp [h], fun h => by simp [h]⟩
        · exact ⟨id, id, id⟩

theorem scan_le (shape : Shape) : shape.le (scan hs shape) := by
  induction hs generalizing shape with
  | nil => exact ⟨id, id, id⟩
  | cons kv hs ih => exact Shape.le_trans (scanHeader_le shape kv.1 kv.2) (ih _)

/-- What one header of the list does to the shape survives the scan. -/
theorem scan_mem {k v : Bytes} (hmem : (k, v) ∈ hs) (shape : Shape) :
    ∃ s, (scanHeader s k v).le (scan hs shape) := by
  induction hs generalizing shape with
  | nil => cases hmem
  | cons kv hs ih =>
    rcases List.mem_cons.mp hmem with rfl | hmem
    · exact ⟨shape, scan_le hs _⟩
    · exact ih hmem _

variable {hs}

theorem lower_eq_of_eqIgnoreAsciiCase {k name : Bytes} (hlow : toAsciiLowercase name = name)
    (h : eqIgnoreAsciiCase k name = true) : toAsciiLowercase k = name := by
  simp only [eqIgnoreAsciiCase, beq_iff_eq] at h
  rw [h, hlow]

theorem scan_close {k v : Bytes} (hmem : (k, v) ∈ hs)
    (hk : eqIgnoreAsciiCase k (ascii "connection") = true)
    (hv : ascii "close" <:+: toAsciiLowercase v) (shape : Shape) :
    (scan hs shape).wantsClose = true := by
  obtain ⟨s, hle⟩ := scan_mem hs hmem shape
  have hk' := lower_eq_of_eqIgnoreAsciiCase (by decide) hk
  apply hle.2.2
  have hc : contains (toAsciiLowercase v) (ascii "close") = true := (contains_iff _ _).mpr hv
  unfold scanHeader
  simp only [hk', hc, Bool.or_true]
  rw [if_neg (by decide), if_neg (fun h => absurd h.1 (by decide)), if_neg (by decide), if_pos trivial]

theorem scan_chunked {k v : Bytes} (hmem : (k, v) ∈ hs)
    (hk : eqIgnoreAsciiCase k (ascii "transfer-encoding") = true)
    (hv : ascii "chunked" <:+: toAsciiLowercase v) (shape : Shape) :
    (scan hs shape).isChunked = true := by
  obtain ⟨s, hle⟩ := scan_mem hs hmem shape
  have hk' := lower_eq_of_eqIgnoreAsciiCase (by decide) hk
  apply hle.1
  unfold scanHeader
  simp only [hk', contains_iff, hv]
  rw [if_neg (by decide), if_pos ⟨trivial, trivial⟩]

end Scan

/-! ## The response shape against HTTP -/

theorem responseShape_eq (h : Http.Head) : responseShape h =
    scan (lossyHeaders h.fields) ⟨none, false, h.status == 101, false⟩ := rfl

theorem mem_lossyHeaders {fields : List Http.Field} {k v : Bytes} (h : (k, v) ∈ fields) :
    (k, fromUtf8Lossy v) ∈ lossyHeaders fields :=
  List.mem_map.mpr ⟨(k, v), h, rfl⟩

/-- ASCII text in a raw value, in any letter case, is in the lower-cased
value the scan looks at. -/
theorem lossy_lower_isInfix {w v low : Bytes} (hw : IsAscii w) (h : w <:+: v)
    (hlow : toAsciiLowercase w = low) : low <:+: toAsciiLowercase (fromUtf8Lossy v) := by
  rw [← hlow]
  exact toAsciiLowercase_isInfix (fromUtf8Lossy_isInfix hw h)

/-- Lower-casing does not turn other bytes into ASCII. -/
theorem isAscii_of_lower {w : Bytes} (h : IsAscii (toAsciiLowercase w)) : IsAscii w := by
  intro b hb
  have hl := h (lowerByte b) (List.mem_map_of_mem hb)
  unfold lowerByte at hl
  split at hl
  · rename_i hc
    exact UInt8.lt_of_le_of_lt hc.2 (by decide)
  · exact hl

/-- A connection option of the response is seen by the scan. -/
theorem no_close_of_poolable {h : Http.Head} (hp : (responseShape h).responsePoolable = true) :
    Http.hasOption h.fields (ascii "close") = false := by
  rw [Bool.eq_false_iff]
  intro hopt
  obtain ⟨k, v, hmem, hk, w, hw, hlow⟩ := Http.hasOption_isInfix hopt
  have hlow' : toAsciiLowercase w = ascii "close" := by rw [hlow]; decide
  have hclose := scan_close (mem_lossyHeaders hmem) hk
    (lossy_lower_isInfix (isAscii_of_lower (hlow' ▸ isAscii_of_all (by decide))) hw hlow')
    ⟨none, false, h.status == 101, false⟩
  rw [← responseShape_eq] at hclose
  simp [Shape.responsePoolable, hclose] at hp

theorem getLastD_mem {l : List Bytes} (h : l ≠ []) : l.getLastD [] ∈ l := by
  rw [List.getLastD_eq_getLast?, List.getLast?_eq_some_getLast h]
  exact List.getLast_mem h

/-- A response in the chunked coding is seen as chunked. -/
theorem chunked_not_poolable {method : Bytes} {h : Http.Head}
    (hf : Http.framing method h = some .chunked) : (responseShape h).isChunked = true := by
  unfold Http.framing at hf
  simp only at hf
  split at hf
  · cases hf
  · split at hf
    · cases hf
    · split at hf
      · rename_i hne
        split at hf
        · rename_i hlast
          have hm := getLastD_mem hne
          generalize (Http.elements (ascii "transfer-encoding") h.fields).getLastD [] = e at hm hlast
          simp only [Http.elements, List.mem_flatMap, List.mem_map] at hm
          obtain ⟨v, hv, x, hx, he⟩ := hm
          obtain ⟨k, hk, hn⟩ := Http.mem_values.mp hv
          rw [← he] at hlast
          have hlow : toAsciiLowercase (Http.trim x) = ascii "chunked" := by
            simp only [eqIgnoreAsciiCase, beq_iff_eq] at hlast
            rw [hlast]
            decide
          rw [responseShape_eq]
          exact scan_chunked (mem_lossyHeaders hk) hn
            (lossy_lower_isInfix (isAscii_of_lower (hlow ▸ isAscii_of_all (by decide)))
              ((Http.trim_isInfix x).trans (Http.splitComma_isInfix hx)) hlow) _
        · cases hf
      · split at hf <;> cases hf

/-- The length kept from a response is a Content-Length field of the raw
head. -/
theorem responseShape_contentLength {h : Http.Head} {n : Nat}
    (hn : (responseShape h).contentLength = some n) :
    ∃ k v, (k, v) ∈ h.fields ∧ eqIgnoreAsciiCase k (ascii "content-length") = true ∧
      parseU64 v = some n := by
  rw [responseShape_eq] at hn
  rcases scan_contentLength _ hn with h0 | ⟨k, v, hmem, hk, hv⟩
  · cases h0
  · simp only [lossyHeaders, List.mem_map, Prod.mk.injEq, Prod.exists] at hmem
    obtain ⟨k', v', hmem, rfl, rfl⟩ := hmem
    exact ⟨k', v', hmem, hk, by rwa [parseU64_fromUtf8Lossy hv] at hv⟩

/-- A response with a shape of length `n` that HTTP delimits by a length is
delimited by the same length. -/
theorem framing_length_eq {method : Bytes} {h : Http.Head} {n m : Nat}
    (hn : (responseShape h).contentLength = some n) (hf : Http.framing method h = some (.length m)) :
    n = m := by
  obtain ⟨k, v, hmem, hk, hv⟩ := responseShape_contentLength hn
  unfold Http.framing at hf
  simp only at hf
  split at hf
  · cases hf
  · split at hf
    · cases hf
    · split at hf
      · split at hf <;> cases hf
      · split at hf
        · cases hf
        · rename_i m' hm
          cases hf
          exact Http.contentLength_of_mem hm hmem hk hv
        · cases hf

theorem switching_not_poolable {h : Http.Head} (hs : h.status = 101) :
    (responseShape h).responsePoolable = false := by
  have hup := (scan_le (lossyHeaders h.fields) ⟨none, false, h.status == 101, false⟩).2.1 (by simp [hs])
  rw [← responseShape_eq] at hup
  simp [Shape.responsePoolable, hup]

/-- Where a poolable shape keeps a length, a body as HTTP delimits it is no
longer than that. -/
theorem body_length_le {method body : Bytes} {h : Http.Head} {fr : Http.Framing} {n : Nat}
    (ha : Http.lengthAllowed method h = true) (hp : (responseShape h).responsePoolable = true)
    (hn : (responseShape h).contentLength = some n) (hf : Http.framing method h = some fr)
    (hd : Http.Delimits fr body) : body.length ≤ n := by
  obtain ⟨k, v, hmem, hk, -⟩ := responseShape_contentLength hn
  obtain ⟨hte, -, hco⟩ := Http.lengthAllowed_of_mem ha (Http.mem_values.mpr ⟨k, hmem, hk⟩)
  rcases Http.framing_cases hf hte with (hs | hc) | rfl | habs | ⟨m, rfl, -⟩
  · rw [switching_not_poolable hs] at hp
    cases hp
  · exact absurd hc hco
  · rw [hd.empty_eq]
    exact Nat.zero_le _
  · exact absurd habs (Http.contentLength_ne_absent hmem hk)
  · rw [hd.length_eq, framing_length_eq hn hf]

end QuickTunnel.Proxy
