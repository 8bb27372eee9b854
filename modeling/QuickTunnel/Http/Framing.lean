import QuickTunnel.Http.Field

/-!
# Where an HTTP/1.1 response ends

A response is any number of interim heads (1xx other than 101) followed by
a final head and its body; the body's end follows from the request method,
the status, Transfer-Encoding and Content-Length, in that order
(`framing`). After 101, and after a 2xx reply to CONNECT, the connection no
longer carries HTTP messages, which is `untilClose` as well.

What counts as one complete head is a parameter (`IsHead`): the library
does not fix a head parser.
-/
namespace QuickTunnel.Http

/-- A parsed response head; `version` is the minor version of HTTP/1.x. -/
structure Head where
  version : Nat
  status : Nat
  fields : List Field
  deriving DecidableEq, Repr

def Head.interim (h : Head) : Bool := 100 ≤ h.status && h.status < 200 && h.status != 101

inductive Framing
  | empty
  | length (n : Nat)
  | chunked
  | untilClose
  deriving DecidableEq, Repr

/-- Statuses whose responses never have a body. -/
def bodiless (status : Nat) : Bool := (100 ≤ status && status < 200) || status == 204 || status == 304

/-- `none`: the announced length is invalid, the message has no end a
recipient may trust. -/
def framing (method : Bytes) (h : Head) : Option Framing :=
  let codings := elements (ascii "transfer-encoding") h.fields
  if h.status = 101 ∨ (method = ascii "CONNECT" ∧ 200 ≤ h.status ∧ h.status < 300) then
    some .untilClose
  else if method = ascii "HEAD" ∨ bodiless h.status then some .empty
  else if codings ≠ [] then
    if eqIgnoreAsciiCase (codings.getLastD []) (ascii "chunked") then some .chunked
    else some .untilClose
  else match contentLength h.fields with
    | .absent => some .untilClose
    | .length n => some (.length n)
    | .invalid => none

def crlf : Bytes := [13, 10]

/-- No line break inside. -/
def OneLine (s : Bytes) : Prop := ∀ b ∈ s, b ≠ 13 ∧ b ≠ 10

def hexDigit? (b : UInt8) : Option Nat :=
  if 48 ≤ b ∧ b ≤ 57 then some (b.toNat - 48)
  else if 65 ≤ b ∧ b ≤ 70 then some (b.toNat - 55)
  else if 97 ≤ b ∧ b ≤ 102 then some (b.toNat - 87)
  else none

/-- The value of a nonempty string of hexadecimal digits. -/
def hex? (s : Bytes) : Option Nat :=
  if s = [] then none
  else s.foldl (fun acc b => acc.bind fun n => (hexDigit? b).map (16 * n + ·)) (some 0)

/-- A chunk extension: empty or introduced by `;`. -/
def IsExtension (s : Bytes) : Prop := OneLine s ∧ (s = [] ∨ s.head? = some 59)

inductive Trailer : Bytes → Prop
  | nil : Trailer []
  | cons {line rest : Bytes} : line ≠ [] → OneLine line → Trailer rest →
      Trailer (line ++ crlf ++ rest)

/-- The chunked coding: chunks of announced size, a last chunk of size 0,
trailer fields, an empty line. -/
inductive Chunked : Bytes → Prop
  | last {size ext trailer : Bytes} : hex? size = some 0 → IsExtension ext → Trailer trailer →
      Chunked (size ++ ext ++ crlf ++ trailer ++ crlf)
  | chunk {size ext data rest : Bytes} : hex? size = some data.length → data ≠ [] →
      IsExtension ext → Chunked rest → Chunked (size ++ ext ++ crlf ++ data ++ crlf ++ rest)

/-- `body` is a complete body under the framing. -/
inductive Delimits : Framing → Bytes → Prop
  | empty : Delimits .empty []
  | length (body : Bytes) : Delimits (.length body.length) body
  | chunked {body : Bytes} : Chunked body → Delimits .chunked body
  | untilClose (body : Bytes) : Delimits .untilClose body

/-- A sender announces no length where the recipient may not use it: beside
a transfer coding, in an interim head, in a 2xx reply to CONNECT. -/
def lengthAllowed (method : Bytes) (h : Head) : Bool :=
  values (ascii "content-length") h.fields = [] ||
    (values (ascii "transfer-encoding") h.fields = [] && !h.interim &&
      !(method = ascii "CONNECT" && 200 ≤ h.status && h.status < 300))

/-- One complete response to a request with the given method. -/
inductive Response (IsHead : Bytes → Head → Prop) (method : Bytes) : Bytes → Prop
  | interim {raw rest : Bytes} {h : Head} : IsHead raw h → h.interim = true →
      lengthAllowed method h = true → Response IsHead method rest →
      Response IsHead method (raw ++ rest)
  | final {raw body : Bytes} {h : Head} {fr : Framing} : IsHead raw h → h.interim = false →
      lengthAllowed method h = true → framing method h = some fr → Delimits fr body →
      Response IsHead method (raw ++ body)

theorem Delimits.empty_eq {body : Bytes} (h : Delimits .empty body) : body = [] := by
  cases h
  rfl

theorem Delimits.length_eq {body : Bytes} {n : Nat} (h : Delimits (.length n) body) :
    body.length = n := by
  cases h
  rfl

theorem lengthAllowed_of_mem {method v : Bytes} {h : Head} (ha : lengthAllowed method h = true)
    (hv : v ∈ values (ascii "content-length") h.fields) :
    values (ascii "transfer-encoding") h.fields = [] ∧ h.interim = false ∧
      ¬ (method = ascii "CONNECT" ∧ 200 ≤ h.status ∧ h.status < 300) := by
  have hne := List.ne_nil_of_mem hv
  simp only [lengthAllowed, hne, decide_false, Bool.false_or, Bool.and_eq_true, decide_eq_true_eq,
    Bool.not_eq_true', Bool.and_eq_false_iff, decide_eq_false_iff_not] at ha
  obtain ⟨⟨hte, hint⟩, hco⟩ := ha
  refine ⟨hte, hint, ?_⟩
  intro hboth
  obtain ⟨hm, h200, h300⟩ := hboth
  rcases hco with (h | h) | h
  · exact h hm
  · exact h h200
  · exact h h300

/-- Without a transfer coding the length decides, unless method or status
say that there is no body or no message. -/
theorem framing_cases {method : Bytes} {h : Head} {fr : Framing}
    (hf : framing method h = some fr) (hte : values (ascii "transfer-encoding") h.fields = []) :
    (h.status = 101 ∨ (method = ascii "CONNECT" ∧ 200 ≤ h.status ∧ h.status < 300)) ∨ fr = .empty ∨
      contentLength h.fields = .absent ∨ ∃ n, fr = .length n ∧ contentLength h.fields = .length n := by
  have helems : elements (ascii "transfer-encoding") h.fields = [] := by simp [elements, hte]
  unfold framing at hf
  simp only [helems, ne_eq, not_true_eq_false, if_false] at hf
  split at hf
  · exact .inl ‹_›
  · split at hf
    · exact .inr (.inl (Option.some.inj hf).symm)
    · split at hf
      · exact .inr (.inr (.inl ‹_›))
      · rename_i n hn
        exact .inr (.inr (.inr ⟨n, (Option.some.inj hf).symm, hn⟩))
      · cases hf

/-- Chunk sizes. -/
example : hex? (ascii "1a") = some 26 ∧ hex? (ascii "") = none ∧ hex? (ascii "5;") = none := by
  decide

end QuickTunnel.Http
