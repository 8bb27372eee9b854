import QuickTunnel.Core.Bytes
import QuickTunnel.Http.Framing
import QuickTunnel.Http.Request

/-!
# The `httparse` response parser

`read_http_response_head` hands its buffer to the `httparse` crate, which is
not part of the repository: it is a parameter, a function with the
documented properties of `httparse::Response::parse` on a 64-entry header
buffer. A head is decided by its own bytes: every proper prefix answers
`Partial` and every extension the same `Complete`.

`refHttparse` is a small parser with these properties (it waits for the
first empty line, then reads the status line and the fields), used to
evaluate the model on concrete bytes.

* `parse_of_prefix`: what `parse` answers on any piece of a stream that
  begins with a complete head.
* `head_unique`: a stream begins with at most one complete head.
-/
namespace QuickTunnel.Proxy

/-- The fields of `httparse::Response` the crate reads. -/
structure RawResponse where
  version : Option Nat
  code : Option Nat
  headers : List Http.Field
  deriving DecidableEq, Repr

/-- `httparse::Result<Status<usize>>` together with the filled response;
`incomplete` is `Status::Partial`. -/
inductive Parsed
  | incomplete
  | complete (consumed : Nat) (resp : RawResponse)
  | error (e : String)
  deriving DecidableEq, Repr

/-- The head of the smallest response with a body length. -/
def emptyOk : Bytes := ascii "HTTP/1.1 200 OK\r\nContent-Length: 0\r\n\r\n"

structure Httparse where
  parse : Bytes → Parsed
  /-- some bytes are consumed, all of them from the buffer -/
  consumed_le : ∀ {b c r}, parse b = .complete c r → 0 < c ∧ c ≤ b.length
  /-- a complete response has a version (1.0 or 1.1), a three-digit code and
  at most 64 fields -/
  filled : ∀ {b c r}, parse b = .complete c r →
    ∃ v code, v ≤ 1 ∧ code < 1000 ∧ r.version = some v ∧ r.code = some code ∧ r.headers.length ≤ 64
  /-- the consumed bytes alone are complete -/
  own : ∀ {b c r}, parse b = .complete c r → parse (b.take c) = .complete c r
  /-- bytes behind a head do not change the answer -/
  extend : ∀ {raw r}, parse raw = .complete raw.length r → ∀ x, parse (raw ++ x) = .complete raw.length r
  /-- a proper prefix of a head is `Partial` -/
  before : ∀ {raw r}, parse raw = .complete raw.length r → ∀ k < raw.length,
    parse (raw.take k) = .incomplete
  /-- the smallest response is accepted -/
  emptyOk : parse emptyOk = .complete emptyOk.length
    ⟨some 1, some 200, [(ascii "Content-Length", ascii "0")]⟩

namespace Httparse
variable (P : Httparse)

/-- `raw` is exactly one complete response head. -/
def IsHead (raw : Bytes) (h : Http.Head) : Prop :=
  P.parse raw = .complete raw.length ⟨some h.version, some h.status, h.fields⟩

variable {P}

theorem isHead_of_parse {b : Bytes} {c : Nat} {r : RawResponse} (hp : P.parse b = .complete c r) :
    ∃ h : Http.Head, r = ⟨some h.version, some h.status, h.fields⟩ ∧ P.IsHead (b.take c) h ∧
      (b.take c).length = c := by
  obtain ⟨v, code, -, -, hv, hc, -⟩ := P.filled hp
  have hlen : (b.take c).length = c := by
    rw [List.length_take]
    exact Nat.min_eq_left (P.consumed_le hp).2
  obtain ⟨version, code', headers⟩ := r
  simp only at hv hc
  subst hv hc
  exact ⟨⟨v, code, headers⟩, rfl, by rw [IsHead, hlen]; exact P.own hp, hlen⟩

theorem IsHead.pos {raw : Bytes} {h : Http.Head} (hh : P.IsHead raw h) : 0 < raw.length :=
  (P.consumed_le hh).1

theorem IsHead.version_le {raw : Bytes} {h : Http.Head} (hh : P.IsHead raw h) : h.version ≤ 1 := by
  obtain ⟨v, code, hv, -, hv', -, -⟩ := P.filled hh
  simp only [Option.some.injEq] at hv'
  omega

/-- On a piece of a stream that begins with a head: `Partial` until the head
is there, then always the head. -/
theorem parse_of_prefix {raw : Bytes} {h : Http.Head} (hh : P.IsHead raw h) {S buf : Bytes}
    (hraw : raw <+: S) (hbuf : buf <+: S) :
    P.parse buf = if raw.length ≤ buf.length then
      .complete raw.length ⟨some h.version, some h.status, h.fields⟩ else .incomplete := by
  split
  · rename_i hle
    obtain ⟨x, rfl⟩ := List.prefix_of_prefix_length_le hraw hbuf hle
    exact P.extend hh x
  · rename_i hlt
    have hpre := List.prefix_of_prefix_length_le hbuf hraw (by omega)
    rw [List.prefix_iff_eq_take.mp hpre]
    exact P.before hh _ (by omega)

theorem head_unique {raw raw' : Bytes} {h h' : Http.Head} (hh : P.IsHead raw h)
    (hh' : P.IsHead raw' h') {S : Bytes} (hraw : raw <+: S) (hraw' : raw' <+: S) :
    raw = raw' ∧ h = h' := by
  have hp := parse_of_prefix hh hraw hraw'
  rw [hh'] at hp
  split at hp
  · simp only [Parsed.complete.injEq, RawResponse.mk.injEq, Option.some.injEq] at hp
    obtain ⟨hl, hv, hs, hf⟩ := hp
    refine ⟨?_, ?_⟩
    · rw [List.prefix_iff_eq_take.mp hraw, List.prefix_iff_eq_take.mp hraw', hl]
    · cases h
      cases h'
      simp_all
  · cases hp

end Httparse

/-! ## A parser with these properties -/

/-- `HTTP/1.x NNN` and anything behind a blank. -/
def parseStatusLine (line : Bytes) : Option (Nat × Nat) :=
  (stripPrefix (ascii "HTTP/1.") line).bind fun s =>
    match s with
    | v :: 32 :: a :: b :: c :: rest =>
      if (v = 48 ∨ v = 49) ∧ [a, b, c].all isDigit ∧ (rest = [] ∨ rest.head? = some 32) then
        some (v.toNat - 48, 100 * (a.toNat - 48) + 10 * (b.toNat - 48) + (c.toNat - 48))
      else none
    | _ => none

def parseBlock (block : Bytes) : Option RawResponse :=
  (Http.takeLine block).bind fun p =>
    (parseStatusLine p.1).bind fun st =>
      (Http.parseFields (p.2.length + 1) p.2).bind fun q =>
        if q.1.length ≤ 64 then some ⟨some st.1, some st.2, q.1⟩ else none

def emptyLine : Bytes := [13, 10, 13, 10]

def refParse (b : Bytes) : Parsed :=
  match find b emptyLine with
  | none => .incomplete
  | some i =>
    match parseBlock (b.take (i + 4)) with
    | none => .error "invalid head"
    | some r => .complete (i + 4) r

theorem refParse_complete {b : Bytes} {c : Nat} {r : RawResponse}
    (h : refParse b = .complete c r) :
    ∃ i, find b emptyLine = some i ∧ c = i + 4 ∧ parseBlock (b.take c) = some r := by
  unfold refParse at h
  split at h
  · cases h
  · rename_i i hi
    split at h
    · cases h
    · rename_i r' hr
      cases h
      exact ⟨i, hi, rfl, hr⟩

theorem refParse_of_find {b : Bytes} {i : Nat} {r : RawResponse} (hi : find b emptyLine = some i)
    (hr : parseBlock (b.take (i + 4)) = some r) : refParse b = .complete (i + 4) r := by
  simp only [refParse, hi, hr]

theorem parseBlock_filled {block : Bytes} {r : RawResponse} (h : parseBlock block = some r) :
    ∃ v code, v ≤ 1 ∧ code < 1000 ∧ r.version = some v ∧ r.code = some code ∧
      r.headers.length ≤ 64 := by
  simp only [parseBlock, Option.bind_eq_some_iff] at h
  obtain ⟨p, -, st, hst, q, -, hq⟩ := h
  split at hq
  · rename_i hle
    cases hq
    refine ⟨st.1, st.2, ?_, ?_, rfl, rfl, hle⟩ <;>
    · simp only [parseStatusLine, Option.bind_eq_some_iff] at hst
      obtain ⟨s, -, hs⟩ := hst
      split at hs
      · rename_i v a b c rest
        split at hs
        · rename_i hc
          cases hs
          obtain ⟨hv, hd, -⟩ := hc
          simp only [List.all_cons, List.all_nil, Bool.and_true, Bool.and_eq_true, isDigit,
            decide_eq_true_eq, UInt8.le_iff_toNat_le] at hd
          have h57 : (57 : UInt8).toNat = 57 := rfl
          rcases hv with rfl | rfl <;> simp <;> omega
        · cases hs
      · cases hs
  · cases hq

/-- The reference parser as an instance of the interface. -/
def refHttparse : Httparse where
  parse := refParse
  consumed_le := by
    intro b c r h
    obtain ⟨i, hi, rfl, -⟩ := refParse_complete h
    have := find_le (by decide) hi
    exact ⟨by omega, this⟩
  filled := by
    intro b c r h
    obtain ⟨i, -, -, hr⟩ := refParse_complete h
    exact parseBlock_filled hr
  own := by
    intro b c r h
    obtain ⟨i, hi, rfl, hr⟩ := refParse_complete h
    exact refParse_of_find (find_take_of_le hi (Nat.le_refl _)) (by rwa [List.take_take, Nat.min_self])
  extend := by
    intro raw r h x
    obtain ⟨i, hi, hc, hr⟩ := refParse_complete h
    rw [hc] at hr ⊢
    refine refParse_of_find (find_append hi x) ?_
    rwa [List.take_append_of_le_length (by omega)]
  before := by
    intro raw r h k hk
    obtain ⟨i, hi, hc, -⟩ := refParse_complete h
    have hlen : emptyLine.length = 4 := rfl
    have := find_take_of_lt (s := raw) (k := k) (by decide) hi (by rw [hlen]; omega)
    simp only [refParse, this]
  emptyOk := by decide

end QuickTunnel.Proxy
