import QuickTunnel.Proxy.EdgeRequest

/-!
# What the origin reads in the request head

`build_request_head` prints; a server parses. For a request whose parts fit
their lines the server gets back method, target and fields, and nothing of
the bytes that follow. The target is the one `extract_path` makes of `dest`,
which is the path and query of the URL only where the path is there and
comes first.

* `parses_back`: the round trip, in front of any bytes.
* `extractPath_absolute`, `extractPath_origin`: when the target is right.
* `target_iff`: the same about the request line sent.
-/
namespace QuickTunnel.Proxy

open QuickTunnel.Stream

/-- **The head parses back to the request**: the first method, the target of
`dest`, Host, the header entries in their order and a Connection field where
the metadata has none. -/
theorem parses_back {req : ConnectRequest} (h : printableRequest req = true) (keepAlive : Bool)
    (rest : Bytes) : Http.parseRequestHead (buildRequestHead req keepAlive ++ rest) =
      some (⟨requestMethod req, extractPath req.dest, requestFields req keepAlive⟩, rest) := by
  rw [buildRequestHead_eq_print]
  exact Http.parse_print (requestHead_valid h) rest

/-- Repeated names, an entry that is no header, colons in a value, a Host
entry of its own. -/
def variedRequest : ConnectRequest :=
  ⟨ascii "https://a/x?t=1:2", .http,
    [(HTTP_METHOD_KEY, ascii "PUT"), (HTTP_HEADER_KEY ++ ascii ":A", ascii "b: c"),
      (ascii "Other", ascii "\r\n"), (HTTP_HEADER_KEY ++ ascii ":host", ascii "z"),
      (HTTP_HEADER_KEY ++ ascii ":A", []), (HTTP_HOST_KEY, ascii "a")]⟩

theorem parses_back_varied : Http.parseRequestHead (buildRequestHead variedRequest false ++ ascii "body") =
    some (⟨ascii "PUT", ascii "/x?t=1:2", [(ascii "Host", ascii "a"), (ascii "A", ascii "b: c"),
      (ascii "A", []), (ascii "Connection", ascii "close")]⟩, ascii "body") := by
  rw [parses_back (by decide) false (ascii "body")]
  decide

/-! ## The target -/

/-- A `dest`: a URL `scheme '://' authority path-abempty [ '?' query ]`, or
one in origin form. -/
inductive Dest
  | absolute (scheme authority path : Bytes) (query : Option Bytes)
  | origin (target : Bytes)
  deriving DecidableEq

def queryPart : Option Bytes → Bytes
  | none => []
  | some q => ascii "?" ++ q

namespace Dest

def print : Dest → Bytes
  | .absolute scheme authority path query =>
    scheme ++ (ascii "://" ++ (authority ++ (path ++ queryPart query)))
  | .origin target => target

/-- The request target of the URL. -/
def target : Dest → Bytes
  | .absolute _ _ path query => (if path = [] then ascii "/" else path) ++ queryPart query
  | .origin target => target

/-- No colon in the scheme, no `/`, `?` or `#` in the authority; a path is
empty or begins with `/`. Queries are arbitrary. -/
def WellFormed : Dest → Prop
  | .absolute scheme authority path _ => (∀ b ∈ scheme, b ≠ 58) ∧
    (∀ b ∈ authority, b ≠ 47 ∧ b ≠ 63 ∧ b ≠ 35) ∧ (path = [] ∨ ∃ p, path = 47 :: p)
  | .origin target => ∃ t, target = 47 :: t

/-- The first `/` behind the first `://` is where the target begins. -/
def Plain : Dest → Prop
  | .absolute _ _ path query => path ≠ [] ∨ query = none
  | .origin target => ¬ ascii "://" <:+: target

end Dest

theorem find_of_prefix {pat s : Bytes} (h : pat <+: s) : find s pat = some 0 := by
  cases s with
  | nil =>
    rw [List.prefix_nil.1 h]
    rfl
  | cons b s => rw [find, if_pos h]

/-- Behind `://` the target starts at the first slash. -/
theorem extractPath_scheme {scheme rest : Bytes} (hs : ∀ b ∈ scheme, b ≠ 58) :
    extractPath (scheme ++ (ascii "://" ++ rest)) =
      match find rest (ascii "/") with
      | some slash => rest.drop slash
      | none => ascii "/" := by
  have hpat : ascii "://" = 58 :: [47, 47] := by decide
  have hfind : find (scheme ++ (ascii "://" ++ rest)) (ascii "://") = some scheme.length := by
    have h0 := find_of_prefix (List.prefix_append (ascii "://") rest)
    rw [hpat] at h0 ⊢
    rw [find_skip hs, h0]
    simp
  have hdrop : (scheme ++ (ascii "://" ++ rest)).drop (scheme.length + 3) = rest := by
    have hlen : (ascii "://").length = 3 := by decide
    rw [← List.append_assoc, ← hlen, ← List.length_append, List.drop_left]
  unfold extractPath
  cases hslash : find rest (ascii "/") with
  | none => simp only [hfind, hdrop, hslash]
  | some slash => simp only [hfind, hdrop, hslash]

theorem find_slash {authority : Bytes} (ha : ∀ b ∈ authority, b ≠ (47 : UInt8)) (s : Bytes) :
    find (authority ++ s) (ascii "/") = (find s (ascii "/")).map (· + authority.length) := by
  have hpat : ascii "/" = 47 :: [] := by decide
  rw [hpat, find_skip ha]

theorem extractPath_absolute {scheme authority path : Bytes} {query : Option Bytes}
    (hd : (Dest.absolute scheme authority path query).WellFormed) :
    extractPath (Dest.absolute scheme authority path query).print =
      (Dest.absolute scheme authority path query).target ↔ path ≠ [] ∨ query = none := by
  obtain ⟨hs, ha, hp⟩ := hd
  have hone : ascii "/" = [47] := by decide
  have hslash := find_slash (fun b hb => (ha b hb).1) (path ++ queryPart query)
  simp only [Dest.print, Dest.target, extractPath_scheme hs]
  rcases hp with rfl | ⟨p, rfl⟩
  · cases query with
    | none =>
      -- no path and no query
      have hnone : find [] (ascii "/") = none := by decide
      simp only [queryPart, List.append_nil, hnone, Option.map_none] at hslash ⊢
      simp [hslash]
    | some q =>
      -- a query at once behind the authority: the slash found, if any, is in it
      simp only [List.nil_append, ne_eq, not_true_eq_false, false_or, reduceCtorEq, iff_false,
        if_true] at hslash ⊢
      intro heq
      have hlen := congrArg List.length heq
      have hq : (queryPart (some q)).length = q.length + 1 := by
        simp [queryPart, ascii]
      have h1 : (ascii "/").length = 1 := by decide
      cases hf : find (queryPart (some q)) (ascii "/") with
      | none =>
        simp only [hf, Option.map_none] at hslash
        simp only [hslash, List.length_append, hq, h1] at hlen
        omega
      | some i =>
        simp only [hf, Option.map_some] at hslash
        simp only [hslash, List.length_append, List.length_drop, hq, h1] at hlen
        omega
  · have h0 : find (47 :: p ++ queryPart query) (ascii "/") = some 0 :=
      find_of_prefix (hone ▸ ⟨p ++ queryPart query, rfl⟩)
    rw [h0, Option.map_some] at hslash
    simp only [hslash, Nat.zero_add, List.drop_left]
    simp

theorem extractPath_origin {target : Bytes} (hd : (Dest.origin target).WellFormed) :
    extractPath (Dest.origin target).print = (Dest.origin target).target ↔
      ¬ ascii "://" <:+: target := by
  obtain ⟨t, rfl⟩ := hd
  have hone : ascii "/" = [47] := by decide
  simp only [Dest.print, Dest.target, extractPath]
  rw [← find_isSome_iff]
  cases hf : find (47 :: t) (ascii "://") with
  | none =>
    have hpre : (ascii "/").isPrefixOf (47 :: t) = true := by rw [hone]; simp
    simp [hpre]
  | some i =>
    have hle := find_le (by decide) hf
    have h3 : (ascii "://").length = 3 := by decide
    rw [h3, List.length_cons] at hle
    simp only [Option.isSome_some, not_true_eq_false, iff_false]
    intro heq
    have hlen := congrArg List.length heq
    split at hlen
    · simp only [List.length_drop, List.length_cons] at hlen
      omega
    · simp only [hone, List.length_cons, List.length_nil] at hlen
      omega

theorem Dest.extractPath_iff {d : Dest} (hd : d.WellFormed) : extractPath d.print = d.target ↔ d.Plain := by
  cases d with
  | absolute scheme authority path query => exact extractPath_absolute hd
  | origin target => exact extractPath_origin hd

/-- The head sent is the request's, with `target` in the request line. -/
def Sends (req : ConnectRequest) (keepAlive : Bool) (target : Bytes) : Prop :=
  buildRequestHead req keepAlive =
    (⟨requestMethod req, target, requestFields req keepAlive⟩ : Http.RequestHead).print

theorem sends_iff {req : ConnectRequest} {keepAlive : Bool} {target : Bytes} :
    Sends req keepAlive target ↔ extractPath req.dest = target := by
  unfold Sends
  rw [buildRequestHead_eq_print]
  refine ⟨fun h => ?_, fun h => by rw [← h]; rfl⟩
  simp only [requestHead, Http.RequestHead.print, List.append_assoc] at h
  have h := List.append_cancel_left (List.append_cancel_left h)
  exact List.append_cancel_right h

/-- **The request line has the path and query of `dest`** iff the URL has a
path or no query, and, in origin form, iff it nowhere contains `://`. -/
theorem target_iff {d : Dest} (hd : d.WellFormed) {req : ConnectRequest} (hreq : req.dest = d.print)
    (keepAlive : Bool) : Sends req keepAlive d.target ↔ d.Plain := by
  rw [sends_iff, hreq, d.extractPath_iff hd]

/-- A path behind the authority, and a query with delimiters. -/
def withPath : Dest := .absolute (ascii "https") (ascii "a:8080") (ascii "/p") (some (ascii "u=http://b/c?d"))

def getOf (d : Dest) : ConnectRequest := ⟨d.print, .http, []⟩

theorem withPath_wellFormed : withPath.WellFormed := by
  refine ⟨Http.forall_ne_of_all (by decide), fun b hb => ⟨?_, ?_, ?_⟩, .inr ⟨ascii "p", by decide⟩⟩
  · exact Http.forall_ne_of_all (by decide) b hb
  · exact Http.forall_ne_of_all (by decide) b hb
  · exact Http.forall_ne_of_all (by decide) b hb

theorem target_with_path : Sends (getOf withPath) true (ascii "/p?u=http://b/c?d") ↔ withPath.Plain :=
  target_iff withPath_wellFormed rfl true

/-- A query at once behind the authority, and one that holds a URL. -/
theorem target_misread :
    ¬ Sends (getOf (.absolute (ascii "https") (ascii "h") [] (some (ascii "x=1")))) true (ascii "/?x=1") ∧
    ¬ Sends (getOf (.origin (ascii "/login?to=http://h/x"))) true (ascii "/login?to=http://h/x") := by
  rw [sends_iff, sends_iff]
  decide

end QuickTunnel.Proxy
