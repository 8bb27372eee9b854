import QuickTunnel.Http.Print

/-!
# The requests on a connection

A server reads a connection from the front: a head, the body it announces,
the next head. `requests` are the requests that are there completely, with
the bytes behind them; `request` is the `k`-th request a server knows of,
which may still lack some of its body. Behind a request in a transfer coding
nothing is read.

* `requests_append`: more bytes only continue what was left over.
* `request_append`: a request once known stays the same.
* `request_append_of_rest`: behind a connection at rest the count starts anew.
* `request_front`: a connection at rest, then (part of) one printed request.
-/
namespace QuickTunnel.Http

/-- The body length of a request without a transfer coding. -/
def RequestHead.fixedLength (h : RequestHead) : Option Nat :=
  if values (ascii "transfer-encoding") h.fields = [] then h.bodyLength else none

/-- The first argument bounds the number of requests. -/
def requestsWithin : Nat → Bytes → List RequestHead × Bytes
  | 0, s => ([], s)
  | k + 1, s =>
    match parseRequestHead s with
    | none => ([], s)
    | some (h, rest) =>
      match h.fixedLength with
      | none => ([], s)
      | some n =>
        if rest.length < n then ([], s)
        else (h :: (requestsWithin k (rest.drop n)).1, (requestsWithin k (rest.drop n)).2)

/-- The complete requests at the front of `s`, and the bytes behind them. -/
def requests (s : Bytes) : List RequestHead × Bytes := requestsWithin s.length s

/-- The `k`-th request received, and whether all of it has been. -/
def request (s : Bytes) (k : Nat) : Option (RequestHead × Bool) :=
  match (requests s).1[k]? with
  | some h => some (h, true)
  | none =>
    if k = (requests s).1.length then (parseRequestHead (requests s).2).map fun p => (p.1, false)
    else none

section Requests
variable {s rest : Bytes} {h : RequestHead} {n : Nat}

theorem requestsWithin_stable {k : Nat} : ∀ {s : Bytes} {j : Nat}, s.length ≤ k → s.length ≤ j →
    requestsWithin k s = requestsWithin j s := by
  induction k with
  | zero =>
    intro s j hk hj
    obtain rfl := List.length_eq_zero_iff.mp (Nat.le_zero.mp hk)
    cases j <;> rfl
  | succ k ih =>
    intro s j hk hj
    cases j with
    | zero =>
      obtain rfl := List.length_eq_zero_iff.mp (Nat.le_zero.mp hj)
      rfl
    | succ j =>
      simp only [requestsWithin]
      cases hp : parseRequestHead s with
      | none => rfl
      | some p =>
        have hlen := parseRequestHead_length hp
        cases hb : p.1.fixedLength with
        | none => simp only [hb]
        | some n =>
          have hrest : (p.2.drop n).length ≤ k ∧ (p.2.drop n).length ≤ j := by
            rw [List.length_drop]
            omega
          simp only [hb, ih hrest.1 hrest.2]

theorem requests_of_complete (hp : parseRequestHead s = some (h, rest)) (hb : h.fixedLength = some n)
    (hn : n ≤ rest.length) :
    requests s = (h :: (requests (rest.drop n)).1, (requests (rest.drop n)).2) := by
  have hlen := parseRequestHead_length hp
  obtain ⟨k, hk⟩ : ∃ k, s.length = k + 1 := ⟨s.length - 1, by omega⟩
  have hstable : requestsWithin k (rest.drop n) = requests (rest.drop n) :=
    requestsWithin_stable (by rw [List.length_drop]; omega) (Nat.le_refl _)
  unfold requests
  rw [hk, requestsWithin, hp]
  simp only [hb, if_neg (Nat.not_lt.mpr hn), hstable]
  rfl

/-- Nothing is complete. -/
theorem requests_of_unfinished (hp : ∀ h rest n, parseRequestHead s = some (h, rest) →
    h.fixedLength = some n → rest.length < n) : requests s = ([], s) := by
  unfold requests
  cases hs : s.length with
  | zero => rfl
  | succ k =>
    rw [requestsWithin]
    cases hq : parseRequestHead s with
    | none => rfl
    | some p =>
      cases hb : p.1.fixedLength with
      | none => simp only [hb]
      | some n => simp only [hb, if_pos (hp p.1 p.2 n hq hb)]

/-- Is a first request complete? -/
theorem requests_cases (s : Bytes) :
    requests s = ([], s) ∨ ∃ h rest n, parseRequestHead s = some (h, rest) ∧
      h.fixedLength = some n ∧ n ≤ rest.length := by
  by_cases hc : ∃ h rest n, parseRequestHead s = some (h, rest) ∧ h.fixedLength = some n ∧ n ≤ rest.length
  · exact .inr hc
  · refine .inl (requests_of_unfinished fun h rest n hp hb => ?_)
    by_contra hn
    exact hc ⟨h, rest, n, hp, hb, Nat.not_lt.mp hn⟩

/-- **Bytes that follow continue what is left over.** -/
theorem requests_append (s x : Bytes) : requests (s ++ x) =
    ((requests s).1 ++ (requests ((requests s).2 ++ x)).1, (requests ((requests s).2 ++ x)).2) := by
  induction hn : s.length using Nat.strongRecOn generalizing s with
  | ind m ih =>
    rcases requests_cases s with hs | ⟨h, rest, n, hp, hb, hle⟩
    · rw [hs, List.nil_append]
    · have hlen := parseRequestHead_length hp
      have ih := ih (rest.drop n).length (by rw [List.length_drop]; omega) (rest.drop n) rfl
      rw [requests_of_complete hp hb hle,
        requests_of_complete (parseRequestHead_append hp x) hb (by rw [List.length_append]; omega),
        List.drop_append_of_le_length hle, ih]
      rfl

theorem requests_nil : requests [] = ([], []) := rfl

/-- A connection at rest: it ends with a complete request. -/
theorem requests_append_of_rest (hs : (requests s).2 = []) (x : Bytes) :
    requests (s ++ x) = ((requests s).1 ++ (requests x).1, (requests x).2) := by
  rw [requests_append, hs, List.nil_append]

theorem request_of_rest (hs : (requests s).2 = []) {k : Nat} (hk : (requests s).1.length ≤ k) :
    request s k = none := by
  unfold request
  rw [List.getElem?_eq_none hk, hs]
  simp only
  split <;> rfl

/-- **A request once known stays the same.** -/
theorem request_append {k : Nat} {b : Bool} (hr : request s k = some (h, b)) (x : Bytes) :
    ∃ b', request (s ++ x) k = some (h, b') := by
  unfold request at hr
  split at hr
  · rename_i h' hk
    simp only [Option.some.injEq, Prod.mk.injEq] at hr
    obtain ⟨rfl, -⟩ := hr
    refine ⟨true, ?_⟩
    unfold request
    rw [requests_append]
    simp only [List.getElem?_append_left (List.getElem?_eq_some_iff.mp hk).1, hk]
  · split at hr
    · rename_i hk
      simp only [Option.map_eq_some_iff, Prod.mk.injEq] at hr
      obtain ⟨⟨h', rest⟩, hp, rfl, -⟩ := hr
      have hp' := parseRequestHead_append hp x
      unfold request
      rw [requests_append]
      rcases requests_cases ((requests s).2 ++ x) with hnil | ⟨h₂, rest₂, n, hp₂, hb, hle⟩
      · refine ⟨false, ?_⟩
        rw [hnil]
        simp [hk, hp']
      · refine ⟨true, ?_⟩
        rw [hp', Option.some.injEq, Prod.mk.injEq] at hp₂
        obtain ⟨rfl, rfl⟩ := hp₂
        rw [requests_of_complete hp' hb hle]
        simp [hk]
    · cases hr

theorem request_of_prefix {p : Bytes} {k : Nat} {b : Bool} (hr : request p k = some (h, b))
    (hp : p <+: s) : ∃ b', request s k = some (h, b') := by
  obtain ⟨x, rfl⟩ := hp
  exact request_append hr x

/-- **Behind a connection at rest the count starts anew.** -/
theorem request_append_of_rest (hs : (requests s).2 = []) (x : Bytes) (j : Nat) :
    request (s ++ x) ((requests s).1.length + j) = request x j := by
  unfold request
  rw [requests_append_of_rest hs, List.getElem?_append_right (Nat.le_add_right _ _),
    Nat.add_sub_cancel_left, List.length_append]
  cases hx : (requests x).1[j]? with
  | some h => rfl
  | none => simp only [Nat.add_left_cancel_iff]

end Requests

/-! ## One printed request -/

section Front
variable {h : RequestHead} {p body : Bytes} {n : Nat}

theorem parse_front (hv : h.valid = true) (hp : p <+: h.print ++ body) :
    parseRequestHead p =
      if h.print.length ≤ p.length then some (h, p.drop h.print.length) else none := by
  split
  · rename_i hle
    obtain ⟨rest, rfl⟩ := List.prefix_of_prefix_length_le (List.prefix_append _ _) hp hle
    rw [parse_print hv, List.drop_left]
  · rename_i hlt
    exact parse_prefix hv (List.prefix_of_prefix_length_le hp (List.prefix_append _ _) (by omega)) (by omega)

theorem request_print (hv : h.valid = true) (x : Bytes) : ∃ b, request (h.print ++ x) 0 = some (h, b) := by
  have hparse := parse_print hv x
  unfold request
  rcases requests_cases (h.print ++ x) with hnil | ⟨h', rest, n, hp, hb, hle⟩
  · rw [hnil]
    exact ⟨false, by simp [hparse]⟩
  · rw [hparse, Option.some.injEq, Prod.mk.injEq] at hp
    obtain ⟨rfl, rfl⟩ := hp
    rw [requests_of_complete hparse hb hle]
    exact ⟨true, rfl⟩

/-- A piece of one request is that request once it is all there. -/
theorem requests_front (hv : h.valid = true) (hb : h.fixedLength = some n) (hn : body.length ≤ n)
    (hp : p <+: h.print ++ body) :
    requests p = if p.length = h.print.length + n then ([h], []) else ([], p) := by
  have hparse := parse_front hv hp
  have hlen := hp.length_le
  rw [List.length_append] at hlen
  split
  · rename_i hfull
    rw [if_pos (by omega)] at hparse
    rw [requests_of_complete hparse hb (by rw [List.length_drop]; omega),
      List.drop_eq_nil_of_le (by rw [List.length_drop]; omega), requests_nil]
  · rename_i hnot
    apply requests_of_unfinished
    intro h' rest m hp' hb'
    rw [hparse] at hp'
    split at hp'
    · rw [Option.some.injEq, Prod.mk.injEq] at hp'
      obtain ⟨rfl, rfl⟩ := hp'
      rw [hb, Option.some.injEq] at hb'
      rw [List.length_drop]
      omega
    · cases hp'

variable {s : Bytes}

/-- **A connection at rest, then a piece of one request**: the server knows
of that one request, from the end of its head on. -/
theorem request_front (hs : (requests s).2 = []) (hv : h.valid = true) (hb : h.fixedLength = some n)
    (hn : body.length ≤ n) (hp : p <+: h.print ++ body) (j : Nat) :
    request (s ++ p) ((requests s).1.length + j) =
      if j = 0 ∧ h.print.length ≤ p.length then
        some (h, decide (p.length = h.print.length + n)) else none := by
  have hlen := hp.length_le
  rw [List.length_append] at hlen
  have hparse := parse_front hv hp
  unfold request
  rw [requests_append_of_rest hs, requests_front hv hb hn hp]
  by_cases hfull : p.length = h.print.length + n
  · simp only [if_pos hfull]
    cases j with
    | zero => simp [hfull]
    | succ j =>
      have hnil : parseRequestHead [] = none := rfl
      rw [List.getElem?_eq_none (by simp)]
      simp [hnil]
  · simp only [if_neg hfull, List.append_nil]
    rw [List.getElem?_eq_none (by omega)]
    cases j with
    | zero =>
      simp only [Nat.add_zero, if_true, hparse, true_and, hfull, decide_false]
      split <;> simp
    | succ j => simp

end Front

end QuickTunnel.Http
