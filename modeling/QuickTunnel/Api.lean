import QuickTunnel.Core.Bytes
import QuickTunnel.Core.Retry
import QuickTunnel.Error
import Mathlib.Data.List.DropRight

/-!
# `POST /tunnel` and its retries

`request_tunnel` sends up to four requests. Whether another one follows is
read off the error `try_once` made of the outcome: the flags of a
`reqwest::Error`, or the status in an `ApiNonJson`. A failure while the body
comes in sets none of the flags, and the errors of the JSON path carry no
status.

* `requestLoop_stopsAt`: the loop as a `Retry` loop.
* `retries_iff`: the outcomes on which the retry policy is kept.
-/
set_option linter.dupNamespace false

namespace QuickTunnel.Api

open Retry (StopsAt)

/-- mirrors src/api.rs:46 -/
def DEFAULT_SERVICE_URL : Bytes := ascii "https://api.trycloudflare.com"

/-- mirrors src/api.rs:51 -/
def DEFAULT_USER_AGENT : Bytes := ascii "cloudflared/2024.12.0"

/-- mirrors src/api.rs:57 -/
def MAX_RETRIES : Nat := 3

/-- mirrors src/api.rs:35-43 -/
structure QuickTunnel where
  id : Bytes
  name : Bytes
  hostname : Bytes
  accountTag : Bytes
  secret : Bytes
  deriving DecidableEq, Repr

/-- mirrors src/api.rs:20-27 -/
structure QuickTunnelResponse where
  success : Bool
  result : Option QuickTunnel := none
  errors : List QuickTunnelApiError := []
  deriving DecidableEq, Repr

/-- What one request comes to: a network failure while connecting or sending,
one while the body comes in, or a reply. -/
inductive Outcome
  | sendFailed (e : ReqwestError)
  | bodyFailed (status : Nat) (e : ReqwestError)
  | reply (status : Nat) (body : Bytes)
  deriving DecidableEq, Repr

/-- `u8::is_ascii_whitespace`. -/
def isAsciiWhitespace (b : UInt8) : Bool := b == 32 || b == 9 || b == 10 || b == 12 || b == 13

/-- mirrors src/api.rs:148-152 -/
def looksLikeJson (body : Bytes) : Bool :=
  (body.find? fun b => !isAsciiWhitespace b).any fun b => b == 123 || b == 91

/-- `serde_json::from_slice::<QuickTunnelResponse>`: an envelope is read from
a JSON object or array only. -/
structure SerdeJson where
  fromSlice : Bytes → Except String QuickTunnelResponse
  looksLikeJson_of_ok : ∀ {body envelope}, fromSlice body = .ok envelope → looksLikeJson body = true

/-- `StatusCode::is_server_error`. -/
def isServerError (status : Nat) : Bool := 500 ≤ status && status < 600

/-- mirrors src/api.rs:165-179 -/
def isTransient : TunnelError → Bool
  | .api e => e.isTimeout || e.isConnect || e.isRequest || e.status.any isServerError
  | .apiNonJson status _ => isServerError status
  | _ => false

/-- mirrors src/api.rs:105-146 -/
def tryOnce (J : SerdeJson) : Outcome → Except TunnelError QuickTunnel
  | .sendFailed e => .error (.api e)
  | .bodyFailed _ e => .error (.api e)
  | .reply status body =>
    if isServerError status && !looksLikeJson body then
      .error (.apiNonJson status (fromUtf8Lossy (body.take 200)))
    else if !looksLikeJson body then
      .error (.apiNonJson status (fromUtf8Lossy (body.take 200)))
    else
      match J.fromSlice body with
      | .error e => .error (.internal ("malformed JSON from /tunnel: " ++ e))
      | .ok envelope =>
        if !envelope.success then .error (.apiBusiness envelope.errors)
        else
          match envelope.result with
          | some tunnel => .ok tunnel
          | none => .error (.internal "POST /tunnel returned success=true but no `result` body")

/-- A request as it is sent. -/
structure Post where
  url : Bytes
  userAgent : Bytes
  contentType : Bytes
  deriving DecidableEq, Repr

/-- mirrors src/api.rs:67,79,106-110 -/
def post (serviceUrl userAgent : Bytes) : Post where
  url := serviceUrl.rdropWhile (· == 47) ++ ascii "/tunnel"
  userAgent := userAgent
  contentType := ascii "application/json"

/-- `Duration::from_secs`, in nanoseconds. -/
def fromSecs (secs : Nat) : Nat := secs * 10 ^ 9

/-- `Duration::saturating_mul`: `Duration::MAX` is `u64::MAX` seconds and
999999999 ns. -/
def saturatingMul (d n : Nat) : Nat := min (d * n) (2 ^ 64 * 10 ^ 9 - 1)

/-- A call of `request_tunnel`: what it returned, the requests it sent, and
how long it slept between them. -/
structure Call where
  result : Except TunnelError QuickTunnel
  sent : List Post := []
  waits : List Nat := []

def fellThrough : TunnelError :=
  .internal "request_tunnel: retry loop fell through without an error"

/-- The attempts still to make, with `backoff` and `last_err`.
mirrors src/api.rs:77-102 -/
def requestLoop (J : SerdeJson) (post : Post) (outcome : Nat → Outcome) :
    List Nat → Nat → Option TunnelError → Call
  | [], _, lastErr => ⟨.error (lastErr.getD fellThrough), [], []⟩
  | attempt :: rest, backoff, _ =>
    match tryOnce J (outcome attempt) with
    | .ok tunnel => ⟨.ok tunnel, [post], []⟩
    | .error err =>
      if !isTransient err || attempt == MAX_RETRIES then ⟨.error err, [post], []⟩
      else
        let c := requestLoop J post outcome rest (saturatingMul backoff 2) (some err)
        { c with sent := post :: c.sent, waits := backoff :: c.waits }

/-- `build` is the error of `reqwest::Client::builder().build()`, if any.
mirrors src/api.rs:63-103 -/
def requestTunnel (J : SerdeJson) (serviceUrl userAgent : Bytes) (build : Option ReqwestError)
    (outcome : Nat → Outcome) : Call :=
  match build with
  | some e => ⟨.error (.api e), [], []⟩
  | none =>
    requestLoop J (post serviceUrl userAgent) outcome (List.range (MAX_RETRIES + 1)) (fromSecs 1) none

/-! ## The policy -/

/-- The reply is a success. -/
def Success (J : SerdeJson) (o : Outcome) (tunnel : QuickTunnel) : Prop :=
  ∃ status body envelope, o = .reply status body ∧ J.fromSlice body = .ok envelope ∧
    envelope.success = true ∧ envelope.result = some tunnel

/-- A network failure or a 5xx reply. -/
def Outcome.Retryable : Outcome → Prop
  | .sendFailed _ => True
  | .bodyFailed _ _ => True
  | .reply status _ => 500 ≤ status ∧ status < 600

/-- The success of the first reply that is one, else the error of the last
outcome. -/
def Returns (J : SerdeJson) (outcome : Nat → Outcome) (sent : Nat) (r : Except TunnelError QuickTunnel) :
    Prop :=
  (∃ n < sent, ∃ tunnel, Success J (outcome n) tunnel ∧
    (∀ m < n, ∀ t, ¬ Success J (outcome m) t) ∧ r = .ok tunnel) ∨
  ((∀ n < sent, ∀ t, ¬ Success J (outcome n) t) ∧
    ∃ n e, sent = n + 1 ∧ tryOnce J (outcome n) = .error e ∧ r = .error e)

structure Policy (J : SerdeJson) (outcome : Nat → Outcome) (c : Call) : Prop where
  sent_le : c.sent.length ≤ MAX_RETRIES + 1
  waits : c.waits = [fromSecs 1, fromSecs 2, fromSecs 4].take (c.sent.length - 1)
  another : ∀ n < c.sent.length, n + 1 < c.sent.length ↔ (outcome n).Retryable ∧ n < MAX_RETRIES
  settled : ∀ n status body, outcome n = .reply status body →
    200 ≤ status ∧ status < 300 ∨ 400 ≤ status ∧ status < 500 → c.sent.length ≤ n + 1
  returns : Returns J outcome c.sent.length c.result
  through : c.result ≠ .error fellThrough

/-- The error it comes to is one `is_transient` knows. -/
def Outcome.Recognised : Outcome → Prop
  | .sendFailed e => isTransient (.api e) = true
  | .bodyFailed _ e => isTransient (.api e) = true
  | .reply _ body => looksLikeJson body = false

/-! ## One request -/

section Once
variable {J : SerdeJson} {o : Outcome}

/-- `request_tunnel` retries this outcome, attempts remaining. -/
def Retried (J : SerdeJson) (o : Outcome) : Prop :=
  ∃ e, tryOnce J o = .error e ∧ isTransient e = true

theorem malformed_ne (e : String) :
    "malformed JSON from /tunnel: " ++ e ≠ "request_tunnel: retry loop fell through without an error" := by
  intro h
  have hhead := congrArg (fun s => s.toList.head?) h
  simp only [String.toList_append] at hhead
  exact absurd hhead (by simp)

/-- Behind a body that looks like JSON there is a success, or an error that
is never transient. -/
theorem tryOnce_json {status : Nat} {body : Bytes} (hjson : looksLikeJson body = true) :
    (∃ tunnel, tryOnce J (.reply status body) = .ok tunnel ∧ Success J (.reply status body) tunnel) ∨
      ∃ e, tryOnce J (.reply status body) = .error e ∧ isTransient e = false ∧ e ≠ fellThrough := by
  simp only [tryOnce, hjson, Bool.not_true, Bool.and_false, Bool.false_eq_true, if_false]
  cases henv : J.fromSlice body with
  | error e => exact .inr ⟨_, rfl, rfl, fun h => malformed_ne e (TunnelError.internal.inj h)⟩
  | ok envelope =>
    cases hs : envelope.success with
    | false =>
      refine .inr ⟨.apiBusiness envelope.errors, ?_, rfl, nofun⟩
      simp only [hs, Bool.not_false, if_true]
    | true =>
      cases hres : envelope.result with
      | some tunnel =>
        refine .inl ⟨tunnel, ?_, status, body, envelope, rfl, henv, hs, hres⟩
        simp only [hs, hres, Bool.not_true, Bool.false_eq_true, if_false]
      | none =>
        refine .inr ⟨.internal "POST /tunnel returned success=true but no `result` body", ?_, rfl, ?_⟩
        · simp only [hs, hres, Bool.not_true, Bool.false_eq_true, if_false]
        · intro h
          exact absurd (TunnelError.internal.inj h) (by decide)

theorem tryOnce_nonJson {status : Nat} {body : Bytes} (hjson : looksLikeJson body = false) :
    tryOnce J (.reply status body) = .error (.apiNonJson status (fromUtf8Lossy (body.take 200))) := by
  simp only [tryOnce, hjson, Bool.not_false, Bool.and_true, if_true]
  split
  · rfl
  · rfl

/-- **What a request comes to**: a success, which is none of the errors to
retry, or an error, transient exactly if the outcome is to be retried and is
recognised. -/
theorem tryOnce_cases (J : SerdeJson) (o : Outcome) :
    (∃ tunnel, tryOnce J o = .ok tunnel ∧ Success J o tunnel ∧ ¬ o.Recognised) ∨
      ∃ e, tryOnce J o = .error e ∧ (isTransient e = true ↔ o.Retryable ∧ o.Recognised) ∧
        e ≠ fellThrough := by
  cases o with
  | sendFailed e =>
    exact .inr ⟨.api e, rfl, ⟨fun ht => ⟨trivial, ht⟩, And.right⟩, by simp [fellThrough]⟩
  | bodyFailed status e =>
    exact .inr ⟨.api e, rfl, ⟨fun ht => ⟨trivial, ht⟩, And.right⟩, by simp [fellThrough]⟩
  | reply status body =>
    cases hjson : looksLikeJson body with
    | false =>
      refine .inr ⟨_, tryOnce_nonJson hjson, ?_, by simp [fellThrough]⟩
      simp [hjson, isTransient, isServerError, Outcome.Retryable, Outcome.Recognised]
    | true =>
      have hnot : ¬ (Outcome.reply status body).Recognised := by simp [Outcome.Recognised, hjson]
      obtain ⟨t, hok, hsuccess⟩ | ⟨e, herr, ht, hne⟩ := @tryOnce_json J status body hjson
      · exact .inl ⟨t, hok, hsuccess, hnot⟩
      · refine .inr ⟨e, herr, ?_, hne⟩
        rw [ht]
        exact iff_of_false Bool.false_ne_true fun h => hnot h.2

theorem tryOnce_ok_iff {tunnel : QuickTunnel} : tryOnce J o = .ok tunnel ↔ Success J o tunnel := by
  constructor
  · intro h
    obtain ⟨t, hok, hsuccess, -⟩ | ⟨e, herr, -⟩ := tryOnce_cases J o
    · rw [hok] at h
      cases h
      exact hsuccess
    · rw [herr] at h
      cases h
  · intro ⟨status, body, envelope, ho, henv, hs, hres⟩
    have hjson := J.looksLikeJson_of_ok henv
    simp only [ho, tryOnce, hjson, henv, hs, hres, Bool.not_true, Bool.and_false,
      Bool.false_eq_true, if_false]

theorem retried_iff : Retried J o ↔ o.Retryable ∧ o.Recognised := by
  unfold Retried
  obtain ⟨t, hok, -, hnot⟩ | ⟨e, herr, ht, -⟩ := tryOnce_cases J o
  · simp [hok, hnot]
  · rw [← ht]
    simp [herr]

theorem tryOnce_ne_fellThrough : tryOnce J o ≠ .error fellThrough := by
  obtain ⟨t, hok, -⟩ | ⟨e, herr, -, hne⟩ := tryOnce_cases J o
  · simp [hok]
  · simp [herr, hne]

end Once

/-! ## The loop -/

section Loop
variable {J : SerdeJson} {post : Post} {outcome : Nat → Outcome}

theorem saturatingMul_backoff {k : Nat} (hk : k < MAX_RETRIES) :
    saturatingMul (fromSecs (2 ^ k)) 2 = fromSecs (2 ^ (k + 1)) := by
  have hle : 2 ^ k ≤ 2 ^ MAX_RETRIES := Nat.pow_le_pow_right (by decide) (by omega)
  have hmax : 2 ^ MAX_RETRIES = 8 := rfl
  unfold saturatingMul fromSecs
  rw [Nat.min_eq_left]
  · rw [Nat.pow_succ]
    omega
  · omega

variable {k : Nat} {rest : List Nat} {backoff : Nat} {lastErr : Option TunnelError}

theorem requestLoop_retried (hk : k ≠ MAX_RETRIES) (h : Retried J (outcome k)) :
    ∃ err, requestLoop J post outcome (k :: rest) backoff lastErr =
      let c := requestLoop J post outcome rest (saturatingMul backoff 2) (some err)
      ⟨c.result, post :: c.sent, backoff :: c.waits⟩ := by
  obtain ⟨err, herr, ht⟩ := h
  refine ⟨err, ?_⟩
  have hgoes : (!isTransient err || k == MAX_RETRIES) = false := by simp [ht, hk]
  simp only [requestLoop, herr, hgoes, Bool.false_eq_true, if_false]

theorem requestLoop_stops (h : k = MAX_RETRIES ∨ ¬ Retried J (outcome k)) :
    requestLoop J post outcome (k :: rest) backoff lastErr = ⟨tryOnce J (outcome k), [post], []⟩ := by
  unfold requestLoop
  cases hr : tryOnce J (outcome k) with
  | ok tunnel => rfl
  | error err =>
    have hstops : (!isTransient err || k == MAX_RETRIES) = true := by
      rcases h with hk | hnot
      · simp [hk]
      · have : isTransient err = false := by
          by_contra ht
          exact hnot ⟨err, hr, by simpa using ht⟩
        simp [this]
    simp only [hstops, if_true]

/-- Entered at attempt `k`, the loop stops behind some attempt `n` and
returns what that one came to. -/
theorem requestLoop_stopsAt (left k : Nat) (lastErr : Option TunnelError) (hk : k + left = MAX_RETRIES) :
    ∃ n, StopsAt (fun m => Retried J (outcome m)) MAX_RETRIES k n ∧
      requestLoop J post outcome (List.range' k (left + 1)) (fromSecs (2 ^ k)) lastErr =
        ⟨tryOnce J (outcome n), List.replicate (n + 1 - k) post,
          (List.range' k (n - k)).map fun i => fromSecs (2 ^ i)⟩ := by
  induction left generalizing k lastErr with
  | zero =>
    have hk : k = MAX_RETRIES := hk
    refine ⟨k, .here (by omega) (.inl hk), ?_⟩
    rw [List.range'_succ, requestLoop_stops (.inl hk), Nat.add_sub_cancel_left, Nat.sub_self]
    rfl
  | succ left ih =>
    by_cases h : Retried J (outcome k)
    · obtain ⟨err, hloop⟩ := @requestLoop_retried J post outcome k (List.range' (k + 1) (left + 1))
        (fromSecs (2 ^ k)) lastErr (by omega) h
      obtain ⟨n, hstop, hn⟩ := ih (k + 1) (some err) (by omega)
      have hle := hstop.from_le
      refine ⟨n, hstop.later h, ?_⟩
      rw [List.range'_succ, hloop, saturatingMul_backoff (by omega), hn]
      obtain ⟨d, rfl⟩ := Nat.exists_eq_add_of_le hle
      have hd : k + 1 + d - k = d + 1 := by omega
      have hd' : k + 1 + d + 1 - k = d + 2 := by omega
      rw [hd, hd', Nat.add_sub_cancel_left, List.range'_succ]
      rw [show k + 1 + d + 1 - (k + 1) = d + 1 by omega]
      rfl
    · refine ⟨k, .here (by omega) (.inr h), ?_⟩
      rw [List.range'_succ, requestLoop_stops (.inr h), Nat.add_sub_cancel_left, Nat.sub_self]
      rfl

end Loop

/-- The requests differ in nothing, and the waits double. -/
theorem requestTunnel_stopsAt (J : SerdeJson) (serviceUrl userAgent : Bytes) (outcome : Nat → Outcome) :
    ∃ n, StopsAt (fun m => Retried J (outcome m)) MAX_RETRIES 0 n ∧
      requestTunnel J serviceUrl userAgent none outcome =
        ⟨tryOnce J (outcome n), List.replicate (n + 1) (post serviceUrl userAgent),
          (List.range n).map fun i => fromSecs (2 ^ i)⟩ := by
  obtain ⟨n, hstop, hloop⟩ := @requestLoop_stopsAt J (post serviceUrl userAgent) outcome
    MAX_RETRIES 0 none (by decide)
  refine ⟨n, hstop, ?_⟩
  simpa only [requestTunnel, List.range_eq_range', Nat.pow_zero, Nat.sub_zero] using hloop

theorem returns_of_stopsAt {J : SerdeJson} {outcome : Nat → Outcome} {n : Nat}
    (h : StopsAt (fun m => Retried J (outcome m)) MAX_RETRIES 0 n) :
    Returns J outcome (n + 1) (tryOnce J (outcome n)) := by
  -- what was retried was no success
  have hearlier : ∀ m < n, ∀ t, ¬ Success J (outcome m) t := by
    intro m hm t ht
    obtain ⟨e, he, -⟩ := h.before m (Nat.zero_le m) hm
    rw [tryOnce_ok_iff.2 ht] at he
    cases he
  cases hr : tryOnce J (outcome n) with
  | ok tunnel => exact .inl ⟨n, Nat.lt_succ_self n, tunnel, tryOnce_ok_iff.1 hr, hearlier, rfl⟩
  | error e =>
    refine .inr ⟨fun m hm t ht => ?_, n, e, rfl, hr, rfl⟩
    rcases Nat.eq_or_lt_of_le (Nat.le_of_lt_succ hm) with heq | hlt
    · subst heq
      rw [tryOnce_ok_iff.2 ht] at hr
      cases hr
    · exact hearlier m hlt t ht

/-- **The retry policy** is kept exactly where each outcome to retry, of an
attempt that is made and is not the last one, is recognised. -/
theorem retries_iff (J : SerdeJson) (serviceUrl userAgent : Bytes) (outcome : Nat → Outcome) :
    Policy J outcome (requestTunnel J serviceUrl userAgent none outcome) ↔
      ∀ n < MAX_RETRIES, (∀ m < n, (outcome m).Retryable) → (outcome n).Retryable →
        (outcome n).Recognised := by
  obtain ⟨n, hstop, hcall⟩ := requestTunnel_stopsAt J serviceUrl userAgent outcome
  have hsub : ∀ m, Retried J (outcome m) → (outcome m).Retryable := fun m h => (retried_iff.1 h).1
  have hagrees := hstop.agrees_iff hsub
  have hle := hstop.le_max
  rw [hcall]
  constructor
  · intro hp m hm hearlier hret
    have hanother : ∀ m ≤ n, m < n ↔ (outcome m).Retryable ∧ m < MAX_RETRIES := by
      intro m hm
      have := hp.another m (by rw [List.length_replicate]; omega)
      rwa [List.length_replicate, Nat.add_lt_add_iff_right] at this
    exact (retried_iff.1 (hagrees.1 hanother m hm hearlier hret)).2
  · intro hrec
    have hanother := hagrees.2 fun m hm hearlier hret =>
      retried_iff.2 ⟨hret, hrec m hm hearlier hret⟩
    refine ⟨?_, ?_, ?_, ?_, ?_, tryOnce_ne_fellThrough⟩
    · rw [List.length_replicate]
      omega
    · rw [List.length_replicate, Nat.add_sub_cancel]
      have hn : n = 0 ∨ n = 1 ∨ n = 2 ∨ n = 3 := by
        unfold MAX_RETRIES at hle
        omega
      rcases hn with rfl | rfl | rfl | rfl <;> rfl
    · intro m hm
      rw [List.length_replicate] at hm ⊢
      rw [Nat.add_lt_add_iff_right]
      exact hanother m (by omega)
    · intro m status body ho hstatus
      rw [List.length_replicate]
      by_contra hgt
      have hret := ((hanother m (by omega)).1 (by omega)).1
      rw [ho] at hret
      unfold Outcome.Retryable at hret
      omega
    · rw [List.length_replicate]
      exact returns_of_stopsAt hstop

/-- `serde_json` on an object without a field. -/
def emptyObject : SerdeJson where
  fromSlice _ := .error "missing field `success` at line 1 column 2"
  looksLikeJson_of_ok := nofun

/-- The call that `start_inner` makes by default. -/
def defaultCall (outcome : Nat → Outcome) : Call :=
  requestTunnel emptyObject DEFAULT_SERVICE_URL DEFAULT_USER_AGENT none outcome

/-- The connection is reset while the body comes in, and a 503 has the body of
an empty JSON object: one request each. -/
theorem failures_final :
    ¬ Policy emptyObject (fun _ => .bodyFailed 200 ⟨false, false, false, none⟩)
      (defaultCall fun _ => .bodyFailed 200 ⟨false, false, false, none⟩) ∧
    ¬ Policy emptyObject (fun _ => .reply 503 (ascii "\x7b\x7d"))
      (defaultCall fun _ => .reply 503 (ascii "\x7b\x7d")) := by
  refine ⟨fun hp => ?_, fun hp => ?_⟩
  · exact absurd ((hp.another 0 (by decide)).2 ⟨trivial, by decide⟩) (by decide)
  · exact absurd ((hp.another 0 (by decide)).2 ⟨⟨by decide, by decide⟩, by decide⟩) (by decide)

end QuickTunnel.Api
