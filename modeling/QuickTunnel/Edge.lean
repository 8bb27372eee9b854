import QuickTunnel.Error
import Mathlib.Data.List.Basic

/-!
# Edge discovery and dialing (`edge.rs`, `quic_dial.rs`)

`discover` resolves the SRV record with the system resolver, and with
DNS-over-TLS where that fails or finds nothing; the addresses come in the
order of the answer. `dial_any` tries a list of addresses in order.

What the resolvers and the handshakes give is an argument of the functions.

* `discover_nonempty`: a discovery that succeeds has found an address.
* `discover_matches`: and every address it has found matches the filter.
* `dialAny_ok_iff`: the connection is to the first address that accepts.
-/
namespace QuickTunnel

inductive IpAddr
  | v4 (addr : BitVec 32)
  | v6 (addr : BitVec 128)
  deriving DecidableEq, Repr

structure SocketAddr where
  ip : IpAddr
  port : UInt16
  deriving DecidableEq, Repr

inductive IpVersionFilter
  | auto
  | v4Only
  | v6Only
  deriving DecidableEq, Repr

inductive EdgeIpVersion
  | v4
  | v6
  deriving DecidableEq, Repr

/-- mirrors src/edge.rs:49-54 -/
structure EdgeAddr where
  ip : IpAddr
  port : UInt16
  version : EdgeIpVersion
  deriving DecidableEq, Repr

namespace EdgeAddr

def socket (e : EdgeAddr) : SocketAddr := ⟨e.ip, e.port⟩

/-- mirrors src/edge.rs:61-68 -/
def fromIp (ip : IpAddr) (port : UInt16) : EdgeAddr :=
  match ip with
  | .v4 _ => ⟨ip, port, .v4⟩
  | .v6 _ => ⟨ip, port, .v6⟩

/-- mirrors src/edge.rs:70-77 -/
def matchesFilter (e : EdgeAddr) (filter : IpVersionFilter) : Bool :=
  match filter, e.version with
  | .auto, _ => true
  | .v4Only, .v4 => true
  | .v6Only, .v6 => true
  | _, _ => false

end EdgeAddr

/-- mirrors src/edge.rs:24 -/
def SRV_NAME : String := "_v2-origintunneld._tcp.argotunnel.com"

/-- An SRV record, with what `lookup_ip` gives for its target. -/
structure SrvRecord where
  port : UInt16
  ips : Except String (List IpAddr)

/-- What `srv_lookup` gives. -/
abbrev SrvAnswer := Except String (List SrvRecord)

/-- The addresses one record adds; one whose lookup fails adds none. -/
def SrvRecord.edges (filter : IpVersionFilter) (r : SrvRecord) : List EdgeAddr :=
  match r.ips with
  | .ok ips => (ips.map fun ip => EdgeAddr.fromIp ip r.port).filter fun e => e.matchesFilter filter
  | .error _ => []

/-- mirrors src/edge.rs:174-202 -/
def resolveSrv (filter : IpVersionFilter) : SrvAnswer → Except TunnelError (List EdgeAddr)
  | .error e => .error (.discovery ("SRV " ++ SRV_NAME ++ ": " ++ e))
  | .ok records => .ok (records.flatMap fun r => r.edges filter)

/-- `primary` and `dot`: what the system resolver and the fallback answer.
mirrors src/edge.rs:82-99 -/
def discover (filter : IpVersionFilter) (primary dot : SrvAnswer) : Except TunnelError (List EdgeAddr) :=
  match resolveSrv filter primary with
  | .ok (e :: edges) => .ok (e :: edges)
  | _ => do
    let edges ← resolveSrv filter dot
    if edges = [] then
      .error (.discovery ("DoT fallback also returned no edges for " ++ SRV_NAME))
    else .ok edges

/-- What is discovered is an answer of one of the resolvers, and not empty. -/
theorem resolveSrv_of_discover {filter : IpVersionFilter} {primary dot : SrvAnswer} {edges : List EdgeAddr}
    (h : discover filter primary dot = .ok edges) :
    edges ≠ [] ∧ ∃ answer, resolveSrv filter answer = .ok edges := by
  unfold discover at h
  split at h
  · rename_i e rest hp
    cases h
    exact ⟨List.cons_ne_nil _ _, primary, hp⟩
  · cases hd : resolveSrv filter dot with
    | error err =>
      rw [hd] at h
      cases h
    | ok found =>
      rw [hd] at h
      by_cases hf : found = []
      · simp only [hf, Except.bind, bind, if_true] at h
        cases h
      · simp only [hf, Except.bind, bind, if_false] at h
        cases h
        exact ⟨hf, dot, hd⟩

theorem discover_nonempty {filter : IpVersionFilter} {primary dot : SrvAnswer} {edges : List EdgeAddr}
    (h : discover filter primary dot = .ok edges) : edges ≠ [] :=
  (resolveSrv_of_discover h).1

theorem resolveSrv_matches {filter : IpVersionFilter} {answer : SrvAnswer} {edges : List EdgeAddr}
    (h : resolveSrv filter answer = .ok edges) : ∀ e ∈ edges, e.matchesFilter filter = true := by
  cases answer with
  | error err => cases h
  | ok records =>
    cases h
    intro e he
    obtain ⟨r, -, hr⟩ := List.mem_flatMap.1 he
    unfold SrvRecord.edges at hr
    split at hr
    · exact (List.mem_filter.1 hr).2
    · cases hr

theorem discover_matches {filter : IpVersionFilter} {primary dot : SrvAnswer} {edges : List EdgeAddr}
    (h : discover filter primary dot = .ok edges) : ∀ e ∈ edges, e.matchesFilter filter = true := by
  obtain ⟨-, answer, hanswer⟩ := resolveSrv_of_discover h
  exact resolveSrv_matches hanswer

/-- How `endpoint.connect` and the handshake under its timeout end. -/
inductive Handshake
  | builderFailed (e : String)
  | done
  | failed (e : String)
  | timedOut
  deriving DecidableEq, Repr

/-- mirrors src/quic_dial.rs:48-67 -/
def dial : Handshake → Except TunnelError Unit
  | .builderFailed e => .error (.quicDial 1 ("connect builder: " ++ e))
  | .done => .ok ()
  | .failed e => .error (.quicDial 1 ("handshake: " ++ e))
  | .timedOut => .error (.quicDial 1 "handshake timed out")

/-- `Display` of `TunnelError::QuicDial`, the one error of `dial`.
mirrors src/error.rs:28 -/
def dialText : TunnelError → String
  | .quicDial attempts last =>
    "QUIC dial failed after " ++ toString attempts ++ " attempt(s); last: " ++ last
  | _ => ""

/-- The loop of `dial_any` from the `i`th address on. -/
def dialFrom (handshake : Nat → Handshake) : Nat → List EdgeAddr → String → Except String EdgeAddr
  | _, [], lastErr => .error lastErr
  | i, edge :: edges, _ =>
    match dial (handshake i) with
    | .ok _ => .ok edge
    | .error e => dialFrom handshake (i + 1) edges (dialText e)

/-- The connection is given as the edge it is to; `handshake i` is how the
`i`th dial ends. mirrors src/quic_dial.rs:70-97 -/
def dialAny (handshake : Nat → Handshake) (edges : List EdgeAddr) : Except TunnelError EdgeAddr :=
  if edges = [] then .error (.quicDial 0 "no edges provided")
  else
    match dialFrom handshake 0 edges "" with
    | .ok edge => .ok edge
    | .error lastErr => .error (.quicDial edges.length lastErr)

section Dial
variable {handshake : Nat → Handshake} {edges : List EdgeAddr} {e : EdgeAddr}

theorem dial_ok_iff {h : Handshake} : dial h = .ok () ↔ h = .done := by
  cases h <;> simp [dial]

theorem dialFrom_ok_iff {i : Nat} {lastErr : String} :
    dialFrom handshake i edges lastErr = .ok e ↔
      ∃ k, edges[k]? = some e ∧ handshake (i + k) = .done ∧ ∀ m < k, handshake (i + m) ≠ .done := by
  induction edges generalizing i lastErr with
  | nil => simp [dialFrom]
  | cons x edges ih =>
    cases hd : dial (handshake i) with
    | ok u =>
      have hdone : handshake i = .done := dial_ok_iff.mp hd
      simp only [dialFrom, hd, Except.ok.injEq]
      constructor
      · intro heq
        subst heq
        exact ⟨0, rfl, hdone, nofun⟩
      · intro hex
        obtain ⟨k, hk, -, hno⟩ := hex
        cases k with
        | zero => exact Option.some.inj hk
        | succ k => exact absurd hdone (hno 0 (Nat.succ_pos k))
    | error err =>
      have hno : handshake i ≠ .done := fun h => by
        rw [h] at hd
        cases hd
      simp only [dialFrom, hd, ih]
      constructor
      · intro hex
        obtain ⟨k, hk, hdone, hbefore⟩ := hex
        refine ⟨k + 1, hk, by rwa [Nat.add_right_comm, Nat.add_assoc] at hdone, ?_⟩
        intro m hm
        cases m with
        | zero => exact hno
        | succ m =>
          have := hbefore m (Nat.lt_of_succ_lt_succ hm)
          rwa [Nat.add_right_comm, Nat.add_assoc] at this
      · intro hex
        obtain ⟨k, hk, hdone, hbefore⟩ := hex
        cases k with
        | zero => exact absurd hdone hno
        | succ k =>
          refine ⟨k, hk, by rwa [Nat.add_right_comm, Nat.add_assoc], ?_⟩
          intro m hm
          have := hbefore (m + 1) (Nat.succ_lt_succ hm)
          rwa [Nat.add_right_comm, Nat.add_assoc]

/-- **First success wins.** -/
theorem dialAny_ok_iff : dialAny handshake edges = .ok e ↔
    ∃ k, edges[k]? = some e ∧ handshake k = .done ∧ ∀ m < k, handshake m ≠ .done := by
  have hiff : dialFrom handshake 0 edges "" = .ok e ↔ ∃ k, edges[k]? = some e ∧
      handshake (0 + k) = .done ∧ ∀ m < k, handshake (0 + m) ≠ .done := dialFrom_ok_iff
  simp only [Nat.zero_add] at hiff
  rw [← hiff]
  unfold dialAny
  split
  · rename_i hnil
    simp [hnil, dialFrom]
  · split <;> rename_i hd <;> simp [hd]

end Dial
end QuickTunnel
