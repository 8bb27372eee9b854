import QuickTunnel.Manager.Reconnect
import QuickTunnel.Rpc.Registration

/-!
# What the edge is told by an attempt

An attempt of a leg is a `connect_cycle`, and its request is built from the
credentials, the leg's index and default options with `replace_existing`
set. Every attempt builds its options anew.

* `attempts_told`: what the edge reads of every attempt of every leg.
-/
namespace QuickTunnel.Manager.Attempts

open QuickTunnel.Rpc QuickTunnel.Message
open QuickTunnel.Manager.Reconnect (reactors)

/-- What all legs of a tunnel share: the credentials, and the constants of
the build. -/
structure Tunnel where
  auth : TunnelAuth
  tunnelId : Uuid
  os : String
  arch : String
  version : String

/-- mirrors src/manager.rs:290-294 -/
def Tunnel.options (T : Tunnel) (fresh : Uuid) (replaceExisting : Bool) : ConnectionOptions :=
  { ConnectionOptions.defaultForQuickTunnel fresh T.os T.arch T.version with
    replaceExisting := replaceExisting }

/-- The request of `connect_cycle`; `fresh` is the client id it has drawn.
mirrors src/manager.rs:279-297 -/
def Tunnel.request (T : Tunnel) (K : Crate) (fresh : Uuid) (connIndex : UInt8) (replaceExisting : Bool) :
    Option K.Struct :=
  buildRegisterRequest K T.auth T.tunnelId connIndex (T.options fresh replaceExisting)

/-- The parameters that the edge reads. -/
def Tunnel.told (T : Tunnel) (fresh : Uuid) (connIndex : UInt8) (replaceExisting : Bool) : RegisterParams :=
  registerParams T.auth T.tunnelId connIndex (T.options fresh replaceExisting)

/-- Pointers can count the credentials and the constants of the build. -/
def Tunnel.fits (T : Tunnel) : Bool :=
  T.auth.fits && fitsText (utf8 T.version) && fitsText (utf8 (T.os ++ "-" ++ T.arch))

theorem Tunnel.options_fit {T : Tunnel} (h : T.fits = true) (fresh : Uuid) (replaceExisting : Bool) :
    (T.options fresh replaceExisting).fits = true := by
  simp only [Tunnel.fits, Bool.and_eq_true] at h
  obtain ⟨⟨-, hver⟩, harch⟩ := h
  have hfeats : (T.options fresh replaceExisting).features.all (fun f => fitsText (utf8 f)) = true := by
    show (["allow_remote_config", "serialized_headers", "support_datagram_v2", "support_quic_eof",
      "management_logs"].all fun f => fitsText (utf8 f)) = true
    decide
  unfold ConnectionOptions.fits
  rw [hfeats, show (T.options fresh replaceExisting).version = T.version from rfl, hver,
    show (T.options fresh replaceExisting).arch = T.os ++ "-" ++ T.arch from rfl, harch]
  rfl

/-- What the edge reads of an attempt behind the history `before`. -/
structure Told (T : Tunnel) (own : UInt8) (before : List Reconnect.Event) (fresh : Uuid)
    (p : RegisterParams) : Prop where
  accountTag : p.accountTag = utf8 T.auth.accountTag
  tunnelSecret : p.tunnelSecret = T.auth.tunnelSecret
  tunnelId : p.tunnelId = T.tunnelId.bytes
  clientId : p.clientId = fresh.bytes
  connIndex : p.connIndex = own
  replaceExisting : p.replaceExisting = true ↔ .registered ∈ before
  numPreviousAttempts : p.numPreviousAttempts = 0

/-- **Every attempt** of every leg is a request that the edge can read, if it
arrives: it has the credentials and the leg's own index, asks to replace a
connection exactly if the leg has had one, and never speaks of the attempts
before. -/
theorem attempts_told (K : Crate) (T : Tunnel) (hfit : T.fits = true) {n : UInt8} {s : Reconnect.St}
    (h : (reactors n).Reachable s) {t : Reconnect.Task} (ht : t ∈ s.tasks)
    {before after : List Reconnect.Event} {connIndex : UInt8} {replaceExisting : Bool}
    (hs : t.history = before ++ .attempt connIndex replaceExisting :: after) (fresh : Uuid) :
    ∃ request, T.request K fresh connIndex replaceExisting = some request ∧
      ∀ params, K.deliver request = .ok params →
        ∃ p, readRegisterRequest K params = .ok p ∧ Told T t.connIndex before fresh p := by
  have ha := ((Reconnect.inv_reachable h).follows t ht).attempts before after connIndex replaceExisting hs
  have hauth : T.auth.fits = true := by
    simp only [Tunnel.fits, Bool.and_eq_true] at hfit
    exact hfit.1.1
  obtain ⟨request, hbuilt, hread⟩ := request_ok K T.tunnelId connIndex hauth
    (Tunnel.options_fit hfit fresh replaceExisting)
  refine ⟨request, hbuilt, ?_⟩
  intro params hparams
  rw [K.deliver_eq hparams]
  exact ⟨T.told fresh connIndex replaceExisting, hread, rfl, rfl, rfl, rfl, ha.index, ha.replace, rfl⟩

/-- Leg 0 behind the outages of `Reconnect.outages`. -/
def reconnectedLegs : Reconnect.St :=
  (LTS.exec Reconnect.step (Reconnect.start 2) Reconnect.outages).getD (Reconnect.start 2)

def sampleTunnel : Tunnel := ⟨⟨"tag", [1, 2]⟩, ⟨List.replicate 16 9, rfl⟩, "linux", "x86_64", "v"⟩

def sampleFresh : Uuid := ⟨List.replicate 16 3, rfl⟩

/-- Its task. -/
def reconnectedTask : Reconnect.Task where
  connIndex := 0
  leg := .enter
  history := [.attempt 0 false, .registered, .lost, .released, .waited 1, .attempt 0 true, .registered]

theorem attempts_told_again : ∃ request, sampleTunnel.request refCrate sampleFresh 0 true = some request ∧
    ∃ p, readRegisterRequest refCrate request = .ok p ∧
      Told sampleTunnel 0 [.attempt 0 false, .registered, .lost, .released, .waited 1] sampleFresh p := by
  have h : LTS.exec Reconnect.step (Reconnect.start 2) Reconnect.outages = some reconnectedLegs := by decide
  have ht : reconnectedTask ∈ reconnectedLegs.tasks := by decide
  have hs : reconnectedTask.history = [.attempt 0 false, .registered, .lost, .released, .waited 1] ++
      .attempt 0 true :: [.registered] := rfl
  obtain ⟨request, hbuilt, htold⟩ :=
    attempts_told refCrate sampleTunnel (by decide) (LTS.reachable_of_exec _ _ _ h) ht hs sampleFresh
  exact ⟨request, hbuilt, htold request rfl⟩

end QuickTunnel.Manager.Attempts
