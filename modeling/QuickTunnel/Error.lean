/-!
# Errors

mirrors src/error.rs:8-44
-/
namespace QuickTunnel

/-- What the crate asks of a `reqwest::Error`. -/
structure ReqwestError where
  isTimeout : Bool
  isConnect : Bool
  isRequest : Bool
  status : Option Nat
  deriving DecidableEq, Repr

structure QuickTunnelApiError where
  code : Int
  message : String
  deriving DecidableEq, Repr

inductive TunnelError
  | api (e : ReqwestError)
  | apiBusiness (errors : List QuickTunnelApiError)
  | apiNonJson (status : Nat) (bodySnippet : List UInt8)
  | discovery (msg : String)
  | quicDial (attempts : Nat) (last : String)
  | register (msg : String)
  | permanentFailure (attempts : Nat)
  | shutdown
  | internal (msg : String)
  deriving DecidableEq, Repr

end QuickTunnel
