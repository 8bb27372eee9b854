import QuickTunnel.Http.Framing

/-!
# A reference parser for HTTP/1.1 request heads

`parseRequestHead` reads a request line, header fields and the empty line,
and returns the rest of the input: what an origin that follows the grammar
sees in the bytes of a connection. It rejects names that are not tokens,
targets with blanks or control bytes and values with stray CR, LF or NUL.
-/
namespace QuickTunnel.Http

structure RequestHead where
  method : Bytes
  target : Bytes
  fields : List Field
  deriving DecidableEq, Repr

/-- The bytes up to the first CRLF, and those behind it. -/
def takeLine : Bytes → Option (Bytes × Bytes)
  | [] => none
  | [_] => none
  | b :: c :: rest =>
    if b = 13 ∧ c = 10 then some ([], rest)
    else (takeLine (c :: rest)).map fun p => (b :: p.1, p.2)

def isAlpha (b : UInt8) : Bool := (65 ≤ b && b ≤ 90) || (97 ≤ b && b ≤ 122)

/-- A token character: a letter, a digit or one of fifteen marks. -/
def isTchar (b : UInt8) : Bool :=
  isAlpha b || isDigit b ||
    [33, 35, 36, 37, 38, 39, 42, 43, 45, 46, 94, 95, 96, 124, 126].contains b

def isToken (s : Bytes) : Bool := s != [] && s.all isTchar

/-- A request target: no blanks, no control bytes. -/
def isTarget (s : Bytes) : Bool := s != [] && s.all fun b => 32 < b && b != 127

def isValue (s : Bytes) : Bool := s.all fun b => b != 13 && b != 10 && b != 0

/-- The bytes before and after the first `sep`. -/
def splitAtByte (sep : UInt8) (s : Bytes) : Option (Bytes × Bytes) :=
  match s.dropWhile (· != sep) with
  | [] => none
  | _ :: rest => some (s.takeWhile (· != sep), rest)

def parseRequestLine (line : Bytes) : Option (Bytes × Bytes) :=
  (splitAtByte 32 line).bind fun p =>
    (splitAtByte 32 p.2).bind fun q =>
      if isToken p.1 ∧ isTarget q.1 ∧ q.2 = ascii "HTTP/1.1" then some (p.1, q.1) else none

def parseField (line : Bytes) : Option Field :=
  (splitAtByte 58 line).bind fun p =>
    if isToken p.1 ∧ isValue p.2 then some (p.1, trim p.2) else none

/-- Header fields up to the empty line; the first argument bounds the number
of lines. -/
def parseFields : Nat → Bytes → Option (List Field × Bytes)
  | 0, _ => none
  | k + 1, s =>
    (takeLine s).bind fun p =>
      if p.1 = [] then some ([], p.2)
      else (parseField p.1).bind fun f => (parseFields k p.2).map fun q => (f :: q.1, q.2)

def parseRequestHead (s : Bytes) : Option (RequestHead × Bytes) :=
  (takeLine s).bind fun p =>
    (parseRequestLine p.1).bind fun m =>
      (parseFields (p.2.length + 1) p.2).map fun q => (⟨m.1, m.2, q.1⟩, q.2)

/-- The body length a request head announces by its Content-Length fields:
their number, 0 without any, `none` when they are not one number. -/
def RequestHead.bodyLength (h : RequestHead) : Option Nat :=
  match contentLength h.fields with
  | .absent => some 0
  | .length n => some n
  | .invalid => none

example : parseRequestHead (ascii "GET /a?b HTTP/1.1\r\nHost: x\r\nA:  b \r\n\r\nrest") =
    some (⟨ascii "GET", ascii "/a?b", [(ascii "Host", ascii "x"), (ascii "A", ascii "b")]⟩,
      ascii "rest") := by decide

end QuickTunnel.Http
