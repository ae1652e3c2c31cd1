import CorReactor.HttpClientGrammar
import CorReactor.HttpParser
import CorReactor.HttpResponse
import CorReactor.RagelFinish

set_option autoImplicit false

/-! `httpclient_parser_execute` over the machine of the grammar, and `HttpResponseParser` with its
callbacks. -/

namespace CorReactor.Http

open HttpClient (Action)
open HttpRequestParser (toInt)

/-! ### Numbers -/

def digitValue (c : UInt8) : Nat :=
  if Http11.digit c then c.toNat - 48
  else if Http11.within 97 122 c then c.toNat - 87
  else if Http11.upper c then c.toNat - 55
  else 36

/-- `0x` in front of a hexadecimal number. -/
def skipHex (text : Bytes) : Bytes :=
  match text with
  | 48 :: x :: c :: rest => if (x = 120 ∨ x = 88) ∧ digitValue c < 16 then c :: rest else text
  | _ => text

/-- The sign, if there is one, and what stands behind it. -/
def sign (text : Bytes) : Int × Bytes :=
  match text with
  | 45 :: rest => (-1, rest)
  | 43 :: rest => (1, rest)
  | _ => (1, text)

/-- `strtol(text, NULL, base)`. -/
def strtol (text : Bytes) (base : Nat) : Int :=
  let signed := sign (text.dropWhile Http11.space)
  let digits := (if base = 16 then skipHex signed.2 else signed.2).takeWhile (digitValue · < base)
  let n := digits.foldl (fun n c => base * n + digitValue c) 0
  max (-2 ^ 63) (min (2 ^ 63 - 1) (signed.1 * n))

/-- A `long` or an `int` as an `int`. -/
def intOfLong (n : Int) : Int := n.bmod (2 ^ 32)

/-- `static_cast<size_t>`. -/
def toSize (n : Int) : Nat := (n % 2 ^ 64).toNat

/-! ### Parsers -/

/-- A machine with the actions of the grammar and their stamps. -/
abbrev ClientMachine := Ragel.Machine UInt8 (Nat × Action)

/-- The generated machine. -/
def httpclientParser : ClientMachine := HttpClient.main.machine 0

/-- `httpclient_parser`; no state is the error state. -/
structure HttpclientParser (State : Type) where
  cs : Option State
  body_start : Nat
  content_len : Int
  status : Int
  chunked : Bool
  chunks_done : Bool
  close : Bool
  nread : Nat
  mark : Nat
  field_start : Nat
  field_len : Nat

structure HttpResponseParser (State : Type) where
  mParser : HttpclientParser State
  m_data : HttpResponse
  m_error : Int

namespace HttpResponseParser

section Init

variable (M : ClientMachine)

/-- `httpclient_parser_init`, which leaves `status` as it finds it. -/
def init (parser : HttpclientParser M.State) : HttpclientParser M.State :=
  ⟨some M.start, 0, -1, parser.status, false, false, false, 0, 0, 0, 0⟩

/-- A new parser. -/
def new (status : Int) : HttpResponseParser M.State :=
  ⟨⟨some M.start, 0, -1, status, false, false, false, 0, 0, 0, 0⟩, .new, 0⟩

end Init

variable {State : Type}

/-! ### Callbacks -/

section Callbacks

variable (memory : Memory) (at_ length : Nat) (parser : HttpResponseParser State)

def onResponseReason : Option (HttpResponseParser State) :=
  (memory.string at_ length).map fun v =>
    { parser with m_data := { parser.m_data with m_reason := v } }

/-- With `atoi` as the `strtol` that it is. -/
def onResponseStatus : Option (HttpResponseParser State) :=
  let status := intOfLong (strtol (memory.buffer.drop at_) 10)
  some { parser with m_data := { parser.m_data with m_status := BitVec.ofInt 32 status } }

def onResponseVersion : Option (HttpResponseParser State) :=
  let text := fun i => memory.byte (at_ + i)
  if strncmpEq text (literal (bytes "HTTP/1.1")) 0 length then
    some { parser with m_data := { parser.m_data with m_version := 0x11 } }
  else if strncmpEq text (literal (bytes "HTTP/1.0")) 0 length then
    some { parser with m_data := { parser.m_data with m_version := 0x10 } }
  else (memory.string at_ length).map fun _ => { parser with m_error := 1001 }

def onResponseHttpField (flen value vlen : Nat) : Option (HttpResponseParser State) :=
  if flen = 0 then some parser
  else
    (memory.string at_ flen).bind fun key =>
      (memory.string value vlen).map fun val =>
        { parser with m_data := parser.m_data.setHeader key val }

end Callbacks

/-! ### Actions -/

section Actions

variable (memory : Memory)

/-- An action at offset `fpc`. The text behind a mark is read up to the NUL that ends the buffer at
the latest. -/
def act (fpc : Nat) (parser : HttpResponseParser State) :
    Action → Option (HttpResponseParser State)
  | .mark | .startValue => some { parser with mParser := { parser.mParser with mark := fpc } }
  | .startField => some { parser with mParser := { parser.mParser with field_start := fpc } }
  | .writeField =>
      some { parser with mParser := { parser.mParser with
        field_len := sizeSub fpc parser.mParser.field_start } }
  | .writeContentLen =>
      some { parser with mParser := { parser.mParser with
        content_len := intOfLong (strtol (memory.buffer.drop parser.mParser.mark) 10) } }
  | .writeConnectionClose =>
      some { parser with mParser := { parser.mParser with close := true } }
  | .writeValue =>
      parser.onResponseHttpField memory parser.mParser.field_start parser.mParser.field_len
        parser.mParser.mark (sizeSub fpc parser.mParser.mark)
  | .reasonPhrase =>
      parser.onResponseReason memory parser.mParser.mark (sizeSub fpc parser.mParser.mark)
  | .statusCode =>
      onResponseStatus memory parser.mParser.mark { parser with mParser := { parser.mParser with
        status := intOfLong (strtol (memory.buffer.drop parser.mParser.mark) 10) } }
  | .httpVersion =>
      parser.onResponseVersion memory parser.mParser.mark (sizeSub fpc parser.mParser.mark)
  -- Both callbacks do nothing.
  | .chunkSize =>
      let content_len := intOfLong (strtol (memory.buffer.drop parser.mParser.mark) 16)
      some { parser with mParser := { parser.mParser with
        chunked := true, content_len := content_len, chunks_done := content_len ≤ 0 } }
  | .transChunked => some { parser with mParser := { parser.mParser with chunked := true } }
  | .done => some { parser with mParser := { parser.mParser with body_start := fpc + 1 } }

/-- The actions of a transition, up to the `fbreak`, and whether it was come to. -/
def perform (fpc : Nat) : List Action → HttpResponseParser State →
    Option (HttpResponseParser State × Bool)
  | [], parser => some (parser, false)
  | a :: rest, parser =>
      (parser.act memory fpc a).bind fun parser =>
        if a = .done then some (parser, true) else perform fpc rest parser

end Actions

section Execute

variable (M : ClientMachine) (memory : Memory)

/-- `write exec`, which does nothing in the error state. -/
def writeExec (parser : HttpResponseParser M.State) :
    Option (Option M.State × Nat × HttpResponseParser M.State) :=
  match parser.mParser.cs with
  | some cs =>
      M.exec (fun p actions => perform memory p (Ragel.inOrder actions)) cs 0 memory.buffer parser
  | none => some (none, 0, parser)

/-- What `check` asks for. -/
def checked (len : Nat) (parser : HttpclientParser State) : Bool :=
  parser.mark < len && parser.field_len ≤ len && parser.field_start < len

/-- `httpclient_parser_execute(parser, buffer, len, 0)`; `none` is a failed assertion or an
exception. -/
def httpclientParserExecute (parser : HttpResponseParser M.State) :
    Option (Int × HttpResponseParser M.State) :=
  let len := memory.buffer.length
  if memory.byte len ≠ 0 then none
  else if toInt len ≠ len then none
  else
    (writeExec M memory parser).bind fun (cs, p, after) =>
      let nread := (after.mParser.nread + p) % 2 ^ 64
      let after := { after with mParser := { after.mParser with cs := cs, nread := nread } }
      if nread ≤ len ∧ after.mParser.body_start ≤ len then
        if checked len after.mParser then
          if after.mParser.body_start ≠ 0 then
            let nread := (nread + 1) % 2 ^ 64
            some (toInt nread, { after with mParser := { after.mParser with nread := nread } })
          else some (toInt nread, after)
        else some (-1, after)
      else none

/-- `HttpResponseParser::execute`: what it returns, the parser, and the bytes that are moved to the
front of the buffer; no bytes where the length of the move has wrapped. -/
def execute (chunck : Bool) (parser : HttpResponseParser M.State) :
    Option (Nat × HttpResponseParser M.State × Option Bytes) :=
  let parser := if chunck then { parser with mParser := init M parser.mParser } else parser
  (parser.httpclientParserExecute M memory).map fun (result, parser) =>
    let offset := toSize result
    (offset, parser,
      if offset ≤ memory.buffer.length then some (memory.buffer.drop offset) else none)

end Execute

end HttpResponseParser

end CorReactor.Http
