import CorReactor.ByteArray
import CorReactor.Http11Grammar

set_option autoImplicit false

/-! `http_parser_execute` over the machine of the grammar, and `HttpRequestParser` with its
callbacks. -/

namespace CorReactor.Http

open Http11 (Action)

/-- The bytes of a call, and whatever stands behind them in memory. -/
structure Memory where
  buffer : Bytes
  behind : Nat → UInt8

namespace Memory

def byte (m : Memory) (i : Nat) : UInt8 := m.buffer[i]?.getD (m.behind (i - m.buffer.length))

def read (m : Memory) (at_ n : Nat) : Bytes := (List.range n).map fun i => m.byte (at_ + i)

/-- `std::string(buffer + at, n)`; `none` is the exception for a length that has wrapped. -/
def string (m : Memory) (at_ n : Nat) : Option Bytes :=
  if n < 2 ^ 63 then some (m.read at_ n) else none

end Memory

/-- `strncmp(x, y, n) == 0` from the i-th character on. -/
def strncmpEq (x y : Nat → UInt8) (i : Nat) : Nat → Bool
  | 0 => true
  | n + 1 => x i == y i && (x i == 0 || strncmpEq x y (i + 1) n)

/-- A string literal with its null byte. -/
def literal (s : Bytes) (i : Nat) : UInt8 := s[i]?.getD 0

/-- `m` points to offset `at_`. -/
def charsToHttpMethod (m : Memory) (at_ : Nat) : HttpMethod :=
  match HTTP_METHOD_MAP.find? fun x =>
    strncmpEq (literal x.2) (fun i => m.byte (at_ + i)) 0 x.2.length with
  | some x => x.1
  | none => .INVALID_METHOD

/-- A machine with the actions of the grammar and their stamps. -/
abbrev ActionMachine := Ragel.Machine UInt8 (Nat × Action)

/-- The generated machine. -/
def httpParser (uri_relaxed : Bool) : ActionMachine := (Http11.main uri_relaxed).machine 0

/-- `http_parser`, for the states of a machine; no state is the error state. -/
structure HttpParser (State : Type) where
  cs : Option State
  body_start : Nat
  content_len : Int
  nread : Nat
  mark : Nat
  field_start : Nat
  field_len : Nat
  query_start : Nat
  xml_sent : Bool
  json_sent : Bool

structure HttpRequestParser (State : Type) where
  mParser : HttpParser State
  m_data : HttpRequest
  m_error : Int

namespace HttpRequestParser

section Status

variable (M : ActionMachine)

/-- A new parser: `http_parser_init` leaves `query_start` as it finds it. -/
def new (query_start : Nat) : HttpRequestParser M.State :=
  ⟨⟨some M.start, 0, 0, 0, 0, 0, 0, query_start, false, false⟩, .new, 0⟩

/-- `http_parser_finish`. -/
def isFinished (parser : HttpRequestParser M.State) : Int :=
  match parser.mParser.cs with
  | none => -1
  | some cs => if (M.final cs).isSome then 1 else 0

def hasError (parser : HttpRequestParser M.State) : Bool :=
  parser.m_error ≠ 0 || parser.mParser.cs.isNone

end Status

variable {State : Type}

/-! ### Callbacks -/

section Callbacks

variable (memory : Memory) (at_ length : Nat) (parser : HttpRequestParser State)

def onRequestMethod : Option (HttpRequestParser State) :=
  match charsToHttpMethod memory at_ with
  | .INVALID_METHOD => (memory.string at_ length).map fun _ => { parser with m_error := 1000 }
  | m => some { parser with m_data := { parser.m_data with m_method := m } }

def onRequestFragment : Option (HttpRequestParser State) :=
  (memory.string at_ length).map fun v =>
    { parser with m_data := { parser.m_data with m_fragment := v } }

def onRequestPath : Option (HttpRequestParser State) :=
  (memory.string at_ length).map fun v =>
    { parser with m_data := { parser.m_data with m_path := v } }

def onRequestQuery : Option (HttpRequestParser State) :=
  (memory.string at_ length).map fun v =>
    { parser with m_data := { parser.m_data with m_query := v } }

def onRequestVersion : Option (HttpRequestParser State) :=
  let text := fun i => memory.byte (at_ + i)
  if strncmpEq text (literal (bytes "HTTP/1.1")) 0 length then
    some { parser with m_data := { parser.m_data with m_version := 0x11 } }
  else if strncmpEq text (literal (bytes "HTTP/1.0")) 0 length then
    some { parser with m_data := { parser.m_data with m_version := 0x10 } }
  else (memory.string at_ length).map fun _ => { parser with m_error := 1001 }

def onRequestHttpField (flen value vlen : Nat) : Option (HttpRequestParser State) :=
  if flen = 0 then some { parser with m_error := 1002 }
  else
    (memory.string at_ flen).bind fun key =>
      (memory.string value vlen).map fun val =>
        { parser with m_data := parser.m_data.setHeader key val }

end Callbacks

/-! ### Actions -/

section Actions

variable (memory : Memory)

/-- `static_cast<int>`. -/
def toInt (n : Nat) : Int := (n : Int).bmod (2 ^ 32)

/-- `done` without its `fbreak`. -/
def done (fpc : Nat) (parser : HttpParser State) : HttpParser State :=
  if parser.xml_sent || parser.json_sent then
    { parser with body_start := parser.mark,
                  content_len := toInt (sizeSub fpc parser.mark + 1) }
  else { parser with body_start := fpc + 1 }

/-- An action at offset `fpc`. -/
def act (fpc : Nat) (parser : HttpRequestParser State) :
    Action → Option (HttpRequestParser State)
  | .mark | .startValue => some { parser with mParser := { parser.mParser with mark := fpc } }
  | .startField => some { parser with mParser := { parser.mParser with field_start := fpc } }
  | .writeField =>
      some { parser with mParser := { parser.mParser with
        field_len := sizeSub fpc parser.mParser.field_start } }
  | .writeValue =>
      parser.onRequestHttpField memory parser.mParser.field_start parser.mParser.field_len
        parser.mParser.mark (sizeSub fpc parser.mParser.mark)
  | .requestMethod =>
      parser.onRequestMethod memory parser.mParser.mark (sizeSub fpc parser.mParser.mark)
  -- The callback does nothing.
  | .requestUri => some parser
  | .fragment =>
      parser.onRequestFragment memory parser.mParser.mark (sizeSub fpc parser.mParser.mark)
  | .startQuery => some { parser with mParser := { parser.mParser with query_start := fpc } }
  | .queryString =>
      parser.onRequestQuery memory parser.mParser.query_start
        (sizeSub fpc parser.mParser.query_start)
  | .httpVersion =>
      parser.onRequestVersion memory parser.mParser.mark (sizeSub fpc parser.mParser.mark)
  | .requestPath =>
      parser.onRequestPath memory parser.mParser.mark (sizeSub fpc parser.mParser.mark)
  | .done => some { parser with mParser := done fpc parser.mParser }
  | .xml => some { parser with mParser := { parser.mParser with xml_sent := true } }
  | .json => some { parser with mParser := { parser.mParser with json_sent := true } }

/-- The actions of a transition, up to the `fbreak`, and whether it was come to. -/
def perform (fpc : Nat) : List Action → HttpRequestParser State →
    Option (HttpRequestParser State × Bool)
  | [], parser => some (parser, false)
  | a :: rest, parser =>
      (parser.act memory fpc a).bind fun parser =>
        if a = .done then some (parser, true) else perform fpc rest parser

end Actions

section Execute

variable (M : ActionMachine) (memory : Memory)

/-- The loop over the bytes from offset `p` on: the state it ends in and the offset. -/
def scan : M.State → Nat → Bytes → HttpRequestParser M.State →
    Option (Option M.State × Nat × HttpRequestParser M.State)
  | cs, p, [], parser => some (some cs, p, parser)
  | cs, p, c :: rest, parser =>
      match M.step cs c with
      | none => some (none, p, parser)
      | some (actions, next) =>
          (perform memory p (Ragel.inOrder actions) parser).bind fun (parser, broken) =>
            if broken then some (some next, p + 1, parser) else scan next (p + 1) rest parser

/-- `write exec`, which does nothing in the error state. -/
def writeExec (parser : HttpRequestParser M.State) :
    Option (Option M.State × Nat × HttpRequestParser M.State) :=
  match parser.mParser.cs with
  | some cs => scan M memory cs 0 memory.buffer parser
  | none => some (none, 0, parser)

/-- The assertions at the end of `http_parser_execute`. -/
def asserted (len : Nat) (parser : HttpParser State) : Bool :=
  parser.nread ≤ len && parser.body_start ≤ len && parser.mark < len &&
    parser.field_len ≤ len && parser.field_start < len

/-- `http_parser_execute(parser, buffer, len, 0)`; `none` is a failed assertion or an exception. -/
def httpParserExecute (parser : HttpRequestParser M.State) :
    Option (Nat × HttpRequestParser M.State) :=
  let len := memory.buffer.length
  if len = 0 then some (0, parser)
  else if toInt len ≠ len then none
  else
    (writeExec M memory parser).bind fun (cs, p, after) =>
      -- `cs` is written back unless the parser was in the error state before.
      let cs := if after.mParser.cs.isNone then after.mParser.cs else cs
      let nread := (after.mParser.nread + p) % 2 ^ 64
      let after := { after with mParser := { after.mParser with cs := cs, nread := nread } }
      if asserted len after.mParser then some (nread, after) else none

/-- `HttpRequestParser::execute`: what it returns, the parser, and the bytes that are moved to the
front of the buffer. -/
def execute (parser : HttpRequestParser M.State) :
    Option (Nat × HttpRequestParser M.State × Bytes) :=
  (parser.httpParserExecute M memory).map fun (offset, parser) =>
    (offset, parser, memory.buffer.drop offset)

end Execute

end HttpRequestParser

end CorReactor.Http
