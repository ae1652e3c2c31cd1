import CorReactor.Http11Grammar

set_option autoImplicit false

/-! The machine of `httpclient_parser.rl`. -/

namespace CorReactor.HttpClient

open Ragel Ragel.Expr
open CorReactor.Http (bytes lower)
open CorReactor.Http11 (ascii digit minus oneIn space within xdigit)

inductive Action
  | mark
  | startField
  | writeField
  | startValue
  | writeContentLen
  | writeConnectionClose
  | writeValue
  | reasonPhrase
  | statusCode
  | httpVersion
  | chunkSize
  | transChunked
  | done
  deriving DecidableEq

abbrev Grammar := Expr UInt8 Action

/-! ### Characters -/

/-- A literal. -/
def lit (s : String) : Grammar := seq ((bytes s).map fun b => .chars (· == b))

/-- `/.../i`. -/
def caseless (s : String) : Grammar :=
  seq ((bytes s).map fun b => .chars fun c => lower c == lower b)

def crlf : Grammar := oneOf [lit "\r\n", lit "\n"]

def cntrl : UInt8 → Bool := within 0 31

def ctl (c : UInt8) : Bool := cntrl c || c == 127

def tspecials : UInt8 → Bool := oneIn "()<>@,;:\\\"/[]?=\x7b\x7d \t"

def token : UInt8 → Bool := minus ascii fun c => ctl c || tspecials c

/-! ### Responses -/

/-- `(any -- CRLF)+`: of the one-character words only the line feed is a line end. -/
def reasonPhrase : Grammar := .leave (.enter (plus (.chars (· != 10))) .mark) .reasonPhrase

def statusCode : Grammar := .leave (.enter (plus (.chars digit)) .mark) .statusCode

def httpNumber : Grammar := seq [plus (.chars digit), lit ".", plus (.chars digit)]

def httpVersion : Grammar := .leave (.enter (seq [lit "HTTP/", httpNumber]) .mark) .httpVersion

def statusLine : Grammar :=
  .guard (seq [httpVersion, lit " ", statusCode, lit " ", reasonPhrase]) crlf

def fieldName : Grammar := .leave (.enter (plus (.chars token)) .startField) .writeField

def fieldValue : Grammar :=
  .leave (.enter (.star (.chars fun _ => true)) .startValue) .writeValue

def fields : Grammar :=
  .guard (seq [fieldName, lit ":", .star (.chars space), fieldValue]) crlf

def contentLength : Grammar :=
  seq [.leave (.enter (caseless "Content-Length") .startField) .writeField, lit ":",
    .star (.chars space),
    .leave (.leave (.enter (plus (.chars digit)) .startValue) .writeContentLen) .writeValue, crlf]

def connClose : Grammar :=
  seq [caseless "Connection", lit ":", .star (.chars space), caseless "close",
    .leave crlf .writeConnectionClose]

def transferEncodingChunked : Grammar :=
  seq [.leave (.enter (caseless "Transfer-Encoding") .startField) .writeField, lit ":",
    .star (.chars space), .leave (.enter (caseless "chunked") .startValue) .writeValue,
    .finish crlf .transChunked]

def messageHeader : Grammar := oneOf [transferEncodingChunked, connClose, contentLength, fields]

def response : Grammar := seq [statusLine, .star messageHeader, crlf]

/-! ### Chunks -/

def chunkExtVal : Grammar := plus (.chars token)

def chunkExtName : Grammar := plus (.chars token)

def chunkExtension : Grammar :=
  .star (seq [lit ";", .leave (.leave (.enter chunkExtName .startField) .writeField) .startValue,
    .leave (opt (seq [lit "=", .enter chunkExtVal .startValue])) .writeValue])

def chunkSize : Grammar := plus (.chars xdigit)

def chunkedHeader : Grammar :=
  .guard (seq [.leave (.enter chunkSize .mark) .chunkSize, chunkExtension]) crlf

def main : Grammar := .finish (oneOf [response, chunkedHeader]) .done

end CorReactor.HttpClient
