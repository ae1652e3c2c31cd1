import CorReactor.Http
import CorReactor.Ragel

set_option autoImplicit false

/-! The machine of `http11_parser.rl`. -/

namespace CorReactor.Http11

open Ragel Ragel.Expr
open CorReactor.Http (bytes)

inductive Action
  | mark
  | startField
  | writeField
  | startValue
  | writeValue
  | requestMethod
  | requestUri
  | fragment
  | startQuery
  | queryString
  | httpVersion
  | requestPath
  | done
  | xml
  | json
  deriving DecidableEq

abbrev Grammar := Expr UInt8 Action

/-! ### Characters -/

def within (first last : UInt8) (c : UInt8) : Bool := first ≤ c && c ≤ last

def oneIn (s : String) (c : UInt8) : Bool := c ∈ bytes s

def minus (p q : UInt8 → Bool) (c : UInt8) : Bool := p c && !q c

def ascii : UInt8 → Bool := within 0 127

def digit : UInt8 → Bool := within 48 57

def upper : UInt8 → Bool := within 65 90

def alpha (c : UInt8) : Bool := upper c || within 97 122 c

def xdigit (c : UInt8) : Bool := digit c || within 65 70 c || within 97 102 c

def space (c : UInt8) : Bool := within 9 13 c || c == 32

/-- A literal. -/
def lit (s : String) : Grammar := seq ((bytes s).map fun b => .chars (· == b))

def crlf : Grammar := oneOf [lit "\r\n", lit "\n"]

/-! ### URI -/

section Uri

variable (uri_relaxed : Bool)

def moreDelims (c : UInt8) : Bool := oneIn "\x7b\x7d^" c && uri_relaxed

def subDelims (c : UInt8) : Bool := oneIn "!$&'()*+,;=" c || moreDelims uri_relaxed c

def unreserved (c : UInt8) : Bool := alpha c || digit c || oneIn "-._~" c

def pctEncoded : Grammar := seq [lit "%", .chars xdigit, .chars xdigit]

def pchar : Grammar :=
  oneOf [.chars unreserved, pctEncoded, .chars (subDelims uri_relaxed), lit ":", lit "@"]

def fragment : Grammar :=
  .leave (.enter (.star (oneOf [pchar uri_relaxed, lit "/", lit "?"])) .mark) .fragment

def query : Grammar :=
  .leave (.star (oneOf [pchar uri_relaxed, lit "/", lit "?"])) .queryString

def segmentNzNc : Grammar :=
  plus (oneOf [.chars unreserved, pctEncoded, .chars (subDelims uri_relaxed), lit "@"])

def segmentNz : Grammar := plus (pchar uri_relaxed)

def segment : Grammar := .star (pchar uri_relaxed)

def pathEmpty : Grammar := times 0 (pchar uri_relaxed)

def pathRootless : Grammar :=
  seq [segmentNz uri_relaxed, .star (seq [lit "/", segment uri_relaxed])]

def pathNoscheme : Grammar :=
  seq [segmentNzNc uri_relaxed, .star (seq [lit "/", segment uri_relaxed])]

def pathAbsolute : Grammar :=
  seq [lit "/", opt (seq [segmentNz uri_relaxed, .star (seq [lit "/", segment uri_relaxed])])]

def pathAbempty : Grammar := .star (seq [lit "/", segment uri_relaxed])

def regName : Grammar :=
  .star (oneOf [.chars unreserved, pctEncoded, .chars (subDelims uri_relaxed)])

/-- Ragel's `-` is a difference: `"1"-"9"` is the character 1, `"0"-"4"` and `"0"-"5"` are the
character 0. -/
def decOctet : Grammar :=
  oneOf [.chars digit,
    seq [.chars (minus (oneIn "1") (oneIn "9")), .chars digit],
    seq [lit "1", times 2 (.chars digit)],
    seq [lit "2", .chars (minus (oneIn "0") (oneIn "4")), .chars digit],
    seq [lit "25", .chars (minus (oneIn "0") (oneIn "5"))]]

def ipv4Address : Grammar :=
  seq [decOctet, lit ".", decOctet, lit ".", decOctet, lit ".", decOctet]

def h16 : Grammar := .cat (.chars xdigit) (upTo (.chars xdigit) 3)

def ls32 : Grammar := oneOf [seq [h16, lit ":", h16], ipv4Address]

/-- `(h16 ":"){n,}`. -/
def h16s (n : Nat) : Grammar :=
  seq [times n (seq [h16, lit ":"]), .star (seq [h16, lit ":"])]

/-- `n(h16 ":")`: a number in front of an expression is the character with this code. -/
def coded (n : UInt8) : Grammar := seq [.chars (· == n), h16, lit ":"]

def ipv6Address : Grammar :=
  oneOf [seq [coded 6, ls32],
    seq [lit "::", coded 5, ls32],
    seq [opt h16, lit "::", coded 4, ls32],
    seq [opt (seq [h16s 1, h16]), lit "::", coded 3, ls32],
    seq [opt (seq [h16s 2, h16]), lit "::", coded 2, ls32],
    seq [opt (seq [h16s 3, h16]), lit "::", h16, lit ":", ls32],
    seq [opt (seq [h16s 4, h16]), lit "::", ls32],
    seq [opt (seq [h16s 5, h16]), lit "::", h16],
    seq [opt (seq [h16s 6, h16]), lit "::"]]

def ipvFuture : Grammar :=
  seq [lit "v", plus (.chars xdigit), lit ".",
    plus (oneOf [.chars unreserved, .chars (subDelims uri_relaxed), lit ":"])]

def ipLiteral : Grammar := seq [lit "[", oneOf [ipv6Address, ipvFuture uri_relaxed], lit "]"]

def port : Grammar := .star (.chars digit)

def host : Grammar := oneOf [ipLiteral uri_relaxed, ipv4Address, regName uri_relaxed]

def userinfo : Grammar :=
  .star (oneOf [.chars unreserved, pctEncoded, .chars (subDelims uri_relaxed), lit ":"])

def authority : Grammar :=
  seq [opt (seq [userinfo uri_relaxed, lit "@"]), host uri_relaxed, opt (seq [lit ":", port])]

def scheme : Grammar :=
  seq [.chars alpha, .star (oneOf [.chars alpha, .chars digit, lit "+", lit "-", lit "."])]

def relativePart : Grammar :=
  oneOf [seq [lit "//", authority uri_relaxed, pathAbempty uri_relaxed],
    pathAbsolute uri_relaxed, pathNoscheme uri_relaxed, pathEmpty uri_relaxed]

def hierPart : Grammar :=
  oneOf [seq [lit "//", authority uri_relaxed, pathAbempty uri_relaxed],
    pathAbsolute uri_relaxed, pathRootless uri_relaxed, pathEmpty uri_relaxed]

/-- `(part %request_path ("?" %start_query query)?) >mark %request_uri`. -/
def target (part : Grammar) : Grammar :=
  .leave (.enter (seq [.leave part .requestPath,
    opt (seq [.leave (lit "?") .startQuery, query uri_relaxed])]) .mark) .requestUri

/-- `("#" fragment)?`. -/
def fragmentPart : Grammar := opt (seq [lit "#", fragment uri_relaxed])

def relativeRef : Grammar :=
  seq [target uri_relaxed (relativePart uri_relaxed), fragmentPart uri_relaxed]

def uri : Grammar :=
  seq [scheme, lit ":", target uri_relaxed (hierPart uri_relaxed), fragmentPart uri_relaxed]

def uriReference : Grammar := oneOf [uri uri_relaxed, relativeRef uri_relaxed]

end Uri

/-! ### Requests -/

def method : Grammar :=
  .leave (.enter (.cat (.chars fun c => upper c || digit c)
    (upTo (.chars fun c => upper c || digit c) 19)) .mark) .requestMethod

def httpNumber : Grammar := seq [lit "1.", oneOf [lit "0", lit "1"]]

def httpVersion : Grammar := .leave (.enter (seq [lit "HTTP/", httpNumber]) .mark) .httpVersion

/-- `(0 - 31) | 127`, again a difference. -/
def httpCtl (c : UInt8) : Bool := minus (· == 0) (· == 31) c || c == 127

def httpSeparator : UInt8 → Bool := oneIn "()<>@,;:\\\"/[]?=\x7b\x7d \t"

def lws : Grammar := .cat (opt crlf) (plus (.chars (oneIn " \t")))

def token : UInt8 → Bool := minus ascii fun c => httpCtl c || httpSeparator c

def content : Grammar := oneOf [.chars (minus (fun _ => true) httpCtl), lws]

def fieldName : Grammar := .leave (.enter (plus (.chars token)) .startField) .writeField

def fieldValue : Grammar := .leave (.enter (.star content) .startValue) .writeValue

def messageHeader : Grammar :=
  .guard (seq [fieldName, lit ":", .star lws, fieldValue]) crlf

/-- With `Request_Line` written out. -/
def request (uri_relaxed : Bool) : Grammar :=
  seq [method, lit " ", uriReference uri_relaxed, lit " ", httpVersion, crlf,
    .star messageHeader, crlf]

/-! ### Socket requests -/

def socketJsonStart (uri_relaxed : Bool) : Grammar := seq [lit "@", relativePart uri_relaxed]

def anyChars : Grammar := .star (.chars fun _ => true)

def socketJsonData : Grammar := .finGuard (seq [lit "\x7b", anyChars, lit "\x7d"]) (lit "\x00")

def socketXmlData : Grammar :=
  .finGuard
    (seq [.leave (.enter (seq [lit "<", plus (.chars fun c => alpha c || digit c || oneIn "-." c)])
        .mark) .requestPath,
      oneOf [lit "/", .chars space, lit ">"], anyChars, lit ">"])
    (lit "\x00")

def socketJson (uri_relaxed : Bool) : Grammar :=
  seq [.leave (.enter (socketJsonStart uri_relaxed) .mark) .requestPath, lit " ",
    .finish (.enter socketJsonData .mark) .json]

def socketXml : Grammar := .finish socketXmlData .xml

def socketRequest (uri_relaxed : Bool) : Grammar := oneOf [socketXml, socketJson uri_relaxed]

def main (uri_relaxed : Bool) : Grammar :=
  .finish (oneOf [request uri_relaxed, socketRequest uri_relaxed]) .done

end CorReactor.Http11
