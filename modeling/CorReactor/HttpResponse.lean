import CorReactor.Http

set_option autoImplicit false

/-! `HttpStatus`, `HttpResponse` and its `dump`. -/

namespace CorReactor.Http

/-- The number under the enumeration: a cast can make any of it. -/
abbrev HttpStatus := BitVec 32

/-- `HTTP_STATUS_MAP`: the codes and their texts, as the preprocessor spells them. -/
def HTTP_STATUS_MAP : List (HttpStatus × Bytes) :=
  [(100, bytes "Continue"), (101, bytes "Switching Protocols"), (102, bytes "Processing"),
    (200, bytes "OK"), (201, bytes "Created"), (202, bytes "Accepted"),
    (203, bytes "Non - Authoritative Information"), (204, bytes "No Content"),
    (205, bytes "Reset Content"), (206, bytes "Partial Content"), (207, bytes "Multi - Status"),
    (208, bytes "Already Reported"), (226, bytes "IM Used"), (300, bytes "Multiple Choices"),
    (301, bytes "Moved Permanently"), (302, bytes "Found"), (303, bytes "See Other"),
    (304, bytes "Not Modified"), (305, bytes "Use Proxy"), (307, bytes "Temporary Redirect"),
    (308, bytes "Permanent Redirect"), (400, bytes "Bad Request"), (401, bytes "Unauthorized"),
    (402, bytes "Payment Required"), (403, bytes "Forbidden"), (404, bytes "Not Found"),
    (405, bytes "Method Not Allowed"), (406, bytes "Not Acceptable"),
    (407, bytes "Proxy Authentication Required"), (408, bytes "Request Timeout"),
    (409, bytes "Conflict"), (410, bytes "Gone"), (411, bytes "Length Required"),
    (412, bytes "Precondition Failed"), (413, bytes "Payload Too Large"),
    (414, bytes "URI Too Long"), (415, bytes "Unsupported Media Type"),
    (416, bytes "Range Not Satisfiable"), (417, bytes "Expectation Failed"),
    (421, bytes "Misdirected Request"), (422, bytes "Unprocessable Entity"),
    (423, bytes "Locked"), (424, bytes "Failed Dependency"), (426, bytes "Upgrade Required"),
    (428, bytes "Precondition Required"), (429, bytes "Too Many Requests"),
    (431, bytes "Request Header Fields Too Large"), (451, bytes "Unavailable For Legal Reasons"),
    (500, bytes "Internal Server Error"), (501, bytes "Not Implemented"),
    (502, bytes "Bad Gateway"), (503, bytes "Service Unavailable"),
    (504, bytes "Gateway Timeout"), (505, bytes "HTTP Version Not Supported"),
    (506, bytes "Variant Also Negotiates"), (507, bytes "Insufficient Storage"),
    (508, bytes "Loop Detected"), (510, bytes "Not Extended"),
    (511, bytes "Network Authentication Required")]

def httpStatusToString (s : HttpStatus) : Bytes :=
  match HTTP_STATUS_MAP.find? fun x => x.1 = s with
  | some x => x.2
  | none => bytes "<unknown>"

structure HttpResponse where
  m_status : HttpStatus
  m_version : UInt8
  m_close : Bool
  m_websocket : Bool
  m_body : Bytes
  m_reason : Bytes
  m_headers : MapType

namespace HttpResponse

open HttpRequest (decimal)

/-- `HttpResponse(0x11, true)`. -/
def new : HttpResponse := ⟨200, 0x11, true, false, [], [], .empty⟩

def setHeader (r : HttpResponse) (key val : Bytes) : HttpResponse :=
  { r with m_headers := r.m_headers.set key val }

/-- The line of a header. -/
def headerLine (key val : Bytes) : Bytes := key ++ bytes ": " ++ val ++ bytes "\r\n"

/-- The headers that `dump` writes one by one. -/
def dumped (r : HttpResponse) : List (Bytes × Bytes) :=
  r.m_headers.entries.filter fun i => !(!r.m_websocket && strcasecmp i.1 (bytes "connection") == 0)

def dump (r : HttpResponse) : Bytes :=
  bytes "HTTP/" ++ decimal (r.m_version >>> 4).toNat ++ bytes "." ++
    decimal (r.m_version &&& 0x0F).toNat ++ bytes " " ++ decimal r.m_status.toNat ++ bytes " " ++
    (if r.m_reason = [] then httpStatusToString r.m_status else r.m_reason) ++ bytes "\r\n" ++
    r.dumped.flatMap (fun i => headerLine i.1 i.2) ++
    (if r.m_websocket then []
      else bytes "connection: " ++ bytes (if r.m_close then "close" else "keep-alive") ++
        bytes "\r\n") ++
    (if r.m_body = [] then bytes "\r\n"
      else bytes "content-length: " ++ decimal r.m_body.length ++ bytes "\r\n\r\n" ++ r.m_body)

end HttpResponse

end CorReactor.Http
