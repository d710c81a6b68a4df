import CoUringWeb.Framework.Numerals

/-!
# Status codes

`HttpResponseStatusCodes` of `include/http.h` with its values, and `getStatusText` of
`src/http.cpp`.  Every code but `C000` has a text and three digits.
-/

namespace CoUringWeb

open Machine Numerals

inductive HttpResponseStatusCodes where
  | C000
  | C100 | C101 | C102 | C103
  | C200 | C201 | C202 | C203 | C204 | C205 | C206 | C207 | C208 | C226
  | C300 | C301 | C302 | C303 | C304 | C305 | C306 | C307 | C308
  | C400 | C401 | C402 | C403 | C404 | C405 | C406 | C407 | C408 | C409 | C410 | C411 | C412
  | C413 | C414 | C415 | C416 | C417 | C418 | C421 | C422 | C423 | C424 | C425 | C426 | C428
  | C429 | C431 | C451
  | C500 | C501 | C502 | C503 | C504 | C505 | C506 | C507 | C508 | C510 | C511
  deriving DecidableEq, Repr

namespace HttpResponseStatusCodes

/-- The value of the enumerator. -/
def value : HttpResponseStatusCodes → ℕ
  | .C000 => 0
  | .C100 => 100
  | .C101 => 101
  | .C102 => 102
  | .C103 => 103
  | .C200 => 200
  | .C201 => 201
  | .C202 => 202
  | .C203 => 203
  | .C204 => 204
  | .C205 => 205
  | .C206 => 206
  | .C207 => 207
  | .C208 => 208
  | .C226 => 226
  | .C300 => 300
  | .C301 => 301
  | .C302 => 302
  | .C303 => 303
  | .C304 => 304
  | .C305 => 305
  | .C306 => 306
  | .C307 => 307
  | .C308 => 308
  | .C400 => 400
  | .C401 => 401
  | .C402 => 402
  | .C403 => 403
  | .C404 => 404
  | .C405 => 405
  | .C406 => 406
  | .C407 => 407
  | .C408 => 408
  | .C409 => 409
  | .C410 => 410
  | .C411 => 411
  | .C412 => 412
  | .C413 => 413
  | .C414 => 414
  | .C415 => 415
  | .C416 => 416
  | .C417 => 417
  | .C418 => 418
  | .C421 => 421
  | .C422 => 422
  | .C423 => 423
  | .C424 => 424
  | .C425 => 425
  | .C426 => 426
  | .C428 => 428
  | .C429 => 429
  | .C431 => 431
  | .C451 => 451
  | .C500 => 500
  | .C501 => 501
  | .C502 => 502
  | .C503 => 503
  | .C504 => 504
  | .C505 => 505
  | .C506 => 506
  | .C507 => 507
  | .C508 => 508
  | .C510 => 510
  | .C511 => 511

end HttpResponseStatusCodes

/-- `getStatusText`; codes without a text get the empty view. -/
def getStatusText : HttpResponseStatusCodes → Bytes
  | .C100 => ascii "Continue"
  | .C101 => ascii "Switching Protocols"
  | .C102 => ascii "Processing"
  | .C103 => ascii "Early Hints"
  | .C200 => ascii "OK"
  | .C201 => ascii "Created"
  | .C202 => ascii "Accepted"
  | .C203 => ascii "Non-Authoritative Information"
  | .C204 => ascii "No Content"
  | .C205 => ascii "Reset Content"
  | .C206 => ascii "Partial Content"
  | .C207 => ascii "Multi-Status"
  | .C208 => ascii "Already Reported"
  | .C226 => ascii "IM Used (RFC 3229)"
  | .C300 => ascii "Multiple Choices"
  | .C301 => ascii "Moved Permanently"
  | .C302 => ascii "Moved temporarily"
  | .C303 => ascii "See Other"
  | .C304 => ascii "Not Modified"
  | .C305 => ascii "Use Proxy"
  | .C306 => ascii "Switch Proxy"
  | .C307 => ascii "Temporary Redirect"
  | .C308 => ascii "Permanent Redirect"
  | .C400 => ascii "Bad Request"
  | .C401 => ascii "Unauthorized"
  | .C402 => ascii "Payment Required"
  | .C403 => ascii "Forbidden"
  | .C404 => ascii "Not Found"
  | .C405 => ascii "Method Not Allowed"
  | .C406 => ascii "Not Acceptable"
  | .C407 => ascii "Proxy Authentication Required"
  | .C408 => ascii "Request Timeout"
  | .C409 => ascii "Conflict"
  | .C410 => ascii "Gone"
  | .C411 => ascii "Length Required"
  | .C412 => ascii "Precondition Failed"
  | .C413 => ascii "Payload Too Large"
  | .C414 => ascii "URI Too Long"
  | .C415 => ascii "Unsupported Media Type"
  | .C416 => ascii "Range Not Satisfiable"
  | .C417 => ascii "Expectation Failed"
  | .C418 => ascii "I'm a teapot"
  | .C421 => ascii "Misdirected Request"
  | .C422 => ascii "Unprocessable Entity"
  | .C423 => ascii "Locked"
  | .C424 => ascii "Failed Dependency"
  | .C425 => ascii "Too Early"
  | .C426 => ascii "Upgrade Required"
  | .C428 => ascii "Precondition Required"
  | .C429 => ascii "Too Many Requests"
  | .C431 => ascii "Request Header Fields Too Large"
  | .C451 => ascii "Unavailable For Legal Reasons"
  | .C500 => ascii "Internal Server Error"
  | .C501 => ascii "Not Implemented"
  | .C502 => ascii "Bad Gateway"
  | .C503 => ascii "Service Unavailable"
  | .C504 => ascii "Gateway Timeout"
  | .C505 => ascii "HTTP Version Not Supported"
  | .C506 => ascii "Variant Also Negotiates"
  | .C507 => ascii "Insufficient Storage"
  | .C508 => ascii "Loop Detected"
  | .C510 => ascii "Not Extended"
  | .C511 => ascii "Network Authentication Required"
  | _ => []

theorem getStatusText_ne_nil_iff {code : HttpResponseStatusCodes} :
    getStatusText code ≠ [] ↔ code ≠ .C000 := by
  cases code <;> decide

/-- A code with a text has three digits. -/
theorem length_code {code : HttpResponseStatusCodes} (h : getStatusText code ≠ []) :
    (decimalDigits code.value).length = 3 := by
  have hthree : 10 ^ 2 ≤ code.value ∧ code.value < 10 ^ (2 + 1) := by
    have hcode : code ≠ .C000 := getStatusText_ne_nil_iff.1 h
    revert hcode
    cases code <;> decide
  exact length_decimalDigits hthree.1 hthree.2

end CoUringWeb
