import CoUringWeb.Framework.Machine

/-!
# `IoRequest`

The request a coroutine hands to a scheduler and is suspended on (`include/core.h`).  The
coroutine owns the object and does not touch it before it is resumed, so a scheduler that keeps
the address of a pending request is modelled as keeping the request itself.  A *request* is one
`co_await`: an object that is awaited again is a new request.
-/

namespace CoUringWeb

open Machine

inductive IoRequestOp where
  | OP_READ
  | OP_WRITE
  deriving DecidableEq, Repr

/-- The address of a suspended coroutine. -/
abbrev Handle := ℕ

/-- The fields of `IoRequest` with their initialisers; `data` stands for the contents of the
buffer. -/
structure IoRequest where
  data : Bytes := []
  capicaty : ℕ := 0
  size : ℕ := 0
  fd : ℕ := 0
  retCode : ℤ := 0
  context : Handle := 0
  op : IoRequestOp
  timeout : ℤ := 0
  deriving DecidableEq, Repr

namespace IoRequest

/-- `AsyncRead::await_suspend`: the request that is passed on to `handleRead`. -/
def asyncRead (req : IoRequest) (h : Handle) : IoRequest :=
  { req with context := h, op := .OP_READ }

/-- `AsyncWrite::await_suspend`: the request that is passed on to `handleWrite`. -/
def asyncWrite (req : IoRequest) (h : Handle) : IoRequest :=
  { req with context := h, op := .OP_WRITE }

end IoRequest

end CoUringWeb
