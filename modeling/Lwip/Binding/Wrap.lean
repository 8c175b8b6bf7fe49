import Lwip.Tcp.Output

/-!
# The wrapper of a connection

The C half of the OCaml binding, `lwip_stubs.c`, as far as it works on a `tcp_wrap`: the callbacks
that the stack calls and the stubs that `lwip.ml` calls. The pcb that a wrapper points to is of any
type `P`, since these functions only ask whether it is `NULL` and hand it on to the stack; a call
that they make to the stack is part of their result. The value `v` of an accepted wrapper, the
record with the two condition variables, is set by `accept_cb` before anything else can happen to it
and is left to the machines that have these variables.

A stub that raises an exception returns in `Except Exn`.
-/

namespace Lwip.Binding

open Lwip.Tcp (Err)

/-- The exceptions that the stubs raise. -/
inductive Exn where
  /-- `TCP.Connection_closed` -/
  | Connection_closed
  deriving DecidableEq, Repr

/-- `enum tcp_states`. -/
inductive TcpStates where
  | TCP_NONE | TCP_LISTEN | TCP_ACCEPTED | TCP_CLOSING
  deriving DecidableEq, Repr

/-- `tcp_desc`. Its field `retries` is never read. -/
structure TcpDesc where
  state : TcpStates := .TCP_NONE
  /-- The bytes of each pbuf of the receive queue; `NULL` is the empty list. -/
  rx : List (List UInt8) := []
  deriving DecidableEq, Repr

/-- `pbuf_list_length`. The receive window bounds the sum, so that it does not wrap. -/
def pbufListLength (rx : List (List UInt8)) : ℕ := (rx.map List.length).sum

/-- `tcp_wrap`; `none` is `NULL`. -/
structure TcpWrap (P : Type) where
  pcb : Option P
  desc : TcpDesc
  deriving DecidableEq, Repr

variable {P : Type}

/-- `tcp_wrap_of_value`, which gives the pcb of the wrapper. -/
def tcpWrapOfValue (tw : TcpWrap P) : Except Exn P :=
  match tw.pcb with
  | none => .error .Connection_closed
  | some pcb => .ok pcb

/-- Why a machine of a wrapper and its connection stops. -/
inductive Stop where
  /-- An assertion of the stack fails. -/
  | aborts (a : Lwip.Tcp.Abort)
  /-- The stack has freed the pcb that the wrapper still names. -/
  | freed
  deriving DecidableEq, Repr

/-! ## Receiving -/

/-- What `tcp_recv_cb` leaves, besides its result `ERR_OK`. -/
structure RecvCb where
  desc : TcpDesc
  /-- The callback `rx_notify` was called. -/
  notify : Bool := false
  /-- The argument of a call of `tcp_recved`. -/
  recved : Option ℕ := none
  deriving DecidableEq, Repr

/-- `tcp_recv_cb`. -/
def tcpRecvCb (desc : TcpDesc) (p : Option (List UInt8)) (err : Err) : RecvCb :=
  match p, err with
  | some p, .OK =>
    if desc.rx = [] then { desc := { desc with rx := [p] }, notify := true }
    else
      match desc.state with
      | .TCP_ACCEPTED =>
        -- Nothing can sleep if there are already pending packets in the receive queue.
        { desc := { desc with rx := desc.rx ++ [p] } }
      | .TCP_CLOSING | .TCP_NONE | .TCP_LISTEN => { desc, recved := some p.length }
  | _, _ => { desc := { desc with state := .TCP_CLOSING }, notify := true }

/-- `caml_tcp_read_len`. -/
def camlTcpReadLen (tw : TcpWrap P) : Except Exn ℤ := do
  let _ ← tcpWrapOfValue tw
  if tw.desc.rx ≠ [] then .ok (pbufListLength tw.desc.rx)
  else if tw.desc.state = .TCP_CLOSING then .ok (-1)
  else .ok 0

/-- What `caml_tcp_read` leaves: the string, the wrapper, and the argument of its `tcp_recved`,
which is not called if the pcb is `NULL`. -/
def camlTcpRead (tw : TcpWrap P) : List UInt8 × TcpWrap P × Option ℕ :=
  if tw.desc.rx = [] then ([], tw, none)
  else (tw.desc.rx.flatten, { tw with desc := { tw.desc with rx := [] } },
    tw.pcb.map fun _ => pbufListLength tw.desc.rx)

/-- How one round of `TCP.read` ends. -/
inductive ReadRound (P : Type) where
  /-- The exception `Connection_closed`. -/
  | closed
  /-- The thread waits for `rx_cond`, and then tries again. -/
  | waits
  | returns (s : List UInt8) (tw : TcpWrap P) (recved : Option ℕ)
  deriving DecidableEq, Repr

/-- `TCP.read` up to the point where it ends or waits. -/
def readRound (tw : TcpWrap P) : ReadRound P :=
  match camlTcpReadLen tw with
  | .error .Connection_closed => .closed
  | .ok n =>
    if n = -1 then .closed
    else if n = 0 then .waits
    else .returns (camlTcpRead tw).1 (camlTcpRead tw).2.1 (camlTcpRead tw).2.2

/-! ## Accepting and closing -/

/-- The wrapper that `tcp_accept_cb` makes for a new connection. -/
def tcpAcceptWrap (newpcb : P) :
    TcpWrap P := { pcb := some newpcb, desc := { state := .TCP_ACCEPTED } }

/-- `caml_tcp_accepted`. In a build without `TCP_LISTEN_BACKLOG`, `tcp_accepted` does nothing. -/
def camlTcpAccepted (tw : TcpWrap P) : Except Exn (TcpWrap P) := do
  let _ ← tcpWrapOfValue tw
  .ok { tw with desc := { tw.desc with state := .TCP_ACCEPTED } }

/-- The wrapper lets go of the pcb. -/
def TcpWrap.release (tw : TcpWrap P) : TcpWrap P :=
  { pcb := none, desc := { tw.desc with state := .TCP_CLOSING } }

/-- `caml_tcp_close`, where `err` is the result of `tcp_close`. -/
def camlTcpClose (err : Err) (tw : TcpWrap P) : Except Exn (Bool × TcpWrap P) := do
  let _ ← tcpWrapOfValue tw
  if err = .OK then .ok (true, tw.release) else .ok (false, tw)

/-- `caml_tcp_abort`, which calls `tcp_abort`. -/
def camlTcpAbort (tw : TcpWrap P) : Except Exn (TcpWrap P) := do
  let _ ← tcpWrapOfValue tw
  .ok tw.release

end Lwip.Binding
