import Lwip.Lib.LinkedLists
import Lwip.Netif.Etharp
import Lwip.Tcp.KillPrio
import Lwip.Tcp.Open

/-!
# The lists of pcbs

The four lists of `tcp.c` and the two pools that the pcbs come from, with the functions of `tcp.c`
that create a pcb, remove it, or move it from list to list. A pcb is known by its address. The cells
of `MEMP_TCP_PCB` come first in memory, those of `MEMP_TCP_PCB_LISTEN` behind them. What one
connection does by itself is taken from `Tcp.Process`; the segments that it sends are left out here.

`tcp_output_segment` gives a pcb that has no local address the one of its interface. Whether an
event gets there, and which address that is, is left open (`src`).
-/

namespace Lwip.Pcbs

open Tcp (Opts TcpPcb TcpState Abort)
open Netif (IpAddr ipAddrIsany)
open Function (update)

/-- The lists `tcp_bound_pcbs`, `tcp_listen_pcbs`, `tcp_active_pcbs` and `tcp_tw_pcbs`. -/
inductive PcbList where
  | bound | listen | active | tw
  deriving DecidableEq, Repr

/-- The pools `MEMP_TCP_PCB` and `MEMP_TCP_PCB_LISTEN`. -/
inductive Memp where
  | TCP_PCB | TCP_PCB_LISTEN
  deriving DecidableEq, Repr

/-- A `struct tcp_pcb` without its `next`. Of the fields in `pcb` a `struct tcp_pcb_listen` has
`state` and `keepalive` only. -/
structure Cell where
  local_ip : IpAddr := 0
  remote_ip : IpAddr := 0
  local_port : BitVec 16 := 0
  remote_port : BitVec 16 := 0
  prio : UInt8 := 0
  pcb : TcpPcb

/-- The options of `lwipopts.h` and `opt.h`, and the number of cells in each pool. -/
structure Config where
  o : Opts
  num : Memp → ℕ

/-- The cells of a pool. -/
def Config.InPool (c : Config) (q : Memp) (p : ℕ) : Prop :=
  match q with
  | .TCP_PCB => p < c.num .TCP_PCB
  | .TCP_PCB_LISTEN => c.num .TCP_PCB ≤ p ∧ p < c.num .TCP_PCB + c.num .TCP_PCB_LISTEN

instance (c : Config) (q : Memp) (p : ℕ) : Decidable (c.InPool q p) :=
  match q with
  | .TCP_PCB => inferInstanceAs (Decidable (p < c.num .TCP_PCB))
  | .TCP_PCB_LISTEN =>
    inferInstanceAs (Decidable (c.num .TCP_PCB ≤ p ∧ p < c.num .TCP_PCB + c.num .TCP_PCB_LISTEN))

/-- The number of cells in both pools. -/
def Config.total (c : Config) : ℕ := c.num .TCP_PCB + c.num .TCP_PCB_LISTEN

/-- The lists, the cells, the free cells of each pool in the order of `memp_tab`, the variable
`port` of `tcp_new_port`, and `tcp_ticks`. -/
structure Stack where
  lists : Lists PcbList
  mem : ℕ → Cell
  free : Memp → List ℕ
  port : BitVec 16 := 4096
  ticks : BitVec 32 := 0

/-- Why the stack stops. -/
inductive Stop where
  /-- An assertion in the code of one connection. -/
  | tcp (a : Abort)
  /-- `can only bind in state CLOSED` and its like. -/
  | notClosed
  /-- `active pcb->state != CLOSED` and its like. -/
  | wrongState
  /-- Not an assertion: a loop goes on for ever. -/
  | endless
  /-- Not an assertion: the stack goes on with a pcb that was freed. -/
  | freed
  deriving DecidableEq, Repr

/-- The reasons that have to do with the lists. -/
def Stop.ofLists : Stop → Bool
  | .wrongState | .endless => true
  | .tcp _ | .notClosed | .freed => false

/-- A function of one connection. -/
def ofTcp {α : Type} (x : Except Abort α) : Except Stop α := x.mapError .tcp

/-! ## Cells and lists -/

namespace Stack

/-- The pcbs of a list, in their order. -/
def pcbs (c : Config) (s : Stack) (i : PcbList) :
    List ℕ := cells s.lists.succ c.total (s.lists.heads i)

/-- A cell is overwritten. -/
def setCell (s : Stack) (p : ℕ) (x : Cell) : Stack := { s with mem := update s.mem p x }

/-- The fields of the connection are overwritten. -/
def setPcb (s : Stack) (p : ℕ) (pcb : TcpPcb) : Stack := s.setCell p { s.mem p with pcb }

/-- The state of a pcb. -/
def state (s : Stack) (p : ℕ) : TcpState := (s.mem p).pcb.state

/-- `TCP_REG`. -/
def TCP_REG (s : Stack) (i : PcbList) (p : ℕ) : Stack := { s with lists := s.lists.push i p }

/-- `TCP_RMV`. -/
def TCP_RMV (c : Config) (s : Stack) (i : PcbList) (p : ℕ) : Stack :=
  { s with lists := s.lists.unlink c.total i p }

/-- `memp_malloc`. -/
def mempMalloc (s : Stack) (q : Memp) : Option (ℕ × Stack) :=
  match s.free q with
  | [] => none
  | p :: free => some (p, { s with free := update s.free q free })

/-- `memp_free`. -/
def mempFree (s : Stack) (q : Memp) (p : ℕ) :
    Stack := { s with free := update s.free q (p :: s.free q) }

/-- The local address that `tcp_output_segment` stores. -/
def route (s : Stack) (src : Option IpAddr) (p : ℕ) : Stack :=
  let x := s.mem p
  s.setCell p { x with
    local_ip := if ipAddrIsany x.local_ip then src.getD x.local_ip else x.local_ip }

end Stack

/-! ## Removing pcbs -/

section Remove

variable (c : Config) (ack : Bool) (p : ℕ) (s : Stack)

/-- `tcp_pcb_remove`, with the outcome of the allocation of the ACK that it may send. -/
def tcpPcbRemove (i : PcbList) : Except Stop Stack := do
  let s := s.TCP_RMV c i p
  let _ ← ofTcp (Tcp.tcpPcbRemove false s.ticks ack (s.mem p).pcb)
  .ok (s.setPcb p { Tcp.tcpPcbPurge (s.mem p).pcb with state := .CLOSED })

/-- `tcp_abandon`. -/
def tcpAbandon : Except Stop Stack := do
  if s.state p = .TIME_WAIT then
    let s ← tcpPcbRemove c ack p s .tw
    .ok (s.mempFree .TCP_PCB p)
  else
    let s ← tcpPcbRemove c ack p s .active
    .ok (s.mempFree .TCP_PCB p)

/-- `tcp_close`, with the outcomes of the allocations of its FIN and of the ACK. -/
def tcpClose (alloc : ℕ → Bool) (src : Option IpAddr) : Except Stop Stack := do
  match s.state p with
  | .CLOSED => .ok ((s.TCP_RMV c .bound p).mempFree .TCP_PCB p)
  | .LISTEN => do
    let s ← tcpPcbRemove c ack p s .listen
    .ok (s.mempFree .TCP_PCB_LISTEN p)
  | .SYN_SENT => do
    let s ← tcpPcbRemove c ack p s .active
    .ok (s.mempFree .TCP_PCB p)
  | _ => do
    let r ← ofTcp (Tcp.tcpClose c.o false s.ticks alloc ack (s.mem p).pcb)
    .ok (r.2.1.elim s fun pcb => (s.setPcb p pcb).route src p)

end Remove

/-! ## Creating pcbs -/

/-- What the searches of `tcp_alloc` read of a pcb. -/
def Stack.aged (s : Stack) (p : ℕ) : TcpPool.AgedPcb := ⟨p, (s.mem p).prio, (s.mem p).pcb.tmr⟩

section Alloc

variable (c : Config)

/-- `tcp_kill_timewait`. -/
def tcpKillTimewait (ack : Bool) (s : Stack) : Except Stop Stack :=
  match (((s.pcbs c .tw).map s.aged).foldl (TcpPool.killTimewaitBody s.ticks) {}).inactive with
  | some inactive => tcpAbandon c ack inactive.addr s
  | none => .ok s

/-- `tcp_kill_prio`. -/
def tcpKillPrio (ack : Bool) (prio : UInt8) (s : Stack) : Except Stop Stack :=
  match (((s.pcbs c .active).map s.aged).foldl (TcpPool.killPrioBody s.ticks prio) {}).inactive with
  | some inactive => tcpAbandon c ack inactive.addr s
  | none => .ok s

/-- The cell that `tcp_alloc` sets up, with the result `iss` of `tcp_next_iss`. -/
def newCell (ticks : BitVec 32) (iss : Serial) : Cell where
  prio := TcpPool.TCP_PRIO_NORMAL
  pcb := Tcp.tcpAlloc c.o ticks iss

/-- `memp_malloc`, and if there is a pcb, its initialisation. -/
def mallocPcb (iss : Serial) (s : Stack) : Option (ℕ × Stack) :=
  (s.mempMalloc .TCP_PCB).map fun r => (r.1, r.2.setCell r.1 (newCell c s.ticks iss))

/-- `tcp_alloc`, with the outcomes of the allocations of the ACKs that two removals may send. -/
def tcpAlloc (acks : Bool × Bool) (iss : Serial) (prio : UInt8) (s : Stack) :
    Except Stop (Option ℕ × Stack) :=
  match mallocPcb c iss s with
  | some r => .ok (some r.1, r.2)
  | none => do
    let s ← tcpKillTimewait c acks.1 s
    match mallocPcb c iss s with
    | some r => .ok (some r.1, r.2)
    | none => do
      let s ← tcpKillPrio c acks.2 prio s
      match mallocPcb c iss s with
      | some r => .ok (some r.1, r.2)
      | none => .ok (none, s)

/-- `tcp_new`. -/
def tcpNew (acks : Bool × Bool) (iss : Serial) (s : Stack) : Except Stop (Option ℕ × Stack) :=
  tcpAlloc c acks iss TcpPool.TCP_PRIO_NORMAL s

end Alloc

/-! ## Ports -/

/-- `TCP_LOCAL_PORT_RANGE_START`. -/
def TCP_LOCAL_PORT_RANGE_START : BitVec 16 := 4096

/-- `TCP_LOCAL_PORT_RANGE_END`. -/
def TCP_LOCAL_PORT_RANGE_END : BitVec 16 := 0x7fff

/-- A pcb of the list has the local port. -/
def Stack.hasPort (c : Config) (s : Stack) (port : BitVec 16) (i : PcbList) : Bool :=
  (s.pcbs c i).any fun p => (s.mem p).local_port = port

/-- The port behind `port`, in the range. -/
def nextPort (port : BitVec 16) : BitVec 16 :=
  if port + 1 > TCP_LOCAL_PORT_RANGE_END then TCP_LOCAL_PORT_RANGE_START else port + 1

/-- The rounds of `tcp_new_port`. -/
def newPortFrom (c : Config) (s : Stack) : (fuel : ℕ) → BitVec 16 → Option (BitVec 16)
  | 0, _ => none
  | fuel + 1, port =>
    let port := nextPort port
    if s.hasPort c port .active || s.hasPort c port .tw || s.hasPort c port .listen then
      newPortFrom c s fuel port
    else some port

/-- `tcp_new_port`. If every port of the range was tried once, all will be tried for ever. -/
def tcpNewPort (c : Config) (s : Stack) : Except Stop (BitVec 16 × Stack) :=
  match newPortFrom c s 0x7000 s.port with
  | some port => .ok (port, { s with port })
  | none => .error .endless

/-- A new port for the port 0, as `tcp_bind` and `tcp_connect` take it. -/
def portOrNew (c : Config) (s : Stack) (port : BitVec 16) : Except Stop (BitVec 16 × Stack) :=
  if port = 0 then tcpNewPort c s else .ok (port, s)

/-! ## The calls of the application -/

/-- The comparisons of `tcp_bind` with the local address of a listening, active or bound pcb. -/
def clashes (local_ip ipaddr : IpAddr) : Bool :=
  ipAddrIsany local_ip || ipAddrIsany ipaddr || decide (local_ip = ipaddr)

/-- The address is in use, as `tcp_bind` sees it. -/
def Stack.inUse (c : Config) (s : Stack) (ipaddr : IpAddr) (port : BitVec 16) : Bool :=
  let hit i := (s.pcbs c i).any fun p =>
    (s.mem p).local_port = port && clashes (s.mem p).local_ip ipaddr
  hit .listen || hit .active || hit .bound ||
    -- Until SO_REUSEADDR is implemented, the pcbs in TIME-WAIT state are checked also.
    (s.pcbs c .tw).any fun p => (s.mem p).local_port = port && decide ((s.mem p).local_ip = ipaddr)

section Calls

variable (c : Config) (p : ℕ) (s : Stack)

/-- `tcp_bind`, and whether it returns `ERR_OK`. -/
def tcpBind (ipaddr : IpAddr) (port : BitVec 16) : Except Stop (Bool × Stack) := do
  lwipAssert .notClosed (s.state p = .CLOSED)
  let (port, s) ← portOrNew c s port
  if s.inUse c ipaddr port then .ok (false, s)
  else
    let x := s.mem p
    let local_ip := if ipAddrIsany ipaddr then x.local_ip else ipaddr
    .ok (true, (s.setCell p { x with local_ip, local_port := port }).TCP_REG .bound p)

/-- The listening pcb that `tcp_listen` sets up in the cell `y`. -/
def listenCell (x y : Cell) : Cell :=
  { y with
    local_ip := x.local_ip
    local_port := x.local_port
    pcb := { y.pcb with state := .LISTEN, keepalive := x.pcb.keepalive } }

/-- `tcp_listen`, with the new pcb. -/
def tcpListen : Except Stop (Option ℕ × Stack) := do
  lwipAssert .notClosed (s.state p = .CLOSED)
  match s.mempMalloc .TCP_PCB_LISTEN with
  | none => .ok (none, s)
  | some (lpcb, s) =>
    let s := s.setCell lpcb (listenCell (s.mem p) (s.mem lpcb))
    let s := (s.TCP_RMV c .bound p).mempFree .TCP_PCB p
    .ok (some lpcb, s.TCP_REG .listen lpcb)

/-- `tcp_connect`. -/
def tcpConnect (e : Tcp.ConnectEnv) (src : Option IpAddr) (ipaddr : Option IpAddr)
    (port : BitVec 16) : Except Stop Stack := do
  lwipAssert .notClosed (s.state p = .CLOSED)
  match ipaddr with
  | none => .ok s
  | some ipaddr => do
    let (local_port, s) ← portOrNew c s (s.mem p).local_port
    let x := { s.mem p with remote_ip := ipaddr, remote_port := port, local_port }
    match ← ofTcp (Tcp.tcpConnect c.o { e with ticks := s.ticks } x.pcb) with
    | none => .error .notClosed
    | some r =>
      let s := ((s.setCell p { x with pcb := r.2.1 }).TCP_RMV c .bound p).TCP_REG .active p
      .ok (s.route src p)

end Calls

end Lwip.Pcbs
