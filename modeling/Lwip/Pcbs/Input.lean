import Lwip.Pcbs.Defs

/-!
# Input and timers

`tcp_input` from the checks of the header on, `tcp_listen_input`, and the two timers, with the loops
that go through the lists. A pcb that the functions of one connection free is unlinked from
`tcp_active_pcbs`, whichever of their callers frees it: `tcp_input` after a reset or after the last
acknowledgement, `tcp_process` when the application does not accept the connection, or `tcp_close`
in a callback.
-/

namespace Lwip.Pcbs

open Tcp (Opts TcpPcb TcpState Abort)
open Netif (IpAddr NetIf ipAddrIsany ipAddrIsmulticast ipAddrIsbroadcast)
open Function (update)

/-! ## `tcp_input` -/

/-- An incoming segment. -/
structure Segment where
  src : IpAddr
  dest : IpAddr
  srcPort : BitVec 16
  destPort : BitVec 16
  i : Tcp.In

/-- What `tcp_input` reads besides the segment: the interface, the outcomes of allocations, what the
callbacks do, the initial sequence number of a new pcb, and the address that `tcp_output_segment`
stores. -/
structure InputEnv where
  inp : NetIf
  m : Tcp.RxAlloc := {}
  cb : Tcp.Callbacks := {}
  out : Bool := true
  listen : Tcp.ListenEnv := {}
  acks : Bool × Bool := (true, true)
  abort : Bool := true
  src : Option IpAddr := none

/-- The segment belongs to the connection. -/
def Cell.matches (x : Cell) (g : Segment) : Bool :=
  decide (x.remote_port = g.srcPort) && decide (x.local_port = g.destPort) &&
    decide (x.remote_ip = g.src) && decide (x.local_ip = g.dest)

/-- The segment is for the listening pcb. -/
def Cell.listensTo (x : Cell) (g : Segment) : Bool :=
  (ipAddrIsany x.local_ip || decide (x.local_ip = g.dest)) && decide (x.local_port = g.destPort)

/-- The search through a list: the pcb before the one found, and the one found. -/
def findWithPrev (test : ℕ → Bool) : (prev : Option ℕ) → List ℕ → Option (Option ℕ × ℕ)
  | _, [] => none
  | prev, p :: l => if test p then some (prev, p) else findWithPrev test (some p) l

/-- The pcbs that the search comes to. -/
def upTo (test : ℕ → Bool) : List ℕ → List ℕ
  | [] => []
  | p :: l => if test p then [p] else p :: upTo test l

/-- The states that the assertions allow on a list. -/
def stateRight (s : Stack) (i : PcbList) (p : ℕ) : Bool :=
  match i with
  | .active => s.state p ≠ .CLOSED && s.state p ≠ .LISTEN && s.state p ≠ .TIME_WAIT
  | .tw => s.state p = .TIME_WAIT
  | .bound | .listen => true

namespace Stack

/-- The assertions on the pcbs that the search on a list comes to. -/
def assertStates (c : Config) (s : Stack) (i : PcbList) (test : Cell → Bool) : Except Stop Unit :=
  lwipAssert .wrongState
    ((upTo (fun p => test (s.mem p)) (s.pcbs c i)).all (stateRight s i) = true)

/-- The pcb that `tcp_input` finds on a list. -/
def find (c : Config) (s : Stack) (i : PcbList) (test : Cell → Bool) : Option (Option ℕ × ℕ) :=
  findWithPrev (fun p => test (s.mem p)) none (s.pcbs c i)

/-- `pcb->next != pcb`. -/
def assertNext (s : Stack) (p : ℕ) : Except Stop Unit :=
  lwipAssert .wrongState (s.lists.succ p ≠ some p)

/-- The move to the front of the list. -/
def toFront (s : Stack) (i : PcbList) (prev : Option ℕ) (p : ℕ) : Stack :=
  { s with lists := s.lists.toFront i prev p }

end Stack

section Input

variable (c : Config)

/-- `tcp_listen_input`. -/
def tcpListenInput (e : InputEnv) (lpcb : ℕ) (g : Segment) (s : Stack) : Except Stop Stack :=
  if g.i.seg.flags.ack then .ok s
  else if g.i.seg.flags.syn then do
    let r ← tcpAlloc c e.acks e.listen.iss (s.mem lpcb).prio s
    match r with
    | (none, s) => .ok s
    | (some npcb, s) => do
      let env := { e.listen with ticks := s.ticks, keepalive := (s.mem lpcb).pcb.keepalive }
      let x := { s.mem npcb with
        local_ip := g.dest
        local_port := (s.mem lpcb).local_port
        remote_ip := g.src
        remote_port := g.srcPort
        pcb := Tcp.listenPcb c.o env g.i }
      let s := (s.setCell npcb x).TCP_REG .active npcb
      match (← ofTcp (Tcp.tcpListenInput c.o env g.i)).1 with
      | some pcb => .ok (s.setPcb npcb pcb)
      -- The SYN|ACK could not be enqueued.
      | none => tcpAbandon c e.abort npcb s
  else .ok s

/-- `tcp_input` for a segment of an active connection. -/
def tcpInputActive (e : InputEnv) (p : ℕ) (g : Segment) (s : Stack) : Except Stop Stack := do
  match (← ofTcp (Tcp.tcpInput c.o s.ticks e.m e.cb e.out (s.mem p).pcb g.i)).1 with
  | .active pcb => .ok ((s.setPcb p pcb).route e.src p)
  | .timeWait pcb => .ok ((((s.TCP_RMV c .active p).setPcb p pcb).TCP_REG .tw p).route e.src p)
  | .gone => .ok ((s.TCP_RMV c .active p).mempFree .TCP_PCB p)

/-- `tcp_input`, when no active connection was found. -/
def tcpInputOther (e : InputEnv) (g : Segment) (s : Stack) : Except Stop Stack := do
  s.assertStates c .tw (·.matches g)
  match s.find c .tw (·.matches g) with
  | some (_, p) => do
    let r ← ofTcp (Tcp.tcpTimewaitInput s.ticks e.out (s.mem p).pcb g.i)
    .ok ((s.setPcb p r.1).route e.src p)
  | none =>
    match s.find c .listen (·.listensTo g) with
    | some (prev, lpcb) => tcpListenInput c e lpcb g (s.toFront .listen prev lpcb)
    -- A RST is sent, on behalf of no pcb.
    | none => .ok s

/-- `tcp_input`. -/
def tcpInput (e : InputEnv) (g : Segment) (s : Stack) : Except Stop Stack := do
  if ipAddrIsbroadcast g.dest e.inp || ipAddrIsmulticast g.dest then .ok s
  else
    s.assertStates c .active (·.matches g)
    match s.find c .active (·.matches g) with
    | some (prev, p) => do
      s.assertNext p
      let s := s.toFront .active prev p
      s.assertNext p
      tcpInputActive c e p g s
    | none => tcpInputOther c e g s

end Input

/-! ## The timers -/

/-- What a tick of the slow timer depends on, for the pcb at an address. -/
structure SlowEnv where
  tick : ℕ → Tcp.TickEnv := fun _ => {}
  src : ℕ → Option IpAddr := fun _ => none
  abort : Bool := true

/-- The assertions before a pcb is unlinked: it is the first of its list if no pcb is before it, and
not if there is one. -/
def Stack.assertFirst (s : Stack) (i : PcbList) (prev : Option ℕ) (p : ℕ) : Except Stop Unit :=
  lwipAssert .wrongState (prev = none ↔ s.lists.heads i = some p)

section Timers

variable (c : Config)

/-- The loop of `tcp_slowtmr` over `tcp_active_pcbs`, from the pcb `pcb` behind the pcb `prev`
on. -/
def slowtmrActive (e : SlowEnv) : (fuel : ℕ) → (prev pcb : Option ℕ) → Stack → Except Stop Stack
  | _, _, none, s => .ok s
  | 0, _, some _, _ => .error .endless
  | fuel + 1, prev, some p, s => do
    lwipAssert .wrongState (stateRight s .active p)
    let x := (s.mem p).pcb
    let rex ← ofTcp (Tcp.slowtmrRexmit c.o s.ticks (e.tick p) x)
    let pcb := Tcp.slowtmrOoseq s.ticks (Tcp.slowtmrKeepalive s.ticks (e.tick p) rex.1).1
    if Tcp.slowtmrRemoves c.o s.ticks x pcb then
      let s := s.setPcb p (Tcp.tcpPcbPurge pcb)
      s.assertFirst .active prev p
      let s := { s with lists := s.lists.unlinkBehind .active prev p }
      slowtmrActive e fuel prev (s.lists.succ p) (s.mempFree .TCP_PCB p)
    else
      match (← ofTcp (Tcp.slowtmrPoll c.o s.ticks (e.tick p) pcb)).1 with
      | .active pcb | .timeWait pcb =>
        let s := (s.setPcb p pcb).route (e.src p) p
        slowtmrActive e fuel (some p) (s.lists.succ p) s
      -- The `poll` callback has closed a pcb in SYN_SENT. The loop goes on with the freed pcb.
      | .gone => .error .freed

/-- The loop of `tcp_slowtmr` over `tcp_tw_pcbs`. -/
def slowtmrTimeWait : (fuel : ℕ) → (prev pcb : Option ℕ) → Stack → Except Stop Stack
  | _, _, none, s => .ok s
  | 0, _, some _, _ => .error .endless
  | fuel + 1, prev, some p, s => do
    lwipAssert .wrongState (stateRight s .tw p)
    match Tcp.tcpSlowtmrTimeWait s.ticks (s.mem p).pcb with
    | .gone => do
      s.assertFirst .tw prev p
      let s := { s with lists := s.lists.unlinkBehind .tw prev p }
      slowtmrTimeWait fuel prev (s.lists.succ p) (s.mempFree .TCP_PCB p)
    | _ => slowtmrTimeWait fuel (some p) (s.lists.succ p) s

/-- `tcp_slowtmr`. -/
def tcpSlowtmr (e : SlowEnv) (s : Stack) : Except Stop Stack := do
  let s := { s with ticks := s.ticks + 1 }
  let s ← slowtmrActive c e c.total none (s.lists.heads .active) s
  slowtmrTimeWait c.total none (s.lists.heads .tw) s

/-- What a tick of the fast timer depends on, for the pcb at an address: whether the application
takes the data that it refused, and the outcome of the allocation of the ACK. -/
structure FastEnv where
  takesRefused : ℕ → Bool := fun _ => true
  out : ℕ → Bool := fun _ => true
  src : ℕ → Option IpAddr := fun _ => none

/-- `tcp_fasttmr`, from the pcb `pcb` on. -/
def fasttmrActive (e : FastEnv) : (fuel : ℕ) → (pcb : Option ℕ) → Stack → Except Stop Stack
  | _, none, s => .ok s
  | 0, some _, _ => .error .endless
  | fuel + 1, some p, s => do
    let r ← ofTcp (Tcp.tcpFasttmr s.ticks (e.takesRefused p) (e.out p) (s.mem p).pcb)
    let s := (s.setPcb p r.1).route (e.src p) p
    fasttmrActive e fuel (s.lists.succ p) s

/-- `tcp_fasttmr`. -/
def tcpFasttmr (e : FastEnv) (s : Stack) : Except Stop Stack :=
  fasttmrActive e c.total (s.lists.heads .active) s

end Timers

end Lwip.Pcbs
