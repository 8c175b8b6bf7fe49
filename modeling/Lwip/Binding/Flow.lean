import Lwip.Lib.Run
import Lwip.Binding.Wrap
import Lwip.Tcp.Taken

/-!
# Flow control across the binding

An accepted connection on top of the stack, from the SYN on: segments come in, `tcp_recv_cb` keeps
their data in `desc->rx` or gives them back with `tcp_recved`, and `TCP.read` takes the queue and
gives it back to the window. Every byte that `tcp_receive` takes from the window is either given
back or still in a queue, and so is nothing else but the FIN.

The peer respects the window: its segments end at or below the right edge that it was last told.
-/

namespace Lwip.Binding

open Lwip.Tcp

/-! ## The machine -/

/-- A connection and its wrapper. -/
structure Flow where
  conn : Conn
  tw : TcpWrap Unit
  /-- How often a FIN of the peer was handed up. -/
  fins : ℕ := 0

/-- The connection of the pcb that `tcp_listen_input` has made. The wrapper that `tcp_accept_cb`
will make is there from the start; nothing happens to it before. -/
def Flow.start (pcb : TcpPcb) : Flow := { conn := .active pcb, tw := tcpAcceptWrap () }

/-- What happens to the connection. A call that the application makes from a callback, while a
segment is processed, is an event after that segment with `input` set: of what it touches, the rest
of `tcp_input` only sets `desc->state` at the end of the data, and sends. -/
inductive FlowEvent where
  /-- A segment comes in. The threads that the `accept` callback starts may write at once. -/
  | input (ticks : BitVec 32) (m : RxAlloc) (alloc : Bool) (writes : List WriteCall) (i : In)
  /-- A round of `TCP.read`. -/
  | read (input : Bool) (ticks : BitVec 32) (alloc : Bool)
  | write (w : WriteCall)
  | output (ticks : BitVec 32) (alloc : Bool)
  /-- No `poll` callback is registered. -/
  | slowtmr (ticks : BitVec 32) (probe rto keepalive out : Bool)
  /-- `tcp_recv_cb` takes what is offered again. -/
  | fasttmr (ticks : BitVec 32) (alloc : Bool)
  | close (input : Bool) (ticks : BitVec 32) (alloc : ℕ → Bool) (ack : Bool)
  | abort

/-- A call of `tcp_recv_cb` by the stack, with the `tcp_recved` that it makes. -/
def recvEvent (o : Opts) (ticks : BitVec 32) (alloc : Bool) (p : Option (List UInt8)) (pcb : TcpPcb)
    (tw : TcpWrap Unit) : Except Abort (TcpPcb × TcpWrap Unit) :=
  let r := tcpRecvCb tw.desc p .OK
  let tw := { tw with desc := r.desc }
  match r.recved with
  | none => .ok (pcb, tw)
  | some len => do
    let q ← tcpRecved o true ticks alloc pcb (u16 len)
    .ok (q.1, tw)

/-- The data that `tcp_process` handed up, if any. -/
def recvData (o : Opts) (ticks : BitVec 32) (alloc : Bool) (data : List UInt8) (pcb : TcpPcb)
    (tw : TcpWrap Unit) : Except Abort (TcpPcb × TcpWrap Unit) :=
  if data = [] then .ok (pcb, tw) else recvEvent o ticks alloc (some data) pcb tw

/-- The callbacks of `tcp_input` for what `tcp_process` handed up. -/
def recvEvents (o : Opts) (ticks : BitVec 32) (alloc : Bool) (pr : Proc) (pcb : TcpPcb)
    (tw : TcpWrap Unit) : Except Abort (TcpPcb × TcpWrap Unit) := do
  let d ← recvData o ticks alloc pr.recv_data pcb tw
  if pr.got_fin then recvEvent o ticks alloc none d.1 d.2 else .ok d

/-- The data that were refused are offered again. -/
def offerRefused (o : Opts) (ticks : BitVec 32) (alloc : Bool) (pcb : TcpPcb) (tw : TcpWrap Unit) :
    Except Abort (TcpPcb × TcpWrap Unit) :=
  match pcb.refused_data with
  | none => .ok (pcb, tw)
  | some p => recvEvent o ticks alloc (some p) { pcb with refused_data := none } tw

/-- `tcp_input` for the connection, up to its last `tcp_output`. -/
def Flow.input (o : Opts) (ticks : BitVec 32) (m : RxAlloc) (alloc : Bool) (writes : List WriteCall)
    (i : In) (s : Flow) (pcb : TcpPcb) : Except Abort Flow := do
  let c ← offerRefused o ticks alloc pcb s.tw
  let pr ← tcpProcess o ticks m { onAccept := writes.map WriteCall.call } c.1 i
  match pr.pcb with
  | none => .ok { s with conn := .gone, tw := c.2 }
  | some pcb =>
    if pr.reset || pr.closed then .ok { s with conn := .gone, tw := c.2 }
    else do
      let d ← recvEvents o ticks alloc pr pcb c.2
      .ok {
        conn := if d.1.state = .TIME_WAIT then .timeWait d.1 else .active d.1
        tw := d.2
        fins := s.fins + if pr.got_fin then 1 else 0 }

/-- A round of `TCP.read`. A `tcp_recved` for a pcb that the stack has freed stops the machine. -/
def Flow.read (o : Opts) (input : Bool) (ticks : BitVec 32) (alloc : Bool) (s : Flow) :
    Except Stop Flow :=
  match readRound s.tw with
  | .closed | .waits => .ok s
  | .returns _ tw none => .ok { s with tw }
  | .returns _ tw (some len) =>
    match s.conn with
    | .active pcb => do
      let r ← (tcpRecved o input ticks alloc pcb (u16 len)).mapError .aborts
      .ok { s with conn := .active r.1, tw }
    | .timeWait _ => .ok { s with tw }
    | .gone => .error .freed

/-- The wrapper after `caml_tcp_close` with the result `err` of `tcp_close`. -/
def wrapAfterClose (err : Err) (tw : TcpWrap Unit) : TcpWrap Unit :=
  match camlTcpClose err tw with
  | .error _ => tw
  | .ok r => r.2

/-- One event. An event of a connection that is not there any more changes nothing, and neither does
a call of the application on a closed wrapper. -/
def flowStep (o : Opts) (s : Flow) (e : FlowEvent) : Except Stop Flow :=
  match s.conn, e with
  | _, .read input ticks alloc => s.read o input ticks alloc
  | .active pcb, .input ticks m alloc writes i =>
    (s.input o ticks m alloc writes i pcb).mapError .aborts
  | .active pcb, .write w =>
    if s.tw.pcb = none then .ok s
    else do
      let r ← (tcpWrite o w.alloc pcb w.data w.copy w.more).mapError .aborts
      .ok { s with conn := .active r.2 }
  | .active pcb, .output ticks alloc => do
    let r ← (tcpOutput ticks alloc pcb).mapError .aborts
    .ok { s with conn := .active r.1 }
  | .active pcb, .slowtmr ticks probe rto keepalive out => do
    let r ← (tcpSlowtmr o ticks { probe, rto, keepalive, out } pcb).mapError .aborts
    .ok { s with conn := r.1 }
  | .active pcb, .fasttmr ticks alloc => do
    let c ← (offerRefused o ticks alloc pcb s.tw).mapError .aborts
    let r ← (tcpFasttmr ticks true alloc c.1).mapError .aborts
    .ok { s with conn := .active r.1, tw := c.2 }
  | .active pcb, .close input ticks alloc ack =>
    if s.tw.pcb = none then .ok s
    else do
      let r ← (tcpClose o input ticks alloc ack pcb).mapError .aborts
      .ok { s with conn := r.2.1.elim .gone .active, tw := wrapAfterClose r.1 s.tw }
  | .active _, .abort =>
    if s.tw.pcb = none then .ok s else .ok { s with conn := .gone, tw := s.tw.release }
  | _, _ => .ok s

/-! ## What is where -/

/-- The bytes that were received and not given back to the window. -/
def Flow.queuedBytes (s : Flow) (pcb : TcpPcb) : ℕ :=
  pbufListLength s.tw.desc.rx + (pcb.refused_data.getD []).length

/-- While the wrapper has its pcb, the window, what was received and not given back, and the FIN
make up `TCP_WND`. So the argument of the `tcp_recved` of `caml_tcp_read` fits in a `u16_t`, and the
assertion of `tcp_recved` holds for it. -/
structure Conserved (o : Opts) (s : Flow) (pcb : TcpPcb) : Prop where
  window : pcb.rcv_wnd + s.queuedBytes pcb + s.fins = o.TCP_WND
  fits : pbufListLength s.tw.desc.rx ≤ 0xffff
  whole : u16 (pbufListLength s.tw.desc.rx) = pbufListLength s.tw.desc.rx
  recved : u16 (pbufListLength s.tw.desc.rx) ≤ 0xffff - pcb.rcv_wnd

/-- The state of a connection: what its pcb and its wrapper have between them. -/
structure FlowInv (o : Opts) (pcb : TcpPcb) (tw : TcpWrap Unit) (fins pending : ℕ) : Prop where
  ann : AnnInv o pcb
  opened : pcb.state ≠ .SYN_SENT
  refused : pcb.refused_data = none
  up : tw.pcb ≠ none → Up pcb.state
  le : pcb.rcv_wnd + pbufListLength tw.desc.rx + fins + pending ≤ o.TCP_WND
  eq : tw.pcb ≠ none → pcb.rcv_wnd + pbufListLength tw.desc.rx + fins + pending = o.TCP_WND

/-- The invariant of the machine. A connection in `TIME_WAIT` was closed on this side. -/
structure FlowOk (o : Opts) (s : Flow) : Prop where
  active : ∀ pcb, s.conn = .active pcb → FlowInv o pcb s.tw s.fins 0
  timeWait : ∀ pcb, s.conn = .timeWait pcb → s.tw.pcb = none

section Recv

variable {o : Opts} {ticks : BitVec 32} {input alloc : Bool} {pcb pcb' : TcpPcb}
  {tw tw' : TcpWrap Unit} {fins n : ℕ} {out : List Sent}

/-- An empty queue has no bytes. -/
@[simp] theorem pbufListLength_nil : pbufListLength [] = 0 := rfl

/-- The bytes of a queue with one pbuf more. -/
@[simp] theorem pbufListLength_append (rx : List (List UInt8)) (p : List UInt8) :
    pbufListLength (rx ++ [p]) = pbufListLength rx + p.length := by
  simp [pbufListLength]

/-- `tcp_recved` of what there is room for opens the window by as much. -/
theorem tcpRecved_wnd {len : ℕ} (hle : pcb.rcv_wnd + len ≤ o.TCP_WND)
    (h : tcpRecved o input ticks alloc pcb len = .ok (pcb', out)) :
    pcb'.rcv_wnd = pcb.rcv_wnd + len := by
  unfold tcpRecved at h
  obtain ⟨_, -, h⟩ := bind_eq_ok.mp h
  rw [if_neg (by omega)] at h
  dsimp only at h
  split at h
  · exact (tcpAckNow_stamped h).rcv_wnd.trans (tcpUpdateRcvAnnWnd_rcv_wnd o _)
  · cases h
    exact tcpUpdateRcvAnnWnd_rcv_wnd o _

/-- Bytes that are on their way go back to the window. -/
theorem FlowInv.recved {len : ℕ} (h : FlowInv o pcb tw fins (n + len))
    (hr : tcpRecved o input ticks alloc pcb (u16 len) = .ok (pcb', out)) :
    FlowInv o pcb' tw fins n := by
  have hle := h.le
  have hmax := o.wnd_le
  have hlen : u16 len = len := u16_eq (by omega)
  rw [hlen] at hr
  have hwnd := tcpRecved_wnd (by omega) hr
  have hop := tcpRecved_opened h.ann.rcv.wnd hr
  refine ⟨(h.ann.opened hop).stamped hop.stamped, fun hs => ?_,
    (tcpRecved_callFrame hr).refused_data.trans h.refused, fun hp => ?_, by omega, fun hp => ?_⟩
  · rw [tcpRecved_state hr] at hs
    exact h.opened hs
  · rw [tcpRecved_state hr]
    exact h.up hp
  · have heq := h.eq hp
    omega

/-- What happens to the segments out of sequence, to the queues and to the sender does not
matter. -/
theorem FlowInv.keeps (h : FlowInv o pcb tw fins n) (hk : KeepsWnd o pcb pcb') :
    FlowInv o pcb' tw fins n where
  ann := hk.ann h.ann
  opened := by
    rw [hk.state]
    exact h.opened
  refused := hk.refused.trans h.refused
  up := by
    rw [hk.state]
    exact h.up
  le := by
    rw [hk.rcv_wnd]
    exact h.le
  eq := by
    rw [hk.rcv_wnd]
    exact h.eq

/-- Nor do the states of the wrapper's queue, only its length, as long as the wrapper does not get a
pcb. -/
theorem FlowInv.wrap {n' : ℕ} (h : FlowInv o pcb tw fins n)
    (hrx : pbufListLength tw'.desc.rx + n' = pbufListLength tw.desc.rx + n)
    (hpcb : tw'.pcb ≠ none → tw.pcb ≠ none) : FlowInv o pcb tw' fins n' where
  ann := h.ann
  opened := h.opened
  refused := h.refused
  up hp := h.up (hpcb hp)
  le := by
    have hle := h.le
    omega
  eq hp := by
    have heq := h.eq (hpcb hp)
    omega

/-- Data are queued, or they are dropped and given back. -/
theorem tcpRecvCb_data (desc : TcpDesc) (p : List UInt8) :
    ((tcpRecvCb desc (some p) .OK).recved = none ∧
        pbufListLength (tcpRecvCb desc (some p) .OK).desc.rx =
          pbufListLength desc.rx + p.length) ∨
      (tcpRecvCb desc (some p) .OK).recved = some p.length ∧
        (tcpRecvCb desc (some p) .OK).desc = desc := by
  unfold tcpRecvCb
  dsimp only
  split
  · next hrx =>
    refine .inl ⟨rfl, ?_⟩
    rw [hrx]
    simp [pbufListLength]
  · cases hst : desc.state with
    | TCP_ACCEPTED =>
      refine .inl ⟨rfl, ?_⟩
      exact pbufListLength_append desc.rx p
    | TCP_NONE | TCP_LISTEN | TCP_CLOSING => exact .inr ⟨rfl, rfl⟩

/-- A call of `tcp_recv_cb` takes the data to one of the queues, or gives them back. -/
theorem FlowInv.recvEvent {p : Option (List UInt8)} {r : TcpPcb × TcpWrap Unit}
    (h : FlowInv o pcb tw fins (n + (p.getD []).length))
    (hr : recvEvent o ticks alloc p pcb tw = .ok r) : FlowInv o r.1 r.2 fins n := by
  unfold Binding.recvEvent at hr
  cases p with
  | none =>
    cases hr
    exact h.wrap rfl id
  | some p =>
    have hp : ((some p).getD []).length = p.length := rfl
    rw [hp] at h
    rcases tcpRecvCb_data tw.desc p with ⟨hnone, hrx⟩ | ⟨hsome, hdesc⟩
    · simp only [hnone] at hr
      cases hr
      exact h.wrap (by dsimp only; omega) id
    · simp only [hsome, hdesc] at hr
      obtain ⟨q, hq, hr⟩ := bind_eq_ok.mp hr
      cases hr
      exact h.recved hq

/-- A call of `tcp_recv_cb` leaves the state of the pcb and the pointer to it. -/
theorem recvEvent_frame {p : Option (List UInt8)} {r : TcpPcb × TcpWrap Unit}
    (hr : recvEvent o ticks alloc p pcb tw = .ok r) :
    r.1.state = pcb.state ∧ r.2.pcb = tw.pcb := by
  unfold recvEvent at hr
  dsimp only at hr
  split at hr
  · cases hr
    exact ⟨rfl, rfl⟩
  · obtain ⟨q, hq, hr⟩ := bind_eq_ok.mp hr
    cases hr
    exact ⟨tcpRecved_state hq, rfl⟩

/-- The data handed up arrive at the wrapper. -/
theorem FlowInv.recvEvents {pr : Proc} {r : TcpPcb × TcpWrap Unit}
    (h : FlowInv o pcb tw fins pr.recv_data.length)
    (hr : recvEvents o ticks alloc pr pcb tw = .ok r) : FlowInv o r.1 r.2 fins 0 := by
  unfold Binding.recvEvents at hr
  obtain ⟨d, hd, hr⟩ := bind_eq_ok.mp hr
  have hdata : FlowInv o d.1 d.2 fins 0 := by
    unfold recvData at hd
    split at hd
    · next hnil =>
      cases hd
      rw [hnil] at h
      exact h
    · refine FlowInv.recvEvent ?_ hd
      simpa using h
  split at hr
  · exact FlowInv.recvEvent hdata hr
  · cases hr
    exact hdata

/-- The callbacks keep the state and the wrapper's pcb. -/
theorem recvEvents_frame {pr : Proc} {r : TcpPcb × TcpWrap Unit}
    (hr : recvEvents o ticks alloc pr pcb tw = .ok r) :
    r.1.state = pcb.state ∧ r.2.pcb = tw.pcb := by
  unfold recvEvents at hr
  obtain ⟨d, hd, hr⟩ := bind_eq_ok.mp hr
  have hdata : d.1.state = pcb.state ∧ d.2.pcb = tw.pcb := by
    unfold recvData at hd
    split at hd
    · cases hd
      exact ⟨rfl, rfl⟩
    · exact recvEvent_frame hd
  split at hr
  · obtain ⟨h1, h2⟩ := recvEvent_frame hr
    exact ⟨h1.trans hdata.1, h2.trans hdata.2⟩
  · cases hr
    exact hdata

/-- Nothing was refused. -/
theorem FlowInv.offerRefused (h : FlowInv o pcb tw fins n) :
    offerRefused o ticks alloc pcb tw = .ok (pcb, tw) := by
  unfold Binding.offerRefused
  rw [h.refused]

end Recv

/-! ## Steps -/

/-- A segment of a peer that respects the window: it ends at or below the right edge that the
connection announced last. A RST may be any, and so may a SYN that does not acknowledge ours. -/
def InWindow (pcb : TcpPcb) (i : In) : Prop :=
  i.seg.flags.rst = true ∨ (i.seg.flags.syn = true ∧ i.seg.flags.ack = false) ∨
    i.seg.Incoming ∧ BelowEdge pcb.rcv_ann_right_edge i.seg

/-- The events of a run whose segments come from a peer that respects the window. -/
def PeerEvent (s : Flow) : FlowEvent → Prop
  | .input _ _ _ _ i => ∀ pcb, s.conn = .active pcb → InWindow pcb i
  | _ => True

section Steps

variable {o : Opts} {ticks : BitVec 32} {m : RxAlloc} {alloc : Bool} {writes : List WriteCall}
  {i : In} {s s' : Flow} {pcb : TcpPcb} {fins : ℕ} {tw : TcpWrap Unit}

/-- A segment that gets to `tcp_receive` is one of the data transfer. -/
theorem InWindow.received (h : InWindow pcb i) (hr : receives pcb i = true) :
    i.seg.Incoming ∧ BelowEdge pcb.rcv_ann_right_edge i.seg := by
  rcases h with hrst | ⟨hsyn, hack⟩ | h
  · simp [receives, hrst] at hr
  · cases hst : pcb.state <;> simp [receives, hst, hsyn, hack] at hr
  · exact h

/-- `tcp_process` takes from the window what it hands up. -/
theorem FlowInv.process {pr : Proc} {p : TcpPcb} (h : FlowInv o pcb tw fins 0)
    (hi : InWindow pcb i)
    (hpr : tcpProcess o ticks m { onAccept := writes.map WriteCall.call } pcb i = .ok pr)
    (hp : pr.pcb = some p) (hne : p.state ≠ .TIME_WAIT) :
    FlowInv o p tw (fins + if pr.got_fin then 1 else 0) pr.recv_data.length := by
  have hup : tw.pcb ≠ none → Up p.state := fun hw => tcpProcess_up rfl (h.up hw) hpr hp
  have hle := h.le
  cases tcpProcess_cases rfl hpr with
  | quiet hdata hfin _ hsame =>
    have hs := hsame p hp h.opened
    rw [hdata, hfin]
    refine ⟨h.ann.congr hs, fun ho => h.opened (hs.opening ho), hs.refused.trans h.refused, hup, ?_,
      fun hw => ?_⟩
    · rw [hs.rcv_wnd]
      exact hle
    · rw [hs.rcv_wnd]
      exact h.eq hw
  | @received q rx hrec hs hrx hands =>
    obtain ⟨hin, hbelow⟩ := hi.received hrec
    have hq : AnnInv o q := h.ann.congr hs
    rw [← hs.rcv_ann_right_edge] at hbelow
    have hsent : Edges q.rcv_ann_right_edge [] q :=
      ⟨by simp, by simp⟩
    have hann : AnnInv o rx.pcb := (hq.receive hsent hin hbelow hrx).1
    have htakes := tcpReceive_takes hq.rcv hin hrx
    rw [hs.rcv_wnd] at htakes
    rw [hands.data, hands.fin]
    rcases hands.pcb p hp with hsame | ⟨htw, -⟩
    · refine ⟨hann.congr hsame, fun ho => ?_, ?_, hup, ?_, fun hw => ?_⟩
      · exact h.opened (hs.opening (tcpReceive_opening hrx (hsame.opening ho)))
      · exact hsame.refused.trans ((tcpReceive_refused hrx).trans (hs.refused.trans h.refused))
      · rw [hsame.rcv_wnd]
        omega
      · have heq := h.eq hw
        rw [hsame.rcv_wnd]
        omega
    · exact absurd htw hne

/-- The books of a connection that is gone are right. -/
theorem FlowOk.gone (tw : TcpWrap Unit) (fins : ℕ) : FlowOk o { conn := .gone, tw, fins } :=
  ⟨fun _ hc => (by cases hc), fun _ hc => (by cases hc)⟩

/-- `tcp_input` keeps the invariant. -/
theorem FlowOk.input (h : FlowOk o s) (hs : s.conn = .active pcb) (hi : InWindow pcb i)
    (hstep : s.input o ticks m alloc writes i pcb = .ok s') : FlowOk o s' := by
  have hinv := h.active pcb hs
  unfold Flow.input at hstep
  obtain ⟨c, hc, hstep⟩ := bind_eq_ok.mp hstep
  rw [hinv.offerRefused] at hc
  cases hc
  obtain ⟨pr, hpr, hstep⟩ := bind_eq_ok.mp hstep
  split at hstep
  · cases hstep
    exact .gone _ _
  · next p hp =>
    split at hstep
    · cases hstep
      exact .gone _ _
    · obtain ⟨d, hd, hstep⟩ := bind_eq_ok.mp hstep
      obtain ⟨hst, hpcb⟩ := recvEvents_frame hd
      cases hstep
      refine ⟨fun q hq => ?_, fun q hq => ?_⟩
      · dsimp only at hq ⊢
        split at hq
        · cases hq
        · next hne =>
          cases hq
          rw [hst] at hne
          exact (hinv.process hi hpr hp hne).recvEvents hd
      · dsimp only at hq ⊢
        split at hq
        · next htw =>
          -- The application has closed a connection that gets here.
          rw [hpcb]
          by_contra hw
          have hup := tcpProcess_up rfl (hinv.up hw) hpr hp
          rw [hst] at htw
          rw [htw] at hup
          simp [Up] at hup
        · cases hq

/-- A round that returns a string has emptied the queue, and gives all of it back. -/
theorem readRound_returns {str : List UInt8} {tw' : TcpWrap Unit} {n : Option ℕ}
    (h : readRound tw = .returns str tw' n) :
    tw' = { tw with desc := { tw.desc with rx := [] } } ∧ n = some (pbufListLength tw.desc.rx) := by
  unfold readRound camlTcpReadLen tcpWrapOfValue camlTcpRead at h
  cases hpcb : tw.pcb with
  | none => simp [hpcb, bind, Except.bind] at h
  | some u =>
    simp only [hpcb, bind, Except.bind] at h
    by_cases hrx : tw.desc.rx = []
    · by_cases hst : tw.desc.state = .TCP_CLOSING
      · simp [hrx, hst] at h
      · simp [hrx, hst] at h
    · simp only [ne_eq, hrx, not_false_eq_true, if_true, if_false] at h
      split at h
      · cases h
      split at h
      · cases h
      · cases h
        exact ⟨rfl, rfl⟩

/-- `TCP.close` keeps the invariant: a wrapper that lets go of its pcb promises nothing more. -/
theorem FlowInv.close {input ack : Bool} {allocs : ℕ → Bool} {err : Err} {r : Option TcpPcb}
    {out : List Sent} (h : FlowInv o pcb tw fins 0) (hw : tw.pcb ≠ none)
    (hr : tcpClose o input ticks allocs ack pcb = .ok (err, r, out)) :
    FlowOk o { conn := r.elim .gone .active, tw := wrapAfterClose err tw, fins } := by
  cases r with
  | none => exact .gone _ _
  | some q =>
    obtain ⟨hk, hfail, hopening⟩ := tcpClose_keepsWnd (o := o) hr
    refine ⟨fun q' hq' => ?_, fun q' hq' => (by cases hq')⟩
    cases hq'
    have hann : AnnInv o q := by
      have ha := hk.ann h.ann
      exact ⟨⟨ha.rcv.wnd, ha.rcv.queue⟩, ha.ann_le, ha.edge, ha.queue⟩
    have hwnd : q.rcv_wnd = pcb.rcv_wnd := hk.rcv_wnd
    have hrefused : q.refused_data = pcb.refused_data := hk.refused
    have hle := h.le
    have heq := h.eq hw
    have hclose : wrapAfterClose err tw = if err = .OK then tw.release else tw := by
      obtain ⟨u, hu⟩ := Option.ne_none_iff_exists'.mp hw
      unfold wrapAfterClose camlTcpClose tcpWrapOfValue
      rw [hu]
      by_cases herr : err = .OK
      · simp [herr, bind, Except.bind]
      · simp [herr, bind, Except.bind]
    rw [hclose]
    by_cases herr : err = .OK
    · rw [if_pos herr]
      refine ⟨hann, fun ho => h.opened (hopening ho), hrefused.trans h.refused,
        fun hn => absurd rfl hn, ?_, fun hn => absurd rfl hn⟩
      rw [hwnd]
      exact hle
    · rw [if_neg herr]
      refine ⟨hann, fun ho => h.opened (hopening ho), hrefused.trans h.refused, fun _ => ?_, ?_,
        fun _ => ?_⟩
      · rw [hfail herr]
        exact h.up hw
      · rw [hwnd]
        exact hle
      · rw [hwnd]
        exact heq

/-- `TCP.read` keeps the invariant. -/
theorem FlowOk.read {input : Bool} (h : FlowOk o s) (hstep : s.read o input ticks alloc = .ok s') :
    FlowOk o s' := by
  unfold Flow.read at hstep
  split at hstep
  · cases hstep
    exact h
  · cases hstep
    exact h
  · next hr =>
    cases (readRound_returns hr).2
  · next tw len hr =>
    obtain ⟨rfl, hlen⟩ := readRound_returns hr
    cases hlen
    split at hstep
    · next pcb hs =>
      obtain ⟨r, hr, hstep⟩ := bind_eq_ok.mp hstep
      cases hstep
      refine ⟨fun q hq => ?_, fun q hq => by cases hq⟩
      cases hq
      -- The bytes of the queue are on their way back to the window.
      have hread : FlowInv o pcb { s.tw with desc := { s.tw.desc with rx := [] } } s.fins
          (0 + pbufListLength s.tw.desc.rx) :=
        (h.active pcb hs).wrap (by simp) id
      exact hread.recved (mapError_eq_ok.mp hr)
    · next hs =>
      cases hstep
      exact ⟨fun q hq => (by rw [hs] at hq; cases hq), h.timeWait⟩
    · cases hstep

/-- Every event keeps the invariant. -/
theorem FlowOk.step {e : FlowEvent} (h : FlowOk o s) (he : PeerEvent s e)
    (hstep : flowStep o s e = .ok s') : FlowOk o s' := by
  cases hc : s.conn with
  | timeWait pcb | gone =>
    -- Only a read does something, on what is left in the queue.
    cases e with
    | read input ticks alloc =>
      refine h.read (?_ : s.read o input ticks alloc = .ok s')
      simpa only [flowStep, hc] using hstep
    | _ =>
      simp only [flowStep, hc] at hstep
      cases hstep
      exact h
  | active pcb =>
    have hinv := h.active pcb hc
    have hactive : ∀ {q : TcpPcb}, FlowInv o q s.tw s.fins 0 →
        FlowOk o { s with conn := .active q } :=
      fun hq => ⟨fun _ hc => (by cases hc; exact hq), fun _ hc => (by cases hc)⟩
    cases e with
    | read input ticks alloc =>
      refine h.read (?_ : s.read o input ticks alloc = .ok s')
      simpa only [flowStep, hc] using hstep
    | input ticks m alloc writes i =>
      simp only [flowStep, hc] at hstep
      exact h.input hc (he pcb hc) (mapError_eq_ok.mp hstep)
    | write w =>
      simp only [flowStep, hc] at hstep
      split at hstep
      · cases hstep
        exact h
      · obtain ⟨r, hr, hstep⟩ := bind_eq_ok.mp hstep
        cases hstep
        exact hactive (hinv.keeps (tcpWrite_keepsWnd (mapError_eq_ok.mp hr)))
    | output ticks alloc =>
      simp only [flowStep, hc] at hstep
      obtain ⟨r, hr, hstep⟩ := bind_eq_ok.mp hstep
      cases hstep
      exact hactive (hinv.keeps (tcpOutput_keepsWnd (mapError_eq_ok.mp hr)))
    | slowtmr ticks probe rto keepalive out =>
      simp only [flowStep, hc] at hstep
      obtain ⟨r, hr, hstep⟩ := bind_eq_ok.mp hstep
      cases hstep
      rcases tcpSlowtmr_keepsWnd (o := o) rfl (mapError_eq_ok.mp hr) with hg | ⟨q, hq, hk⟩
      · rw [hg]
        exact .gone _ _
      · rw [hq]
        exact hactive (hinv.keeps hk)
    | fasttmr ticks alloc =>
      simp only [flowStep, hc] at hstep
      obtain ⟨c, hoff, hstep⟩ := bind_eq_ok.mp hstep
      rw [hinv.offerRefused] at hoff
      cases hoff
      obtain ⟨r, hr, hstep⟩ := bind_eq_ok.mp hstep
      cases hstep
      exact hactive (hinv.keeps (tcpFasttmr_keepsWnd hinv.refused (mapError_eq_ok.mp hr)))
    | close input ticks alloc ack =>
      simp only [flowStep, hc] at hstep
      split at hstep
      · cases hstep
        exact h
      · next hw =>
        obtain ⟨⟨err, r, out⟩, hr, hstep⟩ := bind_eq_ok.mp hstep
        cases hstep
        exact hinv.close hw (mapError_eq_ok.mp hr)
    | abort =>
      simp only [flowStep, hc] at hstep
      split at hstep <;> cases hstep
      · exact h
      · exact .gone _ _

/-! ## Every run -/

/-- A new connection has given nothing up yet. -/
theorem Flow.start_ok (h : NewReceiver o pcb) : FlowOk o (.start pcb) := by
  have hle := o.wnd_le
  refine ⟨fun q hq => ?_, fun q hq => (by cases hq)⟩
  cases hq
  have hwnd := h.rcv_wnd
  refine ⟨⟨⟨hwnd.le, ?_⟩, ?_, ?_, ?_⟩, ?_, h.refused, fun _ => .inl h.state, ?_, fun _ => ?_⟩
  · rw [h.ooseq]
    exact ⟨⟨.nil, by simp, by simp⟩, by simp⟩
  · rw [h.rcv_ann_wnd, hwnd]
  · rw [h.rcv_ann_wnd]
    rcases h.edge with he | he
    · rw [he, edgePos_eq (by rw [Serial.dist_self]; omega), Serial.dist_self]
      omega
    · rw [he, edgePos_self_adv (by omega)]
  · rw [h.ooseq]
    simp
  · rw [h.state]
    simp
  · rw [hwnd]
    exact le_rfl
  · rw [hwnd]
    rfl

/-- What the invariant says while the wrapper has its pcb. -/
theorem FlowOk.conserved (h : FlowOk o s) (hs : s.conn = .active pcb) (hw : s.tw.pcb ≠ none) :
    Conserved o s pcb := by
  have hinv := h.active pcb hs
  have heq := hinv.eq hw
  have hmax := o.wnd_le
  have hwhole : u16 (pbufListLength s.tw.desc.rx) = pbufListLength s.tw.desc.rx :=
    u16_eq (by omega)
  refine ⟨?_, by omega, hwhole, by rw [hwhole]; omega⟩
  unfold Flow.queuedBytes
  rw [hinv.refused]
  simp only [Option.getD_none, List.length_nil]
  omega

/-- In every run of a connection that a peer opens with a SYN and that respects the window, the
window, the bytes that were received and not given back, and the FIN make up `TCP_WND` after every
step, for as long as the wrapper has its pcb. So `caml_tcp_read` gives `tcp_recved` the whole length
of what it returns, and the assertion of `tcp_recved` holds. -/
theorem flow_conserved (o : Opts) (e : ListenEnv) (i₀ : In) (pcb₀ : TcpPcb) (sent : List Sent)
    (hopen : tcpListenInput o e i₀ = .ok (some pcb₀, sent)) (es : List FlowEvent)
    (hes : Along (flowStep o) PeerEvent (.start pcb₀) es) :
    Always (flowStep o) (fun s => ∀ pcb, s.conn = .active pcb ∨ s.conn = .timeWait pcb →
      s.tw.pcb ≠ none → Conserved o s pcb) (.start pcb₀) es := by
  intro es' es'' s hsplit hr pcb hconn hw
  have hes' : Along (flowStep o) PeerEvent (.start pcb₀) es' := by
    rw [hsplit] at hes
    exact hes.left
  have hok : FlowOk o s :=
    run_invariant (fun _ _ _ hi he hs => hi.step he hs)
      (Flow.start_ok (tcpListenInput_newReceiver hopen)) hes' hr
  rcases hconn with hs | hs
  · exact hok.conserved hs hw
  · exact absurd (hok.timeWait pcb hs) hw

/-- The SYN of a peer. -/
def peerSyn : In :=
  { seg := { seqno := 0, len := 0, flags := { syn := true } }, ackno := 0, wnd := 1000 }

/-- A segment of the peer that has seen our SYN|ACK. -/
def peerSegment (seqno : Serial) (p : List UInt8) (fin : Bool) : In :=
  { seg := dataSeg seqno p fin, ackno := 1, wnd := 1000 }

/-- Data that come with the end of the handshake and are read, and the last data. -/
def arrivingRun : List FlowEvent :=
  [.input 1 {} true [] (peerSegment 1 [10, 11, 12] false), .output 1 true, .read false 1 true,
    .input 1 {} true [] (peerSegment 4 [13, 14] true)]

/-- The bytes of the example are all accounted for. -/
theorem flow_conserved_arrivingRun :
    ∃ pcb₀ sent, tcpListenInput .shipped {} peerSyn = .ok (some pcb₀, sent) ∧
      Always (flowStep .shipped) (fun s => ∀ pcb, s.conn = .active pcb ∨ s.conn = .timeWait pcb →
        s.tw.pcb ≠ none → Conserved .shipped s pcb) (.start pcb₀) arrivingRun ∧
      ∃ s pcb, run (flowStep .shipped) (.start pcb₀) arrivingRun = .ok s ∧ s.conn = .active pcb ∧
        pcb.rcv_wnd = 2141 ∧ s.queuedBytes pcb = 2 ∧ s.fins = 1 := by
  refine ⟨_, _, rfl, flow_conserved .shipped {} peerSyn _ _ rfl _ ?_, _, _, rfl, rfl, rfl, rfl, rfl⟩
  refine ⟨fun pcb hc => ?_, fun s hs => ⟨trivial, fun s' hs' => ⟨trivial, fun s'' hs'' =>
    ⟨fun pcb hc => ?_, fun _ _ => trivial⟩⟩⟩⟩
  · cases hc
    exact .inr (.inr ⟨⟨rfl, by decide, rfl⟩, ⟨by decide +kernel, by decide +kernel⟩⟩)
  · cases hs
    cases hs'
    cases hs''
    cases hc
    exact .inr (.inr ⟨⟨rfl, by decide, rfl⟩, ⟨by decide +kernel, by decide +kernel⟩⟩)

end Steps

end Lwip.Binding
