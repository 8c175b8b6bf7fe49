import Lwip.Tcp.Refused

/-!
# The pcb of a new connection

`tcp_alloc` as far as it sets up the pcb that it found room for, and the two ways to go on from
there: `tcp_listen_input`, which leaves the pcb of a connection that a peer opens with its SYN|ACK
on the queues, and `tcp_connect`, which leaves the pcb of one that the application opens with its
SYN.
-/

namespace Lwip.Tcp

/-- The pcb that `tcp_alloc` returns. The fields that `memset` clears and nothing else sets are
zero; `iss` is the result of `tcp_next_iss`. -/
def tcpAlloc (o : Opts) (ticks : BitVec 32) (iss : Serial) : TcpPcb where
  state := .CLOSED
  rcv_nxt := 0
  rcv_wnd := o.TCP_WND
  rcv_ann_wnd := o.TCP_WND
  rcv_ann_right_edge := 0
  tmr := ticks
  mss := min o.TCP_MSS 536
  lastack := iss
  cwnd := 1
  ssthresh := 0
  snd_nxt := iss
  snd_wnd := 0
  snd_wl1 := 0
  snd_wl2 := iss
  snd_lbb := iss
  snd_buf := o.TCP_SND_BUF

/-- What `tcp_listen_input` reads besides the segment: the value of `tcp_ticks`, the initial
sequence number, the segment size that the interface leaves of one (`tcp_eff_send_mss`), the option
`SOF_KEEPALIVE` of the listener, and the outcomes of the allocations of the SYN|ACK and of
`tcp_output`. -/
structure ListenEnv where
  ticks : BitVec 32 := 1
  iss : Serial := 0
  effSendMss : ℕ → ℕ := id
  keepalive : Bool := false
  alloc : ℕ → Bool := fun _ => true
  out : Bool := true

/-- The new pcb of `tcp_listen_input`, before its SYN|ACK. -/
def listenPcb (o : Opts) (e : ListenEnv) (i : In) : TcpPcb :=
  let npcb := tcpAlloc o e.ticks e.iss
  { npcb with
    state := .SYN_RCVD
    rcv_nxt := i.seg.seqno.adv 1
    rcv_ann_right_edge := i.seg.seqno.adv 1
    snd_wnd := i.wnd.toNat
    ssthresh := i.wnd.toNat
    snd_wl1 := i.seg.seqno - 1
    keepalive := e.keepalive
    mss := u16 (e.effSendMss (tcpParseopt o i.opts.length i.opts npcb.mss)) }

/-- `tcp_listen_input`, when `tcp_alloc` finds room: the new pcb, unless the segment opens no
connection or the SYN|ACK cannot be enqueued. -/
def tcpListenInput (o : Opts) (e : ListenEnv) (i : In) : Except Abort (Option TcpPcb × List Sent) :=
  if i.seg.flags.ack then .ok (none, [])
  else if i.seg.flags.syn then do
    let r ← tcpEnqueue o e.alloc (listenPcb o e i) [] { syn := true, ack := true } false false true
    if r.1 = .OK then
      let out ← tcpOutput e.ticks e.out r.2
      .ok (some out.1, out.2)
    else .ok (none, [])
  else .ok (none, [])

/-- What `tcp_connect` reads besides the pcb: the value of `tcp_ticks`, the initial sequence number,
the segment size that the interface leaves of one, and the outcomes of the allocations of the SYN
and of `tcp_output`. -/
structure ConnectEnv where
  ticks : BitVec 32 := 1
  iss : Serial := 0
  effSendMss : ℕ → ℕ := id
  alloc : ℕ → Bool := fun _ => true
  out : Bool := true

/-- The pcb of `tcp_connect`, before its SYN. -/
def connectPcb (o : Opts) (e : ConnectEnv) (pcb : TcpPcb) : TcpPcb :=
  let mss := u16 (e.effSendMss (min o.TCP_MSS 536))
  { pcb with
    state := .SYN_SENT
    rcv_nxt := 0
    snd_nxt := e.iss
    lastack := e.iss - 1
    snd_lbb := e.iss - 1
    rcv_wnd := o.TCP_WND
    rcv_ann_wnd := o.TCP_WND
    rcv_ann_right_edge := 0
    snd_wnd := o.TCP_WND
    mss
    cwnd := 1
    ssthresh := u16 (mss * 10) }

/-- `tcp_connect`, with `none` for `ERR_ISCONN`. A pcb whose SYN cannot be enqueued stays on the
list of active pcbs. -/
def tcpConnect (o : Opts) (e : ConnectEnv) (pcb : TcpPcb) :
    Except Abort (Option (Err × TcpPcb × List Sent)) :=
  if pcb.state ≠ .CLOSED then .ok none
  else do
    let r ← tcpEnqueue o e.alloc (connectPcb o e pcb) [] { syn := true } false false true
    if r.1 = .OK then
      let out ← tcpOutput e.ticks e.out r.2
      .ok (some (.OK, out.1, out.2))
    else .ok (some (r.1, r.2, []))

/-- The effective MSS is not larger than the one that it is computed from. -/
theorem tcpEffSendMss_le (mtu : BitVec 16) (sendmss : ℕ) : tcpEffSendMss mtu sendmss ≤ sendmss := by
  unfold tcpEffSendMss
  split
  · exact Nat.min_le_left _ _
  · exact Nat.le_refl _

section Listen

variable {o : Opts} {e : ListenEnv} {i : In} {pcb : TcpPcb} {sent : List Sent}

/-- The two steps by which a new pcb comes about. -/
theorem tcpListenInput_eq_ok (h : tcpListenInput o e i = .ok (some pcb, sent)) :
    ∃ p, tcpEnqueue o e.alloc (listenPcb o e i) [] { syn := true, ack := true } false false true =
        .ok (.OK, p) ∧ tcpOutput e.ticks e.out p = .ok (pcb, sent) := by
  unfold tcpListenInput at h
  split at h
  · cases h
  split at h
  · obtain ⟨⟨err, p⟩, hp, h⟩ := bind_eq_ok.mp h
    dsimp only at h
    split at h
    · next herr =>
      obtain ⟨⟨q, out⟩, hq, h⟩ := bind_eq_ok.mp h
      cases h
      subst herr
      exact ⟨p, hp, hq⟩
    · cases h
  · cases h

/-- The receiver of a new pcb has taken nothing, and announces all of its window. -/
structure NewReceiver (o : Opts) (pcb : TcpPcb) : Prop where
  state : pcb.state = .SYN_RCVD
  rcv_wnd : pcb.rcv_wnd = o.TCP_WND
  rcv_ann_wnd : pcb.rcv_ann_wnd = o.TCP_WND
  edge : pcb.rcv_ann_right_edge = pcb.rcv_nxt ∨
    pcb.rcv_ann_right_edge = pcb.rcv_nxt.adv o.TCP_WND
  ooseq : pcb.ooseq = []
  refused : pcb.refused_data = none

/-- The pcb of a listener is a new receiver. -/
theorem tcpListenInput_newReceiver (h : tcpListenInput o e i = .ok (some pcb, sent)) :
    NewReceiver o pcb := by
  obtain ⟨p, hp, hout⟩ := tcpListenInput_eq_ok h
  have henq := tcpEnqueue_sameRcv hp
  have hst := tcpOutput_stamped hout
  refine ⟨?_, ?_, ?_, ?_, ?_, ?_⟩
  · rw [tcpOutput_state hout, tcpEnqueue_state hp]
    rfl
  · rw [hst.rcv_wnd, henq.rcv_wnd]
    rfl
  · rw [hst.rcv_ann_wnd, henq.rcv_ann_wnd]
    rfl
  · rw [hst.edge, hst.rcv_nxt, henq.rcv_ann_right_edge, henq.rcv_nxt, henq.rcv_ann_wnd]
    split
    · exact .inl rfl
    · exact .inr rfl
  · rw [hst.ooseq, henq.ooseq]
    rfl
  · rw [(tcpOutput_callFrame hout).refused_data, (tcpEnqueue_callFrame hp).refused_data]
    rfl

end Listen

end Lwip.Tcp
