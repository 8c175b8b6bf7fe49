import Lwip.Tcp.Rules
import Lwip.Tcp.Frame

/-!
# What the parts leave alone

`tcp_write`, `tcp_recved`, `tcp_close` and `tcp_output` change the send queues, the announced window
and the state. The numbers by which acknowledgements are judged, the next expected sequence number
and the count of retransmissions are left to `tcp_input` and the timers. The data half of
`tcp_receive` leaves the sender alone.
-/

namespace Lwip.Tcp

/-! ## The calls of the application -/

/-- What the calls and `tcp_output` leave alone. -/
structure CallFrame (a b : TcpPcb) : Prop where
  rcv_nxt : b.rcv_nxt = a.rcv_nxt
  mss : b.mss = a.mss
  nrtx : b.nrtx = a.nrtx
  lastack : b.lastack = a.lastack
  dupacks : b.dupacks = a.dupacks
  cwnd : b.cwnd = a.cwnd
  ssthresh : b.ssthresh = a.ssthresh
  infr : b.flags.infr = a.flags.infr
  snd_wnd : b.snd_wnd = a.snd_wnd
  snd_wl1 : b.snd_wl1 = a.snd_wl1
  snd_wl2 : b.snd_wl2 = a.snd_wl2
  acked : b.acked = a.acked
  ooseq : b.ooseq = a.ooseq
  refused_data : b.refused_data = a.refused_data
  keepalive : b.keepalive = a.keepalive
  sa : b.sa = a.sa
  sv : b.sv = a.sv
  rto : b.rto = a.rto

section Frame

variable {o : Opts} {ticks : BitVec 32} {input alloc : Bool} {pcb pcb' : TcpPcb} {out : List Sent}

/-- A pcb is a frame of itself. -/
theorem CallFrame.refl (a : TcpPcb) : CallFrame a a := by
  constructor <;> rfl

/-- The frames of two steps. -/
theorem CallFrame.trans {a b c : TcpPcb} (h : CallFrame a b) (h' : CallFrame b c) :
    CallFrame a c where
  rcv_nxt := h'.rcv_nxt.trans h.rcv_nxt
  mss := h'.mss.trans h.mss
  nrtx := h'.nrtx.trans h.nrtx
  lastack := h'.lastack.trans h.lastack
  dupacks := h'.dupacks.trans h.dupacks
  cwnd := h'.cwnd.trans h.cwnd
  ssthresh := h'.ssthresh.trans h.ssthresh
  infr := h'.infr.trans h.infr
  snd_wnd := h'.snd_wnd.trans h.snd_wnd
  snd_wl1 := h'.snd_wl1.trans h.snd_wl1
  snd_wl2 := h'.snd_wl2.trans h.snd_wl2
  acked := h'.acked.trans h.acked
  ooseq := h'.ooseq.trans h.ooseq
  refused_data := h'.refused_data.trans h.refused_data
  keepalive := h'.keepalive.trans h.keepalive
  sa := h'.sa.trans h.sa
  sv := h'.sv.trans h.sv
  rto := h'.rto.trans h.rto

/-- A segment that is sent leaves the frame of a call. -/
theorem tcpOutputOne_callFrame (ticks : BitVec 32) (pcb : TcpPcb) (seg : Seg) (rest : List Seg) :
    CallFrame pcb (tcpOutputOne ticks pcb seg rest).1 := by
  have hinfr : (tcpOutputOne ticks pcb seg rest).1.flags.infr = pcb.flags.infr := by
    unfold tcpOutputOne tcpOutputSegment
    dsimp only
    split <;> rfl
  constructor <;> first | rfl | exact hinfr

/-- The loop of `tcp_output` leaves the frame of a call. -/
theorem tcpOutputLoop_callFrame {wnd : ℕ} {q : List Seg} {out' : List Sent}
    (h : tcpOutputLoop ticks wnd q pcb out = .ok (pcb', out')) : CallFrame pcb pcb' := by
  obtain ⟨-, hp⟩ := tcpOutputLoop_rule (P := fun _ p _ => CallFrame pcb p) h (.refl _)
    fun seg rest p _ hp _ => hp.trans (tcpOutputOne_callFrame ticks p seg rest)
  exact hp

/-- An empty ACK leaves the frame of a call. -/
theorem tcpSendEmptyAck_callFrame (alloc : Bool) (pcb : TcpPcb) :
    CallFrame pcb (tcpSendEmptyAck alloc pcb).1 := by
  unfold tcpSendEmptyAck
  split
  · constructor <;> rfl
  · exact .refl _

/-- `tcp_output` leaves the frame of a call. -/
theorem tcpOutput_callFrame (h : tcpOutput ticks alloc pcb = .ok (pcb', out)) :
    CallFrame pcb pcb' := by
  refine tcpOutput_rule (P := fun p _ => CallFrame pcb p) h (tcpSendEmptyAck_callFrame alloc pcb)
    fun {p _} hl => (tcpOutputLoop_callFrame hl).trans ?_
  constructor <;> rfl

/-- The same with the test of the first lines. -/
theorem tcpOutputUnlessInput_callFrame
    (h : tcpOutputUnlessInput input ticks alloc pcb = .ok (pcb', out)) : CallFrame pcb pcb' := by
  exact tcpOutputUnlessInput_rule (P := fun p _ => CallFrame pcb p) h (.refl _) tcpOutput_callFrame

/-- `tcp_ack_now` leaves the frame of a call. -/
theorem tcpAckNow_callFrame (h : tcpAckNow input ticks alloc pcb = .ok (pcb', out)) :
    CallFrame pcb pcb' := by
  have hnow : CallFrame pcb { pcb with flags := { pcb.flags with ack_now := true } } := by
    constructor <;> rfl
  exact hnow.trans (tcpOutputUnlessInput_callFrame h)

/-- The announced window leaves the frame of a call. -/
theorem tcpUpdateRcvAnnWnd_callFrame (o : Opts) (pcb : TcpPcb) :
    CallFrame pcb (tcpUpdateRcvAnnWnd o pcb).1 := by
  unfold tcpUpdateRcvAnnWnd
  dsimp only
  split
  · constructor <;> rfl
  · split <;> (constructor <;> rfl)

/-- `tcp_recved` leaves the frame of a call. -/
theorem tcpRecved_callFrame {len : ℕ}
    (h : tcpRecved o input ticks alloc pcb len = .ok (pcb', out)) : CallFrame pcb pcb' := by
  obtain ⟨w, h⟩ := tcpRecved_cases h
  have hwnd : CallFrame pcb { pcb with rcv_wnd := w } := by constructor <;> rfl
  have hann := hwnd.trans (tcpUpdateRcvAnnWnd_callFrame o _)
  obtain h | ⟨rfl, -⟩ := h
  · exact hann.trans (tcpAckNow_callFrame h)
  · exact hann

/-- `tcp_enqueue` leaves the frame of a call. -/
theorem tcpEnqueue_callFrame {allocs : ℕ → Bool} {arg : List UInt8} {flags : TcpFlags}
    {copy more optMss : Bool} {e : Err}
    (h : tcpEnqueue o allocs pcb arg flags copy more optMss = .ok (e, pcb')) :
    CallFrame pcb pcb' := by
  rcases tcpEnqueue_cases h with ⟨-, rfl⟩ | ⟨-, -, q, qs, ql, unsent, ql', -, -, rfl⟩
  · constructor <;> rfl
  · constructor <;> rfl

/-- `tcp_write` leaves the frame of a call. -/
theorem tcpWrite_callFrame {allocs : ℕ → Bool} {data : List UInt8} {copy more : Bool} {e : Err}
    (h : tcpWrite o allocs pcb data copy more = .ok (e, pcb')) : CallFrame pcb pcb' := by
  obtain ⟨-, rfl⟩ | ⟨-, ⟨-, -, rfl⟩ | ⟨-, h⟩⟩ := tcpWrite_cases h
  · exact .refl _
  · exact .refl _
  · exact tcpEnqueue_callFrame h

/-- A `tcp_close` after which the pcb is still there. -/
theorem tcpClose_callFrame {allocs : ℕ → Bool} {e : Err}
    (h : tcpClose o input ticks allocs alloc pcb = .ok (e, some pcb', out)) :
    CallFrame pcb pcb' := by
  obtain ⟨-, rfl, -⟩ | ⟨next, q, -, hq, hend⟩ := tcpClose_cases h
  · exact .refl _
  have henq : CallFrame pcb q := tcpEnqueue_callFrame hq
  obtain ⟨-, hout⟩ | ⟨-, rfl, -⟩ := hend
  · have hnext : CallFrame q { q with state := next } := by constructor <;> rfl
    exact (henq.trans hnext).trans (tcpOutputUnlessInput_callFrame hout)
  · exact henq

/-- Every call of the application leaves the frame of a call. -/
theorem appCall_callFrame {c : AppCall} (h : appCall o input ticks pcb c = .ok (some pcb', out)) :
    CallFrame pcb pcb' := by
  exact appCall_rule (P := fun p _ => CallFrame pcb p) h tcpWrite_callFrame tcpRecved_callFrame
    tcpClose_callFrame

/-- The calls of a callback leave the frame of a call. -/
theorem appCalls_callFrame {cs : List AppCall}
    (h : appCalls o input ticks pcb cs = .ok (some pcb', out)) : CallFrame pcb pcb' := by
  exact appCalls_rule (P := fun p _ => CallFrame pcb p) h (.refl _)
    fun p q c _ _ hp hc => hp.trans (appCall_callFrame hc)

end Frame

/-! ## The data half of `tcp_receive` -/

/-- What the data half of `tcp_receive` leaves alone. -/
structure DataFrame (a b : TcpPcb) : Prop where
  mss : b.mss = a.mss
  cwnd : b.cwnd = a.cwnd
  ssthresh : b.ssthresh = a.ssthresh
  infr : b.flags.infr = a.flags.infr
  snd_wnd : b.snd_wnd = a.snd_wnd
  nrtx : b.nrtx = a.nrtx
  lastack : b.lastack = a.lastack
  snd_nxt : b.snd_nxt = a.snd_nxt
  snd_lbb : b.snd_lbb = a.snd_lbb
  acked : b.acked = a.acked
  snd_buf : b.snd_buf = a.snd_buf
  snd_queuelen : b.snd_queuelen = a.snd_queuelen
  unsent : b.unsent = a.unsent
  unacked : b.unacked = a.unacked
  refused_data : b.refused_data = a.refused_data
  sa : b.sa = a.sa
  sv : b.sv = a.sv
  rto : b.rto = a.rto

section Data

variable {o : Opts} {ticks : BitVec 32} {m : RxAlloc} {pcb : TcpPcb} {inseg : Seg} {rx rx' : Rx}

/-- A pcb is a frame of the data half of itself. -/
theorem DataFrame.refl (a : TcpPcb) : DataFrame a a := by
  constructor <;> rfl

/-- The frames of two steps of the data half. -/
theorem DataFrame.trans {a b c : TcpPcb} (h : DataFrame a b) (h' : DataFrame b c) :
    DataFrame a c where
  mss := h'.mss.trans h.mss
  cwnd := h'.cwnd.trans h.cwnd
  ssthresh := h'.ssthresh.trans h.ssthresh
  infr := h'.infr.trans h.infr
  snd_wnd := h'.snd_wnd.trans h.snd_wnd
  nrtx := h'.nrtx.trans h.nrtx
  lastack := h'.lastack.trans h.lastack
  snd_nxt := h'.snd_nxt.trans h.snd_nxt
  snd_lbb := h'.snd_lbb.trans h.snd_lbb
  acked := h'.acked.trans h.acked
  snd_buf := h'.snd_buf.trans h.snd_buf
  snd_queuelen := h'.snd_queuelen.trans h.snd_queuelen
  unsent := h'.unsent.trans h.unsent
  unacked := h'.unacked.trans h.unacked
  refused_data := h'.refused_data.trans h.refused_data
  sa := h'.sa.trans h.sa
  sv := h'.sv.trans h.sv
  rto := h'.rto.trans h.rto

/-- The announced window leaves the frame of the data half. -/
theorem tcpUpdateRcvAnnWnd_dataFrame (o : Opts) (pcb : TcpPcb) :
    DataFrame pcb (tcpUpdateRcvAnnWnd o pcb).1 := by
  unfold tcpUpdateRcvAnnWnd
  dsimp only
  split
  · constructor <;> rfl
  · split <;> (constructor <;> rfl)

/-- An empty ACK leaves the frame of the data half. -/
theorem tcpSendEmptyAck_dataFrame (alloc : Bool) (pcb : TcpPcb) :
    DataFrame pcb (tcpSendEmptyAck alloc pcb).1 := by
  unfold tcpSendEmptyAck
  split
  · constructor <;> rfl
  · exact .refl _

/-- A segment of the queue leaves the frame of the data half. -/
theorem dequeueOne_dataFrame (o : Opts) (cseg : Seg) (rest : List Seg) (rx : Rx) :
    DataFrame rx.pcb (dequeueOne o cseg rest rx).pcb := by
  have htaken : DataFrame rx.pcb { rx.pcb with
      rcv_nxt := rx.pcb.rcv_nxt.adv cseg.tcplen, rcv_wnd := rx.pcb.rcv_wnd - cseg.tcplen } := by
    constructor <;> rfl
  have hann := htaken.trans (tcpUpdateRcvAnnWnd_dataFrame o _)
  refine hann.trans ?_
  constructor <;> rfl

/-- The loop over `ooseq` leaves the frame of the data half. -/
theorem dequeueOoseq_dataFrame {q : List Seg} (h : dequeueOoseq o q rx = .ok rx') :
    DataFrame rx.pcb rx'.pcb := by
  induction q generalizing rx with
  | nil =>
    cases h
    exact .refl _
  | cons s q ih =>
    unfold dequeueOoseq at h
    split at h
    · obtain ⟨_, -, h⟩ := bind_eq_ok.mp h
      exact (dequeueOne_dataFrame o s q rx).trans (ih h)
    · cases h
      exact .refl _

/-- A segment in sequence leaves the frame of the data half. -/
theorem tcpReceiveInSeq_dataFrame (h : tcpReceiveInSeq o pcb inseg = .ok rx) :
    DataFrame pcb rx.pcb := by
  unfold tcpReceiveInSeq at h
  obtain ⟨⟨s₁, n₁⟩, -, h⟩ := bind_eq_ok.mp h
  obtain ⟨⟨s₂, n₂, q⟩, -, h⟩ := bind_eq_ok.mp h
  obtain ⟨_, -, h⟩ := bind_eq_ok.mp h
  obtain ⟨rx', hd, h⟩ := bind_eq_ok.mp h
  cases h
  have htaken : DataFrame pcb { pcb with
      ooseq := q, rcv_nxt := s₂.seqno.adv n₂, rcv_wnd := pcb.rcv_wnd - n₂ } := by
    constructor <;> rfl
  have hann := htaken.trans (tcpUpdateRcvAnnWnd_dataFrame o _)
  have hinfr : (tcpAck rx'.pcb).flags.infr = rx'.pcb.flags.infr := by
    unfold tcpAck
    split <;> rfl
  have hack : DataFrame rx'.pcb (tcpAck rx'.pcb) := by
    constructor <;> first | rfl | exact hinfr
  exact (hann.trans (dequeueOoseq_dataFrame hd)).trans hack

/-- A segment in the window leaves the frame of the data half. -/
theorem tcpReceiveWindow_dataFrame (h : tcpReceiveWindow o m pcb inseg = .ok rx) :
    DataFrame pcb rx.pcb := by
  have hack := tcpSendEmptyAck_dataFrame m.ack pcb
  unfold tcpReceiveWindow at h
  dsimp only at h
  split at h
  · split at h
    · exact tcpReceiveInSeq_dataFrame h
    · cases h
      refine hack.trans ?_
      constructor <;> rfl
  · cases h
    exact hack

/-- The data half leaves its frame. -/
theorem tcpReceiveData_dataFrame (h : tcpReceiveData o m pcb inseg = .ok rx) :
    DataFrame pcb rx.pcb := by
  have hnow : DataFrame pcb (tcpAckNowInput pcb) := by
    constructor <;> rfl
  unfold tcpReceiveData at h
  split at h
  · split at h
    · obtain ⟨s, -, h⟩ := bind_eq_ok.mp h
      exact tcpReceiveWindow_dataFrame h
    · split at h
      · exact hnow.trans (tcpReceiveWindow_dataFrame h)
      · exact tcpReceiveWindow_dataFrame h
  · cases h
    dsimp only
    split
    · exact .refl _
    · exact hnow

end Data

end Lwip.Tcp
