import Lwip.Tcp.Output

/-!
# Receiving an acknowledgement

The first half of `tcp_receive` of `tcp_in.c`, under `if (flags & TCP_ACK)`: the peer's window, the
duplicate acknowledgements, the acknowledgement of new data with the loop that frees segments from
`unacked`, the second loop that frees segments from `unsent`, and the round-trip estimate.
-/

namespace Lwip.Tcp

/-- What `tcp_input` knows of an incoming segment. The `p` of `seg` is the payload. -/
structure In where
  seg : Seg
  ackno : Serial
  /-- `tcphdr->wnd`. -/
  wnd : BitVec 16
  /-- The option bytes of the header. -/
  opts : List UInt8 := []
  deriving DecidableEq, Repr

/-- The `tcplen` of `tcp_input`, a `u16_t`. -/
def In.tcplen (i : In) : ℕ := u16 i.seg.tcplen

/-- `pbuf_clen`, which counts in a `u8_t`. -/
def Seg.pbufClen (s : Seg) : ℕ := s.clen % 2^8

/-- The update of the send window. -/
def updateSndWnd (pcb : TcpPcb) (i : In) : TcpPcb :=
  if Serial.lt pcb.snd_wl1 i.seg.seqno ∨
      (pcb.snd_wl1 = i.seg.seqno ∧ Serial.lt pcb.snd_wl2 i.ackno) ∨
      (pcb.snd_wl2 = i.ackno ∧ i.wnd.toNat > pcb.snd_wnd) then
    { pcb with
      snd_wnd := i.wnd.toNat
      snd_wl1 := i.seg.seqno
      snd_wl2 := i.ackno
      persist_backoff := if i.wnd.toNat > 0 then 0 else pcb.persist_backoff }
  else pcb

/-- `cwnd += mss`, unless the sum overflows. -/
def cwndGrow (pcb : TcpPcb) : ℕ :=
  if u16 (pcb.cwnd + pcb.mss) > pcb.cwnd then u16 (pcb.cwnd + pcb.mss) else pcb.cwnd

/-- A duplicate acknowledgement, counted in `dupacks`: the third retransmits, a later one inflates
the congestion window. -/
def tcpReceiveDupAck (pcb : TcpPcb) : TcpPcb :=
  if pcb.dupacks > 3 then { pcb with cwnd := cwndGrow pcb }
  else if pcb.dupacks = 3 then tcpRexmitFast pcb
  else pcb

/-- The branch for an acknowledgement at or below `lastack`. `rightWndEdge` is the right edge of the
send window before its update. The increment of the `u8_t` field `dupacks` is guarded by a
comparison of `int`s, which always holds. -/
def tcpReceiveOldAck (rightWndEdge : Serial) (pcb : TcpPcb) (i : In) : TcpPcb :=
  if i.tcplen = 0 ∧ pcb.snd_wl2.adv pcb.snd_wnd = rightWndEdge ∧ pcb.rtime ≥ 0 ∧
      pcb.lastack = i.ackno then
    tcpReceiveDupAck { pcb with acked := 0, dupacks := (pcb.dupacks + 1) % 2^8 }
  else { pcb with acked := 0, dupacks := 0 }

/-- The loop that frees the segments at the head of a queue that `acks` says are acknowledged. Both
loops of the source have this body: `unacked` is walked with `unsent` as the `other` queue, and the
other way round. Returns the queue, `snd_queuelen` and `acked`. -/
def freeAcked (acks : Seg → Bool) (other : List Seg) :
    (queue : List Seg) → (queuelen acked : ℕ) → Except Abort (List Seg × ℕ × ℕ)
  | [], queuelen, acked => .ok ([], queuelen, acked)
  | next :: rest, queuelen, acked =>
    if acks next then do
      lwipAssert .queuelenLtClen (queuelen ≥ next.pbufClen)
      -- Prevent ACK for FIN to generate a sent event
      let acked := if decide (acked ≠ 0) && next.flags.fin then acked - 1 else acked
      let queuelen := queuelen - next.pbufClen
      lwipAssert .invalidQueueLength (queuelen = 0 ∨ rest ≠ [] ∨ other ≠ [])
      freeAcked acks other rest queuelen acked
    else .ok (next :: rest, queuelen, acked)

/-- The congestion window after new data were acknowledged. In the states before `ESTABLISHED` it
does not change; in congestion avoidance the source divides by it. -/
def growCwnd (pcb : TcpPcb) : Except Abort ℕ :=
  if pcb.state.geEstablished then
    if pcb.cwnd < pcb.ssthresh then .ok (cwndGrow pcb)
    else if pcb.cwnd = 0 then .error .divisionByZero
    else
      let newCwnd := u16 (pcb.cwnd + pcb.mss * pcb.mss / pcb.cwnd)
      .ok (if newCwnd > pcb.cwnd then newCwnd else pcb.cwnd)
  else .ok pcb.cwnd

/-- The branch for an acknowledgement of new data. -/
def tcpReceiveNewAck (pcb : TcpPcb) (i : In) : Except Abort TcpPcb := do
  let acked := u16 (Serial.dist pcb.lastack i.ackno)
  let pcb := { pcb with
    -- Leave fast recovery.
    cwnd := if pcb.flags.infr then pcb.ssthresh else pcb.cwnd
    flags := { pcb.flags with infr := false }
    nrtx := 0
    rto := s16 (pcb.sa >>> (3 : ℕ) + pcb.sv)
    snd_buf := u16 (pcb.snd_buf + acked)
    dupacks := 0
    lastack := i.ackno }
  let cwnd ← growCwnd pcb
  let (unacked, queuelen, acked) ← freeAcked (fun s => decide (Serial.leq s.endSeq i.ackno))
    pcb.unsent pcb.unacked pcb.snd_queuelen acked
  return { pcb with
    cwnd, unacked, acked
    snd_queuelen := queuelen
    rtime := if unacked = [] then -1 else 0
    polltmr := 0 }

/-- The loop through `unsent`: after a retransmission these segments may have been sent once. -/
def tcpReceiveUnsent (pcb : TcpPcb) (i : In) : Except Abort TcpPcb := do
  let (unsent, queuelen, acked) ← freeAcked
    (fun s => decide (Serial.between i.ackno s.endSeq pcb.snd_nxt))
    pcb.unacked pcb.unsent pcb.snd_queuelen pcb.acked
  return { pcb with unsent, acked, snd_queuelen := queuelen }

/-- The round-trip estimate, in `s16_t` arithmetic. -/
def estimateRtt (ticks : BitVec 32) (pcb : TcpPcb) (i : In) : TcpPcb :=
  if pcb.rttest ≠ 0 ∧ Serial.lt pcb.rtseq i.ackno then
    let m := s16 (ticks - pcb.rttest).toNat
    let m := s16 (m - pcb.sa >>> (3 : ℕ))
    let sa := s16 (pcb.sa + m)
    let m := if m < 0 then s16 (-m) else m
    let m := s16 (m - pcb.sv >>> (2 : ℕ))
    let sv := s16 (pcb.sv + m)
    { pcb with sa, sv, rto := s16 (sa >>> (3 : ℕ) + sv), rttest := 0 }
  else pcb

/-- The three cases of the acknowledgement number: old, new, or of data that were not sent. -/
def tcpReceiveAckno (rightWndEdge : Serial) (pcb : TcpPcb) (i : In) : Except Abort TcpPcb :=
  if Serial.leq i.ackno pcb.lastack then .ok (tcpReceiveOldAck rightWndEdge pcb i)
  else if Serial.between i.ackno (pcb.lastack.adv 1) pcb.snd_nxt then tcpReceiveNewAck pcb i
  else .ok { pcb with acked := 0 }

/-- `tcp_receive` under `if (flags & TCP_ACK)`. -/
def tcpReceiveAck (ticks : BitVec 32) (pcb : TcpPcb) (i : In) : Except Abort TcpPcb := do
  let rightWndEdge := pcb.snd_wl2.adv pcb.snd_wnd
  let pcb ← tcpReceiveAckno rightWndEdge (updateSndWnd pcb i) i
  let pcb ← tcpReceiveUnsent pcb i
  return estimateRtt ticks pcb i

end Lwip.Tcp
