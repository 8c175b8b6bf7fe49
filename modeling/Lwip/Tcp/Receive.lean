import Lwip.Tcp.Ack

/-!
# Receiving data

The second half of `tcp_receive` of `tcp_in.c`, from `if (tcplen > 0)` on: the trimming of the
incoming segment, the delivery of data in sequence, and the queue `ooseq` of data out of sequence.
With it stand `tcp_oos_insert_segment` and the two window functions of `tcp.c`; the two halves of
`tcp_receive` are put together at the end.

The static variable `seqno` of the source equals `inseg.tcphdr->seqno` wherever it is read, so the
functions read the latter. `tcp_receive` runs inside `tcp_input`, where `tcp_output` does nothing;
`tcp_ack_now` and `tcp_ack` only set flags there, and `tcp_send_empty_ack` sends.
-/

namespace Lwip.Tcp

/-- `tcp_update_rcv_ann_wnd`: the window to announce, and how much more it is than the peer was
told. -/
def tcpUpdateRcvAnnWnd (o : Opts) (pcb : TcpPcb) : TcpPcb × ℕ :=
  let newRightEdge := pcb.rcv_nxt.adv pcb.rcv_wnd
  if Serial.geq newRightEdge (pcb.rcv_ann_right_edge.adv (min (o.TCP_WND / 2) pcb.mss)) then
    ({ pcb with rcv_ann_wnd := pcb.rcv_wnd }, Serial.dist pcb.rcv_ann_right_edge newRightEdge)
  else if Serial.gt pcb.rcv_nxt pcb.rcv_ann_right_edge then
    ({ pcb with rcv_ann_wnd := 0 }, 0)
  else
    -- Keep the right edge of the window constant.
    ({ pcb with rcv_ann_wnd := u16 (Serial.dist pcb.rcv_nxt pcb.rcv_ann_right_edge) }, 0)

/-- `tcp_recved`: the application has processed `len` bytes. `input` says that it is called from a
callback of `tcp_input`. -/
def tcpRecved (o : Opts) (input : Bool) (ticks : BitVec 32) (alloc : Bool) (pcb : TcpPcb)
    (len : ℕ) : Except Abort (TcpPcb × List Sent) := do
  lwipAssert .recvedWraps (len ≤ 0xffff - pcb.rcv_wnd)
  let (pcb, inflation) := tcpUpdateRcvAnnWnd o
    { pcb with rcv_wnd := if pcb.rcv_wnd + len > o.TCP_WND then o.TCP_WND else pcb.rcv_wnd + len }
  if inflation ≥ o.TCP_WND_UPDATE_THRESHOLD then tcpAckNow input ticks alloc pcb
  else return (pcb, [])

/-! ## The queue of segments out of sequence -/

/-- The loop of `tcp_oos_insert_segment`: the segments that end at or before the end of `cseg` are
freed, and a FIN of theirs passes to `cseg`. -/
def tcpOosSwallow : (cseg : Seg) → (next : List Seg) → Seg × List Seg
  | cseg, [] => (cseg, [])
  | cseg, next :: rest =>
    if Serial.geq (cseg.seqno.adv cseg.len) (next.seqno.adv next.len) then
      tcpOosSwallow (if next.flags.fin then cseg.setFin else cseg) rest
    else (cseg, next :: rest)

/-- `tcp_oos_insert_segment`: `cseg` in front of `next`, with the segments that it covers deleted
and itself trimmed to the first that it does not. -/
def tcpOosInsertSegment (cseg : Seg) (next : List Seg) : List Seg :=
  if cseg.flags.fin then
    -- The segment overlaps all following segments.
    [cseg]
  else
    match tcpOosSwallow cseg next with
    | (cseg, []) => [cseg]
    | (cseg, n :: rest) =>
      if Serial.gt (cseg.seqno.adv cseg.len) n.seqno then
        cseg.trim (u16 (Serial.dist cseg.seqno n.seqno)) :: n :: rest
      else cseg :: n :: rest

/-- `prev` cut to end where `inseg` starts, if it reaches past that. -/
def trimPrev (prev inseg : Seg) : Seg :=
  if Serial.gt (prev.seqno.adv prev.len) inseg.seqno then
    prev.trim (u16 (Serial.dist prev.seqno inseg.seqno))
  else prev

/-- The walk through a non-empty `ooseq` that places `inseg`, from the segment after `prev` on; it
returns the list from `prev` on. `alloc` is the outcome of `tcp_seg_copy`: without a copy nothing
changes. -/
def tcpOosWalk (alloc : Bool) (inseg : Seg) : (prev : Option Seg) → List Seg → List Seg
  | prev, [] => prev.toList
  | prev, next :: rest =>
    if inseg.seqno = next.seqno then
      -- The one with less data is discarded.
      if inseg.len > next.len then
        if alloc then prev.toList ++ tcpOosInsertSegment inseg (next :: rest)
        else prev.toList ++ next :: rest
      else prev.toList ++ next :: rest
    else
      match prev with
      | none =>
        if Serial.lt inseg.seqno next.seqno then
          if alloc then tcpOosInsertSegment inseg (next :: rest) else next :: rest
        else if rest = [] ∧ Serial.gt inseg.seqno next.seqno then
          if next.flags.fin then [next]
          else if alloc then [trimPrev next inseg, inseg] else [next]
        else tcpOosWalk alloc inseg (some next) rest
      | some prev =>
        if Serial.between inseg.seqno (prev.seqno.adv 1) (next.seqno - 1) then
          if alloc then trimPrev prev inseg :: tcpOosInsertSegment inseg (next :: rest)
          else prev :: next :: rest
        else if rest = [] ∧ Serial.gt inseg.seqno next.seqno then
          if next.flags.fin then [prev, next]
          else if alloc then [prev, trimPrev next inseg, inseg] else [prev, next]
        else prev :: tcpOosWalk alloc inseg (some next) rest

/-- The queueing of a segment that is out of sequence. -/
def tcpQueueOoseq (alloc : Bool) (inseg : Seg) (ooseq : List Seg) : List Seg :=
  match ooseq with
  | [] => if alloc then [inseg] else []
  | _ :: _ => tcpOosWalk alloc inseg none ooseq

/-! ## A segment in sequence -/

/-- What `tcp_receive` leaves: the pcb, the data and the FIN it hands up in `recv_data` and
`recv_flags`, and the segments it sent. -/
structure Rx where
  pcb : TcpPcb
  recv_data : List UInt8 := []
  /-- `recv_flags & TF_GOT_FIN`. -/
  got_fin : Bool := false
  sent : List Sent := []

/-- The trimming of the front edge of a segment that starts before `rcv_nxt` and ends after it. The
offset is an `s32_t`; a negative one moves nothing. -/
def trimFront (pcb : TcpPcb) (inseg : Seg) : Except Abort Seg := do
  let off := (pcb.rcv_nxt - inseg.seqno).toInt
  lwipAssert .insaneOffset (off < 0x7fff)
  lwipAssert .pbufTooShort (off ≤ inseg.p.length)
  return { inseg with
    seqno := pcb.rcv_nxt
    len := u16sub inseg.len (Serial.dist inseg.seqno pcb.rcv_nxt)
    p := inseg.p.drop off.toNat }

/-- The trimming of a segment in sequence to the receive window; with the segment, `tcplen`. -/
def trimToWnd (pcb : TcpPcb) (inseg : Seg) : Except Abort (Seg × ℕ) :=
  if u16 inseg.tcplen > pcb.rcv_wnd then do
    -- The FIN is beyond the window.
    let inseg := { inseg with flags := { inseg.flags with fin := false } }
    let inseg := inseg.trim (if inseg.flags.syn then u16sub pcb.rcv_wnd 1 else pcb.rcv_wnd)
    lwipAssert .notTrimmedToRcvWnd
      (inseg.seqno.adv (u16 inseg.tcplen) = pcb.rcv_nxt.adv pcb.rcv_wnd)
    return (inseg, u16 inseg.tcplen)
  else return (inseg, u16 inseg.tcplen)

/-- The loop that drops the queued segments which the segment in sequence covers, and takes over a
FIN of theirs. -/
def absorbOoseq : (inseg : Seg) → (tcplen : ℕ) → (next : List Seg) → Seg × ℕ × List Seg
  | inseg, tcplen, [] => (inseg, tcplen, [])
  | inseg, tcplen, next :: rest =>
    if Serial.geq (inseg.seqno.adv tcplen) (next.seqno.adv next.len) then
      if next.flags.fin && !inseg.flags.syn then
        absorbOoseq inseg.setFin (u16 inseg.setFin.tcplen) rest
      else absorbOoseq inseg tcplen rest
    else (inseg, tcplen, next :: rest)

/-- The segment in sequence against the queue: a FIN empties the queue, else the covered segments
are dropped and the segment is trimmed against the first that is not. The trimming reads
`pcb->ooseq`, which still points at the head of the queue before the loop even if the loop has freed
it: `memp_free` overwrites only the `next` pointer of a freed `tcp_seg`, and `pbuf_free` leaves the
payload, so the read gives the old `seqno`. -/
def mergeOoseq (ooseq : List Seg) (inseg : Seg) (tcplen : ℕ) :
    Except Abort (Seg × ℕ × List Seg) :=
  match ooseq with
  | [] => .ok (inseg, tcplen, [])
  | head :: _ =>
    if inseg.flags.fin then .ok (inseg, tcplen, [])
    else
      match absorbOoseq inseg tcplen ooseq with
      | (inseg, tcplen, []) => .ok (inseg, tcplen, [])
      | (inseg, tcplen, n :: rest) =>
        if Serial.gt (inseg.seqno.adv tcplen) n.seqno then do
          let len := u16 (Serial.dist inseg.seqno head.seqno)
          let inseg := inseg.trim (if inseg.flags.syn then u16sub len 1 else len)
          lwipAssert .notTrimmedToOoseq (inseg.seqno.adv (u16 inseg.tcplen) = head.seqno)
          return (inseg, u16 inseg.tcplen, n :: rest)
        else return (inseg, tcplen, n :: rest)

/-- The body of the loop that hands up a queued segment which is now in sequence. -/
def dequeueOne (o : Opts) (cseg : Seg) (rest : List Seg) (rx : Rx) : Rx :=
  let pcb := (tcpUpdateRcvAnnWnd o { rx.pcb with
    rcv_nxt := rx.pcb.rcv_nxt.adv cseg.tcplen
    rcv_wnd := rx.pcb.rcv_wnd - cseg.tcplen }).1
  { rx with
    pcb := { pcb with
      ooseq := rest
      state := if cseg.flags.fin && decide (pcb.state = .ESTABLISHED) then .CLOSE_WAIT
        else pcb.state }
    recv_data := rx.recv_data ++ cseg.p
    got_fin := rx.got_fin || cseg.flags.fin }

/-- The loop that hands up the queued segments that are now in sequence. -/
def dequeueOoseq (o : Opts) : (ooseq : List Seg) → Rx → Except Abort Rx
  | [], rx => .ok rx
  | cseg :: rest, rx =>
    if cseg.seqno = rx.pcb.rcv_nxt then do
      lwipAssert .ooseqTcplenGtRcvWnd (rx.pcb.rcv_wnd ≥ cseg.tcplen)
      dequeueOoseq o rest (dequeueOne o cseg rest rx)
    else .ok rx

/-- `tcp_ack`, inside input processing. -/
def tcpAck (pcb : TcpPcb) : TcpPcb :=
  { pcb with
    flags := if pcb.flags.ack_delay then { pcb.flags with ack_delay := false, ack_now := true }
    else { pcb.flags with ack_delay := true } }

/-- The branch of `tcp_receive` for a segment that is the next in sequence. -/
def tcpReceiveInSeq (o : Opts) (pcb : TcpPcb) (inseg : Seg) : Except Abort Rx := do
  let (inseg, tcplen) ← trimToWnd pcb inseg
  let (inseg, tcplen, ooseq) ← mergeOoseq pcb.ooseq inseg tcplen
  lwipAssert .tcplenGtRcvWnd (pcb.rcv_wnd ≥ tcplen)
  let pcb := (tcpUpdateRcvAnnWnd o { pcb with
    ooseq
    rcv_nxt := inseg.seqno.adv tcplen
    rcv_wnd := pcb.rcv_wnd - tcplen }).1
  let rx ← dequeueOoseq o ooseq { pcb, recv_data := inseg.p, got_fin := inseg.flags.fin }
  return { rx with pcb := tcpAck rx.pcb }

/-! ## `tcp_receive`, the data -/

/-- What `tcp_process` and `tcp_receive` find out of the rest of the stack: the outcomes of two
allocations, and the `mtu` of the interface to the peer. -/
structure RxAlloc where
  /-- `pbuf_alloc` of `tcp_send_empty_ack`. -/
  ack : Bool := true
  /-- `memp_malloc` of `tcp_seg_copy`. -/
  seg : Bool := true
  /-- `outif->mtu`, or 0 if there is no route. -/
  mtu : BitVec 16 := 0
  deriving DecidableEq, Repr

/-- `tcp_ack_now`, inside input processing. -/
def tcpAckNowInput (pcb : TcpPcb) : TcpPcb :=
  { pcb with flags := { pcb.flags with ack_now := true } }

/-- The incoming segment, in the receive window or not. -/
def tcpReceiveWindow (o : Opts) (m : RxAlloc) (pcb : TcpPcb) (inseg : Seg) : Except Abort Rx :=
  let acked := tcpSendEmptyAck m.ack pcb
  if Serial.between inseg.seqno pcb.rcv_nxt (pcb.rcv_nxt.adv pcb.rcv_wnd - 1) then
    if pcb.rcv_nxt = inseg.seqno then tcpReceiveInSeq o pcb inseg
    else .ok {
      pcb := { acked.1 with ooseq := tcpQueueOoseq m.seg inseg acked.1.ooseq }
      sent := acked.2 }
  else .ok { pcb := acked.1, sent := acked.2 }

/-- `tcp_receive` from `if (tcplen > 0)` on. The `tcplen` of `tcp_input` is a `u16_t`. -/
def tcpReceiveData (o : Opts) (m : RxAlloc) (pcb : TcpPcb) (inseg : Seg) : Except Abort Rx :=
  if u16 inseg.tcplen > 0 then
    if Serial.between pcb.rcv_nxt (inseg.seqno.adv 1) (inseg.seqno.adv (u16 inseg.tcplen) - 1) then
      trimFront pcb inseg >>= tcpReceiveWindow o m pcb
    else
      tcpReceiveWindow o m
        (if Serial.lt inseg.seqno pcb.rcv_nxt then tcpAckNowInput pcb else pcb) inseg
  else
    .ok { pcb :=
      if Serial.between inseg.seqno pcb.rcv_nxt (pcb.rcv_nxt.adv pcb.rcv_wnd - 1) then pcb
      else tcpAckNowInput pcb }

/-- `tcp_receive`. -/
def tcpReceive (o : Opts) (ticks : BitVec 32) (m : RxAlloc) (pcb : TcpPcb) (i : In) :
    Except Abort Rx := do
  let pcb ← if i.seg.flags.ack then tcpReceiveAck ticks pcb i else .ok pcb
  tcpReceiveData o m pcb i.seg

end Lwip.Tcp
