import Lwip.Tcp.Defs

/-!
# The output half of TCP

The functions of `tcp_out.c`. A function that hands segments to IP returns them in the order they
were handed over, beside the new pcb. The outcome of every allocation is a parameter: a Boolean, or
a function of the call's position where a loop allocates. The address of the interface is known once
a connection is established, so `tcp_output_segment` always reaches its `ip_output`.
-/

namespace Lwip.Tcp

/-- The results of the functions that the application calls, `err_t`. -/
inductive Err where
  | OK | MEM | BUF | CONN
  deriving DecidableEq, Repr

/-- `tcp_output_set_header`: the header of a segment without a queue entry, and the announced right
edge that sending it records. -/
def tcpOutputSetHeader (pcb : TcpPcb) (seqno : Serial) (tcplen : ℕ) : TcpPcb × Sent :=
  ({ pcb with rcv_ann_right_edge := pcb.rcv_nxt.adv pcb.rcv_ann_wnd },
   { seqno, tcplen, ackno := pcb.rcv_nxt, wnd := pcb.rcv_ann_wnd })

/-- `tcp_send_empty_ack`, with the outcome of its `pbuf_alloc`. -/
def tcpSendEmptyAck (alloc : Bool) (pcb : TcpPcb) : TcpPcb × List Sent :=
  if alloc then
    let pcb := { pcb with flags := { pcb.flags with ack_delay := false, ack_now := false } }
    let (pcb, s) := tcpOutputSetHeader pcb pcb.snd_nxt 0
    (pcb, [s])
  else (pcb, [])

/-! ## `tcp_enqueue` -/

/-- `TCP_SNDQUEUELEN_OVERFLOW`. -/
def TCP_SNDQUEUELEN_OVERFLOW : ℕ := 0xffff - 3

/-- The loop of `tcp_enqueue` that breaks `left` bytes at `ptr` into segments, from sequence number
`seqno` on. It returns the local `queue` and `queuelen`, or `none` for `goto memerr`. Every round
allocates a `tcp_seg`, a pbuf for the headers (and the data, if they are copied), and a pbuf that
refers to the data if they are not. Every round adds at least one pbuf to `queuelen`, which may not
pass `TCP_SND_QUEUELEN`, so `TCP_SND_QUEUELEN + 1` rounds of `fuel` are never used up. -/
def tcpEnqueueLoop (o : Opts) (mss optlen : ℕ) (flags : TcpFlags) (copy optMss : Bool) :
    (fuel : ℕ) → (alloc : ℕ → Bool) → (queue : List Seg) → (ptr : List UInt8) → (left : ℕ) →
    (seqno : Serial) → (queuelen : ℕ) → Option (List Seg × ℕ)
  | 0, _, _, _, _, _, _ => none
  | fuel + 1, alloc, queue, ptr, left, seqno, queuelen =>
    let seglen := if (left : ℤ) > (mss : ℤ) - optlen then u16sub mss optlen else left
    -- `memp_malloc(MEMP_TCP_SEG)`, the header's `pbuf_alloc`, and the one for data not copied.
    if !alloc 0 || !alloc 1 || (!copy && decide (left > 0) && !alloc 2) then none
    else
      let clen := if !copy && decide (left > 0) then 2 else 1
      let queuelen := queuelen + clen
      if queuelen > o.TCP_SND_QUEUELEN ∨ queuelen > TCP_SNDQUEUELEN_OVERFLOW then none
      else
        let seg : Seg := { seqno, len := seglen, flags, p := ptr.take seglen, optMss, clen }
        let left := u16sub left seglen
        if left > 0 then
          tcpEnqueueLoop o mss optlen flags copy optMss fuel (fun n => alloc (n + 3))
            (queue ++ [seg]) (ptr.drop seglen) left (seqno.adv seglen) queuelen
        else some (queue ++ [seg], queuelen)

/-- The test of `tcp_enqueue` for gluing the first new segment `queue` to `useg`, the last segment
that waits on `unsent`. -/
def canGlue (pcb : TcpPcb) (flags : TcpFlags) (useg queue : Seg) : Bool :=
  decide (useg.tcplen ≠ 0) &&
    !(useg.flags.syn || useg.flags.fin) &&
    (!(flags.syn || flags.fin) || decide (flags = { fin := true })) &&
    decide (useg.len + queue.len ≤ pcb.mss) &&
    decide (useg.optMss = queue.optMss) &&
    decide (useg.seqno.adv useg.len = queue.seqno)

/-- `TCPH_SET_FLAG(seg->tcphdr, TCP_PSH)`. -/
def Seg.setPsh (s : Seg) : Seg := { s with flags := { s.flags with psh := true } }

/-- The list with its last element changed by `f`. -/
def modifyLast {α : Type} (f : α → α) : List α → List α
  | [] => []
  | [x] => [f x]
  | x :: y :: l => x :: modifyLast f (y :: l)

/-- The part of `tcp_enqueue` that puts the new segments `q :: qs` at the end of `unsent`: glued to
its last segment if `canGlue` holds, else after it. The header pbuf of a glued segment is dropped if
it held nothing but headers. Returns `unsent` and the count of queued pbufs. -/
def tcpEnqueueAppend (pcb : TcpPcb) (flags : TcpFlags) (copy : Bool) (q : Seg) (qs : List Seg)
    (queuelen : ℕ) : Except Abort (List Seg × ℕ) :=
  match pcb.unsent.getLast? with
  | none => .ok (q :: qs, queuelen)
  | some useg =>
    if canGlue pcb flags useg q then do
      let headerOnly := !copy || decide (q.len = 0)
      let clen := if headerOnly then q.clen - 1 else q.clen
      let queuelen := if headerOnly then queuelen - 1 else queuelen
      if flags.fin then
        lwipAssert .finWithData (clen = 0 ∧ q.len = 0)
        .ok (modifyLast Seg.setFin pcb.unsent, queuelen)
      else
        lwipAssert .zeroLengthPbuf (clen ≠ 0 ∧ 0 < q.len)
        .ok (modifyLast (fun u =>
          { u with len := u.len + q.len, p := u.p ++ q.p, clen := u.clen + clen }) pcb.unsent ++ qs,
          queuelen)
    else .ok (pcb.unsent ++ q :: qs, queuelen)

/-- `memerr` of `tcp_enqueue`, where the pcb notes the failure. -/
def tcpMemErr (pcb : TcpPcb) : TcpPcb :=
  { pcb with flags := { pcb.flags with naglememerr := true } }

/-- The end of `tcp_enqueue`: the new segments are on `unsent`, and the counters follow. The last
segment enqueued is the last on `unsent`, glued or not. -/
def tcpEnqueueCommit (pcb : TcpPcb) (len : ℕ) (flags : TcpFlags) (more : Bool)
    (unsent : List Seg) (queuelen : ℕ) : TcpPcb :=
  let len := if flags.syn || flags.fin then len + 1 else len
  { pcb with
    unsent := modifyLast (fun s => if decide (s.len > 0) && !more then s.setPsh else s) unsent
    flags := { pcb.flags with fin := pcb.flags.fin || flags.fin }
    snd_lbb := pcb.snd_lbb.adv len
    snd_buf := u16sub pcb.snd_buf len
    snd_queuelen := queuelen }

/-- `tcp_enqueue`. The data are `arg`, `copy` and `more` are the bits of `apiflags`, `optMss` is the
only bit of `optflags` in a build without timestamps, and `alloc` gives the outcomes of the
allocations in their order. -/
def tcpEnqueue (o : Opts) (alloc : ℕ → Bool) (pcb : TcpPcb) (arg : List UInt8) (flags : TcpFlags)
    (copy more optMss : Bool) : Except Abort (Err × TcpPcb) := do
  lwipAssert .enqueueNothing (arg.length ≠ 0 ∨ optMss ∨ flags.syn ∨ flags.fin)
  -- fail on too much data
  if arg.length > pcb.snd_buf then .ok (.MEM, tcpMemErr pcb)
  else if pcb.snd_queuelen ≥ o.TCP_SND_QUEUELEN ∨ pcb.snd_queuelen > TCP_SNDQUEUELEN_OVERFLOW then
    .ok (.MEM, tcpMemErr pcb)
  else
    lwipAssert .pbufsButQueuesEmpty
      (pcb.snd_queuelen = 0 ∨ pcb.unacked ≠ [] ∨ pcb.unsent ≠ [])
    lwipAssert .noPbufsButQueueNonempty
      (pcb.snd_queuelen ≠ 0 ∨ pcb.unacked = [] ∧ pcb.unsent = [])
    -- The first copy is of `seglen + optlen` bytes, more than 16 bits hold if the options exceed
    -- the MSS.
    lwipAssert .firstPbufTooShort
      (¬ (copy ∧ pcb.mss < (if optMss then 4 else 0) ∧ alloc 0 ∧ alloc 1))
    match tcpEnqueueLoop o pcb.mss (if optMss then 4 else 0) flags copy optMss
        (o.TCP_SND_QUEUELEN + 1) alloc [] arg arg.length pcb.snd_lbb pcb.snd_queuelen with
    | none | some ([], _) =>
      lwipAssert .invalidQueueLength (pcb.snd_queuelen = 0 ∨ pcb.unacked ≠ [] ∨ pcb.unsent ≠ [])
      .ok (.MEM, tcpMemErr pcb)
    | some (q :: qs, queuelen) =>
      let (unsent, queuelen) ← tcpEnqueueAppend pcb flags copy q qs queuelen
      .ok (.OK, tcpEnqueueCommit pcb arg.length flags more unsent queuelen)

/-- `tcp_send_ctrl`. -/
def tcpSendCtrl (o : Opts) (alloc : ℕ → Bool) (pcb : TcpPcb) (flags : TcpFlags) :
    Except Abort (Err × TcpPcb) :=
  tcpEnqueue o alloc pcb [] flags true false false

/-- `tcp_write`. -/
def tcpWrite (o : Opts) (alloc : ℕ → Bool) (pcb : TcpPcb) (data : List UInt8) (copy more : Bool) :
    Except Abort (Err × TcpPcb) :=
  match pcb.state with
  | .ESTABLISHED | .CLOSE_WAIT | .SYN_SENT | .SYN_RCVD =>
    if data.length > 0 then tcpEnqueue o alloc pcb data {} copy more false else .ok (.OK, pcb)
  | _ => .ok (.CONN, pcb)

/-! ## `tcp_output` -/

/-- `tcp_output_segment`: the acknowledgement and the window are stamped, the retransmission timer
and a round-trip measurement are started if they do not run. -/
def tcpOutputSegment (ticks : BitVec 32) (seg : Seg) (pcb : TcpPcb) : TcpPcb × Sent :=
  ({ pcb with
      rcv_ann_right_edge := pcb.rcv_nxt.adv pcb.rcv_ann_wnd
      rtime := if pcb.rtime = -1 then 0 else pcb.rtime
      rttest := if pcb.rttest = 0 then ticks else pcb.rttest
      rtseq := if pcb.rttest = 0 then seg.seqno else pcb.rtseq },
   { seqno := seg.seqno, tcplen := seg.tcplen, ackno := pcb.rcv_nxt, wnd := pcb.rcv_ann_wnd })

/-- `tcp_do_output_nagle`. -/
def tcpDoOutputNagle (pcb : TcpPcb) : Bool :=
  decide (pcb.unacked = []) || pcb.flags.nodelay || pcb.flags.infr ||
    match pcb.unsent with
    | [] => false
    | [s] => decide (s.len ≥ pcb.mss)
    | _ :: _ :: _ => true

/-- The place in `unacked` for a segment that was just sent: at the end, or, if it lies before the
last one, in front of the first segment that does not lie before it. -/
def unackedInsert (unacked : List Seg) (seg : Seg) : List Seg :=
  match unacked.getLast? with
  | none => [seg]
  | some useg =>
    if Serial.lt seg.seqno useg.seqno then
      unacked.takeWhile (fun s => decide (Serial.lt s.seqno seg.seqno)) ++
        seg :: unacked.dropWhile (fun s => decide (Serial.lt s.seqno seg.seqno))
    else unacked ++ [seg]

/-- One round of the loop of `tcp_output`: `seg`, the first segment on `unsent`, is sent and moved
to `unacked`. -/
def tcpOutputOne (ticks : BitVec 32) (pcb : TcpPcb) (seg : Seg) (rest : List Seg) :
    TcpPcb × Sent :=
  let synSent := decide (pcb.state = .SYN_SENT)
  let seg := { seg with flags := { seg.flags with ack := seg.flags.ack || !synSent } }
  let (pcb, s) := tcpOutputSegment ticks seg { pcb with
    unsent := rest
    flags := if synSent then pcb.flags
      else { pcb.flags with ack_delay := false, ack_now := false } }
  ({ pcb with
      snd_nxt := if Serial.lt pcb.snd_nxt seg.endSeq then seg.endSeq else pcb.snd_nxt
      unacked := if seg.tcplen > 0 then unackedInsert pcb.unacked seg else pcb.unacked }, s)

/-- `seqno - lastack + len`, what the segment needs of the window. -/
def needs (pcb : TcpPcb) (seg : Seg) : ℕ := Serial.dist pcb.lastack (seg.seqno.adv seg.len)

/-- The loop of `tcp_output`, over `unsent`. -/
def tcpOutputLoop (ticks : BitVec 32) (wnd : ℕ) :
    (unsent : List Seg) → TcpPcb → List Sent → Except Abort (TcpPcb × List Sent)
  | [], pcb, out => .ok (pcb, out)
  | seg :: rest, pcb, out =>
    if needs pcb seg ≤ wnd then
      if seg.flags.rst then .error .rstNotExpected
      else if !tcpDoOutputNagle pcb && !(pcb.flags.naglememerr || pcb.flags.fin) then .ok (pcb, out)
      else
        let r := tcpOutputOne ticks pcb seg rest
        tcpOutputLoop ticks wnd rest r.1 (out ++ [r.2])
    else .ok (pcb, out)

/-- No data of `unsent` fit in `wnd`. -/
def noDataFits (pcb : TcpPcb) (wnd : ℕ) : Bool :=
  match pcb.unsent with
  | [] => true
  | seg :: _ => decide (needs pcb seg > wnd)

/-- The end of `tcp_output`: the persist timer is prepared if a segment that the peer's window has
no room for is left. -/
def tcpOutputPersist (pcb : TcpPcb) : TcpPcb :=
  let stuck := decide (pcb.unsent ≠ []) && decide (pcb.persist_backoff = 0) &&
    noDataFits pcb pcb.snd_wnd
  { pcb with
    persist_cnt := if stuck then 0 else pcb.persist_cnt
    persist_backoff := if stuck then 1 else pcb.persist_backoff
    flags := { pcb.flags with naglememerr := false } }

/-- `tcp_output`, outside of input processing (`tcp_input_pcb != pcb`), with the outcome of the
`pbuf_alloc` of `tcp_send_empty_ack`. -/
def tcpOutput (ticks : BitVec 32) (alloc : Bool) (pcb : TcpPcb) :
    Except Abort (TcpPcb × List Sent) :=
  let wnd := min pcb.snd_wnd pcb.cwnd
  if pcb.flags.ack_now && noDataFits pcb wnd then .ok (tcpSendEmptyAck alloc pcb)
  else do
    let (pcb, out) ← tcpOutputLoop ticks wnd pcb.unsent pcb []
    return (tcpOutputPersist pcb, out)

/-- `tcp_output`, with the test of its first lines: a call for the pcb whose input is being
processed does nothing. -/
def tcpOutputUnlessInput (input : Bool) (ticks : BitVec 32) (alloc : Bool) (pcb : TcpPcb) :
    Except Abort (TcpPcb × List Sent) :=
  if input then .ok (pcb, []) else tcpOutput ticks alloc pcb

/-- `tcp_ack_now`. -/
def tcpAckNow (input : Bool) (ticks : BitVec 32) (alloc : Bool) (pcb : TcpPcb) :
    Except Abort (TcpPcb × List Sent) :=
  tcpOutputUnlessInput input ticks alloc { pcb with flags := { pcb.flags with ack_now := true } }

/-! ## Retransmission and probes -/

/-- `tcp_rexmit_rto`: all unacknowledged segments go to the head of `unsent`. -/
def tcpRexmitRto (ticks : BitVec 32) (alloc : Bool) (pcb : TcpPcb) :
    Except Abort (TcpPcb × List Sent) :=
  if pcb.unacked = [] then .ok (pcb, [])
  else tcpOutput ticks alloc { pcb with
    unsent := pcb.unacked ++ pcb.unsent
    unacked := []
    nrtx := (pcb.nrtx + 1) % 2^8
    rttest := 0 }

/-- `tcp_rexmit`: the first unacknowledged segment goes to its place in `unsent`. -/
def tcpRexmit (pcb : TcpPcb) : TcpPcb :=
  match pcb.unacked with
  | [] => pcb
  | seg :: rest =>
    { pcb with
      unacked := rest
      unsent := pcb.unsent.takeWhile (fun s => decide (Serial.lt s.seqno seg.seqno)) ++
        seg :: pcb.unsent.dropWhile (fun s => decide (Serial.lt s.seqno seg.seqno))
      nrtx := (pcb.nrtx + 1) % 2^8
      rttest := 0 }

/-- `tcp_rexmit_fast`. -/
def tcpRexmitFast (pcb : TcpPcb) : TcpPcb :=
  if pcb.unacked ≠ [] ∧ pcb.flags.infr = false then
    let pcb := tcpRexmit pcb
    let ssthresh := if pcb.cwnd > pcb.snd_wnd then pcb.snd_wnd / 2 else pcb.cwnd / 2
    let ssthresh := if ssthresh < 2 * pcb.mss then u16 (2 * pcb.mss) else ssthresh
    { pcb with
      ssthresh
      cwnd := u16 (ssthresh + 3 * pcb.mss)
      flags := { pcb.flags with infr := true } }
  else pcb

/-- `tcp_keepalive`, with the outcome of its `pbuf_alloc`. -/
def tcpKeepalive (alloc : Bool) (pcb : TcpPcb) : TcpPcb × List Sent :=
  if alloc then
    let (pcb, s) := tcpOutputSetHeader pcb (pcb.snd_nxt - 1) 0
    (pcb, [s])
  else (pcb, [])

/-- `tcp_zero_window_probe`, with the outcome of its `pbuf_alloc`: one byte, or the FIN, of the
first segment that is not acknowledged. -/
def tcpZeroWindowProbe (alloc : Bool) (pcb : TcpPcb) : TcpPcb × List Sent :=
  match pcb.unacked ++ pcb.unsent with
  | [] => (pcb, [])
  | seg :: _ =>
    if alloc then
      let (pcb, s) := tcpOutputSetHeader pcb seg.seqno 1
      (pcb, [s])
    else (pcb, [])

end Lwip.Tcp
