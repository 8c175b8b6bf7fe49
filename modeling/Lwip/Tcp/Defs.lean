import Lwip.Arch
import Lwip.Lib.Serial
import Lwip.Lib.Tiling

/-!
# The data of the TCP code

The types of `lwip/tcp.h` and the compile-time options of `lwip/opt.h` that the TCP code reads.
A `struct tcp_pcb` is a flat record of the source's fields; its three segment queues are lists, in
the order of the source's `next` pointers. Sequence numbers are 32-bit words. The 16-bit fields are
natural numbers, with the reduction modulo `2^16` written where the source's arithmetic can wrap.

An `LWIP_ASSERT` that fails calls `abort()` in this build, so the functions return in
`Except Abort`, and the constructors of `Abort` name the assertions.
-/

namespace Lwip.Tcp

/-- The options of `lwipopts.h` and `opt.h` that the TCP code is compiled with. The two last fields
are compile-time checks of `init.c`. -/
structure Opts where
  /-- `TCP_MSS`. -/
  TCP_MSS : ℕ
  /-- `TCP_WND`, the size of the receive window. -/
  TCP_WND : ℕ
  /-- `TCP_SND_BUF`, the sender buffer space in bytes. -/
  TCP_SND_BUF : ℕ
  /-- `TCP_SND_QUEUELEN`, the sender buffer space in pbufs. -/
  TCP_SND_QUEUELEN : ℕ
  /-- `TCP_WND_UPDATE_THRESHOLD`. -/
  TCP_WND_UPDATE_THRESHOLD : ℕ
  /-- `TCP_MAXRTX`. -/
  TCP_MAXRTX : ℕ
  /-- `TCP_SYNMAXRTX`. -/
  TCP_SYNMAXRTX : ℕ
  /-- `TCP_WND` must fit in a `u16_t`. -/
  wnd_le : TCP_WND ≤ 0xffff
  /-- `TCP_SND_QUEUELEN` must fit in a `u16_t`. -/
  queuelen_le : TCP_SND_QUEUELEN ≤ 0xffff
  /-- `TCP_MSS` is assigned to the `u16_t` field `mss`. -/
  mss_le : TCP_MSS ≤ 0xffff
  /-- `TCP_SND_BUF` is assigned to the `u16_t` field `snd_buf`. -/
  snd_buf_le : TCP_SND_BUF ≤ 0xffff

/-- The options `opt.h` derives from a segment size and a send buffer size when nothing else is
set. -/
def Opts.ofMss (mss sndBuf : ℕ) (h : 4 * mss ≤ 0xffff) (h' : 4 * sndBuf / mss ≤ 0xffff)
    (h'' : sndBuf ≤ 0xffff) : Opts where
  TCP_MSS := mss
  TCP_WND := 4 * mss
  TCP_SND_BUF := sndBuf
  TCP_SND_QUEUELEN := 4 * sndBuf / mss
  TCP_WND_UPDATE_THRESHOLD := 4 * mss / 4
  TCP_MAXRTX := 12
  TCP_SYNMAXRTX := 6
  wnd_le := h
  queuelen_le := h'
  mss_le := by omega
  snd_buf_le := h''

/-- The options of this build: `lib_test/lwipopts.h` sets none of them, so all are the defaults. -/
def Opts.shipped : Opts := Opts.ofMss 536 256 (by decide) (by decide) (by decide)

/-- The same with the smallest send buffer that `lwip_sanity_check` of `init.c` does not warn about,
two segments. -/
def Opts.sane : Opts := Opts.ofMss 536 1072 (by decide) (by decide) (by decide)

/-- The assertions of the TCP code. -/
inductive Abort where
  /-- `insane offset!` -/
  | insaneOffset
  /-- `pbuf too short!` -/
  | pbufTooShort
  /-- `tcp_receive: segment not trimmed correctly to rcv_wnd` -/
  | notTrimmedToRcvWnd
  /-- `tcp_receive: segment not trimmed correctly to ooseq queue` -/
  | notTrimmedToOoseq
  /-- `tcp_receive: tcplen > rcv_wnd` -/
  | tcplenGtRcvWnd
  /-- `tcp_receive: ooseq tcplen > rcv_wnd` -/
  | ooseqTcplenGtRcvWnd
  /-- `pcb->snd_queuelen >= pbuf_clen(next->p)` -/
  | queuelenLtClen
  /-- `tcp_receive: valid queue length` and `tcp_enqueue: valid queue length` -/
  | invalidQueueLength
  /-- `tcp_recved: len would wrap rcv_wnd` -/
  | recvedWraps
  /-- `tcp_enqueue: packet needs payload, options, or SYN/FIN (programmer violates API)` -/
  | enqueueNothing
  /-- `tcp_enqueue: pbufs on queue => at least one queue non-empty` -/
  | pbufsButQueuesEmpty
  /-- `tcp_enqueue: no pbufs on queue => both queues empty` -/
  | noPbufsButQueueNonempty
  /-- `check that first pbuf can hold the complete seglen` -/
  | firstPbufTooShort
  /-- `FIN enqueued together with data` -/
  | finWithData
  /-- `zero-length pbuf` -/
  | zeroLengthPbuf
  /-- `RST not expected here!` -/
  | rstNotExpected
  /-- `pcb->snd_queuelen > 0` -/
  | queuelenZero
  /-- Not an assertion: the `NULL` pointer `pcb->unacked` is followed in the state `SYN_SENT`. -/
  | unackedNull
  /-- Not an assertion: the congestion window is zero where the source divides by it. -/
  | divisionByZero
  /-- Not an assertion: `tcp_backoff` is read past its end. -/
  | backoffOutOfBounds
  deriving DecidableEq, Repr

/-- `enum tcp_state`. -/
inductive TcpState where
  | CLOSED | LISTEN | SYN_SENT | SYN_RCVD | ESTABLISHED | FIN_WAIT_1 | FIN_WAIT_2 | CLOSE_WAIT
  | CLOSING | LAST_ACK | TIME_WAIT
  deriving DecidableEq, Repr

/-- `pcb->state >= ESTABLISHED`, by the values of the enumeration. -/
def TcpState.geEstablished : TcpState → Bool
  | .CLOSED | .LISTEN | .SYN_SENT | .SYN_RCVD => false
  | _ => true

/-- The flag bits of a TCP header. -/
structure TcpFlags where
  fin : Bool := false
  syn : Bool := false
  rst : Bool := false
  psh : Bool := false
  ack : Bool := false
  deriving DecidableEq, Repr

/-- The `TF_` bits of `pcb->flags`. -/
structure PcbFlags where
  /-- `TF_ACK_DELAY`: delayed ACK. -/
  ack_delay : Bool := false
  /-- `TF_ACK_NOW`: immediate ACK. -/
  ack_now : Bool := false
  /-- `TF_INFR`: in fast recovery. -/
  infr : Bool := false
  /-- `TF_FIN`: the FIN segment was enqueued. -/
  fin : Bool := false
  /-- `TF_NODELAY`: Nagle's algorithm is disabled. -/
  nodelay : Bool := false
  /-- `TF_NAGLEMEMERR`: a memory error, output to prevent a delayed ACK. -/
  naglememerr : Bool := false
  deriving DecidableEq, Repr

/-- `struct tcp_seg` with its header and its pbuf chain, whose bytes are `p` and whose number of
pbufs is `clen`. -/
structure Seg where
  /-- `tcphdr->seqno`. -/
  seqno : Serial
  /-- `len`, the length of the data. -/
  len : ℕ
  /-- `TCPH_FLAGS(tcphdr)`. -/
  flags : TcpFlags := {}
  /-- The bytes of the pbuf chain after the headers. -/
  p : List UInt8 := []
  /-- `flags & TF_SEG_OPTS_MSS`: the segment carries the MSS option. -/
  optMss : Bool := false
  /-- `pbuf_clen(p)`. -/
  clen : ℕ := 1
  deriving DecidableEq, Repr

/-- `TCP_TCPLEN(seg)`: a FIN or a SYN occupies one sequence number. -/
def Seg.tcplen (s : Seg) : ℕ := s.len + if s.flags.fin || s.flags.syn then 1 else 0

/-- The first sequence number after the segment. -/
def Seg.endSeq (s : Seg) : Serial := s.seqno.adv s.tcplen

/-- The place of a segment on the line that starts at `r`. -/
def Seg.range (r : Serial) (s : Seg) : Range := ⟨Serial.dist r s.seqno, s.tcplen⟩

/-- `TCPH_FLAGS_SET(tcphdr, TCPH_FLAGS(tcphdr) | TCP_FIN)`. -/
def Seg.setFin (s : Seg) : Seg := { s with flags := { s.flags with fin := true } }

/-- The segment cut to `n` bytes: `len = n; pbuf_realloc(p, n)`. -/
def Seg.trim (s : Seg) (n : ℕ) : Seg := { s with len := n, p := s.p.take n }

/-- A segment handed to IP: its sequence number and length, and the acknowledgement number and
window stamped on it. -/
structure Sent where
  seqno : Serial
  tcplen : ℕ
  ackno : Serial
  wnd : ℕ
  deriving DecidableEq, Repr

/-- The right edge of the window that a sent segment announces. -/
def Sent.rightEdge (s : Sent) : Serial := s.ackno.adv s.wnd

/-- `struct tcp_pcb`. The ports, the addresses and the callbacks are not read by the functions
modelled here. -/
structure TcpPcb where
  state : TcpState
  flags : PcbFlags := {}
  rcv_nxt : Serial
  rcv_wnd : ℕ
  rcv_ann_wnd : ℕ
  rcv_ann_right_edge : Serial
  tmr : BitVec 32 := 0
  polltmr : ℕ := 0
  pollinterval : ℕ := 0
  rtime : ℤ := -1
  mss : ℕ
  rttest : BitVec 32 := 0
  rtseq : Serial := 0
  sa : ℤ := 0
  sv : ℤ := 6
  rto : ℤ := 6
  nrtx : ℕ := 0
  lastack : Serial
  dupacks : ℕ := 0
  cwnd : ℕ
  ssthresh : ℕ
  snd_nxt : Serial
  snd_wnd : ℕ
  snd_wl1 : Serial
  snd_wl2 : Serial
  snd_lbb : Serial
  acked : ℕ := 0
  snd_buf : ℕ
  snd_queuelen : ℕ := 0
  unsent : List Seg := []
  unacked : List Seg := []
  ooseq : List Seg := []
  refused_data : Option (List UInt8) := none
  keep_idle : ℕ := 7200000
  persist_cnt : ℕ := 0
  persist_backoff : ℕ := 0
  keep_cnt_sent : ℕ := 0
  /-- `so_options & SOF_KEEPALIVE`. -/
  keepalive : Bool := false
  deriving DecidableEq, Repr

/-- The pcb of a connection right after an active open: as `tcp_alloc` sets it up and `tcp_process`
leaves it in the state `SYN_SENT`, once the ACK of the handshake has announced the window. The
peer's initial sequence number is `irs`, ours is `iss`, and the peer announced the window `wnd`. -/
def TcpPcb.established (o : Opts) (irs iss : Serial) (wnd : ℕ) : TcpPcb where
  state := .ESTABLISHED
  rcv_nxt := irs.adv 1
  rcv_wnd := o.TCP_WND
  rcv_ann_wnd := o.TCP_WND
  rcv_ann_right_edge := (irs.adv 1).adv o.TCP_WND
  mss := min o.TCP_MSS 536
  lastack := iss.adv 1
  cwnd := 2 * min o.TCP_MSS 536
  ssthresh := 10 * min o.TCP_MSS 536
  snd_nxt := iss.adv 1
  snd_wnd := wnd
  snd_wl1 := irs - 1
  snd_wl2 := iss
  snd_lbb := iss.adv 1
  snd_buf := o.TCP_SND_BUF

end Lwip.Tcp
