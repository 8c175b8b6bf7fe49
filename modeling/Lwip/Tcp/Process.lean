import Lwip.Tcp.Receive

/-!
# The state machine

`tcp_process`, `tcp_timewait_input` and the part of `tcp_input` that follows the search for the pcb
(`tcp_in.c`), `tcp_close`, `tcp_pcb_purge`, `tcp_pcb_remove` and the two timers (`tcp.c`), each for
one connection.

The application acts through the calls that its callbacks make (`AppCall`). They run while the
segment is being processed, so that `tcp_output` does nothing in them. `tcp_ticks` is a parameter of
every function that reads it.
-/

namespace Lwip.Tcp

/-! ## Options -/

/-- `tcp_parseopt` from the option bytes `opts` on, with the `mss` found so far. Every round takes a
byte at least, so the number of bytes is enough `fuel`. A length byte that lies past the options is
read from the payload, but ends the loop whatever its value. -/
def tcpParseopt (o : Opts) : (fuel : ℕ) → (opts : List UInt8) → (mss : ℕ) → ℕ
  | 0, _, mss => mss
  | _ + 1, [], mss => mss
  | fuel + 1, opt :: rest, mss =>
    if opt = 0 then mss
    else if opt = 1 then tcpParseopt o fuel rest mss
    else if opt = 2 then
      match rest with
      | len :: hi :: lo :: rest =>
        if len ≠ 4 then mss
        else
          let m := hi.toNat * 2^8 + lo.toNat
          tcpParseopt o fuel rest (if m > o.TCP_MSS ∨ m = 0 then o.TCP_MSS else m)
      | _ => mss
    else
      match rest with
      | [] => mss
      | len :: _ =>
        if len = 0 then mss else tcpParseopt o fuel ((opt :: rest).drop len.toNat) mss

/-! ## Closing -/

/-- `tcp_pcb_purge`. -/
def tcpPcbPurge (pcb : TcpPcb) : TcpPcb :=
  match pcb.state with
  | .CLOSED | .TIME_WAIT | .LISTEN => pcb
  | _ => { pcb with refused_data := none, rtime := -1, ooseq := [], unsent := [], unacked := [] }

/-- `tcp_pcb_remove`: the ACK that it may send before the pcb is freed. -/
def tcpPcbRemove (input : Bool) (ticks : BitVec 32) (alloc : Bool) (pcb : TcpPcb) :
    Except Abort (List Sent) := do
  let pcb := tcpPcbPurge pcb
  if decide (pcb.state ≠ .TIME_WAIT) && decide (pcb.state ≠ .LISTEN) && pcb.flags.ack_delay then
    let r ← tcpAckNow input ticks alloc pcb
    .ok r.2
  else .ok []

/-- The FIN of `tcp_close`, after which the pcb is in the state `next`. `alloc` are the allocations
of `tcp_enqueue` and `ack` that of `tcp_send_empty_ack`. -/
def tcpCloseWith (o : Opts) (input : Bool) (ticks : BitVec 32) (alloc : ℕ → Bool) (ack : Bool)
    (next : TcpState) (pcb : TcpPcb) : Except Abort (Err × Option TcpPcb × List Sent) := do
  let r ← tcpSendCtrl o alloc pcb { fin := true }
  if r.1 = .OK then
    let out ← tcpOutputUnlessInput input ticks ack { r.2 with state := next }
    .ok (.OK, some out.1, out.2)
  else .ok (r.1, some r.2, [])

/-- `tcp_close`. The pcb is freed at once in the states in which no connection was made. -/
def tcpClose (o : Opts) (input : Bool) (ticks : BitVec 32) (alloc : ℕ → Bool) (ack : Bool)
    (pcb : TcpPcb) : Except Abort (Err × Option TcpPcb × List Sent) :=
  match pcb.state with
  | .CLOSED | .LISTEN => .ok (.OK, none, [])
  | .SYN_SENT => do
    let out ← tcpPcbRemove input ticks ack pcb
    .ok (.OK, none, out)
  | .SYN_RCVD | .ESTABLISHED => tcpCloseWith o input ticks alloc ack .FIN_WAIT_1 pcb
  | .CLOSE_WAIT => tcpCloseWith o input ticks alloc ack .LAST_ACK pcb
  | _ => .ok (.OK, some pcb, [])

/-- `tcp_abandon`: the pcb is freed with its queues, after the ACK that `tcp_pcb_remove` may send.
Unless it was in `TIME_WAIT`, a RST with the numbers of the pcb follows, if `reset` asks for it. -/
def tcpAbandon (ticks : BitVec 32) (ack reset : Bool) (pcb : TcpPcb) :
    Except Abort (List Sent × Option (Serial × Serial)) := do
  let sent ← tcpPcbRemove false ticks ack pcb
  .ok (sent, if decide (pcb.state ≠ .TIME_WAIT) && reset then some (pcb.snd_nxt, pcb.rcv_nxt)
    else none)

/-- `tcp_abort`. -/
def tcpAbort (ticks : BitVec 32) (ack : Bool) (pcb : TcpPcb) :
    Except Abort (List Sent × Option (Serial × Serial)) :=
  tcpAbandon ticks ack true pcb

/-- A call that the application makes on a connection. -/
inductive AppCall where
  | write (alloc : ℕ → Bool) (data : List UInt8) (copy more : Bool)
  | recved (alloc : Bool) (len : ℕ)
  | close (alloc : ℕ → Bool) (ack : Bool)

/-- One call, and the pcb after it unless it was freed. -/
def appCall (o : Opts) (input : Bool) (ticks : BitVec 32) (pcb : TcpPcb) :
    AppCall → Except Abort (Option TcpPcb × List Sent)
  | .write alloc data copy more => do
    let r ← tcpWrite o alloc pcb data copy more
    .ok (some r.2, [])
  | .recved alloc len => do
    let r ← tcpRecved o input ticks alloc pcb len
    .ok (some r.1, r.2)
  | .close alloc ack => do
    let r ← tcpClose o input ticks alloc ack pcb
    .ok r.2

/-- The calls of a callback, one after the other. -/
def appCalls (o : Opts) (input : Bool) (ticks : BitVec 32) :
    (pcb : TcpPcb) → List AppCall → Except Abort (Option TcpPcb × List Sent)
  | pcb, [] => .ok (some pcb, [])
  | pcb, c :: cs => do
    let r ← appCall o input ticks pcb c
    match r.1 with
    | none => .ok (none, r.2)
    | some pcb => do
      let r' ← appCalls o input ticks pcb cs
      .ok (r'.1, r.2 ++ r'.2)

/-! ## `tcp_process` -/

/-- What the application does in the callbacks of one segment. -/
structure Callbacks where
  /-- The `recv` callback takes the data that it refused before. -/
  takesRefused : Bool := true
  /-- The `accept` callback takes the connection. -/
  accepts : Bool := true
  /-- The calls that the `accept` callback makes. -/
  onAccept : List AppCall := []
  /-- The calls that the other callbacks make. -/
  calls : List AppCall := []
  /-- The `recv` callback takes the data. -/
  takesData : Bool := true

/-- What `tcp_process` leaves. -/
structure Proc where
  /-- The pcb, unless it was freed. -/
  pcb : Option TcpPcb
  recv_data : List UInt8 := []
  got_fin : Bool := false
  /-- `recv_flags & TF_RESET`. -/
  reset : Bool := false
  /-- `recv_flags & TF_CLOSED`. -/
  closed : Bool := false
  sent : List Sent := []
  /-- The sequence and the acknowledgement number of the RST sent, if any. -/
  rst : Option (Serial × Serial) := none
  /-- The segments that `tcp_pcb_purge` took off the send queues. -/
  purged : List Seg := []

/-- The RST that answers a segment. -/
def In.rstFor (i : In) : Serial × Serial := (i.ackno, i.seg.seqno.adv i.tcplen)

/-- The move to `TIME_WAIT`. -/
def enterTimeWait (rx : Rx) (pcb : TcpPcb) : Proc where
  pcb := some { tcpPcbPurge pcb with state := .TIME_WAIT }
  recv_data := rx.recv_data
  got_fin := rx.got_fin
  sent := rx.sent
  purged := rx.pcb.unacked ++ rx.pcb.unsent

/-- What `tcp_receive` leaves, with the pcb changed to `pcb`. -/
def Rx.toProc (rx : Rx) (pcb : TcpPcb) : Proc where
  pcb := some pcb
  recv_data := rx.recv_data
  got_fin := rx.got_fin
  sent := rx.sent

/-- `tcp_eff_send_mss`, with the `mtu` of the outgoing interface, or 0 if there is none. The length
of the two headers is 40, and the difference is a `u16_t`. -/
def tcpEffSendMss (mtu : BitVec 16) (sendmss : ℕ) : ℕ :=
  if mtu ≠ 0 then min sendmss (u16sub mtu.toNat 40) else sendmss

/-- The state `SYN_SENT`. -/
def processSynSent (m : RxAlloc) (pcb : TcpPcb) (i : In) : Except Abort Proc :=
  match pcb.unacked with
  | [] => if i.seg.flags.ack && i.seg.flags.syn then .error .unackedNull
    else .ok { pcb := some pcb, rst := if i.seg.flags.ack then some i.rstFor else none }
  | rseg :: rest =>
    if i.seg.flags.ack && i.seg.flags.syn && decide (i.ackno = rseg.seqno.adv 1) then do
      lwipAssert .queuelenZero (pcb.snd_queuelen > 0)
      let mss := tcpEffSendMss m.mtu pcb.mss
      .ok { pcb := some (tcpAckNowInput { pcb with
        snd_buf := u16 (pcb.snd_buf + 1)
        rcv_nxt := i.seg.seqno.adv 1
        rcv_ann_right_edge := i.seg.seqno.adv 1
        lastack := i.ackno
        snd_wnd := i.wnd.toNat
        snd_wl1 := i.seg.seqno - 1
        state := .ESTABLISHED
        mss
        ssthresh := u16 (mss * 10)
        cwnd := if pcb.cwnd = 1 then u16 (mss * 2) else mss
        snd_queuelen := pcb.snd_queuelen - 1
        unacked := rest
        rtime := if rest = [] then -1 else 0
        nrtx := if rest = [] then pcb.nrtx else 0 }) }
    else .ok { pcb := some pcb, rst := if i.seg.flags.ack then some i.rstFor else none }

/-- The state `SYN_RCVD`. -/
def processSynRcvd (o : Opts) (ticks : BitVec 32) (m : RxAlloc) (cb : Callbacks) (pcb : TcpPcb)
    (i : In) : Except Abort Proc :=
  if i.seg.flags.ack then
    if Serial.between i.ackno (pcb.lastack.adv 1) pcb.snd_nxt then do
      let acc ← appCalls o true ticks { pcb with state := .ESTABLISHED } cb.onAccept
      match acc.1 with
      | none => .ok { pcb := none }
      | some pcb =>
        if !cb.accepts then .ok { pcb := none }
        else do
          let rx ← tcpReceive o ticks m pcb i
          let pcb' := { rx.pcb with
            acked := rx.pcb.acked - 1
            cwnd := if pcb.cwnd = 1 then u16 (rx.pcb.mss * 2) else rx.pcb.mss }
          .ok (rx.toProc
            (if rx.got_fin then { tcpAckNowInput pcb' with state := .CLOSE_WAIT } else pcb'))
    else .ok { pcb := some pcb, rst := some i.rstFor }
  else if i.seg.flags.syn && decide (i.seg.seqno = pcb.rcv_nxt - 1) then
    .ok { pcb := some (tcpRexmit pcb) }
  else .ok { pcb := some pcb }

/-- The test of the closing states that the peer has acknowledged everything sent. -/
def ackedAll (pcb : TcpPcb) (i : In) : Bool := i.seg.flags.ack && decide (i.ackno = pcb.snd_nxt)

/-- The states from `ESTABLISHED` on, after `tcp_receive`. -/
def processReceived (rx : Rx) (i : In) : TcpState → Proc
  | .ESTABLISHED | .CLOSE_WAIT =>
    rx.toProc (if rx.got_fin then { tcpAckNowInput rx.pcb with state := .CLOSE_WAIT } else rx.pcb)
  | .FIN_WAIT_1 =>
    if rx.got_fin then
      if ackedAll rx.pcb i then enterTimeWait rx (tcpAckNowInput rx.pcb)
      else rx.toProc { tcpAckNowInput rx.pcb with state := .CLOSING }
    else if ackedAll rx.pcb i then rx.toProc { rx.pcb with state := .FIN_WAIT_2 }
    else rx.toProc rx.pcb
  | .FIN_WAIT_2 =>
    if rx.got_fin then enterTimeWait rx (tcpAckNowInput rx.pcb) else rx.toProc rx.pcb
  | .CLOSING => if ackedAll rx.pcb i then enterTimeWait rx rx.pcb else rx.toProc rx.pcb
  | .LAST_ACK => { rx.toProc rx.pcb with closed := ackedAll rx.pcb i }
  | _ => rx.toProc rx.pcb

/-- A RST, which is acceptable if its sequence number is in the window, or, in the state `SYN_SENT`,
if it acknowledges the SYN. -/
def processRst (pcb : TcpPcb) (i : In) : Proc :=
  let acceptable := match pcb.state with
    | .SYN_SENT => decide (i.ackno = pcb.snd_nxt)
    | _ => decide (Serial.between i.seg.seqno pcb.rcv_nxt (pcb.rcv_nxt.adv pcb.rcv_wnd))
  if acceptable then
    { pcb := some { pcb with flags := { pcb.flags with ack_delay := false } }, reset := true }
  else { pcb := some pcb }

/-- What `tcp_process` notes of every segment that gets past the first tests. -/
def processNote (o : Opts) (ticks : BitVec 32) (pcb : TcpPcb) (i : In) : TcpPcb :=
  { pcb with tmr := ticks, keep_cnt_sent := 0, mss := tcpParseopt o i.opts.length i.opts pcb.mss }

/-- `tcp_process`. -/
def tcpProcess (o : Opts) (ticks : BitVec 32) (m : RxAlloc) (cb : Callbacks) (pcb : TcpPcb)
    (i : In) : Except Abort Proc :=
  if i.seg.flags.rst then .ok (processRst pcb i)
  else if i.seg.flags.syn && decide (pcb.state ≠ .SYN_SENT) && decide (pcb.state ≠ .SYN_RCVD) then
    -- Cope with new connection attempt after remote end crashed
    .ok { pcb := some (tcpAckNowInput pcb) }
  else
    match pcb.state with
    | .SYN_SENT => processSynSent m (processNote o ticks pcb i) i
    | .SYN_RCVD => processSynRcvd o ticks m cb (processNote o ticks pcb i) i
    | .CLOSED | .LISTEN | .TIME_WAIT => .ok { pcb := some (processNote o ticks pcb i) }
    | st => do
      let rx ← tcpReceive o ticks m (processNote o ticks pcb i) i
      .ok (processReceived rx i st)

/-! ## `tcp_input` -/

/-- A connection: on the list of active pcbs, on that of the pcbs in `TIME_WAIT`, or freed. -/
inductive Conn where
  | active (pcb : TcpPcb)
  | timeWait (pcb : TcpPcb)
  | gone

/-- The pcb of a connection on the list of active pcbs. -/
def Conn.active? : Conn → Option TcpPcb
  | .active pcb => some pcb
  | .timeWait _ | .gone => none

/-- A computation that is checked to end in an active pcb. -/
theorem exists_active_of_any {x : Except Abort Conn} {p : TcpPcb → Bool}
    (h : (x.toOption.bind Conn.active?).any p = true) :
    ∃ pcb, x = .ok (.active pcb) ∧ p pcb = true := by
  cases x with
  | error a => cases h
  | ok c =>
    cases c with
    | active pcb => exact ⟨pcb, rfl, h⟩
    | timeWait pcb => cases h
    | gone => cases h

/-- The data that the `recv` callback refuses are kept. -/
def keepRefused (cb : Callbacks) (pr : Proc) (pcb : TcpPcb) : TcpPcb :=
  { pcb with
    refused_data :=
      if pr.recv_data ≠ [] ∧ cb.takesData = false then some pr.recv_data else pcb.refused_data }

/-- The end of `tcp_input` for a connection that goes on: the callbacks, and `tcp_output`. -/
def tcpInputFinish (o : Opts) (ticks : BitVec 32) (cb : Callbacks) (out : Bool) (pr : Proc)
    (pcb : TcpPcb) : Except Abort (Conn × List Sent) := do
  let app ← appCalls o true ticks pcb cb.calls
  match app.1 with
  | none => .ok (.gone, pr.sent ++ app.2)
  | some pcb => do
    let r ← tcpOutput ticks out (keepRefused cb pr pcb)
    .ok (if r.1.state = .TIME_WAIT then .timeWait r.1 else .active r.1, pr.sent ++ app.2 ++ r.2)

/-- `tcp_input` from the point on where the pcb is found, with the outcome `out` of the allocation
of its last `tcp_output`. While the application refuses data that it was given before, segments are
dropped. -/
def tcpInput (o : Opts) (ticks : BitVec 32) (m : RxAlloc) (cb : Callbacks) (out : Bool)
    (pcb : TcpPcb) (i : In) : Except Abort (Conn × List Sent) :=
  if decide (pcb.refused_data ≠ none) && !cb.takesRefused then .ok (.active pcb, [])
  else do
    let pr ← tcpProcess o ticks m cb { pcb with refused_data := none } i
    match pr.pcb with
    | none => .ok (.gone, pr.sent)
    | some pcb' =>
      if pr.reset || pr.closed then do
        let r ← tcpPcbRemove true ticks out pcb'
        .ok (.gone, pr.sent ++ r)
      else tcpInputFinish o ticks cb out pr pcb'

/-- `tcp_timewait_input`. -/
def tcpTimewaitInput (ticks : BitVec 32) (out : Bool) (pcb : TcpPcb) (i : In) :
    Except Abort (TcpPcb × List Sent) :=
  if i.seg.flags.rst then .ok (pcb, [])
  else if i.seg.flags.syn &&
      decide (Serial.between i.seg.seqno pcb.rcv_nxt (pcb.rcv_nxt.adv pcb.rcv_wnd)) then
    -- A RST is sent, on behalf of no pcb.
    .ok (pcb, [])
  else
    let pcb := if !i.seg.flags.syn && i.seg.flags.fin then { pcb with tmr := ticks } else pcb
    if i.tcplen > 0 then
      tcpOutput ticks out { pcb with flags := { pcb.flags with ack_now := true } }
    else .ok (pcb, [])

/-! ## The timers -/

/-- `tcp_backoff`. -/
def tcpBackoff : List ℕ := [1, 2, 3, 4, 5, 6, 7, 7, 7, 7, 7, 7, 7]

/-- `tcp_persist_backoff`. -/
def tcpPersistBackoff : List ℕ := [3, 6, 12, 24, 48, 96, 120]

/-- The outcomes that a slow timer tick depends on: the allocations of the probe, of the ACK of a
retransmission, of the keepalive and of the poll's `tcp_output`, and what the `poll` callback calls
and returns. -/
structure TickEnv where
  probe : Bool := true
  rto : Bool := true
  keepalive : Bool := true
  out : Bool := true
  poll : List AppCall := []
  pollOk : Bool := true

/-- The persist timer of `tcp_slowtmr`. -/
def slowtmrPersist (e : TickEnv) (pcb : TcpPcb) : TcpPcb × List Sent :=
  let cnt := pcb.persist_cnt + 1
  if cnt ≥ tcpPersistBackoff.getD (pcb.persist_backoff - 1) 0 then
    tcpZeroWindowProbe e.probe { pcb with
      persist_cnt := 0
      persist_backoff := if pcb.persist_backoff < 7 then pcb.persist_backoff + 1
        else pcb.persist_backoff }
  else ({ pcb with persist_cnt := cnt }, [])

/-- The retransmission timer of `tcp_slowtmr`, when it is time to retransmit. -/
def slowtmrRto (ticks : BitVec 32) (e : TickEnv) (pcb : TcpPcb) :
    Except Abort (TcpPcb × List Sent) :=
  if pcb.state ≠ .SYN_SENT ∧ tcpBackoff[pcb.nrtx]? = none then .error .backoffOutOfBounds
  else
    let ssthresh := min pcb.cwnd pcb.snd_wnd / 2
    tcpRexmitRto ticks e.rto { pcb with
      rto := if pcb.state = .SYN_SENT then pcb.rto
        else s16 ((pcb.sa >>> (3 : ℕ) + pcb.sv) * 2 ^ tcpBackoff.getD pcb.nrtx 0)
      rtime := 0
      ssthresh := if ssthresh < pcb.mss then u16 (pcb.mss * 2) else ssthresh
      cwnd := pcb.mss }

/-- The retransmission timer has run and expires at this tick. -/
def rtoExpires (pcb : TcpPcb) : Bool :=
  decide (pcb.persist_backoff = 0) && decide (pcb.unacked ≠ []) &&
    decide ((if pcb.rtime ≥ 0 then s16 (pcb.rtime + 1) else pcb.rtime) ≥ pcb.rto)

/-- The pcb has retransmitted as often as it may. -/
def slowtmrMaxed (o : Opts) (pcb : TcpPcb) : Bool :=
  (decide (pcb.state = .SYN_SENT) && decide (pcb.nrtx = o.TCP_SYNMAXRTX)) ||
    decide (pcb.nrtx = o.TCP_MAXRTX)

/-- The retransmission and the persist timer. -/
def slowtmrRexmit (o : Opts) (ticks : BitVec 32) (e : TickEnv) (pcb : TcpPcb) :
    Except Abort (TcpPcb × List Sent) :=
  if slowtmrMaxed o pcb then .ok (pcb, [])
  else if pcb.persist_backoff > 0 then .ok (slowtmrPersist e pcb)
  else
    let pcb' := { pcb with rtime := if pcb.rtime ≥ 0 then s16 (pcb.rtime + 1) else pcb.rtime }
    if rtoExpires pcb then slowtmrRto ticks e pcb' else .ok (pcb', [])

/-- The idle time since the last segment, in ticks. -/
def idle (ticks : BitVec 32) (pcb : TcpPcb) : ℕ := (ticks - pcb.tmr).toNat

/-- The keepalive check applies. -/
def keepaliveOn (pcb : TcpPcb) : Bool :=
  pcb.keepalive && (decide (pcb.state = .ESTABLISHED) || decide (pcb.state = .CLOSE_WAIT))

/-- The keepalive probe. -/
def slowtmrKeepalive (ticks : BitVec 32) (e : TickEnv) (pcb : TcpPcb) : TcpPcb × List Sent :=
  if keepaliveOn pcb && !decide (idle ticks pcb > (pcb.keep_idle + 9 * 75000) % 2^32 / 500) &&
      decide (idle ticks pcb > (pcb.keep_idle + pcb.keep_cnt_sent * 75000) % 2^32 / 500) then
    let r := tcpKeepalive e.keepalive pcb
    ({ r.1 with keep_cnt_sent := (pcb.keep_cnt_sent + 1) % 2^8 }, r.2)
  else (pcb, [])

/-- The out-of-sequence data that are dropped after a long silence. -/
def slowtmrOoseq (ticks : BitVec 32) (pcb : TcpPcb) : TcpPcb :=
  { pcb with ooseq := if idle ticks pcb ≥ (pcb.rto * 6 % 2^32).toNat then [] else pcb.ooseq }

/-- The pcb has retransmitted, or waited, too often or too long. -/
def slowtmrRemoves (o : Opts) (ticks : BitVec 32) (before after : TcpPcb) : Bool :=
  slowtmrMaxed o before ||
    (decide (after.state = .FIN_WAIT_2) && decide (idle ticks after > 20000 / 500)) ||
    (keepaliveOn after && decide (idle ticks after > (after.keep_idle + 9 * 75000) % 2^32 / 500)) ||
    (decide (after.state = .SYN_RCVD) && decide (idle ticks after > 20000 / 500)) ||
    (decide (after.state = .LAST_ACK) && decide (idle ticks after > 2 * 60000 / 500))

/-- The poll of the application at the end of a tick. -/
def slowtmrPoll (o : Opts) (ticks : BitVec 32) (e : TickEnv) (pcb : TcpPcb) :
    Except Abort (Conn × List Sent) :=
  let polltmr := (pcb.polltmr + 1) % 2^8
  if polltmr ≥ pcb.pollinterval then do
    let app ← appCalls o false ticks { pcb with polltmr := 0 } e.poll
    match app.1 with
    | none => .ok (.gone, app.2)
    | some pcb =>
      if e.pollOk then do
        let r ← tcpOutput ticks e.out pcb
        .ok (.active r.1, app.2 ++ r.2)
      else .ok (.active pcb, app.2)
  else .ok (.active { pcb with polltmr := polltmr }, [])

/-- `tcp_slowtmr` for one active pcb; `ticks` is the value after the increment. -/
def tcpSlowtmr (o : Opts) (ticks : BitVec 32) (e : TickEnv) (pcb : TcpPcb) :
    Except Abort (Conn × List Sent) := do
  let rex ← slowtmrRexmit o ticks e pcb
  let ka := slowtmrKeepalive ticks e rex.1
  let pcb' := slowtmrOoseq ticks ka.1
  if slowtmrRemoves o ticks pcb pcb' then .ok (.gone, rex.2 ++ ka.2)
  else do
    let r ← slowtmrPoll o ticks e pcb'
    .ok (r.1, rex.2 ++ ka.2 ++ r.2)

/-- `tcp_slowtmr` for one pcb in `TIME_WAIT`. -/
def tcpSlowtmrTimeWait (ticks : BitVec 32) (pcb : TcpPcb) : Conn :=
  if idle ticks pcb > 2 * 60000 / 500 then .gone else .timeWait pcb

/-- `tcp_fasttmr` for one active pcb: the data that the application refused are offered again, and
a delayed ACK is sent. -/
def tcpFasttmr (ticks : BitVec 32) (takesRefused out : Bool) (pcb : TcpPcb) :
    Except Abort (TcpPcb × List Sent) := do
  let pcb := { pcb with refused_data := if takesRefused then none else pcb.refused_data }
  if pcb.flags.ack_delay then
    let r ← tcpAckNow false ticks out pcb
    .ok ({ r.1 with flags := { r.1.flags with ack_delay := false, ack_now := false } }, r.2)
  else .ok (pcb, [])

end Lwip.Tcp
