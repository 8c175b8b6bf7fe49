import Lwip.Binding.Flow
import Lwip.Binding.Reader
import Lwip.Tcp.EndToEnd

/-!
# A client and a server of the binding

A client that uses the raw API of the stack, the network, and a server that uses the OCaml binding.
The client is the machine of `connStep`, the server that of `flowStep` from the SYN on, and the
network the one of `netStep`: it loses, repeats and reorders the segments of the client, but invents
none with data.

`server_reads` says that `TCP.read` returns the first bytes of what the client wrote, and raises
`Connection_closed` on a connection that was not closed here only behind all of them.
-/

namespace Lwip.Binding

open Lwip.Tcp

/-! ## The machine -/

/-- The two hosts and the network. -/
structure Served where
  /-- The connection of the client. -/
  conn : Conn
  /-- All the bytes that `tcp_write` has accepted from the client. -/
  accepted : List UInt8 := []
  /-- The payloads that the network can deliver. -/
  wire : List Payload := []
  flow : Flow
  /-- The strings that `TCP.read` has returned, one after the other. -/
  returned : List UInt8 := []

/-- A segment without data and without a FIN, which is not a SYN|ACK. -/
structure Bare (i : In) : Prop where
  p : i.seg.p = []
  len : i.seg.len = 0
  fin : i.seg.flags.fin = false
  synAck : i.seg.flags.syn = true → i.seg.flags.ack = false

instance (i : In) : Decidable (Bare i) :=
  decidable_of_iff (i.seg.p = [] ∧ i.seg.len = 0 ∧ i.seg.flags.fin = false ∧
      (i.seg.flags.syn = true → i.seg.flags.ack = false))
    ⟨fun h => ⟨h.1, h.2.1, h.2.2.1, h.2.2.2⟩, fun h => ⟨h.p, h.len, h.fin, h.synAck⟩⟩

/-- What happens: an event of the client, an event of the server other than a reception, the
delivery of a payload or of a probe for it, or that of a segment without a payload. -/
inductive ServedEvent where
  | client (ev : ConnEvent)
  | server (ev : FlowEvent)
  | deliver (n : ℕ) (probe : Bool) (ticks : BitVec 32) (m : RxAlloc) (alloc : Bool)
    (writes : List WriteCall)
      (hdr : Header)
  | bare (ticks : BitVec 32) (m : RxAlloc) (alloc : Bool) (writes : List WriteCall) (i : In)

/-- The string that `TCP.read` returns at the event. -/
def Flow.returns (s : Flow) : FlowEvent → List UInt8
  | .read .. => nextRead s.tw
  | _ => []

/-- One event. -/
def servedStep (o o' : Opts) (s : Served) : ServedEvent → Except Stop Served
  | .client ev => do
    let conn ← (connStep o s.conn ev).mapError .aborts
    .ok { s with
      conn
      accepted := s.accepted ++ connAccepts o s.conn ev
      wire := s.wire ++ conn.segs.map Seg.payload }
  -- Segments come from the wire only.
  | .server (.input ..) => .ok s
  | .server ev => do
    let flow ← flowStep o' s.flow ev
    .ok { s with flow, returned := s.returned ++ s.flow.returns ev }
  | .deliver n probe ticks m alloc writes hdr =>
    match s.wire[n]? with
    | none => .ok s
    | some k =>
      let k := if probe then k.probe else k
      -- A longer segment does not fit in an IP datagram.
      if k.p.length + 40 ≤ 0xffff then do
        let flow ← flowStep o' s.flow (.input ticks m alloc writes (k.toIn hdr))
        .ok { s with flow }
      else .ok s
  | .bare ticks m alloc writes i =>
    if Bare i then do
      let flow ← flowStep o' s.flow (.input ticks m alloc writes i)
      .ok { s with flow }
    else .ok s

/-- All that an event can do. -/
inductive ServedCase (o o' : Opts) (s : Served) : Served → Prop where
  | client {ev : ConnEvent} {conn : Conn} : connStep o s.conn ev = .ok conn →
      ServedCase o o' s { s with
        conn
        accepted := s.accepted ++ connAccepts o s.conn ev
        wire := s.wire ++ conn.segs.map Seg.payload }
  | quiet : ServedCase o o' s s
  | server {ev : FlowEvent} {flow : Flow} :
    (∀ ticks m alloc writes i, ev ≠ .input ticks m alloc writes i) →
      flowStep o' s.flow ev = .ok flow →
      ServedCase o o' s { s with flow, returned := s.returned ++ s.flow.returns ev }
  | deliver {k : Payload} {ticks : BitVec 32} {m : RxAlloc} {alloc : Bool} {writes : List WriteCall}
      {hdr : Header} {flow : Flow} :
      (k ∈ s.wire ∨ ∃ k₀ ∈ s.wire, k = k₀.probe) → k.p.length + 40 ≤ 0xffff →
      flowStep o' s.flow (.input ticks m alloc writes (k.toIn hdr)) = .ok flow →
      ServedCase o o' s { s with flow }
  | bare {ticks : BitVec 32} {m : RxAlloc} {alloc : Bool} {writes : List WriteCall} {i : In}
    {flow : Flow} :
      Bare i → flowStep o' s.flow (.input ticks m alloc writes i) = .ok flow →
      ServedCase o o' s { s with flow }

/-! ## What leaves the receiver -/

/-- Nothing is received: the segments out of sequence may be dropped, and all else may change but
what says where the receiver stands. -/
structure Untouched (a b : TcpPcb) : Prop where
  rcv_nxt : b.rcv_nxt = a.rcv_nxt
  rcv_wnd : b.rcv_wnd = a.rcv_wnd
  ooseq : b.ooseq = a.ooseq ∨ b.ooseq = []
  refused : b.refused_data = a.refused_data
  opening : b.state = .SYN_SENT → a.state = .SYN_SENT

section Untouched

variable {o : Opts} {ticks : BitVec 32} {input alloc : Bool} {a b c pcb pcb' : TcpPcb}
  {out : List Sent} {S data : List UInt8} {r₀ : Serial} {fins : ℕ}

/-- A pcb that two steps leave alone is left alone. -/
theorem Untouched.trans (h : Untouched a b) (h' : Untouched b c) : Untouched a c where
  rcv_nxt := h'.rcv_nxt.trans h.rcv_nxt
  rcv_wnd := h'.rcv_wnd.trans h.rcv_wnd
  ooseq := by
    rcases h'.ooseq with heq | heq
    · rw [heq]
      exact h.ooseq
    · exact .inr heq
  refused := h'.refused.trans h.refused
  opening hs := h.opening (h'.opening hs)

/-- The same window is left alone. -/
theorem untouched_of_sameWnd (h : SameWnd a b) : Untouched a b :=
  ⟨h.rcv_nxt, h.rcv_wnd, .inl h.ooseq, h.refused, h.opening⟩

/-- What only sends leaves the window alone. -/
theorem untouched_of_stamped (h : Stamped a b out) (hr : b.refused_data = a.refused_data)
    (hs : b.state = a.state) : Untouched a b :=
  ⟨h.rcv_nxt, h.rcv_wnd, .inl h.ooseq, hr, fun ho => hs.symm.trans ho⟩

/-- The receiver stands where it stood. -/
theorem Untouched.streamInv (h : Untouched a b) (hi : StreamInv o S r₀ ⟨a, data, fins, []⟩) :
    StreamInv o S r₀ ⟨b, data, fins, []⟩ := by
  refine ⟨⟨?_, ?_⟩, ?_, ?_⟩
  · dsimp only
    rw [h.rcv_wnd]
    exact hi.rcv.wnd
  · dsimp only
    rw [h.rcv_nxt]
    rcases h.ooseq with heq | heq
    · rw [heq]
      exact hi.rcv.queue
    · rw [heq]
      exact ⟨⟨.nil, by simp, by simp⟩, by simp⟩
  · dsimp only
    rcases h.ooseq with heq | heq
    · rw [heq]
      exact hi.slices
    · rw [heq]
      exact fun x hx => absurd hx List.not_mem_nil
  · dsimp only
    rw [h.rcv_nxt]
    exact hi.delivered

/-- `tcp_output` leaves the window alone. -/
theorem tcpOutput_untouched (h : tcpOutput ticks alloc pcb = .ok (pcb', out)) :
    Untouched pcb pcb' :=
  untouched_of_stamped (tcpOutput_stamped h) (tcpOutput_callFrame h).refused_data
    (tcpOutput_state h)

/-- `tcp_ack_now` leaves the window alone. -/
theorem tcpAckNow_untouched (h : tcpAckNow input ticks alloc pcb = .ok (pcb', out)) :
    Untouched pcb pcb' := by
  unfold tcpAckNow tcpOutputUnlessInput at h
  split at h
  · cases h
    exact ⟨rfl, rfl, .inl rfl, rfl, id⟩
  · have hout := tcpOutput_untouched h
    exact ⟨hout.rcv_nxt, hout.rcv_wnd, hout.ooseq, hout.refused, hout.opening⟩

/-- `tcp_write` leaves the window alone. -/
theorem tcpWrite_untouched {allocs : ℕ → Bool} {p : List UInt8} {copy more : Bool} {e : Err}
    (h : tcpWrite o allocs pcb p copy more = .ok (e, pcb')) : Untouched pcb pcb' :=
  untouched_of_stamped (tcpWrite_sameRcv h).stamped (tcpWrite_callFrame h).refused_data
    (tcpWrite_state h)

/-- A retransmission leaves the window alone. -/
theorem slowtmrRexmit_untouched {e : TickEnv} (h : slowtmrRexmit o ticks e pcb = .ok (pcb', out)) :
    Untouched pcb pcb' := by
  have hrefused := slowtmrRexmit_refused h
  have hstate := slowtmrRexmit_state h
  have hsame : pcb'.rcv_nxt = pcb.rcv_nxt ∧ pcb'.rcv_wnd = pcb.rcv_wnd ∧
      pcb'.ooseq = pcb.ooseq := by
    unfold slowtmrRexmit at h
    split at h
    · cases h
      exact ⟨rfl, rfl, rfl⟩
    split at h
    · -- The probe of a closed window.
      have heq : slowtmrPersist e pcb = (pcb', out) := Except.ok.inj h
      have hp : pcb' = (slowtmrPersist e pcb).1 := by rw [heq]
      rw [hp]
      unfold slowtmrPersist
      dsimp only
      split
      · have hst := tcpZeroWindowProbe_stamped e.probe { pcb with
          persist_cnt := 0
          persist_backoff := if pcb.persist_backoff < 7 then pcb.persist_backoff + 1
            else pcb.persist_backoff }
        exact ⟨hst.rcv_nxt, hst.rcv_wnd, hst.ooseq⟩
      · exact ⟨rfl, rfl, rfl⟩
    · dsimp only at h
      generalize (if pcb.rtime ≥ 0 then s16 (pcb.rtime + 1) else pcb.rtime) = rtime at h
      split at h
      · unfold slowtmrRto at h
        split at h
        · cases h
        · dsimp only at h
          have hst := tcpRexmitRto_stamped h
          exact ⟨hst.rcv_nxt, hst.rcv_wnd, hst.ooseq⟩
      · cases h
        exact ⟨rfl, rfl, rfl⟩
  exact ⟨hsame.1, hsame.2.1, .inl hsame.2.2, hrefused, fun hs => hstate.symm.trans hs⟩

/-- A keepalive leaves the window alone. -/
theorem slowtmrKeepalive_untouched (e : TickEnv) :
    Untouched pcb (slowtmrKeepalive ticks e pcb).1 := by
  have hrefused := slowtmrKeepalive_refused ticks e pcb
  have hstate := (slowtmrKeepalive_sameSnd ticks e pcb).state
  have hsame : (slowtmrKeepalive ticks e pcb).1.rcv_nxt = pcb.rcv_nxt ∧
      (slowtmrKeepalive ticks e pcb).1.rcv_wnd = pcb.rcv_wnd ∧
      (slowtmrKeepalive ticks e pcb).1.ooseq = pcb.ooseq := by
    unfold slowtmrKeepalive
    split
    · have hst := tcpKeepalive_stamped e.keepalive pcb
      exact ⟨hst.rcv_nxt, hst.rcv_wnd, hst.ooseq⟩
    · exact ⟨rfl, rfl, rfl⟩
  exact ⟨hsame.1, hsame.2.1, .inl hsame.2.2, hrefused, fun hs => hstate.symm.trans hs⟩

/-- The timer of `ooseq` leaves the window alone. -/
theorem slowtmrOoseq_untouched : Untouched pcb (slowtmrOoseq ticks pcb) := by
  refine ⟨rfl, rfl, ?_, rfl, id⟩
  unfold slowtmrOoseq
  split
  · exact .inr rfl
  · exact .inl rfl

/-- A slow timer tick of a connection without a `poll` callback. -/
theorem tcpSlowtmr_untouched {e : TickEnv} {conn : Conn} (hpoll : e.poll = [])
    (h : tcpSlowtmr o ticks e pcb = .ok (conn, out)) :
    conn = .gone ∨ ∃ pcb', conn = .active pcb' ∧ Untouched pcb pcb' := by
  refine tcpSlowtmr_rule (P := fun p _ => Untouched pcb p) h (fun p out₁ hr _ n => ?_)
    (fun p q _ out' hp happ => ?_) fun p q _ _ hp ho => hp.trans (tcpOutput_untouched ho)
  · have hp : Untouched pcb (slowtmrOoseq ticks (slowtmrKeepalive ticks e p).1) :=
      (slowtmrRexmit_untouched hr).trans
        ((slowtmrKeepalive_untouched e).trans slowtmrOoseq_untouched)
    exact hp.trans ⟨rfl, rfl, .inl rfl, rfl, id⟩
  · rw [hpoll] at happ
    cases happ
    exact hp

/-- A fast timer tick of a connection with nothing refused. -/
theorem tcpFasttmr_untouched {takesRefused : Bool} (href : pcb.refused_data = none)
    (h : tcpFasttmr ticks takesRefused alloc pcb = .ok (pcb', out)) : Untouched pcb pcb' := by
  have hrefused : (if takesRefused then none else pcb.refused_data) = pcb.refused_data := by
    rw [href, ite_self]
  unfold tcpFasttmr at h
  dsimp only at h
  rw [hrefused] at h
  split at h
  · obtain ⟨⟨p, out'⟩, hack, h⟩ := bind_eq_ok.mp h
    cases h
    exact (tcpAckNow_untouched hack).trans ⟨rfl, rfl, .inl rfl, rfl, id⟩
  · cases h
    exact ⟨rfl, rfl, .inl rfl, rfl, id⟩

/-- A `tcp_close` that fails. -/
theorem tcpClose_untouched {allocs : ℕ → Bool} {e : Err} {r : Option TcpPcb} (he : e ≠ .OK)
    (h : tcpClose o input ticks allocs alloc pcb = .ok (e, r, out)) :
    ∃ p, r = some p ∧ Untouched pcb p := by
  have hwith : ∀ next, tcpCloseWith o input ticks allocs alloc next pcb = .ok (e, r, out) →
      ∃ p, r = some p ∧ Untouched pcb p := by
    intro next h
    obtain ⟨⟨err, p⟩, hr, h⟩ := bind_eq_ok.mp h
    dsimp only at h
    split at h
    · obtain ⟨⟨p', out'⟩, -, h⟩ := bind_eq_ok.mp h
      cases h
      exact absurd rfl he
    · cases h
      exact ⟨p, rfl, untouched_of_stamped (tcpEnqueue_sameRcv hr).stamped
        (tcpEnqueue_callFrame hr).refused_data (tcpEnqueue_state hr)⟩
  unfold tcpClose at h
  split at h
  · cases h
    exact absurd rfl he
  · cases h
    exact absurd rfl he
  · obtain ⟨_, -, h⟩ := bind_eq_ok.mp h
    cases h
    exact absurd rfl he
  · exact hwith _ h
  · exact hwith _ h
  · exact hwith _ h
  · cases h
    exact absurd rfl he

end Untouched

/-! ## The server -/

/-- A connection that was opened has handed up `data`, and as many FINs. -/
structure Receiving (o : Opts) (S : List UInt8) (r₀ : Serial) (pcb : TcpPcb) (data : List UInt8)
    (fins : ℕ) : Prop where
  refused : pcb.refused_data = none
  opened : pcb.state ≠ .SYN_SENT
  stream : StreamInv o S r₀ ⟨pcb, data, fins, []⟩

/-- Everything that was handed up was returned by `TCP.read` or is in the queue of the wrapper. -/
structure Attached (o : Opts) (S : List UInt8) (r₀ : Serial) (s : Flow) (returned : List UInt8) :
    Prop where
  state : s.tw.desc.state = if s.fins = 0 then .TCP_ACCEPTED else .TCP_CLOSING
  delivered : ∃ n, Delivered S n (returned ++ s.tw.desc.rx.flatten) s.fins
  active : ∀ pcb, s.conn = .active pcb →
    Receiving o S r₀ pcb (returned ++ s.tw.desc.rx.flatten) s.fins

/-- What was returned is the front of the stream. -/
structure Reading (o : Opts) (S : List UInt8) (r₀ : Serial) (s : Flow) (returned : List UInt8) :
    Prop where
  front : returned <+: S
  attached : s.tw.pcb ≠ none → Attached o S r₀ s returned

section Server

variable {o : Opts} {ticks : BitVec 32} {m : RxAlloc} {alloc : Bool}
  {writes : List WriteCall} {i : In}
  {s s' : Flow} {pcb p q : TcpPcb} {tw : TcpWrap Unit} {S data returned : List UInt8} {r₀ : Serial}
  {fins n : ℕ} {pr : Proc} {rx : Rx}

/-- The callbacks of `tcp_input` put the data behind those in the queue, and note the FIN. -/
theorem recvEvents_queued {d : TcpPcb × TcpWrap Unit}
    (hstate : tw.desc.state = if fins = 0 then .TCP_ACCEPTED else .TCP_CLOSING)
    (hdata : pr.recv_data ≠ [] → fins = 0) (h : recvEvents o ticks alloc pr pcb tw = .ok d) :
    d.1 = pcb ∧ d.2.desc.rx.flatten = tw.desc.rx.flatten ++ pr.recv_data ∧
      d.2.desc.state = if fins + (if pr.got_fin then 1 else 0) = 0 then .TCP_ACCEPTED
      else .TCP_CLOSING := by
  unfold recvEvents at h
  obtain ⟨d₁, hd, h⟩ := bind_eq_ok.mp h
  have hfirst : d₁.1 = pcb ∧ d₁.2.desc.rx.flatten = tw.desc.rx.flatten ++ pr.recv_data ∧
      d₁.2.desc.state = tw.desc.state := by
    unfold recvData at hd
    split at hd
    · next hnil =>
      cases hd
      rw [hnil, List.append_nil]
      exact ⟨rfl, rfl, rfl⟩
    · next hne =>
      have hst : tw.desc.state = .TCP_ACCEPTED := by rw [hstate, if_pos (hdata hne)]
      unfold recvEvent tcpRecvCb at hd
      by_cases hrx : tw.desc.rx = []
      · simp only [hrx, if_true] at hd
        cases hd
        simp [hrx]
      · simp only [hrx, if_false, hst] at hd
        cases hd
        simp [hst]
  obtain ⟨hpcb, hrx, hst⟩ := hfirst
  split at h
  · next hfin =>
    unfold recvEvent tcpRecvCb at h
    cases h
    refine ⟨hpcb, hrx, ?_⟩
    rw [if_pos hfin, if_neg (Nat.succ_ne_zero fins)]
  · next hfin =>
    cases h
    have hzero : (if pr.got_fin = true then 1 else 0) = 0 := if_neg hfin
    rw [hst, hstate, hzero]
    exact ⟨hpcb, hrx, rfl⟩

/-- A segment without data and without a FIN hands up nothing. -/
theorem tcpReceive_bare (hb : Bare i) (hsyn : i.seg.flags.syn = false)
    (h : tcpReceive o ticks m pcb i = .ok rx) :
    rx.recv_data = [] ∧ rx.got_fin = false ∧ Untouched pcb rx.pcb := by
  have hrefused := tcpReceive_refused h
  have hopening := tcpReceive_opening h
  have hzero : i.seg.tcplen = 0 := by
    rw [Seg.tcplen, hb.len, hb.fin, hsyn]
    rfl
  -- The acknowledgement does not touch the receiver, and nothing follows it.
  have hdata : ∀ {q : TcpPcb}, SameRcv pcb q → tcpReceiveData o m q i.seg = .ok rx →
      rx.recv_data = [] ∧ rx.got_fin = false ∧ SameRcv pcb rx.pcb := by
    intro q hq hr
    unfold tcpReceiveData at hr
    rw [hzero, if_neg (by decide)] at hr
    cases hr
    refine ⟨rfl, rfl, hq.trans ?_⟩
    dsimp only
    split
    · exact .refl q
    · exact ⟨rfl, rfl, rfl, rfl, rfl, rfl⟩
  have hsame : rx.recv_data = [] ∧ rx.got_fin = false ∧ SameRcv pcb rx.pcb := by
    obtain ⟨q, hq, hd⟩ := tcpReceive_eq_ok h
    rcases hq with ⟨-, hack⟩ | ⟨-, rfl⟩
    · exact hdata (tcpReceiveAck_sameRcv hack) hd
    · exact hdata (.refl q) hd
  obtain ⟨hrecv, hfin, hrcv⟩ := hsame
  exact ⟨hrecv, hfin, hrcv.rcv_nxt, hrcv.rcv_wnd, .inl hrcv.ooseq, hrefused, hopening⟩

/-- A receiver goes on while its window is left alone. -/
theorem Receiving.untouched (h : Receiving o S r₀ p data fins) (hu : Untouched p q) :
    Receiving o S r₀ q data fins :=
  ⟨hu.refused.trans h.refused, fun ho => h.opened (hu.opening ho), hu.streamInv h.stream⟩

/-- Nothing is handed up behind the FIN. -/
theorem nothing_behind {data' : List UInt8} {n' fins' : ℕ} (h : Delivered S n data fins)
    (h' : Delivered S n' (data ++ data') fins') (hne : data' ≠ []) : fins = 0 := by
  rw [h.fins_eq]
  split
  · next hend =>
    -- All of the stream was handed up before.
    have hlen := congrArg List.length h'.data_eq
    rw [h.data_eq, hend, List.take_of_length_le (Nat.le_succ _), List.length_append,
      List.length_take] at hlen
    have hpos := List.length_pos_iff.mpr hne
    omega
  · rfl

/-- `tcp_process` hands up the next bytes of the stream. -/
theorem Receiving.process (hS : S.length < 2^30) (h : Receiving o S r₀ pcb data fins)
    (hi : i.seg.Incoming ∧ Slice S r₀ i.seg ∨ Bare i)
    (hpr : tcpProcess o ticks m { onAccept := writes.map WriteCall.call } pcb i = .ok pr) :
    (∃ n, Delivered S n (data ++ pr.recv_data) (fins + if pr.got_fin then 1 else 0)) ∧
      ∀ p, pr.pcb = some p → p.state ≠ .TIME_WAIT →
        Receiving o S r₀ p (data ++ pr.recv_data) (fins + if pr.got_fin then 1 else 0) := by
  cases tcpProcess_cases rfl hpr with
  | quiet hdata hfin _ hsame =>
    rw [hdata, hfin, List.append_nil, if_neg Bool.false_ne_true, Nat.add_zero]
    exact ⟨⟨_, h.stream.delivered⟩, fun p hp _ =>
      h.untouched (untouched_of_sameWnd (hsame p hp h.opened))⟩
  | @received q rx hrec hs hrx hands =>
    have hq := h.untouched (untouched_of_sameWnd hs)
    -- What `tcp_receive` leaves.
    have hnext : StreamInv o S r₀ ⟨rx.pcb, data ++ rx.recv_data, fins + if rx.got_fin then 1
        else 0, []⟩ := by
      rcases hi with ⟨hin, hsl⟩ | hb
      · obtain ⟨hrcv, hslices, hdel, -⟩ := hq.stream.receive hS hin hsl hrx
        exact ⟨hrcv, hslices, hdel⟩
      · have hsyn : i.seg.flags.syn = false := by
          cases hsyn : i.seg.flags.syn with
          | false => rfl
          | true =>
            have hack := hb.synAck hsyn
            cases hst : pcb.state <;> simp [receives, hst, hsyn, hack] at hrec
        obtain ⟨hd, hf, hu⟩ := tcpReceive_bare hb hsyn hrx
        rw [hd, hf, List.append_nil]
        exact hu.streamInv hq.stream
    have hrx : Receiving o S r₀ rx.pcb (data ++ rx.recv_data)
        (fins + if rx.got_fin then 1 else 0) :=
      ⟨(tcpReceive_refused hrx).trans hq.refused,
        fun ho => hq.opened (tcpReceive_opening hrx ho), hnext⟩
    rw [hands.data, hands.fin]
    refine ⟨⟨_, hnext.delivered⟩, fun p hp hne => ?_⟩
    rcases hands.pcb p hp with hsame | ⟨htw, -⟩
    · exact hrx.untouched (untouched_of_sameWnd hsame)
    · exact absurd htw hne

/-- The wrapper keeps its pcb, or not, when a segment comes in. -/
theorem Flow.input_pcb (h : s.input o ticks m alloc writes i pcb = .ok s') :
    s'.tw.pcb = s.tw.pcb := by
  unfold Flow.input at h
  obtain ⟨c, hc, h⟩ := bind_eq_ok.mp h
  have hoffer : c.2.pcb = s.tw.pcb := by
    unfold offerRefused at hc
    split at hc
    · cases hc
      rfl
    · exact (recvEvent_frame hc).2
  obtain ⟨pr, -, h⟩ := bind_eq_ok.mp h
  split at h
  · cases h
    exact hoffer
  split at h
  · cases h
    exact hoffer
  · obtain ⟨d, hd, h⟩ := bind_eq_ok.mp h
    cases h
    exact (recvEvents_frame hd).2.trans hoffer

/-- A segment of the client keeps the invariant. -/
theorem Attached.input (hS : S.length < 2^30) (h : Attached o S r₀ s returned)
    (hconn : s.conn = .active pcb) (hi : i.seg.Incoming ∧ Slice S r₀ i.seg ∨ Bare i)
    (hstep : s.input o ticks m alloc writes i pcb = .ok s') : Attached o S r₀ s' returned := by
  have hrecv := h.active pcb hconn
  unfold Flow.input at hstep
  obtain ⟨c, hc, hstep⟩ := bind_eq_ok.mp hstep
  have hoffer : offerRefused o ticks alloc pcb s.tw = .ok (pcb, s.tw) := by
    unfold offerRefused
    rw [hrecv.refused]
  rw [hoffer] at hc
  cases hc
  obtain ⟨pr, hpr, hstep⟩ := bind_eq_ok.mp hstep
  -- A connection that is gone has handed up what it had.
  have hgone : Attached o S r₀ { s with conn := .gone } returned :=
    ⟨h.state, h.delivered, fun q hq => by cases hq⟩
  obtain ⟨⟨n, hdel⟩, hnext⟩ := hrecv.process hS hi hpr
  split at hstep
  · cases hstep
    exact hgone
  next p hp =>
  split at hstep
  · cases hstep
    exact hgone
  obtain ⟨d, hd, hstep⟩ := bind_eq_ok.mp hstep
  cases hstep
  have hlate : pr.recv_data ≠ [] → s.fins = 0 := fun hne => by
    obtain ⟨n₀, hdel₀⟩ := h.delivered
    exact nothing_behind hdel₀ hdel hne
  obtain ⟨hpcb, hrx, hst⟩ := recvEvents_queued h.state hlate hd
  rw [List.append_assoc, ← hrx] at hdel hnext
  refine ⟨hst, ⟨n, hdel⟩, fun q hq => ?_⟩
  dsimp only at hq
  split at hq
  · cases hq
  · next hne =>
    cases hq
    rw [hpcb] at hne ⊢
    exact hnext p hp hne

/-- Nothing is received, and the wrapper stays. -/
theorem Attached.untouched (h : Attached o S r₀ s returned) (hconn : s.conn = .active pcb)
    (hu : Untouched pcb q) : Attached o S r₀ { s with conn := .active q } returned where
  state := h.state
  delivered := h.delivered
  active p hp := by
    cases hp
    exact (h.active pcb hconn).untouched hu

/-- A round of `TCP.read` moves the queue to what was returned. -/
theorem Attached.read {input : Bool} (hS : S.length < 2^30) (h : Attached o S r₀ s returned)
    (hstep : s.read o input ticks alloc = .ok s') :
    Attached o S r₀ s' (returned ++ nextRead s.tw) := by
  unfold Flow.read at hstep
  unfold nextRead
  split at hstep
  · next hr =>
    cases hstep
    rw [hr, List.append_nil]
    exact h
  · next hr =>
    cases hstep
    rw [hr, List.append_nil]
    exact h
  · next hr => cases (readRound_returns hr).2
  · next str tw len hr =>
    have hstr : str = s.tw.desc.rx.flatten := by
      unfold readRound at hr
      split at hr
      · cases hr
      split at hr
      · cases hr
      split at hr
      · cases hr
      · injection hr with hstr
        rw [← hstr, camlTcpRead]
        split
        · next hnil =>
          rw [hnil]
          rfl
        · rfl
    obtain ⟨rfl, hlen⟩ := readRound_returns hr
    cases hlen
    -- What was handed up is the same.
    have hall : returned ++ str ++ ([] : List (List UInt8)).flatten =
        returned ++ s.tw.desc.rx.flatten := by
      rw [hstr, List.flatten_nil, List.append_nil]
    rw [hr]
    split at hstep
    · next pcb hconn =>
      obtain ⟨r, hrec, hstep⟩ := bind_eq_ok.mp hstep
      have hrec := mapError_eq_ok.mp hrec
      cases hstep
      have hrecv := h.active pcb hconn
      have hrx : rxStep o ⟨pcb, returned ++ s.tw.desc.rx.flatten, s.fins, []⟩
          (.recved input ticks alloc (u16 (pbufListLength s.tw.desc.rx))) =
            .ok ⟨r.1, returned ++ s.tw.desc.rx.flatten, s.fins, r.2⟩ :=
            bind_eq_ok.mpr ⟨r, hrec, rfl⟩
      obtain ⟨hrcv, hslices, hdel⟩ := (hrecv.stream.step
        (e := .recved input ticks alloc (u16 (pbufListLength s.tw.desc.rx))) hS trivial hrx).1
      refine ⟨h.state, ?_, fun q hq => ?_⟩
      · dsimp only
        rw [hall]
        exact h.delivered
      · cases hq
        dsimp only
        rw [hall]
        refine ⟨(tcpRecved_callFrame hrec).refused_data.trans hrecv.refused, ?_, hrcv, hslices,
          hdel⟩
        rw [tcpRecved_state hrec]
        exact hrecv.opened
    · next hconn =>
      cases hstep
      refine ⟨h.state, ?_, fun q hq => ?_⟩
      · dsimp only
        rw [hall]
        exact h.delivered
      · rw [hconn] at hq
        cases hq
    · cases hstep

/-- What was returned is the front of the stream. -/
theorem Attached.front (h : Attached o S r₀ s returned) : returned <+: S := by
  obtain ⟨n, hdel⟩ := h.delivered
  have htake : returned ++ s.tw.desc.rx.flatten <+: S := by
    rw [hdel.data_eq]
    exact List.take_prefix n S
  exact (List.prefix_append _ _).trans htake

/-- A wrapper without a pcb keeps what was returned as it is, and gets no pcb. -/
theorem Reading.of_none (h : Reading o S r₀ s returned) (hpcb : s'.tw.pcb = none) :
    Reading o S r₀ s' returned :=
  ⟨h.front, fun hne => absurd hpcb hne⟩

/-- Every event of the server keeps the invariant. -/
theorem Reading.step {e : FlowEvent} (hS : S.length < 2^30) (h : Reading o S r₀ s returned)
    (he : ∀ ticks m alloc writes i, e = .input ticks m alloc writes i →
      i.seg.Incoming ∧ Slice S r₀ i.seg ∨ Bare i)
    (hstep : flowStep o s e = .ok s') : Reading o S r₀ s' (returned ++ s.returns e) := by
  have hread : ∀ {input : Bool} {ticks : BitVec 32} {alloc : Bool},
      s.read o input ticks alloc = .ok s' → Reading o S r₀ s' (returned ++ nextRead s.tw) := by
    intro input ticks alloc hr
    by_cases hpcb : s.tw.pcb = none
    · rw [nextRead_none hpcb, List.append_nil]
      refine h.of_none ?_
      unfold Flow.read at hr
      rw [readRound_none hpcb] at hr
      cases hr
      exact hpcb
    · have hatt := (h.attached hpcb).read hS hr
      exact ⟨hatt.front, fun _ => hatt⟩
  -- Without a round of `TCP.read` nothing is returned.
  have hkeep : s.returns e = [] → (s'.tw.pcb ≠ none → Attached o S r₀ s' returned) →
      Reading o S r₀ s' (returned ++ s.returns e) := by
    intro hnil hatt
    rw [hnil, List.append_nil]
    exact ⟨h.front, hatt⟩
  cases hconn : s.conn with
  | timeWait pcb | gone =>
    cases e with
    | read input ticks alloc =>
      refine hread (?_ : s.read o input ticks alloc = .ok s')
      simpa only [flowStep, hconn] using hstep
    | _ =>
      simp only [flowStep, hconn] at hstep
      cases hstep
      exact hkeep rfl h.attached
  | active pcb =>
    cases e with
    | read input ticks alloc =>
      refine hread (?_ : s.read o input ticks alloc = .ok s')
      simpa only [flowStep, hconn] using hstep
    | input ticks m alloc writes i =>
      simp only [flowStep, hconn] at hstep
      have hin := mapError_eq_ok.mp hstep
      refine hkeep rfl fun hpcb => ?_
      rw [Flow.input_pcb hin] at hpcb
      exact (h.attached hpcb).input hS hconn (he ticks m alloc writes i rfl) hin
    | write w =>
      simp only [flowStep, hconn] at hstep
      split at hstep
      · cases hstep
        exact hkeep rfl h.attached
      · obtain ⟨r, hr, hstep⟩ := bind_eq_ok.mp hstep
        cases hstep
        exact hkeep rfl fun hpcb =>
          (h.attached hpcb).untouched hconn (tcpWrite_untouched (mapError_eq_ok.mp hr))
    | output ticks alloc =>
      simp only [flowStep, hconn] at hstep
      obtain ⟨r, hr, hstep⟩ := bind_eq_ok.mp hstep
      cases hstep
      exact hkeep rfl fun hpcb =>
        (h.attached hpcb).untouched hconn (tcpOutput_untouched (mapError_eq_ok.mp hr))
    | slowtmr ticks probe rto keepalive out =>
      simp only [flowStep, hconn] at hstep
      obtain ⟨r, hr, hstep⟩ := bind_eq_ok.mp hstep
      cases hstep
      refine hkeep rfl fun hpcb => ?_
      have hatt := h.attached hpcb
      rcases tcpSlowtmr_untouched rfl (mapError_eq_ok.mp hr) with hgone | ⟨q, hq, hu⟩
      · exact ⟨hatt.state, hatt.delivered, fun p hp => by rw [hgone] at hp; cases hp⟩
      · rw [hq]
        exact hatt.untouched hconn hu
    | fasttmr ticks alloc =>
      simp only [flowStep, hconn] at hstep
      obtain ⟨c, hoff, hstep⟩ := bind_eq_ok.mp hstep
      obtain ⟨r, hr, hstep⟩ := bind_eq_ok.mp hstep
      have hoff := mapError_eq_ok.mp hoff
      cases hstep
      refine hkeep rfl fun hpcb => ?_
      have hpcb' : s.tw.pcb ≠ none := by
        unfold offerRefused at hoff
        split at hoff
        · cases hoff
          exact hpcb
        · rw [← (recvEvent_frame hoff).2]
          exact hpcb
      have hatt := h.attached hpcb'
      have href := (hatt.active pcb hconn).refused
      unfold offerRefused at hoff
      rw [href] at hoff
      cases hoff
      exact hatt.untouched hconn (tcpFasttmr_untouched href (mapError_eq_ok.mp hr))
    | close input ticks alloc ack =>
      simp only [flowStep, hconn] at hstep
      split at hstep
      · cases hstep
        exact hkeep rfl h.attached
      next hopen =>
      obtain ⟨⟨err, r, out⟩, hr, hstep⟩ := bind_eq_ok.mp hstep
      cases hstep
      have hclose : wrapAfterClose err s.tw = if err = .OK then s.tw.release else s.tw := by
        obtain ⟨u, hu⟩ := Option.ne_none_iff_exists'.mp hopen
        unfold wrapAfterClose camlTcpClose tcpWrapOfValue
        rw [hu]
        by_cases herr : err = .OK
        · simp [herr, bind, Except.bind]
        · simp [herr, bind, Except.bind]
      refine hkeep rfl fun hpcb => ?_
      dsimp only at hpcb ⊢
      rw [hclose] at hpcb ⊢
      by_cases herr : err = .OK
      · rw [if_pos herr] at hpcb
        exact absurd rfl hpcb
      · rw [if_neg herr]
        obtain ⟨p, rfl, hu⟩ := tcpClose_untouched herr (mapError_eq_ok.mp hr)
        exact (h.attached hopen).untouched hconn hu
    | abort =>
      simp only [flowStep, hconn] at hstep
      split at hstep <;> cases hstep
      · exact hkeep rfl h.attached
      · exact hkeep rfl fun hpcb => absurd rfl hpcb

/-- What the invariant says when `TCP.read` raises `Connection_closed`. -/
theorem Attached.closed (h : Attached o S r₀ s returned) (hpcb : s.tw.pcb ≠ none)
    (hclosed : readRound s.tw = .closed) : returned = S ∧ 0 < s.fins := by
  obtain ⟨u, hu⟩ := Option.ne_none_iff_exists'.mp hpcb
  have hrx : s.tw.desc.rx = [] ∧ s.tw.desc.state = .TCP_CLOSING := by
    unfold readRound camlTcpReadLen tcpWrapOfValue at hclosed
    simp only [hu, bind, Except.bind] at hclosed
    by_cases hrx : s.tw.desc.rx = []
    · by_cases hst : s.tw.desc.state = .TCP_CLOSING
      · exact ⟨hrx, hst⟩
      · simp [hrx, hst] at hclosed
    · simp only [ne_eq, hrx, not_false_eq_true, if_true] at hclosed
      split at hclosed
      · next hneg => exact absurd hneg (by omega)
      · split at hclosed <;> cases hclosed
  obtain ⟨hnil, hst⟩ := hrx
  have hfins : s.fins ≠ 0 := fun hzero => by
    have hstate := h.state
    rw [if_pos hzero, hst] at hstate
    cases hstate
  obtain ⟨n, hdel⟩ := h.delivered
  have hn := hdel.fins_eq
  rw [hnil, List.flatten_nil, List.append_nil] at hdel
  refine ⟨?_, Nat.pos_of_ne_zero hfins⟩
  split at hn
  · next hend =>
    rw [hdel.data_eq, hend]
    exact List.take_of_length_le (Nat.le_succ _)
  · exact absurd hn hfins

end Server

/-! ## The two hosts and the network -/

/-- The client and the network, beside any receiver. -/
def Served.net (s : Served) (rx : RxState) : Net := ⟨s.conn, s.accepted, s.wire, rx⟩

section Hosts

variable {o o' : Opts} {s s' : Served} {ev : ServedEvent} {evs : List ServedEvent} {pcb : TcpPcb}
  {rx : RxState} {r₀ : Serial} {S : List UInt8}

/-- What a step of the two hosts can be. -/
theorem servedStep_cases (h : servedStep o o' s ev = .ok s') : ServedCase o o' s s' := by
  cases ev with
  | client ev =>
    obtain ⟨conn, hc, h⟩ := bind_eq_ok.mp h
    cases h
    exact .client (mapError_eq_ok.mp hc)
  | server ev =>
    by_cases hin : ∃ ticks m alloc writes i, ev = .input ticks m alloc writes i
    · obtain ⟨ticks, m, alloc, writes, i, rfl⟩ := hin
      cases h
      exact .quiet
    · have hne : ∀ ticks m alloc writes i, ev ≠ .input ticks m alloc writes i :=
        fun ticks m alloc writes i heq => hin ⟨ticks, m, alloc, writes, i, heq⟩
      have hserver : ∃ flow, flowStep o' s.flow ev = .ok flow ∧
          s' = { s with flow, returned := s.returned ++ s.flow.returns ev } := by
        cases ev with
        | input ticks m alloc writes i => exact absurd rfl (hne ticks m alloc writes i)
        | _ =>
          obtain ⟨flow, hf, h⟩ := bind_eq_ok.mp h
          cases h
          exact ⟨flow, hf, rfl⟩
      obtain ⟨flow, hf, rfl⟩ := hserver
      exact .server hne hf
  | deliver n probe ticks m alloc writes hdr =>
    unfold servedStep at h
    dsimp only at h
    split at h
    · cases h
      exact .quiet
    · next k hk =>
      have hmem : k ∈ s.wire := List.mem_of_getElem? hk
      have hfrom : (if probe = true then k.probe else k) ∈ s.wire ∨
          ∃ k₀ ∈ s.wire, (if probe = true then k.probe else k) = k₀.probe := by
        cases probe with
        | false => exact .inl hmem
        | true => exact .inr ⟨k, hmem, rfl⟩
      generalize (if probe = true then k.probe else k) = k' at h hfrom
      split at h
      · next hle =>
        obtain ⟨flow, hf, h⟩ := bind_eq_ok.mp h
        cases h
        exact .deliver hfrom hle hf
      · cases h
        exact .quiet
  | bare ticks m alloc writes i =>
    unfold servedStep at h
    dsimp only at h
    split at h
    · next hb =>
      obtain ⟨flow, hf, h⟩ := bind_eq_ok.mp h
      cases h
      exact .bare hb hf
    · cases h
      exact .quiet

/-- The client takes a step of the sender, or does nothing. -/
theorem servedStep_net (h : servedStep o o' s ev = .ok s') (rx : RxState) :
    (∃ e, netStep o o' (s.net rx) (.sender e) = .ok (s'.net rx)) ∨ s'.net rx = s.net rx := by
  cases servedStep_cases h with
  | client hc => exact .inl ⟨_, bind_eq_ok.mpr ⟨_, hc, rfl⟩⟩
  | quiet => exact .inr rfl
  | server hne hf => exact .inr rfl
  | deliver hk hle hf => exact .inr rfl
  | bare hb hf => exact .inr rfl

/-- The stream and the wire only grow. -/
theorem servedStep_grows (h : servedStep o o' s ev = .ok s') :
    s.accepted.length ≤ s'.accepted.length ∧ s.wire ⊆ s'.wire := by
  cases servedStep_cases h with
  | client hc =>
    refine ⟨?_, List.subset_append_left _ _⟩
    dsimp only
    rw [List.length_append]
    exact Nat.le_add_right _ _
  | quiet => exact ⟨Nat.le_refl _, List.Subset.refl _⟩
  | server hne hf => exact ⟨Nat.le_refl _, List.Subset.refl _⟩
  | deliver hk hle hf => exact ⟨Nat.le_refl _, List.Subset.refl _⟩
  | bare hb hf => exact ⟨Nat.le_refl _, List.Subset.refl _⟩

/-- A client that has just connected, and the server that has answered its SYN. -/
structure ServedFresh (o' : Opts) (pcb : TcpPcb) (s : Served) : Prop where
  conn : s.conn = .active pcb
  sender : FreshSender pcb
  accepted : s.accepted = []
  wire : s.wire = []
  returned : s.returned = []
  /-- The SYN comes before the first byte that the client will send. -/
  server : ∃ e i pcb₀ sent, tcpListenInput o' e i = .ok (some pcb₀, sent) ∧
    i.seg.seqno.adv 1 = pcb.snd_lbb ∧ s.flow = .start pcb₀

/-- The server waits for the first byte. -/
theorem ServedFresh.reading (h : ServedFresh o' pcb s) :
    Reading o' S pcb.snd_lbb s.flow s.returned := by
  obtain ⟨e, i, pcb₀, sent, hopen, hsyn, hflow⟩ := h.server
  have hnew := tcpListenInput_newReceiver hopen
  have hnxt : pcb₀.rcv_nxt = pcb.snd_lbb := by
    obtain ⟨p, hp, hout⟩ := tcpListenInput_eq_ok hopen
    rw [(tcpOutput_stamped hout).rcv_nxt, (tcpEnqueue_sameRcv hp).rcv_nxt, ← hsyn]
    rfl
  rw [h.returned, hflow]
  have hdel : Delivered S 0 [] 0 := ⟨Nat.zero_le _, rfl, (if_neg (Nat.succ_ne_zero _).symm).symm⟩
  refine ⟨List.nil_prefix, fun _ => ⟨rfl, ⟨0, hdel⟩, fun q hq => ?_⟩⟩
  cases hq
  refine ⟨hnew.refused, fun ho => ?_, ⟨⟨hnew.rcv_wnd.le, ?_⟩, ?_, ?_⟩⟩
  · rw [hnew.state] at ho
    cases ho
  · dsimp only
    rw [hnew.ooseq]
    exact ⟨⟨.nil, by simp, by simp⟩, by simp⟩
  · dsimp only
    rw [hnew.ooseq]
    exact fun x hx => absurd hx List.not_mem_nil
  · dsimp only
    rw [hnxt, Serial.dist_self]
    exact hdel

/-- A receiver that waits for the first byte, to go with the client. -/
def meeting (pcb : TcpPcb) : RxState :=
  { pcb := { pcb with rcv_nxt := pcb.snd_lbb, rcv_wnd := 0, ooseq := [] } }

/-- The wire carries parts of what the client wrote, after every run that accepts less than half the
sequence space. -/
theorem ServedFresh.run_inv (h : ServedFresh o' pcb s) (hlen : s'.accepted.length < 2^31)
    (hrun : run (servedStep o o') s evs = .ok s') : NetInv pcb.snd_lbb (s'.net (meeting pcb)) := by
  have hfresh : NetFresh o' pcb (s.net (meeting pcb)) :=
    ⟨h.conn, h.sender, h.accepted, h.wire, ⟨h.sender.state, rfl, Nat.zero_le _, rfl, rfl, rfl⟩, rfl⟩
  refine run_invariant (I := fun n => n.accepted.length < 2^31 →
    NetInv pcb.snd_lbb (n.net (meeting pcb))) (fun n e n' hI _ hs hle => ?_) (fun _ => hfresh.inv)
    (Along.of_forall (D := fun _ => True) _ fun _ _ => trivial) hrun hlen
  have hI := hI (lt_of_le_of_lt (servedStep_grows hs).1 hle)
  rcases servedStep_net hs (meeting pcb) with ⟨e, hnet⟩ | heq
  · exact hI.step hle hnet
  · rw [heq]
    exact hI

/-- The server keeps its invariant as long as the wire carries parts of the stream. -/
theorem servedStep_reading (hS : S.length < 2^30) (hparts : ∀ k ∈ s.wire, k.Of S r₀)
    (h : Reading o' S r₀ s.flow s.returned) (hstep : servedStep o o' s ev = .ok s') :
    Reading o' S r₀ s'.flow s'.returned := by
  cases servedStep_cases hstep with
  | client hc => exact h
  | quiet => exact h
  | server hne hf =>
    exact h.step hS (fun ticks m alloc writes i heq => absurd heq (hne ticks m alloc writes i)) hf
  | @deliver k ticks m alloc writes hdr flow hk hle hf =>
    have hof : k.Of S r₀ := by
      rcases hk with hk | ⟨k₀, hk, rfl⟩
      · exact hparts k hk
      · exact (hparts k₀ hk).probe
    have hin : (k.toIn hdr).seg.Incoming := ⟨rfl, hle, rfl⟩
    have hnil : s.flow.returns (.input ticks m alloc writes (k.toIn hdr)) = [] := rfl
    have hstep := h.step hS (fun ticks m alloc writes i heq => by
      cases heq
      exact .inl ⟨hin, hof.slice hdr⟩) hf
    rwa [hnil, List.append_nil] at hstep
  | @bare ticks m alloc writes i flow hb hf =>
    have hnil : s.flow.returns (.input ticks m alloc writes i) = [] := rfl
    have hstep := h.step hS (fun ticks m alloc writes i heq => by
      cases heq
      exact .inr hb) hf
    rwa [hnil, List.append_nil] at hstep

/-- The server sees only parts of `S` in a run that ends with parts of `S` on the wire. -/
theorem ServedFresh.run_reading (h0 : ServedFresh o' pcb s)
    (hrun : run (servedStep o o') s evs = .ok s')
    (hS : S.length < 2^30) (hparts : ∀ k ∈ s'.wire, k.Of S pcb.snd_lbb) :
    Reading o' S pcb.snd_lbb s'.flow s'.returned :=
  run_invariant (I := fun n => n.wire ⊆ s'.wire → Reading o' S pcb.snd_lbb n.flow n.returned)
    (fun _ _ _ hI _ hs hsub =>
      servedStep_reading hS (fun k hk => hparts k (hsub ((servedStep_grows hs).2 hk)))
        (hI (List.Subset.trans (servedStep_grows hs).2 hsub)) hs)
    (fun _ => h0.reading)
    (Along.of_forall (D := fun _ => True) _ fun _ _ => trivial) hrun (List.Subset.refl _)

/-- `TCP.read` returns the bytes that the client wrote, in order, each once, and none that was not
sent. In every run in which the client writes less than 2^30 - 1 bytes, whatever the network does
and however the threads read, what was returned is the front of what `tcp_write` accepted. While the
server has not closed the connection, what was returned and what waits in the queue are exactly the
bytes up to `rcv_nxt`, and if `TCP.read` raises `Connection_closed`, all that the client wrote was
returned, and the client has closed its side or has no connection any more. -/
theorem server_reads (o o' : Opts) (h0 : ServedFresh o' pcb s)
    (hrun : run (servedStep o o') s evs = .ok s') (hlen : s'.accepted.length + 1 < 2^30) :
    s'.returned <+: s'.accepted ∧ (s'.flow.tw.pcb ≠ none →
      (∀ q, s'.flow.conn = .active q → s'.returned ++ s'.flow.tw.desc.rx.flatten =
        s'.accepted.take (Serial.dist pcb.snd_lbb q.rcv_nxt)) ∧
      (readRound s'.flow.tw = .closed → s'.returned = s'.accepted ∧ s'.conn.finQueued)) := by
  have hnet := h0.run_inv (by omega) hrun
  have hparts : ∀ k ∈ s'.wire, k.Of s'.accepted pcb.snd_lbb := hnet.parts
  have hreading := h0.run_reading hrun (by omega) hparts
  refine ⟨hreading.front, fun hpcb => ⟨fun q hq => ?_, fun hclosed => ?_⟩⟩
  · exact ((hreading.attached hpcb).active q hq).stream.delivered.data_eq
  · obtain ⟨hall, -⟩ := (hreading.attached hpcb).closed hpcb hclosed
    refine ⟨hall, by_contra fun hnf => ?_⟩
    -- Without a FIN on the wire, its payloads are also parts of a longer stream, whose end was not
    -- read.
    have hlonger := h0.run_reading hrun (S := s'.accepted ++ [0]) (by simpa using hlen)
      fun k hk => (hparts k hk).append fun _ => hnet.fins hnf k hk
    obtain ⟨hend, -⟩ := (hlonger.attached hpcb).closed hpcb hclosed
    have hlength := congrArg List.length (hall.symm.trans hend)
    rw [List.length_append, List.length_singleton] at hlength
    omega

end Hosts

/-- A payload of the client arrives. -/
def fromClient (n : ℕ) : ServedEvent := .deliver n false 1 {} true [] { ackno := 1, wnd := 1000 }

/-- A call of the client. -/
def clientCalls (c : AppCall) : ServedEvent := .client (.call 1 c)

/-- The client writes twice and closes, and a thread of the server reads. The segment with the FIN
arrives first and the other one twice. -/
def lateRun : List ServedEvent :=
  [clientCalls (.write (fun _ => true) [10, 11, 12] true false), .client (.output 1 true),
    clientCalls (.write (fun _ => true) [13, 14] true false), .client (.output 1 true),
    clientCalls (.close (fun _ => true) true), fromClient 7, .server (.read false 1 true),
    fromClient 0, .server (.read false 1 true), fromClient 0]

/-- The client and the server, before the first write. -/
def servedHosts (pcb₀ : TcpPcb) : Served := { conn := .active saneSender, flow := .start pcb₀ }

/-- The bytes of the example are read in their order. -/
theorem server_reads_lateRun :
    ∃ pcb₀ sent s', tcpListenInput .shipped {} peerSyn = .ok (some pcb₀, sent) ∧
      run (servedStep .sane .shipped) (servedHosts pcb₀) lateRun = .ok s' ∧
      s'.accepted = [10, 11, 12, 13, 14] ∧ s'.returned = s'.accepted ∧ s'.conn.finQueued := by
  obtain ⟨pcb₀, sent, hopen, s', hrun, haccepted, hpcb, hclosed⟩ : ∃ pcb₀ sent,
      tcpListenInput .shipped {} peerSyn = .ok (some pcb₀, sent) ∧
      ∃ s', run (servedStep .sane .shipped) (servedHosts pcb₀) lateRun = .ok s' ∧
        s'.accepted = [10, 11, 12, 13, 14] ∧ s'.flow.tw.pcb.isSome = true ∧
        readRound s'.flow.tw = .closed := ⟨_, _, rfl, exists_of_any (by decide +kernel)⟩
  have hfresh : ServedFresh .shipped saneSender (servedHosts pcb₀) :=
    ⟨rfl, saneSender_fresh, rfl, rfl, rfl, ⟨_, _, _, _, hopen, rfl, rfl⟩⟩
  have h := server_reads .sane .shipped hfresh hrun (by rw [haccepted]; decide)
  have hne : s'.flow.tw.pcb ≠ none := Option.isSome_iff_ne_none.mp hpcb
  exact ⟨pcb₀, sent, s', hopen, hrun, haccepted, (h.2 hne).2 hclosed⟩

end Lwip.Binding
