import Lwip.Tcp.Open
import Lwip.Tcp.AnnWnd

/-!
# What is taken from the window

A call of `tcp_receive` takes from the receive window what it hands up: the data, and one sequence
number for a FIN. A FIN is handed up at most once in a call, because the queue holds one only at its
end. The rest of the module says what keeps the window as it is.
-/

namespace Lwip.Tcp

/-- A FIN taken over from the queue is that of its last segment. -/
theorem absorbOoseq_fin {r : Serial} {s s' : Seg} {n n' : ℕ} {q q' : List Seg}
    (hq : q.Pairwise (Seg.Before r)) (hs : s.flags.fin = false)
    (h : absorbOoseq s n q = (s', n', q')) (hf : s'.flags.fin = true) : q' = [] := by
  induction q generalizing s n with
  | nil =>
    cases h
    rfl
  | cons x rest ih =>
    obtain ⟨hx, hrest⟩ := List.pairwise_cons.mp hq
    unfold absorbOoseq at h
    split at h
    · split at h
      · next hfin =>
        -- Nothing can follow a FIN.
        have hnil : rest = [] := by
          refine List.eq_nil_iff_forall_not_mem.mpr fun y hy => ?_
          rw [(hx y hy).fin] at hfin
          cases hfin
        rw [hnil] at h
        cases h
        rfl
      · exact ih hrest hs h
    · cases h
      rw [hs] at hf
      cases hf

/-- A segment with a FIN empties the queue. -/
theorem mergeOoseq_fin {r : Serial} {s s' : Seg} {n n' : ℕ} {q q' : List Seg}
    (hq : q.Pairwise (Seg.Before r)) (h : mergeOoseq q s n = .ok (s', n', q'))
    (hf : s'.flags.fin = true) : q' = [] := by
  unfold mergeOoseq at h
  split at h
  · cases h
    rfl
  · split at h
    · cases h
      rfl
    · next hs =>
      have hs' : s.flags.fin = false := by simpa using hs
      split at h
      · cases h
        rfl
      · next x m y rest hab =>
        have hx : x.flags.fin = false := by
          cases hx : x.flags.fin with
          | false => rfl
          | true => cases absorbOoseq_fin hq hs' hab hx
        split at h
        · obtain ⟨_, -, h⟩ := bind_eq_ok.mp h
          cases h
          rw [Seg.trim_flags, hx] at hf
          cases hf
        · cases h
          rw [hx] at hf
          cases hf

/-- The state of the loop over the queue that started with a window of `w`. -/
structure TakenLoop (o : Opts) (w : ℕ) (q : List Seg) (rx : Rx) : Prop where
  weak : OoseqWeak rx.pcb.rcv_nxt o.TCP_WND q
  taken : rx.pcb.rcv_wnd + rx.recv_data.length + (if rx.got_fin then 1 else 0) = w
  fin : rx.got_fin = true → q = []

/-- A segment takes up its bytes, and one more for a FIN. -/
theorem Seg.Ok.tcplen_length {s : Seg} (h : s.Ok) :
    s.tcplen = s.p.length + if s.flags.fin then 1 else 0 := by
  rw [h.tcplen_eq, h.len_eq]

/-- The loop over the queue takes the next segment. -/
theorem TakenLoop.step {o : Opts} {w : ℕ} {c : Seg} {rest : List Seg} {rx : Rx}
    (h : TakenLoop o w (c :: rest) rx) (hc : c.seqno = rx.pcb.rcv_nxt)
    (hw : c.tcplen ≤ rx.pcb.rcv_wnd) : TakenLoop o w rest (dequeueOne o c rest rx) := by
  have hnofin : rx.got_fin = false := by
    cases hg : rx.got_fin with
    | false => rfl
    | true => cases h.fin hg
  have htaken := h.taken
  have hlen := (h.weak.ok c List.mem_cons_self).tcplen_length
  refine ⟨?_, ?_, fun hf => ?_⟩
  · rw [dequeueOne_rcv_nxt]
    exact h.weak.dequeue hc
  · rw [dequeueOne_rcv_wnd, dequeueOne_recv_data, dequeueOne_got_fin, List.length_append]
    rw [hnofin] at htaken ⊢
    rw [Bool.false_or]
    simp only [Bool.false_eq_true, if_false] at htaken
    omega
  · rw [dequeueOne_got_fin, hnofin, Bool.false_or] at hf
    refine List.eq_nil_iff_forall_not_mem.mpr fun y hy => ?_
    rw [((List.pairwise_cons.mp h.weak.order).1 y hy).fin] at hf
    cases hf

/-- What a call of `tcp_receive` takes from the window are the data that it hands up, and the
FIN. -/
theorem tcpReceive_takes {o : Opts} {ticks : BitVec 32} {m : RxAlloc} {pcb : TcpPcb} {i : In}
    {rx : Rx} (h : RcvInv o pcb) (hi : i.seg.Incoming) (hrx : tcpReceive o ticks m pcb i = .ok rx) :
    rx.pcb.rcv_wnd + rx.recv_data.length + (if rx.got_fin then 1 else 0) = pcb.rcv_wnd := by
  have hwnd : o.TCP_WND ≤ 2^16 := by have := o.wnd_le; omega
  rcases tcpReceive_cases o ticks m pcb hi with ⟨a, -, he⟩ | hcase
  · rw [he] at hrx
    cases hrx
  · generalize tcpReceive o ticks m pcb i = x at hcase hrx
    cases hcase with
    | insane => cases hrx
    | quiet hst hd hf =>
      cases hrx
      rw [hd, hf, hst.rcv_wnd]
      rfl
    | queued hst =>
      cases hrx
      exact hst.rcv_wnd
    | @inSeq pcb' s hsame hf hok hl hw =>
      have hinv : RcvInv o pcb' := h.stamped hsame.stamped
      have hseq : s.seqno = pcb'.rcv_nxt := hf.seqno.trans hsame.rcv_nxt.symm
      rw [← hsame.rcv_wnd] at hw ⊢
      obtain ⟨t, s', q', hmerge, hM, heq⟩ :=
        tcpReceiveInSeq_merged (o := o) hok hl hseq hw hinv.wnd_lt hwnd hinv.queue
      rw [heq] at hrx
      obtain ⟨_, hle, hrx⟩ := bind_eq_ok.mp hrx
      obtain ⟨rx', hdeq, hrx⟩ := bind_eq_ok.mp hrx
      have hle' : s'.tcplen ≤ pcb'.rcv_wnd := lwipAssert_eq_ok.mp hle
      have hlen := hM.ok.tcplen_length
      have hstart : TakenLoop o pcb'.rcv_wnd q' (inSeqStart o pcb' s' q') := by
        refine ⟨?_, ?_, fun hf' => mergeOoseq_fin hinv.queue.order hmerge hf'⟩
        · rw [inSeqStart_rcv_nxt, hM.seqno, hseq]
          exact hM.weak hinv.queue.toOoseqWeak
        · rw [inSeqStart_rcv_wnd, inSeqStart_recv_data, inSeqStart_got_fin]
          omega
      obtain ⟨q'', hI, -⟩ := dequeueOoseq_induction hdeq (TakenLoop o pcb'.rcv_wnd)
        (fun _ _ _ hI hc hw => hI.step hc hw) hstart
      cases hrx
      exact hI.taken

/-! ## Everything else -/

/-- The announced edge depends on the fields of the window. -/
theorem AnnInv.congr {o : Opts} {a b : TcpPcb} (h : AnnInv o a) (hs : SameWnd a b) :
    AnnInv o b where
  rcv := ⟨hs.rcv_wnd ▸ h.rcv.wnd, by rw [hs.rcv_nxt, hs.ooseq]; exact h.rcv.queue⟩
  ann_le := by rw [hs.rcv_ann_wnd, hs.rcv_wnd]; exact h.ann_le
  edge := by rw [hs.rcv_nxt, hs.rcv_ann_right_edge, hs.rcv_ann_wnd]; exact h.edge
  queue := by rw [hs.rcv_nxt, hs.rcv_ann_right_edge, hs.ooseq]; exact h.queue

/-- Nothing is taken and nothing given back: the pcb may have sent segments, or dropped what was out
of sequence. -/
structure KeepsWnd (o : Opts) (a b : TcpPcb) : Prop where
  ann : AnnInv o a → AnnInv o b
  rcv_wnd : b.rcv_wnd = a.rcv_wnd
  refused : b.refused_data = a.refused_data
  state : b.state = a.state

/-- The window of a pcb is kept. -/
theorem KeepsWnd.refl (o : Opts) (a : TcpPcb) : KeepsWnd o a a := ⟨id, rfl, rfl, rfl⟩

/-- The window is kept in two steps. -/
theorem KeepsWnd.trans {o : Opts} {a b c : TcpPcb} (h : KeepsWnd o a b) (h' : KeepsWnd o b c) :
    KeepsWnd o a c :=
  ⟨fun ha => h'.ann (h.ann ha), h'.rcv_wnd.trans h.rcv_wnd, h'.refused.trans h.refused,
    h'.state.trans h.state⟩

/-- The same fields keep the window. -/
theorem SameWnd.keepsWnd {o : Opts} {a b : TcpPcb} (h : SameWnd a b) (hs : b.state = a.state) :
    KeepsWnd o a b :=
  ⟨fun ha => ha.congr h, h.rcv_wnd, h.refused, hs⟩

/-- What is stamped keeps the window. -/
theorem Stamped.keepsWnd {o : Opts} {a b : TcpPcb} {out : List Sent} (h : Stamped a b out)
    (hr : b.refused_data = a.refused_data) (hs : b.state = a.state) : KeepsWnd o a b :=
  ⟨fun ha => ha.stamped h, h.rcv_wnd, hr, hs⟩

section Keeps

variable {o : Opts} {ticks : BitVec 32} {input alloc : Bool} {pcb pcb' : TcpPcb} {out : List Sent}

/-- `tcp_output` keeps the window. -/
theorem tcpOutput_keepsWnd (h : tcpOutput ticks alloc pcb = .ok (pcb', out)) :
    KeepsWnd o pcb pcb' :=
  (tcpOutput_stamped h).keepsWnd (tcpOutput_callFrame h).refused_data (tcpOutput_state h)

/-- The same with the test of the first lines. -/
theorem tcpOutputUnlessInput_keepsWnd
    (h : tcpOutputUnlessInput input ticks alloc pcb = .ok (pcb', out)) : KeepsWnd o pcb pcb' := by
  exact tcpOutputUnlessInput_rule (P := fun p _ => KeepsWnd o pcb p) h (.refl o _)
    tcpOutput_keepsWnd

/-- `tcp_write` keeps the window. -/
theorem tcpWrite_keepsWnd {allocs : ℕ → Bool} {data : List UInt8} {copy more : Bool} {e : Err}
    (h : tcpWrite o allocs pcb data copy more = .ok (e, pcb')) : KeepsWnd o pcb pcb' :=
  (tcpWrite_sameRcv h).stamped.keepsWnd (tcpWrite_callFrame h).refused_data (tcpWrite_state h)

/-- A `tcp_close` that fails keeps the window, and one that succeeds does so up to the state. -/
theorem tcpClose_keepsWnd {allocs : ℕ → Bool} {e : Err}
    (h : tcpClose o input ticks allocs alloc pcb = .ok (e, some pcb', out)) :
    KeepsWnd o pcb { pcb' with state := pcb.state } ∧ (e ≠ .OK → pcb'.state = pcb.state) ∧
      (pcb'.state = .SYN_SENT → pcb.state = .SYN_SENT) := by
  obtain ⟨rfl, rfl, -⟩ | ⟨next, p, hnext, hr, hend⟩ := tcpClose_cases h
  · exact ⟨.refl o pcb', fun _ => rfl, id⟩
  have hst := tcpEnqueue_state hr
  have hp : KeepsWnd o pcb p :=
    (tcpEnqueue_sameRcv hr).stamped.keepsWnd (tcpEnqueue_callFrame hr).refused_data hst
  obtain ⟨rfl, ho⟩ | ⟨-, rfl, -⟩ := hend
  · -- The state changes between the FIN and the output.
    have hout : KeepsWnd o { p with state := next } pcb' := tcpOutputUnlessInput_keepsWnd ho
    have hann : AnnInv o p → AnnInv o pcb' := fun ha =>
      hout.ann ⟨⟨ha.rcv.wnd, ha.rcv.queue⟩, ha.ann_le, ha.edge, ha.queue⟩
    have hnot : next ≠ .SYN_SENT := by
      rintro rfl
      rcases hnext with ⟨-, hn⟩ | ⟨-, hn⟩ <;> cases hn
    refine ⟨⟨fun ha => ?_, hout.rcv_wnd.trans hp.rcv_wnd, hout.refused.trans hp.refused, rfl⟩,
      fun he => absurd rfl he, fun hs => absurd (hout.state.symm.trans hs) hnot⟩
    have ha' := hann (hp.ann ha)
    exact ⟨⟨ha'.rcv.wnd, ha'.rcv.queue⟩, ha'.ann_le, ha'.edge, ha'.queue⟩
  · have heq : ({ pcb' with state := pcb.state } : TcpPcb) = pcb' := by rw [← hst]
    rw [heq]
    exact ⟨hp, fun _ => hst, fun hs => hst.symm.trans hs⟩

/-- The segments of `tcp_rexmit_rto` are stamped. -/
theorem tcpRexmitRto_stamped (h : tcpRexmitRto ticks alloc pcb = .ok (pcb', out)) :
    Stamped pcb pcb' out := by
  unfold tcpRexmitRto at h
  split at h
  · cases h
    exact (SameRcv.refl _).stamped
  · have hs := tcpOutput_stamped h
    exact ⟨hs.rcv_nxt, hs.rcv_wnd, hs.rcv_ann_wnd, hs.ooseq, hs.mss, hs.stamp, hs.edge⟩

/-- A retransmission keeps the window. -/
theorem slowtmrRexmit_keepsWnd {e : TickEnv}
    (h : slowtmrRexmit o ticks e pcb = .ok (pcb', out)) : KeepsWnd o pcb pcb' := by
  have hst := slowtmrRexmit_state h
  have hkeep : Stamped pcb pcb' out → KeepsWnd o pcb pcb' :=
    fun hs => hs.keepsWnd (slowtmrRexmit_refused h) hst
  unfold slowtmrRexmit at h
  split at h
  · cases h
    exact .refl o pcb
  split at h
  · have heq : slowtmrPersist e pcb = (pcb', out) := Except.ok.inj h
    have hpersist : Stamped pcb (slowtmrPersist e pcb).1 (slowtmrPersist e pcb).2 := by
      unfold slowtmrPersist
      dsimp only
      split
      · have hsame : SameRcv pcb { pcb with
            persist_cnt := 0
            persist_backoff := if pcb.persist_backoff < 7 then pcb.persist_backoff + 1
              else pcb.persist_backoff } := ⟨rfl, rfl, rfl, rfl, rfl, rfl⟩
        simpa using hsame.stamped.trans (tcpZeroWindowProbe_stamped e.probe _)
      · exact SameRcv.stamped ⟨rfl, rfl, rfl, rfl, rfl, rfl⟩
    rw [heq] at hpersist
    exact hkeep hpersist
  · dsimp only at h
    generalize (if pcb.rtime ≥ 0 then s16 (pcb.rtime + 1) else pcb.rtime) = rtime at h
    split at h
    · unfold slowtmrRto at h
      split at h
      · cases h
      · dsimp only at h
        have hs := tcpRexmitRto_stamped h
        exact hkeep ⟨hs.rcv_nxt, hs.rcv_wnd, hs.rcv_ann_wnd, hs.ooseq, hs.mss, hs.stamp, hs.edge⟩
    · cases h
      exact hkeep (SameRcv.stamped ⟨rfl, rfl, rfl, rfl, rfl, rfl⟩)

/-- A keepalive keeps the window. -/
theorem slowtmrKeepalive_keepsWnd (e : TickEnv) :
    KeepsWnd o pcb (slowtmrKeepalive ticks e pcb).1 := by
  have hst : Stamped pcb (slowtmrKeepalive ticks e pcb).1 (slowtmrKeepalive ticks e pcb).2 := by
    unfold slowtmrKeepalive
    split
    · have hs := tcpKeepalive_stamped e.keepalive pcb
      exact ⟨hs.rcv_nxt, hs.rcv_wnd, hs.rcv_ann_wnd, hs.ooseq, hs.mss, hs.stamp, hs.edge⟩
    · exact (SameRcv.refl pcb).stamped
  exact hst.keepsWnd (slowtmrKeepalive_refused ticks e pcb)
    (slowtmrKeepalive_sameSnd ticks e pcb).state

/-- The queue of segments out of sequence may be dropped. -/
theorem slowtmrOoseq_keepsWnd : KeepsWnd o pcb (slowtmrOoseq ticks pcb) := by
  refine ⟨fun ha => ?_, rfl, rfl, rfl⟩
  unfold slowtmrOoseq
  split
  · exact ⟨⟨ha.rcv.wnd, ⟨⟨.nil, by simp, by simp⟩, by simp⟩⟩, ha.ann_le, ha.edge, by simp⟩
  · exact ha

/-- A slow timer tick of a connection without a `poll` callback. -/
theorem tcpSlowtmr_keepsWnd {e : TickEnv} {conn : Conn} (hpoll : e.poll = [])
    (h : tcpSlowtmr o ticks e pcb = .ok (conn, out)) :
    conn = .gone ∨ ∃ pcb', conn = .active pcb' ∧ KeepsWnd o pcb pcb' := by
  refine tcpSlowtmr_rule (P := fun p _ => KeepsWnd o pcb p) h (fun p out₁ hr _ n => ?_)
    (fun p q _ out' hp happ => ?_) fun p q _ _ hp ho => hp.trans (tcpOutput_keepsWnd ho)
  · have hp : KeepsWnd o pcb (slowtmrOoseq ticks (slowtmrKeepalive ticks e p).1) :=
      (slowtmrRexmit_keepsWnd hr).trans ((slowtmrKeepalive_keepsWnd e).trans slowtmrOoseq_keepsWnd)
    exact hp.trans (SameWnd.keepsWnd ⟨rfl, rfl, rfl, rfl, rfl, rfl, id⟩ rfl)
  · rw [hpoll] at happ
    cases happ
    exact hp

/-- The delayed ACK of a fast timer tick. -/
theorem tcpFasttmr_keepsWnd {takesRefused : Bool} (href : pcb.refused_data = none)
    (h : tcpFasttmr ticks takesRefused alloc pcb = .ok (pcb', out)) : KeepsWnd o pcb pcb' := by
  have hsame : SameWnd pcb { pcb with
      refused_data := if takesRefused then none else pcb.refused_data } :=
    ⟨rfl, rfl, rfl, rfl, rfl, by rw [href]; simp, id⟩
  unfold tcpFasttmr at h
  dsimp only at h
  split at h
  · obtain ⟨⟨p, out'⟩, hack, h⟩ := bind_eq_ok.mp h
    cases h
    have hnow : SameWnd pcb { pcb with
        refused_data := if takesRefused then none else pcb.refused_data
        flags := { pcb.flags with ack_now := true } } :=
      ⟨rfl, rfl, rfl, rfl, rfl, hsame.refused, id⟩
    have hp : SameWnd p { p with flags := { p.flags with ack_delay := false, ack_now := false } } :=
      ⟨rfl, rfl, rfl, rfl, rfl, rfl, id⟩
    exact (hnow.keepsWnd rfl).trans ((tcpOutputUnlessInput_keepsWnd hack).trans (hp.keepsWnd rfl))
  · cases h
    exact hsame.keepsWnd rfl

end Keeps

end Lwip.Tcp
