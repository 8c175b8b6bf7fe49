import Lwip.Tcp.Receiver

/-!
# The assertions on the receive window

Four assertions of `tcp_receive` say that what is handed up fits in the receive window. The two on
the trimming always hold. The other two fail if a segment that reaches past the window was queued,
which the code does by looking at the segment's start only, or if a segment that fills the window
takes over a FIN from the queue. `FitsWindow` excludes both, and under it no run fails one of the
four.
-/

namespace Lwip.Tcp

/-- The assertions of `tcp_receive` on the window and on the trimming. -/
def Abort.ofWindow : Abort → Bool
  | .notTrimmedToRcvWnd | .notTrimmedToOoseq | .tcplenGtRcvWnd | .ooseqTcplenGtRcvWnd => true
  | _ => false

/-! ## The other functions do not stop at these assertions -/

/-- An assertion about something else. -/
theorem lwipAssert_avoids {a : Abort} {p : Prop} [Decidable p] (h : a.ofWindow = false) :
    Avoids Abort.ofWindow (lwipAssert a p) := by
  unfold lwipAssert
  split
  · exact .ok ()
  · exact .error h

/-- The loops that free segments do not look at the window. -/
theorem freeAcked_avoids (acks : Seg → Bool) (other q : List Seg) (queuelen acked : ℕ) :
    Avoids Abort.ofWindow (freeAcked acks other q queuelen acked) := by
  induction q generalizing queuelen acked with
  | nil => exact .ok _
  | cons x rest ih =>
    unfold freeAcked
    split
    · exact (lwipAssert_avoids rfl).bind fun _ _ => (lwipAssert_avoids rfl).bind fun _ _ => ih _ _
    · exact .ok _

/-- The growth of `cwnd` does not look at the receive window. -/
theorem growCwnd_avoids (pcb : TcpPcb) : Avoids Abort.ofWindow (growCwnd pcb) := by
  unfold growCwnd
  dsimp only
  split_ifs
  · exact .ok _
  · exact .error rfl
  · exact .ok _
  · exact .ok _
  · exact .ok _

/-- The acknowledgement half does not look at the receive window. -/
theorem tcpReceiveAck_avoids (ticks : BitVec 32) (pcb : TcpPcb) (i : In) :
    Avoids Abort.ofWindow (tcpReceiveAck ticks pcb i) := by
  unfold tcpReceiveAck
  refine Avoids.bind ?_ fun _ _ => Avoids.bind ?_ fun _ _ => .ok _
  · unfold tcpReceiveAckno
    split_ifs
    · exact .ok _
    · exact (growCwnd_avoids _).bind fun _ _ => (freeAcked_avoids ..).bind fun _ _ => .ok _
    · exact .ok _
  · exact (freeAcked_avoids ..).bind fun _ _ => .ok _

/-- The loop of `tcp_output` does not look at the receive window. -/
theorem tcpOutputLoop_avoids (ticks : BitVec 32) (wnd : ℕ) (q : List Seg) (pcb : TcpPcb)
    (out : List Sent) : Avoids Abort.ofWindow (tcpOutputLoop ticks wnd q pcb out) := by
  induction q generalizing pcb out with
  | nil => exact .ok _
  | cons seg rest ih =>
    unfold tcpOutputLoop
    dsimp only
    split_ifs
    · exact .error rfl
    · exact .ok _
    · exact ih _ _
    · exact .ok _

/-- `tcp_output` does not look at the receive window. -/
theorem tcpOutput_avoids (ticks : BitVec 32) (alloc : Bool) (pcb : TcpPcb) :
    Avoids Abort.ofWindow (tcpOutput ticks alloc pcb) := by
  unfold tcpOutput
  dsimp only
  split_ifs
  · exact .ok _
  · exact (tcpOutputLoop_avoids ..).bind fun _ _ => .ok _

/-- `tcp_ack_now` does not look at the receive window. -/
theorem tcpAckNow_avoids (input : Bool) (ticks : BitVec 32) (alloc : Bool) (pcb : TcpPcb) :
    Avoids Abort.ofWindow (tcpAckNow input ticks alloc pcb) := by
  unfold tcpAckNow tcpOutputUnlessInput
  split_ifs
  · exact .ok _
  · exact tcpOutput_avoids ..

/-- `tcp_recved` does not assert the window. -/
theorem tcpRecved_avoids (o : Opts) (input : Bool) (ticks : BitVec 32) (alloc : Bool)
    (pcb : TcpPcb) (len : ℕ) : Avoids Abort.ofWindow (tcpRecved o input ticks alloc pcb len) := by
  unfold tcpRecved
  refine (lwipAssert_avoids rfl).bind fun _ _ => ?_
  generalize tcpUpdateRcvAnnWnd o _ = r
  dsimp only
  split
  · exact tcpAckNow_avoids ..
  · exact .ok _

/-- The end of `tcp_enqueue` does not look at the receive window. -/
theorem tcpEnqueueAppend_avoids (pcb : TcpPcb) (flags : TcpFlags) (copy : Bool) (q : Seg)
    (qs : List Seg) (queuelen : ℕ) :
    Avoids Abort.ofWindow (tcpEnqueueAppend pcb flags copy q qs queuelen) := by
  unfold tcpEnqueueAppend
  split
  · exact .ok _
  · next useg _ =>
    by_cases hg : canGlue pcb flags useg q = true
    · rw [if_pos hg]
      dsimp only
      by_cases hf : flags.fin = true
      · rw [if_pos hf]
        exact (lwipAssert_avoids rfl).bind fun _ _ => .ok _
      · rw [if_neg hf]
        exact (lwipAssert_avoids rfl).bind fun _ _ => .ok _
    · rw [if_neg hg]
      exact .ok _

/-- `tcp_enqueue` does not look at the receive window. -/
theorem tcpEnqueue_avoids (o : Opts) (alloc : ℕ → Bool) (pcb : TcpPcb) (arg : List UInt8)
    (flags : TcpFlags) (copy more optMss : Bool) :
    Avoids Abort.ofWindow (tcpEnqueue o alloc pcb arg flags copy more optMss) := by
  unfold tcpEnqueue
  refine (lwipAssert_avoids rfl).bind fun _ _ => ?_
  split
  · exact .ok _
  · split
    · exact .ok _
    · refine (lwipAssert_avoids rfl).bind fun _ _ => (lwipAssert_avoids rfl).bind fun _ _ => ?_
      refine (lwipAssert_avoids rfl).bind fun _ _ => ?_
      split
      · exact (lwipAssert_avoids rfl).bind fun _ _ => .ok _
      · exact (lwipAssert_avoids rfl).bind fun _ _ => .ok _
      · exact (tcpEnqueueAppend_avoids ..).bind fun _ _ => .ok _

/-- `tcp_write` does not look at the receive window. -/
theorem tcpWrite_avoids (o : Opts) (alloc : ℕ → Bool) (pcb : TcpPcb) (data : List UInt8)
    (copy more : Bool) : Avoids Abort.ofWindow (tcpWrite o alloc pcb data copy more) := by
  unfold tcpWrite
  split
  all_goals first
    | (split_ifs
       · exact tcpEnqueue_avoids ..
       · exact .ok _)
    | exact .ok _

/-! ## Segments that fit -/

/-- The segment `s` leaves room in the window: if it is queued out of sequence, it ends in the
window, and if a FIN is queued, its data end before the last sequence number of the window. -/
structure FitsWindow (pcb : TcpPcb) (s : Seg) : Prop where
  outOfSeq : Serial.between s.seqno pcb.rcv_nxt (pcb.rcv_nxt.adv pcb.rcv_wnd - 1) →
    s.seqno ≠ pcb.rcv_nxt → Serial.dist pcb.rcv_nxt s.seqno + s.tcplen ≤ pcb.rcv_wnd ∧
      ((∃ x ∈ pcb.ooseq, x.flags.fin = true) →
        Serial.dist pcb.rcv_nxt s.seqno + s.len < pcb.rcv_wnd)
  inSeq : (∃ x ∈ pcb.ooseq, x.flags.fin = true) → ∀ s', Front pcb.rcv_nxt s s' →
    s'.len < pcb.rcv_wnd

/-- The shape of the queue, with every queued segment inside the window. -/
structure WndInv (o : Opts) (pcb : TcpPcb) : Prop where
  rcv : RcvInv o pcb
  fits : ∀ x ∈ pcb.ooseq, x.off pcb.rcv_nxt + x.tcplen ≤ pcb.rcv_wnd

/-- What is stamped keeps the invariant of the window. -/
theorem WndInv.stamped {o : Opts} {a b : TcpPcb} {out : List Sent} (h : WndInv o a)
    (hs : Stamped a b out) : WndInv o b :=
  ⟨h.rcv.stamped hs, by rw [hs.ooseq, hs.rcv_nxt, hs.rcv_wnd]; exact h.fits⟩

/-- The state of the loop over the queue. -/
structure WndLoop (o : Opts) (q : List Seg) (rx : Rx) : Prop where
  ooseq : rx.pcb.ooseq = q
  wnd : rx.pcb.rcv_wnd ≤ o.TCP_WND
  weak : OoseqWeak rx.pcb.rcv_nxt o.TCP_WND q
  fits : ∀ x ∈ q, x.off rx.pcb.rcv_nxt + x.tcplen ≤ rx.pcb.rcv_wnd

/-- A queued segment in sequence fits in the window, and so do those after it in what is left. -/
theorem WndLoop.step {o : Opts} {c : Seg} {rest : List Seg} {rx : Rx} (h : WndLoop o (c :: rest) rx)
    (hc : c.seqno = rx.pcb.rcv_nxt) :
    c.tcplen ≤ rx.pcb.rcv_wnd ∧ WndLoop o rest (dequeueOne o c rest rx) := by
  have hfit := h.fits c (by simp)
  have hw := h.wnd
  have h0 : c.off rx.pcb.rcv_nxt = 0 := by unfold Seg.off; rw [hc, Serial.dist_self]
  have hafter : ∀ x ∈ rest, c.tcplen ≤ x.off rx.pcb.rcv_nxt := by
    intro x hx
    have hb := (List.pairwise_cons.mp h.weak.order).1 x hx
    have hd := hb.disjoint
    have hl : c.tcplen = c.len := by rw [(h.weak.ok c (by simp)).tcplen_eq]; simp [hb.fin]
    omega
  refine ⟨by omega, rfl, by rw [dequeueOne_rcv_wnd]; omega, ?_, fun x hx => ?_⟩
  · rw [dequeueOne_rcv_nxt]; exact h.weak.dequeue hc
  · have hx' := h.fits x (by simp [hx])
    have ha := hafter x hx
    have hoff : x.off (rx.pcb.rcv_nxt.adv c.tcplen) = x.off rx.pcb.rcv_nxt - c.tcplen :=
      Serial.dist_adv_left ha
    rw [dequeueOne_rcv_nxt, dequeueOne_rcv_wnd, hoff]
    omega

/-- A segment in sequence that fits is handed up without a failed assertion. -/
theorem WndInv.inSeq {o : Opts} {pcb : TcpPcb} {s : Seg} (h : WndInv o pcb) (hs : s.Ok)
    (hl : s.len + 1 < 2^16) (hseq : s.seqno = pcb.rcv_nxt) (h0 : 0 < pcb.rcv_wnd)
    (hfit : (∃ x ∈ pcb.ooseq, x.flags.fin = true) → s.len < pcb.rcv_wnd) :
    ∃ rx, tcpReceiveInSeq o pcb s = .ok rx ∧ WndInv o rx.pcb := by
  have hwnd : o.TCP_WND ≤ 2^16 := by have := o.wnd_le; omega
  have hrcv := h.rcv
  have hw := hrcv.wnd
  obtain ⟨s', q', hM, heq⟩ :=
    tcpReceiveInSeq_eq (o := o) hs hl hseq h0 hrcv.wnd_lt hwnd hrcv.queue
  have htl : s'.tcplen ≤ pcb.rcv_wnd := by
    cases hM.taken with
    | part _ hle => exact hle
    | @fin t x hc hf _ hm hxf hle =>
      have h1 := hfit ⟨x, hm, hxf⟩
      have h2 := t.setFin.tcplen_le
      have h3 := hc.len
      rw [Seg.setFin_len] at h2
      omega
  have hstart : WndLoop o q' (inSeqStart o pcb s' q') := by
    refine ⟨inSeqStart_ooseq .., by rw [inSeqStart_rcv_wnd]; omega, ?_, fun x hx => ?_⟩
    · rw [inSeqStart_rcv_nxt, hM.seqno, hseq]; exact hM.weak hrcv.queue.toOoseqWeak
    · have hx' := h.fits x (hM.suffix.mem hx)
      have ha := hM.after x hx
      have hoff : x.off (pcb.rcv_nxt.adv s'.tcplen) = x.off pcb.rcv_nxt - s'.tcplen :=
        Serial.dist_adv_left ha
      rw [inSeqStart_rcv_nxt, inSeqStart_rcv_wnd, hM.seqno, hseq, hoff]
      omega
  obtain ⟨rx', hdeq⟩ := dequeueOoseq_ok (WndLoop o) (fun _ _ _ hI hc => hI.step hc) hstart
  obtain ⟨q'', hI, hhead⟩ := dequeueOoseq_induction hdeq (WndLoop o)
    (fun _ _ _ hI hc _ => (hI.step hc).2) hstart
  refine ⟨{ rx' with pcb := tcpAck rx'.pcb }, ?_, ?_⟩
  · rw [heq, (lwipAssert_eq_ok (u := ())).mpr htl]
    show (dequeueOoseq o q' (inSeqStart o pcb s' q') >>= _) = _
    rw [hdeq]
    rfl
  · have hinv : WndInv o rx'.pcb := by
      refine ⟨⟨hI.wnd, ?_⟩, ?_⟩
      · rw [hI.ooseq]; exact hI.weak.inv hhead
      · rw [hI.ooseq]; exact hI.fits
    exact hinv.stamped (tcpAck_sameRcv rx'.pcb).stamped

/-- A call of `tcp_receive` on a segment that fits fails none of the four assertions, and keeps the
invariant. -/
theorem WndInv.receive {o : Opts} {ticks : BitVec 32} {m : RxAlloc} {pcb : TcpPcb} {i : In}
    (h : WndInv o pcb) (hi : i.seg.Incoming) (hfit : FitsWindow pcb i.seg) :
    Avoids Abort.ofWindow (tcpReceive o ticks m pcb i) ∧
      ∀ rx, tcpReceive o ticks m pcb i = .ok rx → WndInv o rx.pcb := by
  have hwnd : o.TCP_WND ≤ 2^16 := by have := o.wnd_le; omega
  rcases tcpReceive_cases o ticks m pcb hi with ⟨a, ha, he⟩ | hcase
  · rw [he]
    exact ⟨.error ((tcpReceiveAck_avoids ticks pcb i).of_error a ha), fun rx hrx => by cases hrx⟩
  · generalize tcpReceive o ticks m pcb i = x at hcase
    cases hcase with
    | insane => exact ⟨.error rfl, fun rx hrx => by cases hrx⟩
    | quiet hst => exact ⟨.ok _, fun rx hrx => by cases hrx; exact h.stamped hst⟩
    | @queued pcb' sent hst hok hne hb =>
      refine ⟨.ok _, fun rx hrx => ?_⟩
      cases hrx
      obtain ⟨hend, hendFin⟩ := hfit.outOfSeq hb hne
      have hrcv := h.rcv
      have hwlt := hrcv.wnd_lt
      have htpos := hok.tcplen_pos
      have hpos : 0 < i.seg.off pcb.rcv_nxt :=
        Nat.pos_of_ne_zero fun h0 => hne ((Serial.dist_eq_zero_iff _ _).mp h0)
      have hoff : i.seg.off pcb.rcv_nxt < o.TCP_WND := by
        have := hrcv.wnd
        unfold Seg.off
        omega
      obtain ⟨hinv, hder⟩ := tcpQueueOoseq_spec m.seg hwnd hok hpos hoff hrcv.queue
      refine ⟨⟨?_, ?_⟩, fun x hx => ?_⟩
      · show pcb'.rcv_wnd ≤ _
        rw [hst.rcv_wnd]; exact hrcv.wnd
      · show OoseqInv pcb'.rcv_nxt _ _
        rw [hst.rcv_nxt]; exact hinv
      · show x.off pcb'.rcv_nxt + x.tcplen ≤ pcb'.rcv_wnd
        rw [hst.rcv_nxt, hst.rcv_wnd]
        cases hder x hx with
        | old hm => exact h.fits _ hm
        | @cut y n hm hf h0 hn =>
          have h1 := h.fits _ hm
          have h2 := y.len_le_tcplen
          have h3 := ((hrcv.queue.ok _ hm).trim h0 hn).tcplen_eq
          simp only [Seg.trim_flags, hf, Seg.trim_len, Bool.false_eq_true, if_false] at h3
          rw [Seg.trim_off, h3]
          omega
        | new => exact hend
        | @newCut n hf h0 hn =>
          have h2 := i.seg.len_le_tcplen
          have h3 := (hok.trim h0 hn).tcplen_eq
          simp only [Seg.trim_flags, hf, Seg.trim_len, Bool.false_eq_true, if_false] at h3
          rw [Seg.trim_off, h3]
          unfold Seg.off
          omega
        | @newFin y hm hf _ =>
          have h1 := hendFin ⟨y, hm, hf⟩
          have h2 := i.seg.setFin.tcplen_le
          rw [Seg.setFin_len] at h2
          rw [Seg.setFin_off]
          unfold Seg.off
          omega
    | @inSeq pcb' s' hsame hf hok hl hw =>
      have h' := h.stamped hsame.stamped
      obtain ⟨rx, hrx, hinv⟩ := h'.inSeq hok hl (by rw [hf.seqno, hsame.rcv_nxt])
        (by rw [hsame.rcv_wnd]; exact hw) (fun hfin => by
          rw [hsame.ooseq] at hfin
          rw [hsame.rcv_wnd]
          exact hfit.inSeq hfin s' hf)
      rw [hrx]
      exact ⟨.ok _, fun rx' hrx' => by cases hrx'; exact hinv⟩

/-! ## Every run -/

/-- The events of a run whose segments fit. -/
def FitsEvent (s : RxState) : RxEvent → Prop
  | .receive _ _ i => i.seg.Incoming ∧ FitsWindow s.pcb i.seg
  | _ => True

/-- A step on a segment that fits keeps the invariant. -/
theorem WndInv.step {o : Opts} {s s' : RxState} {e : RxEvent} (h : WndInv o s.pcb)
    (he : FitsEvent s e) (hs : rxStep o s e = .ok s') : WndInv o s'.pcb := by
  cases rxStep_cases hs with
  | receive hrx => exact (h.receive he.1 he.2).2 _ hrx
  | @recved _ _ _ _ pcb out hr =>
    have ho := tcpRecved_opened h.rcv.wnd hr
    have hw := ho.wnd_le
    refine ⟨h.rcv.opened ho, fun x hx => ?_⟩
    dsimp only at hx ⊢
    rw [ho.stamped.ooseq, tcpUpdateRcvAnnWnd_ooseq] at hx
    have hfit := h.fits x hx
    rw [ho.stamped.rcv_nxt, tcpUpdateRcvAnnWnd_rcv_nxt]
    exact hfit.trans hw
  | send hst => exact h.stamped hst

/-- A step on a segment that fits fails none of the four assertions. -/
theorem WndInv.step_avoids {o : Opts} {s : RxState} {e : RxEvent} (h : WndInv o s.pcb)
    (he : FitsEvent s e) : Avoids Abort.ofWindow (rxStep o s e) := by
  cases e with
  | receive ticks m i => exact (h.receive he.1 he.2).1.bind fun _ _ => .ok _
  | recved input ticks alloc len => exact (tcpRecved_avoids ..).bind fun _ _ => .ok _
  | write alloc data copy more => exact (tcpWrite_avoids ..).bind fun _ _ => .ok _
  | output ticks alloc => exact (tcpOutput_avoids ..).bind fun _ _ => .ok _
  | emptyAck alloc => exact .ok _
  | keepalive alloc => exact .ok _
  | probe alloc => exact .ok _

/-- In every run whose segments fit, none of the four assertions on the window fails, and the window
is at most `TCP_WND` in every state. -/
theorem window_assertions_hold (o : Opts) {s : RxState} {es : List RxEvent} (h0 : Fresh o s)
    (hes : Along (rxStep o) FitsEvent s es) :
    Avoids Abort.ofWindow (run (rxStep o) s es) ∧
      ∀ s', run (rxStep o) s es = .ok s' → s'.pcb.rcv_wnd ≤ o.TCP_WND := by
  have hinit : WndInv o s.pcb := ⟨h0.rcvInv, by rw [h0.ooseq]; simp⟩
  refine ⟨run_avoids (I := fun t => WndInv o t.pcb) (fun _ _ _ h he hs => h.step he hs)
    (fun _ _ h he => h.step_avoids he) hinit hes, fun s' hrun => ?_⟩
  exact (run_invariant (I := fun t => WndInv o t.pcb) (fun _ _ _ h he hs => h.step he hs) hinit hes
    hrun).rcv.wnd

/-- A segment out of sequence with a FIN that fits, and the data before it. -/
def fittingRun : List RxEvent :=
  [.receive 0 {} { seg := dataSeg 4 [13, 14, 15] true, ackno := 1, wnd := 1000 },
    .receive 0 {} { seg := dataSeg 1 [10, 11, 12, 13] false, ackno := 1, wnd := 1000 }]

/-- No assertion on the window fails in a run that fits. -/
theorem window_assertions_hold_fittingRun :
    Avoids Abort.ofWindow (run (rxStep .shipped) shippedReceiver fittingRun) := by
  have hes : Along (rxStep .shipped) FitsEvent shippedReceiver fittingRun := by
    refine ⟨⟨⟨rfl, by decide, rfl⟩, ⟨fun _ _ => by decide +kernel, fun h => ?_⟩⟩, fun s hs => ?_⟩
    · obtain ⟨x, hx, -⟩ := h
      cases hx
    · cases hs
      refine ⟨⟨⟨rfl, by decide, rfl⟩, ⟨fun _ h => absurd rfl h, fun _ s' hf => ?_⟩⟩,
        fun _ _ => trivial⟩
      have hl : s'.len ≤ 4 := by
        cases hf with
        | whole => decide
        | cut => exact Nat.sub_le _ _
        | antipode => decide
      exact lt_of_le_of_lt hl (by decide +kernel)
  exact (window_assertions_hold .shipped (s := shippedReceiver)
    ⟨rfl, rfl, by decide, rfl, rfl, rfl⟩ hes).1

/-- A peer that ignores the window of 2144: a segment of 536 bytes at its last sequence number, and
then all data before it. -/
def overrunningRun : List RxEvent :=
  [.receive 0 {} { seg := dataSeg 2144 (List.replicate 536 0) false, ackno := 1, wnd := 1000 },
    .receive 0 {} { seg := dataSeg 1 (List.replicate 2143 0) false, ackno := 1, wnd := 1000 }]

/-- The queued segment is in sequence now, but longer than the window that is left. -/
theorem overrunningRun_aborts :
    run (rxStep .shipped) shippedReceiver overrunningRun = .error .ooseqTcplenGtRcvWnd := by
  decide +kernel

end Lwip.Tcp
