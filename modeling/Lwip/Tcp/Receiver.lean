import Lwip.Tcp.InSeq

/-!
# Runs of the receiver

The receiver of a connection as a machine: the events are calls of `tcp_receive` on incoming
segments, calls of `tcp_recved` by the application, and the sends of data and of bare
acknowledgements. Beside the pcb the state keeps what was handed up and sent so far.

`RcvInv` is the shape of the receive queue and window. Every step preserves it if no segment arrives
from half the sequence space away, so it holds after every run.
-/

namespace Lwip.Tcp

/-- The receiver with its history. -/
structure RxState where
  pcb : TcpPcb
  /-- All the data handed up in `recv_data`. -/
  data : List UInt8 := []
  /-- The number of calls that raised `TF_GOT_FIN`. -/
  fins : ℕ := 0
  /-- All the segments sent. -/
  sent : List Sent := []
  deriving DecidableEq

/-- What can happen to the receiver. The outcomes of the allocations that a call makes and the value
of `tcp_ticks` come with the event. -/
inductive RxEvent where
  | receive (ticks : BitVec 32) (m : RxAlloc) (i : In)
  | recved (input : Bool) (ticks : BitVec 32) (alloc : Bool) (len : ℕ)
  | write (alloc : ℕ → Bool) (data : List UInt8) (copy more : Bool)
  | output (ticks : BitVec 32) (alloc : Bool)
  | emptyAck (alloc : Bool)
  | keepalive (alloc : Bool)
  | probe (alloc : Bool)

/-- One event. -/
def rxStep (o : Opts) (s : RxState) : RxEvent → Except Abort RxState
  | .receive ticks m i => do
    let rx ← tcpReceive o ticks m s.pcb i
    .ok {
      pcb := rx.pcb
      data := s.data ++ rx.recv_data
      fins := s.fins + if rx.got_fin then 1 else 0
      sent := s.sent ++ rx.sent }
  | .recved input ticks alloc len => do
    let r ← tcpRecved o input ticks alloc s.pcb len
    .ok { s with pcb := r.1, sent := s.sent ++ r.2 }
  | .write alloc data copy more => do
    let r ← tcpWrite o alloc s.pcb data copy more
    .ok { s with pcb := r.2 }
  | .output ticks alloc => do
    let r ← tcpOutput ticks alloc s.pcb
    .ok { s with pcb := r.1, sent := s.sent ++ r.2 }
  | .emptyAck alloc =>
    let r := tcpSendEmptyAck alloc s.pcb
    .ok { s with pcb := r.1, sent := s.sent ++ r.2 }
  | .keepalive alloc =>
    let r := tcpKeepalive alloc s.pcb
    .ok { s with pcb := r.1, sent := s.sent ++ r.2 }
  | .probe alloc =>
    let r := tcpZeroWindowProbe alloc s.pcb
    .ok { s with pcb := r.1, sent := s.sent ++ r.2 }

/-- The receiver opens its window for data that the application has processed: `a` with a larger
window, announced by the rule of `tcp_update_rcv_ann_wnd`. -/
structure Opened (o : Opts) (a b : TcpPcb) (out : List Sent) : Prop where
  wnd_le : a.rcv_wnd ≤ b.rcv_wnd
  wnd_max : b.rcv_wnd ≤ max a.rcv_wnd o.TCP_WND
  stamped : Stamped (tcpUpdateRcvAnnWnd o { a with rcv_wnd := b.rcv_wnd }).1 b out

/-- `tcp_recved` opens the window. -/
theorem tcpRecved_opened {o : Opts} {input : Bool} {ticks : BitVec 32} {alloc : Bool}
    {pcb pcb' : TcpPcb} {len : ℕ} {out : List Sent} (hw : pcb.rcv_wnd ≤ o.TCP_WND)
    (h : tcpRecved o input ticks alloc pcb len = .ok (pcb', out)) : Opened o pcb pcb' out := by
  unfold tcpRecved at h
  obtain ⟨_, -, h⟩ := bind_eq_ok.mp h
  dsimp only at h
  set w := if pcb.rcv_wnd + len > o.TCP_WND then o.TCP_WND else pcb.rcv_wnd + len with hwdef
  have hst : Stamped (tcpUpdateRcvAnnWnd o { pcb with rcv_wnd := w }).1 pcb' out := by
    split at h
    · exact tcpAckNow_stamped h
    · cases h; exact (SameRcv.refl _).stamped
  have hw' : pcb'.rcv_wnd = w := by rw [hst.rcv_wnd]; simp
  refine ⟨?_, ?_, hw' ▸ hst⟩
  · rw [hw', hwdef]; split <;> omega
  · rw [hw', hwdef]; split <;> omega

/-- All that an event can do to the receiver: stop, receive, open the window, or send. -/
inductive RxCase (o : Opts) (s : RxState) : RxEvent → RxState → Prop where
  | receive {ticks : BitVec 32} {m : RxAlloc} {i : In} {rx : Rx} :
      tcpReceive o ticks m s.pcb i = .ok rx →
      RxCase o s (.receive ticks m i) {
        pcb := rx.pcb
        data := s.data ++ rx.recv_data
        fins := s.fins + if rx.got_fin then 1 else 0
        sent := s.sent ++ rx.sent }
  | recved {input : Bool} {ticks : BitVec 32} {alloc : Bool} {len : ℕ} {pcb : TcpPcb}
      {out : List Sent} : tcpRecved o input ticks alloc s.pcb len = .ok (pcb, out) →
      RxCase o s (.recved input ticks alloc len) { s with pcb, sent := s.sent ++ out }
  | send {e : RxEvent} {pcb : TcpPcb} {out : List Sent} : Stamped s.pcb pcb out →
      RxCase o s e { s with pcb, sent := s.sent ++ out }

/-- A step that does not stop is one of the cases. -/
theorem rxStep_cases {o : Opts} {s s' : RxState} {e : RxEvent} (h : rxStep o s e = .ok s') :
    RxCase o s e s' := by
  cases e with
  | receive ticks m i =>
    obtain ⟨rx, hrx, h⟩ := bind_eq_ok.mp h
    cases h
    exact .receive hrx
  | recved input ticks alloc len =>
    obtain ⟨⟨pcb, out⟩, hr, h⟩ := bind_eq_ok.mp h
    cases h
    exact .recved hr
  | write alloc data copy more =>
    obtain ⟨⟨e, pcb⟩, hr, h⟩ := bind_eq_ok.mp h
    cases h
    simpa using RxCase.send (o := o) (s := s) (e := .write alloc data copy more)
      (tcpWrite_sameRcv hr).stamped
  | output ticks alloc =>
    obtain ⟨⟨pcb, out⟩, hr, h⟩ := bind_eq_ok.mp h
    cases h
    exact .send (tcpOutput_stamped hr)
  | emptyAck alloc => cases h; exact .send (tcpSendEmptyAck_stamped alloc s.pcb)
  | keepalive alloc => cases h; exact .send (tcpKeepalive_stamped alloc s.pcb)
  | probe alloc => cases h; exact .send (tcpZeroWindowProbe_stamped alloc s.pcb)

/-! ## The shape of the queue -/

/-- The receive window is at most `TCP_WND`, and the queue has the shape of `OoseqInv` within it. -/
structure RcvInv (o : Opts) (pcb : TcpPcb) : Prop where
  wnd : pcb.rcv_wnd ≤ o.TCP_WND
  queue : OoseqInv pcb.rcv_nxt o.TCP_WND pcb.ooseq

/-- The receive window is a 16-bit value. -/
theorem RcvInv.wnd_lt {o : Opts} {pcb : TcpPcb} (h : RcvInv o pcb) : pcb.rcv_wnd < 2^16 := by
  have := h.wnd
  have := o.wnd_le
  omega

/-- Sending keeps the shape. -/
theorem RcvInv.stamped {o : Opts} {a b : TcpPcb} {out : List Sent} (h : RcvInv o a)
    (hs : Stamped a b out) : RcvInv o b :=
  ⟨by rw [hs.rcv_wnd]; exact h.wnd, by rw [hs.rcv_nxt, hs.ooseq]; exact h.queue⟩

/-- The queue seen from a later origin that no queued segment lies before. -/
theorem OoseqWeak.advance {r : Serial} {wnd n : ℕ} {q : List Seg} (h : OoseqWeak r wnd q)
    (hn : ∀ x ∈ q, n ≤ x.off r) : OoseqWeak (r.adv n) wnd q := by
  have hoff : ∀ x ∈ q, x.off (r.adv n) = x.off r - n :=
    fun x hx => Serial.dist_adv_left (hn x hx)
  refine ⟨?_, h.ok, fun x hx => ?_⟩
  · refine h.order.imp_of_mem (fun {a b} ha hb hab => ⟨?_, ?_, hab.fin⟩)
    · have h1 := hab.disjoint
      have h2 := hn a ha
      have h3 := hn b hb
      rw [hoff a ha, hoff b hb]
      omega
    · have h1 := hab.lt
      have h2 := hn a ha
      rw [hoff a ha, hoff b hb]
      omega
  · have h1 := h.below x hx
    rw [hoff x hx]
    omega

/-- The rest of a queue that starts at the origin, seen from the end of its first segment. -/
theorem OoseqWeak.dequeue {r : Serial} {wnd : ℕ} {c : Seg} {rest : List Seg}
    (h : OoseqWeak r wnd (c :: rest)) (hc : c.seqno = r) :
    OoseqWeak (r.adv c.tcplen) wnd rest := by
  obtain ⟨hall, hpw⟩ := List.pairwise_cons.mp h.order
  have hrest : OoseqWeak r wnd rest :=
    ⟨hpw, fun x hx => h.ok x (by simp [hx]), fun x hx => h.below x (by simp [hx])⟩
  refine hrest.advance (fun x hx => ?_)
  have hb := hall x hx
  have hd := hb.disjoint
  have h0 : c.off r = 0 := by unfold Seg.off; rw [hc, Serial.dist_self]
  have htl : c.tcplen = c.len := by rw [(h.ok c (by simp)).tcplen_eq]; simp [hb.fin]
  omega

/-- A queue whose head does not start at the origin starts after it. -/
theorem OoseqWeak.inv {r : Serial} {wnd : ℕ} {q : List Seg} (h : OoseqWeak r wnd q)
    (hhead : ∀ c ∈ q.head?, c.seqno ≠ r) : OoseqInv r wnd q := by
  refine ⟨h, fun x hx => ?_⟩
  cases q with
  | nil => cases hx
  | cons c rest =>
    have hc : 0 < c.off r := by
      rcases Nat.eq_zero_or_pos (c.off r) with h0 | h0
      · exact absurd ((Serial.dist_eq_zero_iff r c.seqno).mp h0) (hhead c (by simp))
      · exact h0
    rcases List.mem_cons.mp hx with rfl | hx
    · exact hc
    · exact hc.trans ((List.pairwise_cons.mp h.order).1 x hx).lt

/-- What stays of the queue after a segment in sequence, seen from the segment's end. -/
theorem Merged.weak {r : Serial} {wnd w : ℕ} {q q' : List Seg} {s s' : Seg}
    (h : Merged r w q s s' q') (hq : OoseqWeak r wnd q) : OoseqWeak (r.adv s'.tcplen) wnd q' := by
  have hq' : OoseqWeak r wnd q' := ⟨hq.order.sublist h.suffix.sublist,
    fun x hx => hq.ok x (h.suffix.mem hx), fun x hx => hq.below x (h.suffix.mem hx)⟩
  exact hq'.advance h.after

/-- A segment in sequence keeps the shape. -/
theorem RcvInv.inSeq {o : Opts} {pcb : TcpPcb} {s : Seg} {rx : Rx} (h : RcvInv o pcb) (hs : s.Ok)
    (hl : s.len + 1 < 2^16) (hseq : s.seqno = pcb.rcv_nxt) (h0 : 0 < pcb.rcv_wnd)
    (hrx : tcpReceiveInSeq o pcb s = .ok rx) : RcvInv o rx.pcb := by
  have hwnd : o.TCP_WND ≤ 2^16 := by have := o.wnd_le; omega
  let I : List Seg → Rx → Prop := fun q rx => rx.pcb.ooseq = q ∧ rx.pcb.rcv_wnd ≤ o.TCP_WND ∧
    OoseqWeak rx.pcb.rcv_nxt o.TCP_WND q
  have hstart : ∀ s' q', Merged pcb.rcv_nxt pcb.rcv_wnd pcb.ooseq s s' q' →
      s'.tcplen ≤ pcb.rcv_wnd → I q' (inSeqStart o pcb s' q') := by
    intro s' q' hM hle
    have hw := h.wnd
    refine ⟨inSeqStart_ooseq .., by rw [inSeqStart_rcv_wnd]; omega, ?_⟩
    rw [inSeqStart_rcv_nxt, hM.seqno, hseq]
    exact hM.weak h.queue.toOoseqWeak
  have hstep : ∀ c rest rx, I (c :: rest) rx → c.seqno = rx.pcb.rcv_nxt →
      c.tcplen ≤ rx.pcb.rcv_wnd → I rest (dequeueOne o c rest rx) := by
    rintro c rest rx ⟨-, hw, hI⟩ hc -
    refine ⟨rfl, by rw [dequeueOne_rcv_wnd]; omega, ?_⟩
    rw [dequeueOne_rcv_nxt]
    exact hI.dequeue hc
  obtain ⟨q', rx', rfl, ⟨hq', hw', hI⟩, hhead⟩ := tcpReceiveInSeq_induction hs hl hseq h0 h.wnd_lt
    hwnd h.queue I hstart hstep hrx
  have hsame := tcpAck_sameRcv rx'.pcb
  refine ⟨?_, ?_⟩
  · show (tcpAck rx'.pcb).rcv_wnd ≤ o.TCP_WND
    rw [hsame.rcv_wnd]; exact hw'
  · show OoseqInv (tcpAck rx'.pcb).rcv_nxt o.TCP_WND (tcpAck rx'.pcb).ooseq
    rw [hsame.rcv_nxt, hsame.ooseq, hq']
    exact hI.inv hhead

/-- Where the window test puts a segment that is not the next: inside the window, or, if the window
is closed, half the circle away. -/
theorem between_window {r x : Serial} {w : ℕ} (hw : w < 2^16)
    (hb : Serial.between x r (r.adv w - 1)) :
    Serial.dist r x < w ∨ w = 0 ∧ Serial.dist r x = 2^31 - 1 := by
  have hge := (Serial.geq_iff _ _).mp hb.1
  rcases Nat.eq_zero_or_pos w with rfl | hpos
  · right
    have hle := (Serial.leq_iff _ _).mp hb.2
    rw [Serial.adv_zero, Serial.dist_sub_one_left (by omega)] at hle
    omega
  · left
    have hd : Serial.dist r (r.adv w) = w := Serial.dist_self_adv (by omega)
    have hd' : Serial.dist r (r.adv w - 1) = w - 1 := by
      rw [Serial.dist_sub_one (by omega), hd]
    have hle := (Serial.leq_iff_dist (r := r) hge (by omega)).mp hb.2
    omega

/-- A call of `tcp_receive` keeps the shape, unless the segment comes from half the circle away. -/
theorem RcvInv.receive {o : Opts} {ticks : BitVec 32} {m : RxAlloc} {pcb : TcpPcb} {i : In}
    {rx : Rx} (h : RcvInv o pcb) (hi : i.seg.Incoming)
    (hfar : Serial.dist pcb.rcv_nxt i.seg.seqno ≠ 2^31 - 1)
    (hrx : tcpReceive o ticks m pcb i = .ok rx) : RcvInv o rx.pcb := by
  have hwnd : o.TCP_WND ≤ 2^16 := by have := o.wnd_le; omega
  rcases tcpReceive_cases o ticks m pcb hi with ⟨a, -, he⟩ | hcase
  · rw [he] at hrx; cases hrx
  · generalize hx : tcpReceive o ticks m pcb i = x at hcase hrx
    cases hcase with
    | insane => cases hrx
    | quiet hst => cases hrx; exact h.stamped hst
    | queued hst hok hne hb =>
      cases hrx
      have hb' := (between_window h.wnd_lt hb).resolve_right (fun h' => hfar h'.2)
      have hpos : 0 < i.seg.off pcb.rcv_nxt :=
        Nat.pos_of_ne_zero fun h0 => hne ((Serial.dist_eq_zero_iff _ _).mp h0)
      have hoff : i.seg.off pcb.rcv_nxt < o.TCP_WND := lt_of_lt_of_le hb' h.wnd
      refine ⟨?_, ?_⟩
      · show _ ≤ _
        rw [hst.rcv_wnd]; exact h.wnd
      · show OoseqInv _ o.TCP_WND (tcpQueueOoseq m.seg i.seg pcb.ooseq)
        rw [hst.rcv_nxt]
        exact (tcpQueueOoseq_spec m.seg hwnd hok hpos hoff h.queue).1
    | inSeq hsame hf hok hl hw =>
      refine RcvInv.inSeq (h.stamped hsame.stamped) hok hl ?_ ?_ hrx
      · rw [hf.seqno, hsame.rcv_nxt]
      · rw [hsame.rcv_wnd]; exact hw

/-- `tcp_recved` keeps the shape. -/
theorem RcvInv.opened {o : Opts} {a b : TcpPcb} {out : List Sent} (h : RcvInv o a)
    (ho : Opened o a b out) : RcvInv o b := by
  have hst := ho.stamped
  have h1 := ho.wnd_max
  have h2 := h.wnd
  refine ⟨by omega, ?_⟩
  rw [hst.rcv_nxt, hst.ooseq, tcpUpdateRcvAnnWnd_rcv_nxt, tcpUpdateRcvAnnWnd_ooseq]
  exact h.queue

/-! ## Every run -/

/-- The sequence number `x` is within `2^30` of `r`, before or after it. -/
def Near (r x : Serial) : Prop := Serial.dist r x ≤ 2^30 ∨ Serial.dist x r ≤ 2^30

instance (r x : Serial) : Decidable (Near r x) :=
  inferInstanceAs (Decidable (_ ∨ _))

/-- A number near another is not at the end of half the circle. -/
theorem Near.dist_ne {r x : Serial} (h : Near r x) : Serial.dist r x ≠ 2^31 - 1 := by
  rcases h with h | h
  · omega
  · intro hd
    rw [Serial.dist_eq_sub_wrap (r := r) (by rw [Serial.dist_self]; omega), Serial.dist_self] at h
    omega

/-- The receiver of a connection that was just established. -/
structure Fresh (o : Opts) (s : RxState) : Prop where
  state : s.pcb.state = .ESTABLISHED
  ooseq : s.pcb.ooseq = []
  wnd : s.pcb.rcv_wnd ≤ o.TCP_WND
  data : s.data = []
  fins : s.fins = 0
  sent : s.sent = []

/-- The invariant holds of a fresh receiver. -/
theorem Fresh.rcvInv {o : Opts} {s : RxState} (h : Fresh o s) : RcvInv o s.pcb where
  wnd := h.wnd
  queue := by rw [h.ooseq]; exact ⟨⟨.nil, by simp, by simp⟩, by simp⟩

/-- The events of a run in which every segment comes from near `rcv_nxt`. -/
def NearEvent (s : RxState) : RxEvent → Prop
  | .receive _ _ i => i.seg.Incoming ∧ Near s.pcb.rcv_nxt i.seg.seqno
  | _ => True

/-- A step on a segment from near `rcv_nxt` keeps the shape. -/
theorem RcvInv.step {o : Opts} {s s' : RxState} {e : RxEvent} (h : RcvInv o s.pcb)
    (he : NearEvent s e) (hs : rxStep o s e = .ok s') : RcvInv o s'.pcb := by
  cases rxStep_cases hs with
  | receive hrx => exact h.receive he.1 he.2.dist_ne hrx
  | recved hr => exact h.opened (tcpRecved_opened h.wnd hr)
  | send hst => exact h.stamped hst

/-- In every state that a fresh receiver can reach, the queue of segments out of sequence is in
order, disjoint, above `rcv_nxt` and below `rcv_nxt + TCP_WND`, with a FIN at most on the last
segment and empty segments only for a FIN. -/
theorem ooseq_inv_reachable (o : Opts) {s s' : RxState} {es : List RxEvent} (h0 : Fresh o s)
    (hes : Along (rxStep o) NearEvent s es) (hrun : run (rxStep o) s es = .ok s') :
    OoseqInv s'.pcb.rcv_nxt o.TCP_WND s'.pcb.ooseq :=
  (run_invariant (I := fun s => RcvInv o s.pcb) (fun _ _ _ h he hs => h.step he hs) h0.rcvInv hes
    hrun).queue

/-- A segment of the peer with the data `p` and perhaps a FIN. -/
def dataSeg (seqno : Serial) (p : List UInt8) (fin : Bool) : Seg :=
  { seqno, len := p.length, flags := { fin, ack := true }, p }

/-- The receiver of a connection in this build, with both initial sequence numbers zero. -/
def shippedReceiver : RxState := { pcb := .established .shipped 0 0 1000 }

/-- Two segments out of sequence that overlap, the second one of them with a FIN. -/
def overlapRun : List RxEvent :=
  [.receive 0 {} { seg := dataSeg 5 [1, 2, 3] true, ackno := 1, wnd := 1000 },
    .receive 0 {} { seg := dataSeg 3 [1, 2, 3] false, ackno := 1, wnd := 1000 }]

/-- A run with overlapping segments and two of them in the queue. -/
theorem ooseq_inv_reachable_overlapRun :
    ∃ s', run (rxStep .shipped) shippedReceiver overlapRun = .ok s' ∧ s'.pcb.ooseq.length = 2 ∧
      OoseqInv s'.pcb.rcv_nxt Opts.shipped.TCP_WND s'.pcb.ooseq := by
  have hes : Along (rxStep .shipped) NearEvent shippedReceiver overlapRun := by
    refine ⟨⟨⟨rfl, by decide, rfl⟩, by decide⟩, fun s hs => ?_⟩
    cases hs
    exact ⟨⟨⟨rfl, by decide, rfl⟩, by decide +kernel⟩, fun _ _ => trivial⟩
  exact ⟨_, rfl, by decide +kernel,
    ooseq_inv_reachable .shipped ⟨rfl, rfl, by decide, rfl, rfl, rfl⟩ hes rfl⟩

end Lwip.Tcp
