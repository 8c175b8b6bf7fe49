import Lwip.Tcp.Receiver

/-!
# The byte stream

The sender's stream is a list `S` of bytes, which starts at sequence number `r₀` and whose FIN
occupies position `S.length`. Every incoming segment is a slice of it (`Slice`). The trimming of
segments makes slices of slices, so the queue holds only slices, and a slice that is handed up at
`rcv_nxt` extends what was delivered so far (`Delivered.extend`). The invariant of the run says that
the receiver has delivered exactly the first bytes of the stream.
-/

namespace Lwip.Tcp

variable {S : List UInt8} {r₀ : Serial}

/-- The segment is a slice of the stream: its bytes are those from its position on, and it has a FIN
only if it reaches the end. -/
structure Slice (S : List UInt8) (r₀ : Serial) (s : Seg) : Prop where
  end_le : Serial.dist r₀ s.seqno + s.len ≤ S.length
  bytes : s.p = (S.drop (Serial.dist r₀ s.seqno)).take s.len
  fin : s.flags.fin = true → Serial.dist r₀ s.seqno + s.len = S.length

/-! ## Slices of slices -/

/-- A slice cut short is a slice. -/
theorem Slice.cut {s s' : Seg} (h : Slice S r₀ s) (hc : s.Cut s') : Slice S r₀ s' where
  end_le := by
    have h1 := h.end_le
    have h2 := hc.len
    rw [hc.seqno]
    omega
  bytes := by rw [hc.p, h.bytes, hc.seqno, List.take_take, min_eq_left hc.len]
  fin hf := by
    obtain ⟨hf', hl⟩ := hc.fin hf
    rw [hc.seqno, hl]
    exact h.fin hf'

/-- A slice without a FIN, trimmed. -/
theorem Slice.trim {s : Seg} {n : ℕ} (h : Slice S r₀ s) (hs : s.Ok) (hf : s.flags.fin = false)
    (hn : n ≤ s.len) : Slice S r₀ (s.trim n) :=
  h.cut ((Seg.Cut.refl hs.len_eq).trim hf hn)

/-- A slice that covers another one's end takes over its FIN. -/
theorem Slice.setFin {s x : Seg} (h : Slice S r₀ s) (hx : Slice S r₀ x) (hf : x.flags.fin = true)
    (hle : Serial.dist r₀ x.seqno + x.len ≤ Serial.dist r₀ s.seqno + s.len) :
    Slice S r₀ s.setFin where
  end_le := h.end_le
  bytes := h.bytes
  fin _ := by
    have h1 := hx.fin hf
    have h2 := h.end_le
    simp only [Seg.setFin_seqno, Seg.setFin_len]
    omega

/-- Positions in the stream and distances from `rcv_nxt` differ by the position of `rcv_nxt`. -/
theorem dist_base {r x : Serial} (hr : Serial.dist r₀ r ≤ 2^30) (hx : Serial.dist r x < 2^31) :
    Serial.dist r₀ x = Serial.dist r₀ r + Serial.dist r x := by
  have h := Serial.dist_adv r₀ r (Serial.dist r x) (by omega)
  rwa [Serial.adv_dist] at h

/-- The part of a slice from the position of `r` on is a slice. The defect of the test for it does
not show: the stream is too short to reach around the circle. -/
theorem Slice.front {r : Serial} {s s' : Seg} (hS : S.length < 2^30) (h : Slice S r₀ s)
    (hr : Serial.dist r₀ r ≤ 2^30) (hf : Front r s s') : Slice S r₀ s' := by
  have hend := h.end_le
  cases hf with
  | whole => exact h
  | cut hd hd' =>
    have htl := s.tcplen_le
    have hbase : Serial.dist r₀ r = Serial.dist r₀ s.seqno + Serial.dist s.seqno r :=
      dist_base (by omega) (by omega)
    refine ⟨?_, ?_, fun hfin => ?_⟩
    · dsimp only; omega
    · dsimp only
      rw [h.bytes, List.drop_take, List.drop_drop, hbase]
    · have := h.fin hfin
      dsimp only
      omega
  | antipode hd =>
    exfalso
    rcases le_or_gt (Serial.dist r₀ s.seqno) (Serial.dist r₀ r) with hle | hgt
    · rw [Serial.dist_eq_sub hle] at hd; omega
    · rw [Serial.dist_eq_sub_wrap hgt] at hd; omega

/-- What a queueing leaves are slices. -/
theorem Slice.derived {r : Serial} {c : Seg} {l : List Seg} (hr : Serial.dist r₀ r ≤ 2^30)
    (hc : Slice S r₀ c) (hcok : c.Ok) (hl : ∀ x ∈ l, Slice S r₀ x) (hlok : ∀ x ∈ l, x.Ok)
    (hoff : ∀ x ∈ l, x.off r < 2^31) (hcoff : c.off r < 2^31) {s : Seg} (hs : Derived r c l s) :
    Slice S r₀ s := by
  cases hs with
  | old hm => exact hl _ hm
  | cut hm hf _ hn => exact (hl _ hm).trim (hlok _ hm) hf hn.le
  | new => exact hc
  | newCut hf _ hn => exact hc.trim hcok hf hn.le
  | newFin hm hf hle =>
    refine hc.setFin (hl _ hm) hf ?_
    have h1 := dist_base hr (hoff _ hm)
    have h2 := dist_base hr hcoff
    unfold Seg.off at hle
    omega

/-- What is handed up in place of a slice is a slice. -/
theorem Slice.taken {r : Serial} {w : ℕ} {q : List Seg} {s s' : Seg}
    (hr : Serial.dist r₀ r ≤ 2^30) (h : Slice S r₀ s) (hseq : s.seqno = r)
    (hq : ∀ x ∈ q, Slice S r₀ x) (hoff : ∀ x ∈ q, x.off r < 2^31) (ht : Taken r w q s s') :
    Slice S r₀ s' := by
  cases ht with
  | part hc => exact h.cut hc
  | fin hc hf _ hm hxf hle =>
    refine (h.cut hc).setFin (hq _ hm) hxf ?_
    have h1 := dist_base hr (hoff _ hm)
    rw [hc.seqno, hseq]
    unfold Seg.off at hle
    omega

/-! ## The delivered prefix -/

/-- The receiver stands at position `n`: it has delivered the bytes before it, and has seen the FIN
exactly if it stands after it. -/
structure Delivered (S : List UInt8) (n : ℕ) (data : List UInt8) (fins : ℕ) : Prop where
  pos_le : n ≤ S.length + 1
  data_eq : data = S.take n
  fins_eq : fins = if n = S.length + 1 then 1 else 0

/-- A slice that starts where the receiver stands moves it to the slice's end. -/
theorem Delivered.extend {n : ℕ} {data : List UInt8} {fins : ℕ} {s : Seg}
    (h : Delivered S n data fins) (hs : Slice S r₀ s) (hok : s.Ok)
    (hpos : Serial.dist r₀ s.seqno = n) :
    Delivered S (n + s.tcplen) (data ++ s.p) (fins + if s.flags.fin then 1 else 0) := by
  have hend := hs.end_le
  have hbytes := hs.bytes
  rw [hpos] at hend hbytes
  have hfins : fins = 0 := by rw [h.fins_eq, if_neg (by omega)]
  have hdata : data ++ s.p = S.take (n + s.len) := by
    rw [h.data_eq, hbytes, List.take_add]
  rw [hok.tcplen_eq]
  cases hf : s.flags.fin with
  | false =>
    simp only [Bool.false_eq_true, if_false, Nat.add_zero]
    exact ⟨by omega, hdata, by rw [hfins, if_neg (by omega)]⟩
  | true =>
    have hlast := hs.fin hf
    rw [hpos] at hlast
    simp only [if_true]
    refine ⟨by omega, ?_, by rw [hfins, if_pos (by omega)]⟩
    rw [hdata, List.take_of_length_le (by omega), List.take_of_length_le (by omega)]

/-! ## The invariant of the run -/

/-- The receiver has the shape of `RcvInv`, its queue holds slices, and it has delivered the stream
up to `rcv_nxt`. -/
structure StreamInv (o : Opts) (S : List UInt8) (r₀ : Serial) (s : RxState) : Prop where
  rcv : RcvInv o s.pcb
  slices : ∀ x ∈ s.pcb.ooseq, Slice S r₀ x
  delivered : Delivered S (Serial.dist r₀ s.pcb.rcv_nxt) s.data s.fins

/-- The state of the loop over the queue, with the history before it. -/
structure StreamLoop (o : Opts) (S : List UInt8) (r₀ : Serial) (s : RxState) (q : List Seg)
    (rx : Rx) : Prop where
  weak : OoseqWeak rx.pcb.rcv_nxt o.TCP_WND q
  ooseq : rx.pcb.ooseq = q
  slices : ∀ x ∈ q, Slice S r₀ x
  delivered : Delivered S (Serial.dist r₀ rx.pcb.rcv_nxt) (s.data ++ rx.recv_data)
    (s.fins + if rx.got_fin then 1 else 0)
  mono : Serial.dist r₀ s.pcb.rcv_nxt ≤ Serial.dist r₀ rx.pcb.rcv_nxt

/-- A round of the loop hands up one more slice. -/
theorem StreamLoop.step {o : Opts} {s : RxState} {c : Seg} {rest : List Seg} {rx : Rx}
    (hS : S.length < 2^30) (h : StreamLoop o S r₀ s (c :: rest) rx)
    (hc : c.seqno = rx.pcb.rcv_nxt) : StreamLoop o S r₀ s rest (dequeueOne o c rest rx) := by
  have hsl := h.slices c (by simp)
  have hok := h.weak.ok c (by simp)
  have hext := h.delivered.extend hsl hok (by rw [hc])
  have hpos := hext.pos_le
  have hdist : Serial.dist r₀ (rx.pcb.rcv_nxt.adv c.tcplen) =
      Serial.dist r₀ rx.pcb.rcv_nxt + c.tcplen := Serial.dist_adv _ _ _ (by omega)
  -- The FIN was not seen before, since the slice starts before the end of the stream.
  have hfin : rx.got_fin = false := by
    have h1 := h.delivered.fins_eq
    have h2 := hsl.end_le
    rw [hc] at h2
    have hne : Serial.dist r₀ rx.pcb.rcv_nxt ≠ S.length + 1 := by omega
    cases hg : rx.got_fin with
    | false => rfl
    | true => simp [hg, hne] at h1
  refine ⟨?_, rfl, fun x hx => h.slices x (by simp [hx]), ?_, ?_⟩
  · rw [dequeueOne_rcv_nxt]
    exact h.weak.dequeue hc
  · rw [dequeueOne_rcv_nxt, hdist, dequeueOne_recv_data, dequeueOne_got_fin, hfin, Bool.false_or,
      ← List.append_assoc]
    simpa [hfin] using hext
  · rw [dequeueOne_rcv_nxt, hdist]
    exact h.mono.trans (Nat.le_add_right _ _)

/-- A slice in sequence keeps the invariant. -/
theorem StreamInv.inSeq {o : Opts} {s : RxState} {pcb : TcpPcb} {c : Seg} {rx : Rx}
    (hS : S.length < 2^30) (h : StreamInv o S r₀ s) (hsame : SameRcv s.pcb pcb)
    (hc : Slice S r₀ c) (hok : c.Ok) (hl : c.len + 1 < 2^16) (hseq : c.seqno = pcb.rcv_nxt)
    (hw : 0 < pcb.rcv_wnd) (hrx : tcpReceiveInSeq o pcb c = .ok rx) :
    (∀ x ∈ rx.pcb.ooseq, Slice S r₀ x) ∧
      Delivered S (Serial.dist r₀ rx.pcb.rcv_nxt) (s.data ++ rx.recv_data)
        (s.fins + if rx.got_fin then 1 else 0) ∧
      Serial.dist r₀ s.pcb.rcv_nxt ≤ Serial.dist r₀ rx.pcb.rcv_nxt := by
  have hwnd : o.TCP_WND ≤ 2^16 := by have := o.wnd_le; omega
  have hinv : RcvInv o pcb := h.rcv.stamped hsame.stamped
  have hslices : ∀ x ∈ pcb.ooseq, Slice S r₀ x := by rw [hsame.ooseq]; exact h.slices
  have hdel := h.delivered
  rw [← hsame.rcv_nxt] at hdel
  have hpos : Serial.dist r₀ pcb.rcv_nxt ≤ 2^30 := by
    have h1 := hc.end_le
    rw [hseq] at h1
    omega
  have hstart : ∀ c' q', Merged pcb.rcv_nxt pcb.rcv_wnd pcb.ooseq c c' q' →
      c'.tcplen ≤ pcb.rcv_wnd → StreamLoop o S r₀ s q' (inSeqStart o pcb c' q') := by
    intro c' q' hM _
    have hsl : Slice S r₀ c' := hc.taken hpos hseq hslices (fun x hx => by
      have := hinv.queue.below x hx
      omega) hM.taken
    have hext := hdel.extend hsl hM.ok (by rw [hM.seqno, hseq])
    have hle := hext.pos_le
    have hdist : Serial.dist r₀ (pcb.rcv_nxt.adv c'.tcplen) =
        Serial.dist r₀ pcb.rcv_nxt + c'.tcplen := Serial.dist_adv _ _ _ (by omega)
    refine ⟨?_, inSeqStart_ooseq .., fun x hx => hslices x (hM.suffix.mem hx), ?_, ?_⟩
    · rw [inSeqStart_rcv_nxt, hM.seqno, hseq]
      exact hM.weak hinv.queue.toOoseqWeak
    · rw [inSeqStart_rcv_nxt, hM.seqno, hseq, hdist]
      exact hext
    · rw [inSeqStart_rcv_nxt, hM.seqno, hseq, hdist, hsame.rcv_nxt]
      exact Nat.le_add_right _ _
  obtain ⟨q', rx', rfl, hI, -⟩ := tcpReceiveInSeq_induction hok hl hseq hw hinv.wnd_lt hwnd
    hinv.queue (StreamLoop o S r₀ s) hstart (fun _ _ _ hI hseq _ => hI.step hS hseq) hrx
  have hack := tcpAck_sameRcv rx'.pcb
  refine ⟨?_, ?_, ?_⟩
  · show ∀ x ∈ (tcpAck rx'.pcb).ooseq, _
    rw [hack.ooseq, hI.ooseq]
    exact hI.slices
  · show Delivered S (Serial.dist r₀ (tcpAck rx'.pcb).rcv_nxt) _ _
    rw [hack.rcv_nxt]
    exact hI.delivered
  · show _ ≤ Serial.dist r₀ (tcpAck rx'.pcb).rcv_nxt
    rw [hack.rcv_nxt]
    exact hI.mono

/-- The receiver after a call of `tcp_receive` on a slice. -/
theorem StreamInv.receive {o : Opts} {s : RxState} {ticks : BitVec 32} {m : RxAlloc} {i : In}
    {rx : Rx} (hS : S.length < 2^30) (h : StreamInv o S r₀ s) (hi : i.seg.Incoming)
    (hsl : Slice S r₀ i.seg) (hrx : tcpReceive o ticks m s.pcb i = .ok rx) :
    RcvInv o rx.pcb ∧ (∀ x ∈ rx.pcb.ooseq, Slice S r₀ x) ∧
      Delivered S (Serial.dist r₀ rx.pcb.rcv_nxt) (s.data ++ rx.recv_data)
        (s.fins + if rx.got_fin then 1 else 0) ∧
      Serial.dist r₀ s.pcb.rcv_nxt ≤ Serial.dist r₀ rx.pcb.rcv_nxt := by
  have hr : Serial.dist r₀ s.pcb.rcv_nxt ≤ 2^30 := by have := h.delivered.pos_le; omega
  have hend := hsl.end_le
  have hfar : Serial.dist s.pcb.rcv_nxt i.seg.seqno ≠ 2^31 - 1 := by
    rcases le_or_gt (Serial.dist r₀ s.pcb.rcv_nxt) (Serial.dist r₀ i.seg.seqno) with hle | hgt
    · rw [Serial.dist_eq_sub hle]; omega
    · rw [Serial.dist_eq_sub_wrap hgt]; omega
  refine ⟨h.rcv.receive hi hfar hrx, ?_⟩
  -- A call that hands nothing up leaves the receiver where it stands.
  have hstay : ∀ {p : TcpPcb}, p.rcv_nxt = s.pcb.rcv_nxt →
      Delivered S (Serial.dist r₀ p.rcv_nxt) (s.data ++ []) (s.fins + if false then 1 else 0) ∧
        Serial.dist r₀ s.pcb.rcv_nxt ≤ Serial.dist r₀ p.rcv_nxt := by
    intro p hp
    rw [hp]
    exact ⟨by simpa using h.delivered, le_rfl⟩
  rcases tcpReceive_cases o ticks m s.pcb hi with ⟨a, -, he⟩ | hcase
  · rw [he] at hrx; cases hrx
  · generalize tcpReceive o ticks m s.pcb i = x at hcase hrx
    cases hcase with
    | insane => cases hrx
    | quiet hst hd hf =>
      cases hrx
      rw [hd, hf]
      exact ⟨by rw [hst.ooseq]; exact h.slices, hstay hst.rcv_nxt⟩
    | @queued pcb' sent hst hok hne hb =>
      cases hrx
      have hb' := (between_window h.rcv.wnd_lt hb).resolve_right (fun h' => hfar h'.2)
      have hwlt := h.rcv.wnd_lt
      have hpos : 0 < i.seg.off s.pcb.rcv_nxt :=
        Nat.pos_of_ne_zero fun h0 => hne ((Serial.dist_eq_zero_iff _ _).mp h0)
      have hoff : i.seg.off s.pcb.rcv_nxt < o.TCP_WND := lt_of_lt_of_le hb' h.rcv.wnd
      have hwnd : o.TCP_WND ≤ 2^16 := by have := o.wnd_le; omega
      refine ⟨fun x hx => ?_, hstay hst.rcv_nxt⟩
      refine hsl.derived hr hok h.slices h.rcv.queue.ok (fun x hx => ?_) (by omega)
        ((tcpQueueOoseq_spec m.seg hwnd hok hpos hoff h.rcv.queue).2 x hx)
      have := h.rcv.queue.below x hx
      omega
    | @inSeq pcb' s' hsame hf hok hl hw =>
      refine h.inSeq hS hsame (hsl.front hS hr hf) hok hl ?_ ?_ hrx
      · rw [hf.seqno, hsame.rcv_nxt]
      · rw [hsame.rcv_wnd]; exact hw

/-- The events of a run whose segments are slices of the stream. -/
def SliceEvent (S : List UInt8) (r₀ : Serial) (_ : RxState) : RxEvent → Prop
  | .receive _ _ i => i.seg.Incoming ∧ Slice S r₀ i.seg
  | _ => True

/-- A step on a slice keeps the invariant, and does not move `rcv_nxt` backwards. -/
theorem StreamInv.step {o : Opts} {s s' : RxState} {e : RxEvent} (hS : S.length < 2^30)
    (h : StreamInv o S r₀ s) (he : SliceEvent S r₀ s e) (hs : rxStep o s e = .ok s') :
    StreamInv o S r₀ s' ∧
      Serial.dist r₀ s.pcb.rcv_nxt ≤ Serial.dist r₀ s'.pcb.rcv_nxt := by
  cases rxStep_cases hs with
  | receive hrx =>
    obtain ⟨hrcv, hsl, hdel, hmono⟩ := h.receive hS he.1 he.2 hrx
    exact ⟨⟨hrcv, hsl, hdel⟩, hmono⟩
  | @recved _ _ _ _ pcb out hr =>
    have ho := tcpRecved_opened h.rcv.wnd hr
    have hnxt : pcb.rcv_nxt = s.pcb.rcv_nxt := by
      rw [ho.stamped.rcv_nxt, tcpUpdateRcvAnnWnd_rcv_nxt]
    have hq : pcb.ooseq = s.pcb.ooseq := by
      rw [ho.stamped.ooseq, tcpUpdateRcvAnnWnd_ooseq]
    refine ⟨⟨h.rcv.opened ho, ?_, ?_⟩, ?_⟩
    · dsimp only; rw [hq]; exact h.slices
    · dsimp only; rw [hnxt]; exact h.delivered
    · dsimp only; rw [hnxt]
  | @send _ pcb out hst =>
    refine ⟨⟨h.rcv.stamped hst, ?_, ?_⟩, ?_⟩
    · dsimp only; rw [hst.ooseq]; exact h.slices
    · dsimp only; rw [hst.rcv_nxt]; exact h.delivered
    · dsimp only; rw [hst.rcv_nxt]

/-- A fresh receiver that waits for the first byte of the stream. -/
theorem Fresh.streamInv {o : Opts} {s : RxState} (h : Fresh o s) (hr : s.pcb.rcv_nxt = r₀) :
    StreamInv o S r₀ s where
  rcv := h.rcvInv
  slices := by rw [h.ooseq]; simp
  delivered := by
    rw [hr, Serial.dist_self, h.data, h.fins]
    exact ⟨Nat.zero_le _, by simp, by simp⟩

/-- Stream integrity. In every run of a fresh receiver on slices of a stream, however they are
ordered, repeated, lost or cut, what was handed up is the stream up to `rcv_nxt`, `rcv_nxt` does not
move backwards between two states of the run, and a FIN was reported at most once, with the whole
stream handed up. -/
theorem stream_integrity (o : Opts) {S : List UInt8} {irs : Serial} {s s' : RxState}
    {es es' : List RxEvent} (hS : S.length < 2^30) (h0 : Fresh o s)
    (hr : s.pcb.rcv_nxt = irs.adv 1)
    (hes : Along (rxStep o) (SliceEvent S (irs.adv 1)) s (es ++ es'))
    (hrun : run (rxStep o) s (es ++ es') = .ok s') :
    s'.data = S.take (min (Serial.dist (irs.adv 1) s'.pcb.rcv_nxt) S.length) ∧
      (∃ s₁, run (rxStep o) s es = .ok s₁ ∧
        Serial.dist (irs.adv 1) s₁.pcb.rcv_nxt ≤ Serial.dist (irs.adv 1) s'.pcb.rcv_nxt) ∧
      (0 < s'.fins → s'.data = S) ∧ s'.fins ≤ 1 := by
  rw [run_append] at hrun
  obtain ⟨s₁, hs₁, hrun'⟩ := bind_eq_ok.mp hrun
  have h₁ : StreamInv o S (irs.adv 1) s₁ :=
    run_invariant (fun _ _ _ h he hs => (h.step hS he hs).1) (h0.streamInv hr) hes.left hs₁
  obtain ⟨h', hmono⟩ := run_invariant
    (I := fun t => StreamInv o S (irs.adv 1) t ∧
      Serial.dist (irs.adv 1) s₁.pcb.rcv_nxt ≤ Serial.dist (irs.adv 1) t.pcb.rcv_nxt)
    (fun _ _ _ h he hs => ⟨(h.1.step hS he hs).1, h.2.trans (h.1.step hS he hs).2⟩)
    ⟨h₁, le_rfl⟩ (hes.right hs₁) hrun'
  have hdel := h'.delivered
  have hmin : s'.data = S.take (min (Serial.dist (irs.adv 1) s'.pcb.rcv_nxt) S.length) := by
    rw [hdel.data_eq, ← List.take_take, List.take_length]
  refine ⟨hmin, ⟨s₁, hs₁, hmono⟩, fun hfin => ?_, ?_⟩
  · have hf := hdel.fins_eq
    split at hf
    · next hpos => rw [hdel.data_eq, List.take_of_length_le (by omega)]
    · omega
  · rw [hdel.fins_eq]
    split <;> omega

/-- The end of a stream with its FIN, then its first four bytes, then the window opened again. -/
def reorderedRun : List RxEvent :=
  [.receive 0 {} { seg := dataSeg 4 [13, 14, 15] true, ackno := 1, wnd := 1000 },
    .receive 0 {} { seg := dataSeg 1 [10, 11, 12, 13] false, ackno := 1, wnd := 1000 }]

/-- All bytes arrive in their order though the segments do not. -/
theorem stream_integrity_reorderedRun :
    ∃ s', run (rxStep .shipped) shippedReceiver
    (reorderedRun ++ [.recved false 0 true 6]) = .ok s' ∧
      s'.fins = 1 ∧ s'.data = [10, 11, 12, 13, 14, 15] := by
  have hes : Along (rxStep .shipped) (SliceEvent [10, 11, 12, 13, 14, 15] ((0 : Serial).adv 1))
      shippedReceiver (reorderedRun ++ [.recved false 0 true 6]) := by
    refine ⟨⟨⟨rfl, by decide, rfl⟩, ⟨by decide, by decide, by decide⟩⟩, fun s hs => ?_⟩
    cases hs
    exact ⟨⟨⟨rfl, by decide, rfl⟩, ⟨by decide, by decide, by decide⟩⟩,
      fun _ _ => ⟨trivial, fun _ _ => trivial⟩⟩
  have h := stream_integrity .shipped (S := [10, 11, 12, 13, 14, 15]) (by decide)
    (⟨rfl, rfl, by decide, rfl, rfl, rfl⟩ : Fresh .shipped shippedReceiver) rfl hes rfl
  exact ⟨_, rfl, by decide +kernel, h.2.2.1 (by decide +kernel)⟩

end Lwip.Tcp
