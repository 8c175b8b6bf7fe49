import Mathlib.Data.List.Chain
import Lwip.Tcp.Receiver

/-!
# The announced window

A segment that is sent announces the window up to `rcv_nxt + rcv_ann_wnd`, and `rcv_ann_right_edge`
records that edge. `tcp_update_rcv_ann_wnd` chooses the next `rcv_ann_wnd`. `AnnInv` says where the
recorded edge lies: not past the end of the window to be announced next, so that the edges of the
segments sent do not move back, and at most one sequence number before `rcv_nxt`, which is the case
after a FIN was taken over from the queue.

The peer is one that keeps below the recorded edge. Its position is measured by `edgePos`, the
distance of the edge from the sequence number before `rcv_nxt`.
-/

namespace Lwip.Tcp

variable {r e : Serial}

/-- The distance of the edge `e` from the sequence number before `r`. -/
def edgePos (r e : Serial) : ℕ := Serial.dist (r - 1) e

/-- One before a place is the place counted from one before the origin. -/
theorem adv_sub_one (r : Serial) (n : ℕ) : r.adv n - 1 = (r - 1).adv n := by
  unfold Serial.adv
  rw [BitVec.sub_eq_add_neg, BitVec.sub_eq_add_neg, BitVec.add_assoc, BitVec.add_assoc,
    BitVec.add_comm (BitVec.ofNat 32 n)]

/-- The edge comes closer by as much as `r` moves towards it. -/
theorem edgePos_adv {n : ℕ} (h : n ≤ edgePos r e) : edgePos (r.adv n) e = edgePos r e - n := by
  unfold edgePos
  rw [adv_sub_one, Serial.dist_adv_left h]

/-- An edge that is not before `r`. -/
theorem edgePos_eq (h : Serial.dist r e < 2^31) : edgePos r e = Serial.dist r e + 1 :=
  Serial.dist_sub_one_left (by omega)

/-- The edge of a window that starts at `r`. -/
theorem edgePos_self_adv {n : ℕ} (h : n < 2^31) : edgePos r (r.adv n) = n + 1 := by
  have hd : Serial.dist r (r.adv n) = n := Serial.dist_self_adv (by omega)
  rw [edgePos_eq (by omega), hd]

/-- `r` has passed the edge exactly if the edge is the number before it. -/
theorem gt_edge_iff (h : edgePos r e < 2^31) : Serial.gt r e ↔ edgePos r e = 0 := by
  have hr : Serial.dist (r - 1) r = 1 := by
    rw [Serial.dist_sub_one_left (by simp), Serial.dist_self]
  rw [Serial.gt_iff_dist (r := r - 1) (by omega) h, hr]
  show edgePos r e < 1 ↔ _
  omega

/-- The distance of an edge that `r` has not passed. -/
theorem dist_edge (h0 : 0 < edgePos r e) :
    Serial.dist r e = edgePos r e - 1 := by
  have hr : Serial.dist (r - 1) r = 1 := by
    rw [Serial.dist_sub_one_left (by simp), Serial.dist_self]
  rw [Serial.dist_eq_sub (r := r - 1) (by rw [hr]; exact h0), hr]
  rfl

/-- What `tcp_update_rcv_ann_wnd` announces: no more than the window, and no less than was announced
before. -/
theorem tcpUpdateRcvAnnWnd_spec (o : Opts) (pcb : TcpPcb) (hw : pcb.rcv_wnd < 2^16)
    (h : edgePos pcb.rcv_nxt pcb.rcv_ann_right_edge ≤ pcb.rcv_wnd + 1) :
    (tcpUpdateRcvAnnWnd o pcb).1.rcv_ann_wnd ≤ pcb.rcv_wnd ∧
      edgePos pcb.rcv_nxt pcb.rcv_ann_right_edge ≤
      (tcpUpdateRcvAnnWnd o pcb).1.rcv_ann_wnd + 1 := by
  unfold tcpUpdateRcvAnnWnd
  dsimp only
  split
  · exact ⟨le_rfl, h⟩
  · have hiff := gt_edge_iff (r := pcb.rcv_nxt) (e := pcb.rcv_ann_right_edge) (by omega)
    split
    · next hgt => exact ⟨Nat.zero_le _, by rw [hiff.mp hgt]; omega⟩
    · next hgt =>
      have hpos : 0 < edgePos pcb.rcv_nxt pcb.rcv_ann_right_edge :=
        Nat.pos_of_ne_zero (mt hiff.mpr hgt)
      have hd := dist_edge hpos
      dsimp only
      rw [hd, u16_eq (by omega)]
      omega

/-! ## The invariant -/

/-- The recorded edge lies in the window to be announced next, or just before it, and the data of
the queued segments end below it. -/
structure AnnInv (o : Opts) (pcb : TcpPcb) : Prop where
  rcv : RcvInv o pcb
  ann_le : pcb.rcv_ann_wnd ≤ pcb.rcv_wnd
  edge : edgePos pcb.rcv_nxt pcb.rcv_ann_right_edge ≤ pcb.rcv_ann_wnd + 1
  queue : ∀ x ∈ pcb.ooseq,
    x.off pcb.rcv_nxt + x.len + 1 ≤ edgePos pcb.rcv_nxt pcb.rcv_ann_right_edge

/-- The edges are far below half the circle. -/
theorem AnnInv.edge_lt {o : Opts} {pcb : TcpPcb} (h : AnnInv o pcb) :
    edgePos pcb.rcv_nxt pcb.rcv_ann_right_edge ≤ 2^16 := by
  have h1 := h.edge
  have h2 := h.ann_le
  have h3 := h.rcv.wnd_lt
  omega

/-- Sending moves the edge to the end of the announced window. -/
theorem AnnInv.stamped {o : Opts} {a b : TcpPcb} {out : List Sent} (h : AnnInv o a)
    (hs : Stamped a b out) : AnnInv o b := by
  have hrcv := h.rcv.stamped hs
  have hann := h.ann_le
  have hwlt := h.rcv.wnd_lt
  refine ⟨hrcv, by rw [hs.rcv_ann_wnd, hs.rcv_wnd]; exact hann, ?_, fun x hx => ?_⟩
  · rw [hs.rcv_nxt, hs.edge, hs.rcv_ann_wnd]
    split
    · exact h.edge
    · rw [edgePos_self_adv (by omega)]
  · rw [hs.ooseq] at hx
    have hq := h.queue x hx
    have he := h.edge
    rw [hs.rcv_nxt, hs.edge]
    split
    · exact hq
    · rw [edgePos_self_adv (by omega)]
      omega

/-- The edge that sending records is not before the one recorded last. -/
theorem AnnInv.edge_mono {o : Opts} {pcb : TcpPcb} (h : AnnInv o pcb) :
    Serial.geq (pcb.rcv_nxt.adv pcb.rcv_ann_wnd) pcb.rcv_ann_right_edge := by
  have h1 := h.edge
  have h2 := h.edge_lt
  have h3 := h.ann_le
  have h4 := h.rcv.wnd_lt
  have h5 : edgePos pcb.rcv_nxt (pcb.rcv_nxt.adv pcb.rcv_ann_wnd) = pcb.rcv_ann_wnd + 1 :=
    edgePos_self_adv (by omega)
  unfold edgePos at h1 h2 h5
  rw [Serial.geq_iff_dist (r := pcb.rcv_nxt - 1) (by omega) (by omega), h5]
  exact h1

/-- Opening the window keeps the invariant. -/
theorem AnnInv.opened {o : Opts} {a b : TcpPcb} {out : List Sent} (h : AnnInv o a)
    (ho : Opened o a b out) :
    AnnInv o (tcpUpdateRcvAnnWnd o { a with rcv_wnd := b.rcv_wnd }).1 := by
  have hw := ho.wnd_le
  have hmax := ho.wnd_max
  have hrcv := h.rcv
  have hwnd := hrcv.wnd
  have hle := o.wnd_le
  have he := h.edge
  have hann := h.ann_le
  obtain ⟨h1, h2⟩ := tcpUpdateRcvAnnWnd_spec o { a with rcv_wnd := b.rcv_wnd }
    (by dsimp only; omega) (by dsimp only; omega)
  refine ⟨⟨?_, ?_⟩, ?_, ?_, ?_⟩
  · rw [tcpUpdateRcvAnnWnd_rcv_wnd]; dsimp only; omega
  · rw [tcpUpdateRcvAnnWnd_rcv_nxt, tcpUpdateRcvAnnWnd_ooseq]; exact hrcv.queue
  · rw [tcpUpdateRcvAnnWnd_rcv_wnd]; exact h1
  · rw [tcpUpdateRcvAnnWnd_rcv_nxt, tcpUpdateRcvAnnWnd_edge]; exact h2
  · rw [tcpUpdateRcvAnnWnd_rcv_nxt, tcpUpdateRcvAnnWnd_edge, tcpUpdateRcvAnnWnd_ooseq]
    exact h.queue

/-! ## A segment from a peer that keeps below the edge -/

/-- The segment ends at or below the edge `e`. It lies less than half the circle before the edge: a
sequence number further away is as much ahead as behind. -/
structure BelowEdge (e : Serial) (s : Seg) : Prop where
  near : Serial.dist s.seqno e + 1 < 2^31
  end_le : s.tcplen ≤ Serial.dist s.seqno e

/-- What is left of a segment in sequence ends at or below the edge. -/
theorem BelowEdge.front {s s' : Seg} (h : BelowEdge e s) (he : edgePos r e ≤ 2^16)
    (hf : Front r s s') : s'.tcplen + 1 ≤ edgePos r e := by
  have h1 := h.near
  have h2 := h.end_le
  cases hf with
  | whole hseq =>
    rw [hseq] at h1 h2
    rw [edgePos_eq (by omega)]
    omega
  | cut hd hd' =>
    have hdist : Serial.dist r e = Serial.dist s.seqno e - Serial.dist s.seqno r := by
      have h3 := Serial.dist_adv_left (r := s.seqno) (a := e)
        (n := Serial.dist s.seqno r) (by omega)
      rwa [Serial.adv_dist] at h3
    have hle : Serial.dist s.seqno r ≤ s.len := by have := s.tcplen_le; omega
    rw [edgePos_eq (by omega), hdist]
    unfold Seg.tcplen at h2 ⊢
    dsimp only
    omega
  | antipode hd ht =>
    -- Such a segment would lie half the circle before an edge that is close to `r`.
    exfalso
    have hprev : Serial.dist s.seqno (r - 1) = 2^31 - 1 := by
      rw [Serial.dist_sub_one (by omega), hd]
    have h3 := Serial.dist_adv s.seqno (r - 1) (edgePos r e) (by omega)
    unfold edgePos at h3
    rw [Serial.adv_dist] at h3
    omega

/-- A segment out of sequence ends at or below the edge. -/
theorem BelowEdge.off {s : Seg} (h : BelowEdge e s) (he : edgePos r e ≤ 2^16)
    (hoff : s.off r < 2^31) : s.off r + s.tcplen + 1 ≤ edgePos r e := by
  have h1 := h.near
  have h2 := h.end_le
  have hpos : Serial.dist (r - 1) s.seqno = s.off r + 1 :=
    Serial.dist_sub_one_left (by unfold Seg.off at hoff; omega)
  rcases le_or_gt (Serial.dist (r - 1) s.seqno) (edgePos r e) with hle | hgt
  · have h3 := Serial.dist_eq_sub (r := r - 1) (a := s.seqno) (b := e) hle
    unfold edgePos at *
    omega
  · have h3 := Serial.dist_eq_sub_wrap (r := r - 1) (a := s.seqno) (b := e) hgt
    unfold edgePos at *
    omega

/-! ## The loop over the queue -/

/-- The state of the loop over the queue. The recorded edge is still `e`. -/
structure AnnLoop (o : Opts) (e : Serial) (q : List Seg) (rx : Rx) : Prop where
  ooseq : rx.pcb.ooseq = q
  sent : rx.sent = []
  edge_eq : rx.pcb.rcv_ann_right_edge = e
  weak : OoseqWeak rx.pcb.rcv_nxt o.TCP_WND q
  wnd : rx.pcb.rcv_wnd ≤ o.TCP_WND
  ann_le : rx.pcb.rcv_ann_wnd ≤ rx.pcb.rcv_wnd
  edge : edgePos rx.pcb.rcv_nxt e ≤ rx.pcb.rcv_ann_wnd + 1
  queue : ∀ x ∈ q, x.off rx.pcb.rcv_nxt + x.len + 1 ≤ edgePos rx.pcb.rcv_nxt e

/-- Taking `n` sequence numbers, up to one past the edge, keeps what the loop knows of the window
and of the queued segments, which start after them. -/
theorem annLoop_advance {o : Opts} {pcb : TcpPcb} {n : ℕ} {q : List Seg}
    (hw : pcb.rcv_wnd ≤ o.TCP_WND) (hn : n ≤ pcb.rcv_wnd)
    (he : edgePos pcb.rcv_nxt pcb.rcv_ann_right_edge ≤ pcb.rcv_wnd + 1)
    (hne : n ≤ edgePos pcb.rcv_nxt pcb.rcv_ann_right_edge)
    (hq : ∀ x ∈ q, n ≤ x.off pcb.rcv_nxt ∧
      x.off pcb.rcv_nxt + x.len + 1 ≤ edgePos pcb.rcv_nxt pcb.rcv_ann_right_edge)
    (pcb' : TcpPcb) (hnxt : pcb'.rcv_nxt = pcb.rcv_nxt.adv n)
    (hwnd : pcb'.rcv_wnd = pcb.rcv_wnd - n)
    (hedge : pcb'.rcv_ann_right_edge = pcb.rcv_ann_right_edge) :
    (tcpUpdateRcvAnnWnd o pcb').1.rcv_ann_wnd ≤ pcb'.rcv_wnd ∧
      edgePos pcb'.rcv_nxt pcb.rcv_ann_right_edge ≤
        (tcpUpdateRcvAnnWnd o pcb').1.rcv_ann_wnd + 1 ∧
      ∀ x ∈ q, x.off pcb'.rcv_nxt + x.len + 1 ≤ edgePos pcb'.rcv_nxt pcb.rcv_ann_right_edge := by
  have hle := o.wnd_le
  have hpos := edgePos_adv hne
  have hspec := tcpUpdateRcvAnnWnd_spec o pcb' (by omega) (by
    rw [hnxt, hedge, hpos]; omega)
  rw [hedge] at hspec
  refine ⟨hspec.1, hspec.2, fun x hx => ?_⟩
  obtain ⟨h1, h2⟩ := hq x hx
  have hoff : x.off (pcb.rcv_nxt.adv n) = x.off pcb.rcv_nxt - n := Serial.dist_adv_left h1
  rw [hnxt, hpos, hoff]
  omega

/-- A round of the loop. -/
theorem AnnLoop.step {o : Opts} {c : Seg} {rest : List Seg} {rx : Rx}
    (h : AnnLoop o e (c :: rest) rx) (hc : c.seqno = rx.pcb.rcv_nxt)
    (hw : c.tcplen ≤ rx.pcb.rcv_wnd) : AnnLoop o e rest (dequeueOne o c rest rx) := by
  have hqc := h.queue c (by simp)
  have htl := c.tcplen_le
  have h0 : c.off rx.pcb.rcv_nxt = 0 := by unfold Seg.off; rw [hc, Serial.dist_self]
  have hann := h.ann_le
  have he := h.edge
  have hweak := h.weak.dequeue hc
  have hafter : ∀ x ∈ rest, c.tcplen ≤ x.off rx.pcb.rcv_nxt := by
    intro x hx
    have hb := (List.pairwise_cons.mp h.weak.order).1 x hx
    have hd := hb.disjoint
    have hl : c.tcplen = c.len := by rw [(h.weak.ok c (by simp)).tcplen_eq]; simp [hb.fin]
    omega
  obtain ⟨h1, h2, h3⟩ := annLoop_advance (o := o) (n := c.tcplen) (q := rest) h.wnd
    hw (by rw [h.edge_eq]; omega) (by rw [h.edge_eq]; omega)
    (fun x hx => ⟨hafter x hx, by rw [h.edge_eq]; exact h.queue x (by simp [hx])⟩)
    { rx.pcb with
      rcv_nxt := rx.pcb.rcv_nxt.adv c.tcplen
      rcv_wnd := rx.pcb.rcv_wnd - c.tcplen } rfl rfl rfl
  rw [h.edge_eq] at h2 h3
  have hwnd := h.wnd
  refine ⟨rfl, h.sent, ?_, ?_, ?_, ?_, ?_, ?_⟩
  · simp [dequeueOne, h.edge_eq]
  · rw [dequeueOne_rcv_nxt]; exact hweak
  · rw [dequeueOne_rcv_wnd]; omega
  · rw [dequeueOne_rcv_wnd]; exact h1
  · rw [dequeueOne_rcv_nxt]; exact h2
  · rw [dequeueOne_rcv_nxt]; exact h3

/-- What is handed up in place of a segment below the edge ends at most one past the edge: the one
is a FIN taken over from the queue. -/
theorem Taken.tcplen_le {w : ℕ} {q : List Seg} {s s' : Seg} (h : Taken r w q s s') :
    s'.tcplen ≤ s.tcplen + 1 := by
  cases h with
  | part hc =>
    have h1 := hc.len
    have h2 := s'.tcplen_le
    have h3 := s.len_le_tcplen
    omega
  | @fin t x hc =>
    have h1 := hc.len
    have h2 := t.setFin.tcplen_le
    have h3 := s.len_le_tcplen
    rw [Seg.setFin_len] at h2
    omega

/-- A segment in sequence that ends at or below the edge keeps the invariant, and sends nothing. -/
theorem AnnInv.inSeq {o : Opts} {pcb : TcpPcb} {s : Seg} {rx : Rx} (h : AnnInv o pcb) (hs : s.Ok)
    (hl : s.len + 1 < 2^16) (hseq : s.seqno = pcb.rcv_nxt) (h0 : 0 < pcb.rcv_wnd)
    (hbelow : s.tcplen + 1 ≤ edgePos pcb.rcv_nxt pcb.rcv_ann_right_edge)
    (hrx : tcpReceiveInSeq o pcb s = .ok rx) :
    AnnInv o rx.pcb ∧ rx.sent = [] ∧ rx.pcb.rcv_ann_right_edge = pcb.rcv_ann_right_edge := by
  have hwnd : o.TCP_WND ≤ 2^16 := by have := o.wnd_le; omega
  have hrcv := h.rcv
  have hw := hrcv.wnd
  have hann := h.ann_le
  have he := h.edge
  have hstart : ∀ s' q', Merged pcb.rcv_nxt pcb.rcv_wnd pcb.ooseq s s' q' →
      s'.tcplen ≤ pcb.rcv_wnd →
      AnnLoop o pcb.rcv_ann_right_edge q' (inSeqStart o pcb s' q') := by
    intro s' q' hM hle
    have htl := hM.taken.tcplen_le
    have hnxt : s'.seqno.adv s'.tcplen = pcb.rcv_nxt.adv s'.tcplen := by rw [hM.seqno, hseq]
    obtain ⟨h1, h2, h3⟩ := annLoop_advance (o := o) (n := s'.tcplen) (q := q') hw hle
      (by omega) (by omega) (fun x hx => ⟨hM.after x hx, h.queue x (hM.suffix.mem hx)⟩)
      { pcb with
        ooseq := q'
        rcv_nxt := s'.seqno.adv s'.tcplen
        rcv_wnd := pcb.rcv_wnd - s'.tcplen } hnxt rfl rfl
    refine ⟨inSeqStart_ooseq .., rfl, ?_, ?_, ?_, ?_, ?_, ?_⟩
    · simp [inSeqStart]
    · rw [inSeqStart_rcv_nxt, hnxt]; exact hM.weak hrcv.queue.toOoseqWeak
    · rw [inSeqStart_rcv_wnd]; omega
    · rw [inSeqStart_rcv_wnd]; exact h1
    · rw [inSeqStart_rcv_nxt]; exact h2
    · rw [inSeqStart_rcv_nxt]; exact h3
  obtain ⟨q', rx', rfl, hI, hhead⟩ := tcpReceiveInSeq_induction hs hl hseq h0 hrcv.wnd_lt hwnd
    hrcv.queue (AnnLoop o pcb.rcv_ann_right_edge) hstart (fun _ _ _ hI hc hw => hI.step hc hw) hrx
  have hI' : AnnInv o rx'.pcb := by
    refine ⟨⟨hI.wnd, ?_⟩, hI.ann_le, ?_, ?_⟩
    · rw [hI.ooseq]; exact hI.weak.inv hhead
    · rw [hI.edge_eq]; exact hI.edge
    · rw [hI.ooseq, hI.edge_eq]; exact hI.queue
  exact ⟨hI'.stamped (tcpAck_sameRcv rx'.pcb).stamped, hI.sent,
    (tcpAck_sameRcv rx'.pcb).rcv_ann_right_edge.trans hI.edge_eq⟩

/-! ## The edges of the segments sent -/

/-- The edges of the segments sent do not move back, from the edge `e₀` of the start on, and the
last one is recorded. -/
structure Edges (e₀ : Serial) (sent : List Sent) (pcb : TcpPcb) : Prop where
  chain : List.IsChain (fun a b => Serial.geq b a) (e₀ :: sent.map Sent.rightEdge)
  last : (e₀ :: sent.map Sent.rightEdge).getLast? = some pcb.rcv_ann_right_edge

/-- Segments that all announce the same edge. -/
theorem isChain_same {l : List Serial} (h : ∀ x ∈ l, x = e) :
    List.IsChain (fun a b => Serial.geq b a) l := by
  induction l with
  | nil => exact .nil
  | cons a l ih =>
    refine List.isChain_cons.mpr ⟨fun y hy => ?_, ih (fun x hx => h x (by simp [hx]))⟩
    have hyl : y ∈ l := List.mem_of_mem_head? hy
    rw [h a (by simp), h y (by simp [hyl]), Serial.geq_iff, Serial.dist_self]
    omega

/-- Sending from a state with the invariant appends edges that do not move back. -/
theorem Edges.stamped {o : Opts} {e₀ : Serial} {sent out : List Sent} {a b : TcpPcb}
    (h : Edges e₀ sent a) (ha : AnnInv o a) (hs : Stamped a b out) : Edges e₀ (sent ++ out) b := by
  have hsame : ∀ x ∈ out.map Sent.rightEdge, x = a.rcv_nxt.adv a.rcv_ann_wnd := by
    intro x hx
    obtain ⟨s, hs', rfl⟩ := List.mem_map.mp hx
    unfold Sent.rightEdge
    rw [(hs.stamp s hs').1, (hs.stamp s hs').2]
  rcases List.eq_nil_or_concat out with rfl | ⟨init, last, rfl⟩
  · refine ⟨by simpa using h.chain, ?_⟩
    rw [hs.edge]
    simpa using h.last
  · refine ⟨?_, ?_⟩
    · rw [List.map_append, ← List.cons_append]
      refine List.isChain_append.mpr ⟨h.chain, isChain_same hsame, fun x hx y hy => ?_⟩
      rw [h.last] at hx
      cases hx
      rw [hsame y (List.mem_of_mem_head? hy)]
      exact ha.edge_mono
    · rw [hs.edge, if_neg (by simp), ← hsame last.rightEdge (by simp)]
      simp [List.getLast?_cons, List.getLast?_append]

/-! ## Every run -/

/-- The events of a run whose segments come from a peer that keeps below the edge it was last told,
which is the recorded one. -/
def BelowEdgeEvent (s : RxState) : RxEvent → Prop
  | .receive _ _ i => i.seg.Incoming ∧ BelowEdge s.pcb.rcv_ann_right_edge i.seg
  | _ => True

/-- A call of `tcp_receive` on a segment below the edge. -/
theorem AnnInv.receive {o : Opts} {ticks : BitVec 32} {m : RxAlloc} {pcb : TcpPcb} {i : In}
    {rx : Rx} {e₀ : Serial} {sent : List Sent} (h : AnnInv o pcb) (hE : Edges e₀ sent pcb)
    (hi : i.seg.Incoming) (hb : BelowEdge pcb.rcv_ann_right_edge i.seg)
    (hrx : tcpReceive o ticks m pcb i = .ok rx) :
    AnnInv o rx.pcb ∧ Edges e₀ (sent ++ rx.sent) rx.pcb := by
  have hwnd : o.TCP_WND ≤ 2^16 := by have := o.wnd_le; omega
  have helt := h.edge_lt
  -- The window test cannot have been passed from half the circle away.
  have hfar : Serial.dist pcb.rcv_nxt i.seg.seqno ≠ 2^31 - 1 := by
    intro hd
    have h1 := hb.off helt (by unfold Seg.off; omega)
    unfold Seg.off at h1
    omega
  have hrcv := h.rcv.receive hi hfar hrx
  rcases tcpReceive_cases o ticks m pcb hi with ⟨a, -, he⟩ | hcase
  · rw [he] at hrx; cases hrx
  · generalize tcpReceive o ticks m pcb i = x at hcase hrx
    cases hcase with
    | insane => cases hrx
    | quiet hst => cases hrx; exact ⟨h.stamped hst, hE.stamped h hst⟩
    | @queued pcb' out hst hok hne hbw =>
      cases hrx
      have h' := h.stamped hst
      have hb' := (between_window h.rcv.wnd_lt hbw).resolve_right (fun h' => hfar h'.2)
      have hwlt := h.rcv.wnd_lt
      have hpos : 0 < i.seg.off pcb.rcv_nxt :=
        Nat.pos_of_ne_zero fun h0 => hne ((Serial.dist_eq_zero_iff _ _).mp h0)
      have hoff : i.seg.off pcb.rcv_nxt < o.TCP_WND := lt_of_lt_of_le hb' h.rcv.wnd
      have hnew := hb.off helt (by omega)
      have hle := i.seg.len_le_tcplen
      have hedge : edgePos pcb.rcv_nxt pcb.rcv_ann_right_edge ≤
          edgePos pcb.rcv_nxt pcb'.rcv_ann_right_edge := by
        have h1 := h.edge
        have h2 := h.ann_le
        rw [hst.edge]
        split
        · exact le_rfl
        · rw [edgePos_self_adv (by omega)]; exact h1
      refine ⟨⟨hrcv, h'.ann_le, h'.edge, fun x hx => ?_⟩, ?_⟩
      · show x.off pcb'.rcv_nxt + x.len + 1 ≤ edgePos pcb'.rcv_nxt pcb'.rcv_ann_right_edge
        rw [hst.rcv_nxt]
        have hder := (tcpQueueOoseq_spec m.seg hwnd hok hpos hoff h.rcv.queue).2 x hx
        have hq := h.queue
        cases hder with
        | old hm => exact (hq _ hm).trans hedge
        | @cut y n hm _ _ hn =>
          have := hq _ hm
          rw [Seg.trim_off, Seg.trim_len]
          omega
        | new => omega
        | @newCut n _ _ hn =>
          rw [Seg.trim_off, Seg.trim_len]
          omega
        | newFin =>
          rw [Seg.setFin_off, Seg.setFin_len]
          omega
      · have hE' := hE.stamped h hst
        exact ⟨hE'.chain, hE'.last⟩
    | @inSeq pcb' s' hsame hf hok hl hw =>
      have h' := h.stamped hsame.stamped
      obtain ⟨hinv, hsent, hedge⟩ := h'.inSeq hok hl (by rw [hf.seqno, hsame.rcv_nxt])
        (by rw [hsame.rcv_wnd]; exact hw)
        (by rw [hsame.rcv_nxt, hsame.rcv_ann_right_edge]; exact hb.front helt hf) hrx
      refine ⟨hinv, ?_⟩
      rw [hsent, List.append_nil]
      exact ⟨hE.chain, by rw [hedge, hsame.rcv_ann_right_edge]; exact hE.last⟩

/-- A step of the run keeps the invariant and the order of the edges. -/
theorem AnnInv.step {o : Opts} {e₀ : Serial} {s s' : RxState} {ev : RxEvent}
    (h : AnnInv o s.pcb ∧ Edges e₀ s.sent s.pcb) (he : BelowEdgeEvent s ev)
    (hs : rxStep o s ev = .ok s') : AnnInv o s'.pcb ∧ Edges e₀ s'.sent s'.pcb := by
  cases rxStep_cases hs with
  | receive hrx => exact h.1.receive h.2 he.1 he.2 hrx
  | @recved _ _ _ _ pcb out hr =>
    have ho := tcpRecved_opened h.1.rcv.wnd hr
    have hmid := h.1.opened ho
    have hE : Edges e₀ s.sent (tcpUpdateRcvAnnWnd o { s.pcb with rcv_wnd := pcb.rcv_wnd }).1 :=
      ⟨h.2.chain, by rw [tcpUpdateRcvAnnWnd_edge]; exact h.2.last⟩
    exact ⟨hmid.stamped ho.stamped, hE.stamped hmid ho.stamped⟩
  | send hst => exact ⟨h.1.stamped hst, h.2.stamped h.1 hst⟩

/-- A value of `rcv_nxt` that a call of `tcp_receive` can reach within the window has not lost the
edge: what lies between them fits in 16 bits. -/
theorem AnnInv.dist_lt {o : Opts} {pcb : TcpPcb} (h : AnnInv o pcb) {k : ℕ}
    (hk : k ≤ pcb.rcv_wnd) (hgt : ¬ Serial.gt (pcb.rcv_nxt.adv k) pcb.rcv_ann_right_edge) :
    Serial.dist (pcb.rcv_nxt.adv k) pcb.rcv_ann_right_edge < 2^16 := by
  have helt := h.edge_lt
  have hwlt := h.rcv.wnd_lt
  have hadv : edgePos pcb.rcv_nxt (pcb.rcv_nxt.adv k) = k + 1 := edgePos_self_adv (by omega)
  have hle : k + 1 ≤ edgePos pcb.rcv_nxt pcb.rcv_ann_right_edge := by
    by_contra hlt
    refine hgt ((Serial.gt_iff_dist (r := pcb.rcv_nxt - 1) ?_ ?_).mpr ?_) <;>
      (unfold edgePos at *; omega)
  unfold edgePos at *
  rw [Serial.dist_eq_sub (r := pcb.rcv_nxt - 1) (by omega)]
  omega

/-- The announced window never shrinks. In every run on segments of a peer that keeps below the edge
it was last told, the right edges of the segments sent do not move back, the announced window is
within the receive window and that within `TCP_WND`, the recorded edge is not past the end of the
receive window, and wherever the next call can move `rcv_nxt` before the edge, the conversion of
their distance to 16 bits loses nothing. -/
theorem announced_window_monotone (o : Opts) {s s' : RxState} {es : List RxEvent} (h0 : Fresh o s)
    (hann : s.pcb.rcv_ann_wnd ≤ s.pcb.rcv_wnd)
    (hedge : Serial.dist s.pcb.rcv_nxt s.pcb.rcv_ann_right_edge ≤ s.pcb.rcv_ann_wnd)
    (hes : Along (rxStep o) BelowEdgeEvent s es) (hrun : run (rxStep o) s es = .ok s') :
    List.IsChain (fun a b => Serial.geq b a)
        (s.pcb.rcv_ann_right_edge :: s'.sent.map Sent.rightEdge) ∧
      s'.pcb.rcv_ann_wnd ≤ s'.pcb.rcv_wnd ∧ s'.pcb.rcv_wnd ≤ o.TCP_WND ∧
      Serial.leq s'.pcb.rcv_ann_right_edge (s'.pcb.rcv_nxt.adv s'.pcb.rcv_wnd) ∧
      ∀ k ≤ s'.pcb.rcv_wnd, ¬ Serial.gt (s'.pcb.rcv_nxt.adv k) s'.pcb.rcv_ann_right_edge →
        u16 (Serial.dist (s'.pcb.rcv_nxt.adv k) s'.pcb.rcv_ann_right_edge) =
          Serial.dist (s'.pcb.rcv_nxt.adv k) s'.pcb.rcv_ann_right_edge := by
  have hinit : AnnInv o s.pcb ∧ Edges s.pcb.rcv_ann_right_edge s.sent s.pcb := by
    have hwlt := h0.rcvInv.wnd_lt
    refine ⟨⟨h0.rcvInv, hann, by rw [edgePos_eq (by omega)]; omega, by rw [h0.ooseq]; simp⟩, ?_⟩
    rw [h0.sent]
    exact ⟨by simp, by simp⟩
  obtain ⟨hinv, hE⟩ := run_invariant
    (I := fun t => AnnInv o t.pcb ∧ Edges s.pcb.rcv_ann_right_edge t.sent t.pcb)
    (fun _ _ _ h he hs => AnnInv.step h he hs) hinit hes hrun
  refine ⟨hE.chain, hinv.ann_le, hinv.rcv.wnd, ?_, fun k hk hgt => u16_eq (hinv.dist_lt hk hgt)⟩
  have h1 := hinv.edge
  have h2 := hinv.ann_le
  have h3 := hinv.rcv.wnd_lt
  have h4 : edgePos s'.pcb.rcv_nxt (s'.pcb.rcv_nxt.adv s'.pcb.rcv_wnd) = s'.pcb.rcv_wnd + 1 :=
    edgePos_self_adv (by omega)
  unfold edgePos at h1 h4
  rw [Serial.leq_iff_dist (r := s'.pcb.rcv_nxt - 1) (by omega) (by omega)]
  omega

/-- Data out of sequence, which an ACK answers, the data before them, and the window opened
again. -/
def announcingRun : List RxEvent :=
  [.receive 0 {} { seg := dataSeg 4 [13, 14, 15] true, ackno := 1, wnd := 1000 },
    .receive 0 {} { seg := dataSeg 1 [10, 11, 12, 13] false, ackno := 1, wnd := 1000 },
    .output 0 true, .recved false 0 true 6, .emptyAck true]

/-- A run in which a segment arrives out of sequence and the edge stays where it is. -/
theorem announced_window_monotone_announcingRun :
    ∃ s', run (rxStep .shipped) shippedReceiver announcingRun = .ok s' ∧
      s'.sent.map Sent.rightEdge = [2145, 2145] ∧
      List.IsChain (fun a b => Serial.geq b a)
        (shippedReceiver.pcb.rcv_ann_right_edge :: s'.sent.map Sent.rightEdge) := by
  have hes : Along (rxStep .shipped) BelowEdgeEvent shippedReceiver announcingRun := by
    refine ⟨⟨⟨rfl, by decide, rfl⟩, ⟨by decide +kernel, by decide +kernel⟩⟩, fun s hs => ?_⟩
    cases hs
    exact ⟨⟨⟨rfl, by decide, rfl⟩, ⟨by decide +kernel, by decide +kernel⟩⟩,
      fun _ _ => ⟨trivial, fun _ _ => ⟨trivial, fun _ _ => ⟨trivial, fun _ _ => trivial⟩⟩⟩⟩
  have h := announced_window_monotone .shipped (s := shippedReceiver)
    ⟨rfl, rfl, by decide, rfl, rfl, rfl⟩ (by decide) (by decide +kernel) hes rfl
  exact ⟨_, rfl, by decide +kernel, h.1⟩

end Lwip.Tcp
