import Lwip.Tcp.Receiver
import Lwip.Lib.Reach

/-!
# How far a segment in sequence takes the receiver

A segment that reaches over `rcv_nxt` covers a range of sequence numbers from there on, as far as
the window goes, and the queued segments cover more of them. `MaximalProgress` says that
`tcp_receive` moves `rcv_nxt` to the end of what is covered without a gap, and takes from the queue
what lies before it.

It does, unless one of five things is the case (`ProgressFits`). One of them is a slip: a segment
that covers some queued segments and ends within the next is cut to the start of the first of them,
which are gone by then.
-/

namespace Lwip.Tcp

variable {r : Serial} {wnd : ℕ}

/-- What the segment covers from `rcv_nxt` on, clipped to the window. -/
def covers (pcb : TcpPcb) (s : Seg) :
    ℕ := min (s.tcplen - Serial.dist s.seqno pcb.rcv_nxt) pcb.rcv_wnd

/-- `tcp_receive` advances `rcv_nxt` to the end of what the segment and the queue cover without a
gap, and the segments that stay queued are those that end after it. -/
def MaximalProgress (o : Opts) (m : RxAlloc) (pcb : TcpPcb) (s : Seg) : Prop :=
  ∃ rx n, tcpReceiveData o m pcb s = .ok rx ∧
    IsReach (covers pcb s) (pcb.ooseq.map (Seg.range pcb.rcv_nxt)) n ∧
    rx.pcb.rcv_nxt = pcb.rcv_nxt.adv n ∧
    rx.pcb.ooseq = pcb.ooseq.filter fun x => decide (n < (x.range pcb.rcv_nxt).stop)

/-- The segment carries a FIN, and it is not clipped off. -/
def HasFin (pcb : TcpPcb) (s : Seg) : Prop :=
  s.flags.fin = true ∧ s.tcplen - Serial.dist s.seqno pcb.rcv_nxt ≤ pcb.rcv_wnd

instance (pcb : TcpPcb) (s : Seg) : Decidable (HasFin pcb s) := inferInstanceAs (Decidable (_ ∧ _))

/-- The segments and queues with which `tcp_receive` gets as far as it should. -/
structure ProgressFits (pcb : TcpPcb) (s : Seg) : Prop where
  /-- `rcv_nxt` is so near to the start of the segment that the assertion on the offset holds. -/
  near : Serial.dist s.seqno pcb.rcv_nxt < 0x7fff
  /-- What is covered without a gap ends in the window. -/
  within : reach (covers pcb s) (pcb.ooseq.map (Seg.range pcb.rcv_nxt)) ≤ pcb.rcv_wnd
  /-- Nothing is queued beyond a FIN of the segment. -/
  fin : HasFin pcb s → ∀ x ∈ pcb.ooseq, (x.range pcb.rcv_nxt).stop ≤ covers pcb s
  /-- The segment has no data beyond a queued FIN. -/
  queuedFin : ¬ HasFin pcb s → ∀ x ∈ pcb.ooseq, x.flags.fin = true →
    covers pcb s ≤ x.off pcb.rcv_nxt + x.len
  /-- The segment does not cover the data of one queued segment and end within those of another. -/
  oneCut : ¬ HasFin pcb s → ∀ x ∈ pcb.ooseq, ∀ y ∈ pcb.ooseq,
    x.off pcb.rcv_nxt + x.len ≤ covers pcb s → y.off pcb.rcv_nxt < covers pcb s →
      y.off pcb.rcv_nxt + y.len ≤ covers pcb s

/-! ## The call -/

section Call

variable {o : Opts} {m : RxAlloc} {pcb : TcpPcb} {s : Seg}

/-- The front of a segment that starts at `r` is the segment. -/
theorem Seg.front_self (h : s.seqno = r) : s.front r = s := by
  unfold Seg.front
  rw [h, Serial.dist_self, Nat.sub_zero, List.drop_zero, ← h]

/-- A segment that reaches over `rcv_nxt` is taken as the next in sequence, from there on. -/
theorem tcpReceiveData_over (hs : s.Incoming) (h0 : 0 < pcb.rcv_wnd) (hw : pcb.rcv_wnd < 2^16)
    (hover : Serial.dist s.seqno pcb.rcv_nxt < s.tcplen) :
    tcpReceiveData o m pcb s = if Serial.dist s.seqno pcb.rcv_nxt < 0x7fff then
      tcpReceiveInSeq o pcb (s.front pcb.rcv_nxt) else .error .insaneOffset := by
  have htl := s.tcplen_le
  have hle := hs.len_le
  have hu : u16 s.tcplen = s.tcplen := u16_eq (by omega)
  have hin := between_start (r := pcb.rcv_nxt) h0 hw
  have hwindow : ∀ t : Seg, t.seqno = pcb.rcv_nxt →
      tcpReceiveWindow o m pcb t = tcpReceiveInSeq o pcb t := by
    intro t ht
    unfold tcpReceiveWindow
    dsimp only
    rw [ht, if_pos hin, if_pos rfl]
  unfold tcpReceiveData
  rw [hu, if_pos (by omega)]
  by_cases hd : Serial.dist s.seqno pcb.rcv_nxt = 0
  · have hseq : s.seqno = pcb.rcv_nxt := ((Serial.dist_eq_zero_iff _ _).mp hd).symm
    have hfront : ¬ Serial.between pcb.rcv_nxt (s.seqno.adv 1) (s.seqno.adv s.tcplen - 1) := by
      intro hb
      rcases between_front (by omega) (by omega) hb with hc | hc <;> omega
    have hnot : ¬ Serial.lt s.seqno pcb.rcv_nxt := by
      rw [Serial.lt_iff, hseq, Serial.dist_self]
      omega
    rw [if_neg hfront, if_neg hnot, hwindow s hseq, Seg.front_self hseq, if_pos (by omega)]
  · rw [if_pos (front_between (Nat.pos_of_ne_zero hd) hover (by omega)),
      trimFront_inside hs.len_eq hle hover]
    split
    · exact hwindow _ rfl
    · rfl

/-- What is left of the segment has the form of a queued one. -/
theorem Seg.front_ok (hs : s.Incoming) (hover : Serial.dist s.seqno r < s.tcplen) :
    (s.front r).Ok ∧ (s.front r).len + 1 < 2^16 ∧
    (s.front r).tcplen = s.tcplen - Serial.dist s.seqno r := by
  have hok := hs.ok (by omega)
  have hle := hs.len_le
  have htl := hok.tcplen_eq
  have hf : Front r s (s.front r) := by
    by_cases hd : Serial.dist s.seqno r = 0
    · rw [Seg.front_self ((Serial.dist_eq_zero_iff _ _).mp hd).symm]
      exact .whole ((Serial.dist_eq_zero_iff _ _).mp hd).symm
    · exact .cut (Nat.pos_of_ne_zero hd) hover
  obtain ⟨hfok, hflen⟩ := hf.ok hs (by omega)
  refine ⟨hfok, hflen, ?_⟩
  have hftl := hfok.tcplen_eq
  have hlen : (s.front r).len = s.len - Serial.dist s.seqno r := rfl
  have hfin : (s.front r).flags.fin = s.flags.fin := rfl
  rw [hfin] at hftl
  split at htl <;> split at hftl <;> first | contradiction | omega

end Call

/-! ## The loop over the queue -/

/-- Where the loop ends that hands up queued segments, from the distance `e` on, and what it
leaves. -/
def chain (r : Serial) (e : ℕ) : List Seg → ℕ × List Seg
  | [] => (e, [])
  | x :: rest => if x.off r = e then chain r (e + x.tcplen) rest else (e, x :: rest)

/-- The loop does not go back. -/
theorem le_chain (r : Serial) (e : ℕ) (q : List Seg) : e ≤ (chain r e q).1 := by
  induction q generalizing e with
  | nil => exact le_rfl
  | cons x q ih =>
    unfold chain
    split
    · exact (Nat.le_add_right e x.tcplen).trans (ih _)
    · exact le_rfl

/-- The loop ends where `chain` does, if that is in the window, and else in a failed assertion. -/
theorem dequeueOoseq_chain {o : Opts} {w e : ℕ} {q : List Seg} (rx : Rx)
    (hw : w < 2^16) (he : e ≤ w)
    (hnxt : rx.pcb.rcv_nxt = r.adv e) (hwnd : rx.pcb.rcv_wnd = w - e) (hq : rx.pcb.ooseq = q) :
    if (chain r e q).1 ≤ w then ∃ rx', dequeueOoseq o q rx = .ok rx' ∧
        rx'.pcb.rcv_nxt = r.adv (chain r e q).1 ∧ rx'.pcb.ooseq = (chain r e q).2
      else ∃ a, dequeueOoseq o q rx = .error a := by
  induction q generalizing e rx with
  | nil =>
    unfold chain
    rw [if_pos he]
    exact ⟨rx, rfl, hnxt, hq⟩
  | cons x rest ih =>
    have hiff : x.seqno = rx.pcb.rcv_nxt ↔ x.off r = e := by
      rw [hnxt, Serial.eq_iff_dist r, Serial.dist_self_adv (by omega)]
      rfl
    unfold chain dequeueOoseq
    by_cases hx : x.off r = e
    · rw [if_pos (hiff.mpr hx), if_pos hx]
      by_cases hroom : rx.pcb.rcv_wnd ≥ x.tcplen
      · -- The segment fits, and the loop goes on.
        have hok : lwipAssert Abort.ooseqTcplenGtRcvWnd (rx.pcb.rcv_wnd ≥ x.tcplen) = .ok () :=
          lwipAssert_eq_ok.mpr hroom
        rw [hok]
        refine ih _ (by omega) ?_ ?_ rfl
        · rw [dequeueOne_rcv_nxt, hnxt, Serial.adv_adv]
        · rw [dequeueOne_rcv_wnd, hwnd]
          omega
      · have hend := le_chain r (e + x.tcplen) rest
        rw [if_neg (by omega)]
        have herr : lwipAssert Abort.ooseqTcplenGtRcvWnd (rx.pcb.rcv_wnd ≥ x.tcplen) =
            .error .ooseqTcplenGtRcvWnd := by
          unfold lwipAssert
          rw [if_neg hroom]
        exact ⟨_, by rw [herr]; rfl⟩
    · rw [if_neg (mt hiff.mp hx), if_neg hx, if_pos he]
      exact ⟨rx, rfl, hnxt, hq⟩

/-- A queue whose segments start at `e` or later is taken as far as it reaches. -/
theorem chain_reach {e : ℕ} {q : List Seg} (hq : OoseqWeak r wnd q) (he : ∀ x ∈ q, e ≤ x.off r) :
    (chain r e q).1 = reach e (q.map (Seg.range r)) ∧
      (chain r e q).2 = q.filter fun x => decide
      (reach e (q.map (Seg.range r)) < (x.range r).stop) := by
  induction q generalizing e with
  | nil => exact ⟨rfl, rfl⟩
  | cons x rest ih =>
    obtain ⟨hbefore, hpw⟩ := List.pairwise_cons.mp hq.order
    have hrest : OoseqWeak r wnd rest := ⟨hpw, fun y hy => hq.ok y (List.mem_cons_of_mem x hy),
      fun y hy => hq.below y (List.mem_cons_of_mem x hy)⟩
    have hx := he x List.mem_cons_self
    unfold chain
    rw [List.map_cons, reach]
    by_cases heq : x.off r = e
    · have hstart : (x.range r).start ≤ e := heq.le
      have hstop : max e (x.range r).stop = e + x.tcplen := by
        show max e (x.off r + x.tcplen) = _
        omega
      rw [if_pos heq, if_pos hstart, hstop]
      -- A segment with another behind it has no FIN.
      have hafter : ∀ y ∈ rest, e + x.tcplen ≤ y.off r := by
        intro y hy
        have hb := hbefore y hy
        have htl := (hq.ok x List.mem_cons_self).tcplen_eq
        rw [hb.fin] at htl
        have := hb.disjoint
        simp only [Bool.false_eq_true, if_false] at htl
        omega
      obtain ⟨hend, hleft⟩ := ih hrest hafter
      refine ⟨hend, ?_⟩
      have hle := le_reach (e + x.tcplen) (rest.map (Seg.range r))
      have hgone : ¬ reach (e + x.tcplen) (rest.map (Seg.range r)) < (x.range r).stop := by
        show ¬ _ < x.off r + x.tcplen
        omega
      rw [List.filter_cons_of_neg (by simpa using hgone)]
      exact hleft
    · have hstart : ¬ (x.range r).start ≤ e := by
        show ¬ x.off r ≤ e
        omega
      rw [if_neg heq, if_neg hstart]
      refine ⟨rfl, (List.filter_eq_self.mpr fun y hy => ?_).symm⟩
      have hy' : x.off r ≤ y.off r := by
        rcases List.mem_cons.mp hy with rfl | hy
        · exact le_rfl
        · exact (hbefore y hy).lt.le
      have hlt : e < y.off r + y.tcplen := by omega
      exact decide_eq_true hlt

/-! ## The segment against the queue -/

section Merge

variable {t u : Seg} {q q' A : List Seg} {c w : ℕ}

/-- The loop ends in the window, at the end of what is covered without a gap, and leaves the
segments that end after it. -/
structure Agrees (r : Serial) (w c : ℕ) (q : List Seg) (left : ℕ × List Seg) : Prop where
  within : left.1 ≤ w
  reach : left.1 = reach c (q.map (Seg.range r))
  queue : left.2 = q.filter fun x => decide (left.1 < (x.range r).stop)

/-- The conditions on a segment that covers `c` numbers, with a FIN or not. -/
structure Fitting (r : Serial) (w c : ℕ) (hasFin : Prop) (q : List Seg) : Prop where
  within : reach c (q.map (Seg.range r)) ≤ w
  fin : hasFin → ∀ x ∈ q, (x.range r).stop ≤ c
  queuedFin : ¬ hasFin → ∀ x ∈ q, x.flags.fin = true → c ≤ x.off r + x.len
  oneCut : ¬ hasFin → ∀ x ∈ q, ∀ y ∈ q, x.off r + x.len ≤ c → y.off r < c → y.off r + y.len ≤ c

/-- The end of a segment without a FIN. -/
theorem Seg.Ok.stop_eq {x : Seg} (hx : x.Ok) (hfin : x.flags.fin = false) :
    (x.range r).stop = x.off r + x.len := by
  show x.off r + x.tcplen = _
  rw [hx.tcplen_eq, hfin]
  rfl

/-- A segment ends behind its data, or behind its FIN. -/
theorem Seg.stop_le (x : Seg) : (x.range r).stop ≤ x.off r + x.len + 1 := by
  show x.off r + x.tcplen ≤ _
  have := x.tcplen_le
  omega

/-- There is one FIN in the queue. -/
theorem OoseqWeak.fin_unique (hq : OoseqWeak r wnd q) {x y : Seg} (hx : x ∈ q) (hy : y ∈ q)
    (hxf : x.flags.fin = true) (hyf : y.flags.fin = true) : x = y := by
  have hpw := hq.order
  clear hq
  induction q with
  | nil => cases hx
  | cons z l ih =>
    obtain ⟨hbefore, hpw⟩ := List.pairwise_cons.mp hpw
    -- Nothing comes after a FIN.
    have hlast : z.flags.fin = true → ∀ v ∈ l, False := by
      intro hzf v hv
      have := (hbefore v hv).fin
      rw [hzf] at this
      cases this
    rcases List.mem_cons.mp hx with rfl | hx' <;> rcases List.mem_cons.mp hy with rfl | hy'
    · rfl
    · exact (hlast hxf y hy').elim
    · exact (hlast hyf x hx').elim
    · exact ih hx' hy' hpw

/-- Segments that end at or before the reach do not stay. -/
theorem filter_covered {n : ℕ} (hA : ∀ x ∈ A, (x.range r).stop ≤ n) :
    ((A ++ q').filter fun x => decide (n < (x.range r).stop)) =
      q'.filter fun x => decide (n < (x.range r).stop) := by
  have hnil : (A.filter fun x => decide (n < (x.range r).stop)) = [] := by
    rw [List.filter_eq_nil_iff]
    intro x hx
    simpa using hA x hx
  rw [List.filter_append, hnil, List.nil_append]

/-- If all queued segments end at or before `n`, none stays. -/
theorem filter_eq_nil {n : ℕ} : (q.filter fun x => decide (n < (x.range r).stop)) = [] ↔
    ∀ x ∈ q, (x.range r).stop ≤ n := by
  rw [List.filter_eq_nil_iff]
  simp

/-- The ranges of the queue are those of its segments. -/
theorem forall_range {P : Range → Prop} :
    (∀ x ∈ q.map (Seg.range r), P x) ↔ ∀ x ∈ q, P (x.range r) :=
  List.forall_mem_map

/-- The queue is sorted by the starts. -/
theorem OoseqWeak.sorted (hq : OoseqWeak r wnd q) :
    (q.map (Seg.range r)).Pairwise fun x y => x.start ≤ y.start :=
  List.pairwise_map.mpr (hq.order.imp fun h => h.lt.le)

/-- A segment with a FIN empties the queue. -/
theorem agrees_fin (hcw : c ≤ w) {hasFin : Prop} (hfin : hasFin) :
    Agrees r w c q (c, []) ↔ Fitting r w c hasFin q := by
  constructor
  · rintro ⟨-, hreach, hqueue⟩
    exact ⟨hreach ▸ hcw, fun _ => filter_eq_nil.mp hqueue.symm, fun hno => absurd hfin hno,
      fun hno => absurd hfin hno⟩
  · rintro ⟨-, hall, -, -⟩
    exact ⟨hcw, (reach_of_le (forall_range.mpr (hall hfin))).symm,
      (filter_eq_nil.mpr (hall hfin)).symm⟩

/-- A segment that covers the whole queue takes its FIN over. -/
theorem agrees_passed {hasFin : Prop} (hfin : ¬ hasFin) (hq : OoseqInv r wnd q)
    (hall : ∀ x ∈ q, x.off r + x.len ≤ c) {x : Seg} (hx : x ∈ q) (hxf : x.flags.fin = true) :
    Agrees r w c q (c + 1, []) ↔ Fitting r w c hasFin q := by
  have hstop : ∀ y ∈ q, (y.range r).stop ≤ c + 1 := fun y hy =>
    y.stop_le.trans (Nat.add_le_add_right (hall y hy) 1)
  -- Only the segment with the FIN can end after `c`.
  have hothers : ∀ y ∈ q, y ≠ x → (y.range r).stop ≤ c := by
    intro y hy hne
    have hyf : y.flags.fin = false := by
      by_contra hyf
      exact hne (hq.fin_unique hy hx (Bool.eq_true_of_not_eq_false hyf) hxf)
    rw [(hq.ok y hy).stop_eq hyf]
    exact hall y hy
  have hend : (x.range r).stop = x.off r + x.len + 1 := by
    show x.off r + x.tcplen = _
    rw [(hq.ok x hx).tcplen_eq, hxf]
    rfl
  have hxle := hall x hx
  have hnocut : ¬ hasFin → ∀ y ∈ q, ∀ z ∈ q, y.off r + y.len ≤ c → z.off r < c →
      z.off r + z.len ≤ c :=
    fun _ _ _ z hz _ _ => hall z hz
  constructor
  · rintro ⟨hw, hreach, -⟩
    refine ⟨hreach ▸ hw, fun hf => absurd hf hfin, fun _ y hy hyf => ?_, hnocut⟩
    rw [hq.fin_unique hy hx hyf hxf]
    by_contra hlt
    have hnone : ∀ y ∈ q, (y.range r).stop ≤ c := by
      intro y hy
      by_cases hyx : y = x
      · rw [hyx, hend]
        omega
      · exact hothers y hy hyx
    have hstays : c + 1 = c := hreach.trans (reach_of_le (forall_range.mpr hnone))
    omega
  · rintro ⟨hw, -, hqueued, -⟩
    have hxge := hqueued hfin x hx hxf
    have hle : c + 1 ≤ reach c (q.map (Seg.range r)) := by
      have hstart : (x.range r).start ≤ reach c (q.map (Seg.range r)) := by
        have hcle := le_reach c (q.map (Seg.range r))
        show x.off r ≤ _
        omega
      have hin := stop_le_reach hq.sorted (List.mem_map_of_mem hx) hstart
      omega
    have hge := reach_le (Nat.le_succ c) (forall_range.mpr hstop)
    have heq : c + 1 = reach c (q.map (Seg.range r)) := Nat.le_antisymm hle hge
    exact ⟨heq.trans_le hw, heq, (filter_eq_nil.mpr hstop).symm⟩

/-- A segment that covers a front part of the queue, and ends before the rest. -/
theorem agrees_dropped {hasFin : Prop} (hfin : ¬ hasFin) (hq : OoseqInv r wnd (A ++ q'))
    (hA : ∀ x ∈ A, x.off r + x.len ≤ c ∧ x.flags.fin = false)
    (hafter : ∀ x ∈ q', c ≤ x.off r ∧ c < x.off r + x.len) :
    Agrees r w c (A ++ q') (chain r c q') ↔ Fitting r w c hasFin (A ++ q') := by
  have hstopA : ∀ x ∈ A, (x.range r).stop ≤ c := by
    intro x hx
    rw [(hq.ok x (List.mem_append_left q' hx)).stop_eq (hA x hx).2]
    exact (hA x hx).1
  have hq' : OoseqWeak r wnd q' := ⟨(List.pairwise_append.mp hq.order).2.1,
    fun x hx => hq.ok x (List.mem_append_right A hx),
    fun x hx => hq.below x (List.mem_append_right A hx)⟩
  obtain ⟨hend, hleft⟩ := chain_reach hq' fun x hx => (hafter x hx).1
  have hskip : reach c ((A ++ q').map (Seg.range r)) = reach c (q'.map (Seg.range r)) := by
    rw [List.map_append]
    exact reach_append (forall_range.mpr hstopA)
  have hqueue : (chain r c q').2 = (A ++ q').filter fun x =>
    decide ((chain r c q').1 < (x.range r).stop) := by
    rw [filter_covered fun x hx => (hstopA x hx).trans (le_chain r c q'), hleft, hend]
  constructor
  · rintro ⟨hw, hreach, -⟩
    refine ⟨hreach ▸ hw, fun hf => absurd hf hfin, fun _ x hx hxf => ?_, fun _ x _ y hy _ hlt => ?_⟩
    · rcases List.mem_append.mp hx with hx | hx
      · have hxf' := (hA x hx).2
        rw [hxf] at hxf'
        cases hxf'
      · exact (hafter x hx).2.le
    · rcases List.mem_append.mp hy with hy | hy
      · exact (hA y hy).1
      · exact absurd (hafter y hy).1 (not_le.mpr hlt)
  · rintro ⟨hw, -, -, -⟩
    exact ⟨by rw [hend, ← hskip]; exact hw, by rw [hend, hskip], hqueue⟩

/-- A segment that covers nothing of the queue, and ends within its head: it is cut to the head's
start, and the head follows. -/
theorem agrees_cut_head {rest : List Seg} {n : Seg} {hasFin : Prop} (hfin : ¬ hasFin)
    (hq : OoseqInv r wnd (n :: rest)) (hover : n.off r < c) (hend : c < n.off r + n.len) :
    Agrees r w c (n :: rest) (chain r (n.off r) (n :: rest)) ↔
    Fitting r w c hasFin (n :: rest) := by
  have hpw := List.pairwise_cons.mp hq.order
  have hlater : ∀ x ∈ n :: rest, n.off r ≤ x.off r ∧ c < x.off r + x.len := by
    intro x hx
    rcases List.mem_cons.mp hx with rfl | hx
    · exact ⟨le_rfl, hend⟩
    · have hb := hpw.1 x hx
      exact ⟨hb.lt.le, by have := hb.disjoint; omega⟩
  obtain ⟨hchain, hleft⟩ := chain_reach hq.toOoseqWeak fun x hx => (hlater x hx).1
  have hstop : n.off r + n.len ≤ (n.range r).stop := Nat.add_le_add_left n.len_le_tcplen _
  have hsame : reach (n.off r) ((n :: rest).map (Seg.range r)) =
      reach c ((n :: rest).map (Seg.range r)) := by
    have hstart : (n.range r).start = n.off r := rfl
    rw [List.map_cons, reach, reach, if_pos hstart.le, if_pos (hstart.trans_le hover.le),
      max_eq_right (by omega), max_eq_right (by omega)]
  rw [← hchain] at hleft
  constructor
  · rintro ⟨hw, hreach, -⟩
    refine ⟨hreach ▸ hw, fun hf => absurd hf hfin, fun _ x hx _ => (hlater x hx).2.le,
      fun _ x hx _ _ hle _ => ?_⟩
    exact absurd (hlater x hx).2 (not_lt.mpr hle)
  · rintro ⟨hw, -, -, -⟩
    exact ⟨by rw [hchain, hsame]; exact hw, by rw [hchain, hsame], hleft⟩

/-- A segment that covers some of the queue and ends within the next is cut too far: what is covered
reaches beyond the start of what was the head. -/
theorem not_agrees_cut {rest : List Seg} {a n : Seg} {hasFin : Prop} (hfin : ¬ hasFin)
    (hq : OoseqInv r wnd (a :: A ++ n :: rest)) (ha : a.off r + a.len ≤ c) (hover : n.off r < c)
    (hend : c < n.off r + n.len) :
    ¬ Agrees r w c (a :: A ++ n :: rest) (chain r (a.off r) (n :: rest)) ∧
      ¬ Fitting r w c hasFin (a :: A ++ n :: rest) := by
  have hn : n ∈ A ++ n :: rest := List.mem_append_right A List.mem_cons_self
  have hlt : a.off r < n.off r := ((List.pairwise_cons.mp hq.order).1 n hn).lt
  constructor
  · rintro ⟨-, hreach, -⟩
    have hcle := le_reach c ((a :: A ++ n :: rest).map (Seg.range r))
    rw [chain, if_neg hlt.ne'] at hreach
    dsimp only at hreach
    omega
  · rintro ⟨-, -, -, hone⟩
    have hle := hone hfin a List.mem_cons_self n (List.mem_cons_of_mem a hn) ha hover
    omega

/-- In all cases. -/
theorem MergeCase.agrees_iff {hasFin : Prop} (h : MergeCase r t q u q') (ht : t.Ok)
    (hq : OoseqInv r wnd q) (hc : t.tcplen = c) (hcw : c ≤ w) (hfin : t.flags.fin = true ↔ hasFin) :
    Agrees r w c q (chain r u.tcplen q') ↔ Fitting r w c hasFin q := by
  have hlen : t.flags.fin = false → t.len = c := by
    intro hf
    rw [← hc, ht.tcplen_eq, hf]
    rfl
  have hno : t.flags.fin = false → ¬ hasFin := by
    intro hf hyes
    rw [hfin.mpr hyes] at hf
    cases hf
  cases h with
  | fin hf =>
    rw [hc]
    exact agrees_fin hcw (hfin.mp hf)
  | passed hf hall hex =>
    obtain ⟨x, hx, hxf⟩ := hex
    rw [hlen hf] at hall
    have hset : t.setFin.tcplen = c + 1 := by
      rw [ht.setFin.tcplen_eq, ← hlen hf]
      rfl
    rw [hset]
    exact agrees_passed (hno hf) hq hall hx hxf
  | dropped hf happ hA hafter =>
    subst happ
    rw [hlen hf] at hA hafter
    rw [hc]
    exact agrees_dropped (hno hf) hq hA hafter
  | @cut A rest head n hf happ hA hhead hover hend =>
    subst happ
    rw [hlen hf] at hA hover hend
    have hcut : (t.trim (head.off r)).tcplen = head.off r := by
      unfold Seg.tcplen
      rw [Seg.trim_flags, hf, ht.syn]
      rfl
    rw [hcut]
    cases A with
    | nil =>
      cases hhead
      exact agrees_cut_head (hno hf) hq hover hend
    | cons a A =>
      cases hhead
      obtain ⟨hl, hr⟩ := not_agrees_cut (w := w) (hno hf) hq
        (hA head List.mem_cons_self).1 hover hend
      exact iff_of_false hl hr

end Merge

/-! ## The whole -/

section Whole

variable {o : Opts} {m : RxAlloc} {pcb : TcpPcb} {s : Seg}

/-- The merge with the queue does not move the segment. -/
theorem MergeCase.seqno {t u : Seg} {q q' : List Seg} (h : MergeCase r t q u q') :
    u.seqno = t.seqno := by
  cases h <;> rfl

/-- The branch for a segment in sequence ends where the loop over the queue does, or in a failed
assertion. -/
theorem tcpReceiveInSeq_chain (hs : s.Ok) (hl : s.len + 1 < 2^16) (hseq : s.seqno = pcb.rcv_nxt)
    (h0 : 0 < pcb.rcv_wnd) (hw : pcb.rcv_wnd < 2^16) (hwnd : wnd ≤ 2^16)
    (hq : OoseqInv pcb.rcv_nxt wnd pcb.ooseq) :
    ∃ t u q', t.Ok ∧ t.tcplen = min s.tcplen pcb.rcv_wnd ∧
      (t.flags.fin = true ↔ s.flags.fin = true ∧ s.tcplen ≤ pcb.rcv_wnd) ∧
      MergeCase pcb.rcv_nxt t pcb.ooseq u q' ∧
      if (chain pcb.rcv_nxt u.tcplen q').1 ≤ pcb.rcv_wnd then ∃ rx,
      tcpReceiveInSeq o pcb s = .ok rx ∧
          rx.pcb.rcv_nxt = pcb.rcv_nxt.adv (chain pcb.rcv_nxt u.tcplen q').1 ∧
          rx.pcb.ooseq = (chain pcb.rcv_nxt u.tcplen q').2
        else ∃ a, tcpReceiveInSeq o pcb s = .error a := by
  obtain ⟨t, htrim, htok, hcut, htcp, -, htfin⟩ := trimToWnd_spec hs hl hseq h0 hw
  have ht0 : t.off pcb.rcv_nxt = 0 := by
    unfold Seg.off
    rw [hcut.seqno, hseq, Serial.dist_self]
  have htl : t.len + 1 < 2^16 := by
    have := hcut.len
    omega
  obtain ⟨u, q', hmerge, hcase⟩ := mergeOoseq_cases hwnd htok htl ht0 hq
  refine ⟨t, u, q', htok, htcp, htfin, hcase, ?_⟩
  have hu : u.seqno = pcb.rcv_nxt := hcase.seqno.trans (hcut.seqno.trans hseq)
  unfold tcpReceiveInSeq
  simp only [htrim, hmerge, bind, Except.bind]
  by_cases hroom : u.tcplen ≤ pcb.rcv_wnd
  · have hok : lwipAssert Abort.tcplenGtRcvWnd (pcb.rcv_wnd ≥ u.tcplen) = .ok () :=
      lwipAssert_eq_ok.mpr hroom
    simp only [hok]
    have hloop := dequeueOoseq_chain (o := o) (q := q') (inSeqStart o pcb u q') hw hroom
      (by rw [inSeqStart_rcv_nxt, hu]) (by rw [inSeqStart_rcv_wnd]) (by rw [inSeqStart_ooseq])
    change if (chain pcb.rcv_nxt u.tcplen q').1 ≤ pcb.rcv_wnd then
      ∃ rx, (dequeueOoseq o q' (inSeqStart o pcb u q') >>= fun rx =>
        .ok { rx with pcb := tcpAck rx.pcb }) = .ok rx ∧ _ else
      ∃ a, (dequeueOoseq o q' (inSeqStart o pcb u q') >>= fun rx =>
        .ok { rx with pcb := tcpAck rx.pcb }) = .error a
    split at hloop
    · next hin =>
      obtain ⟨rx, hrx, hnxt, hooseq⟩ := hloop
      rw [if_pos hin, hrx]
      refine ⟨_, rfl, ?_, ?_⟩
      · exact (tcpAck_sameRcv rx.pcb).rcv_nxt.trans hnxt
      · exact (tcpAck_sameRcv rx.pcb).ooseq.trans hooseq
    · next hout =>
      obtain ⟨a, ha⟩ := hloop
      rw [if_neg hout, ha]
      exact ⟨a, rfl⟩
  · -- The FIN of the queue does not fit.
    have hend := le_chain pcb.rcv_nxt u.tcplen q'
    rw [if_neg (by omega)]
    have herr : lwipAssert Abort.tcplenGtRcvWnd (pcb.rcv_wnd ≥ u.tcplen) =
        .error .tcplenGtRcvWnd := by
      unfold lwipAssert
      rw [if_neg hroom]
    refine ⟨.tcplenGtRcvWnd, ?_⟩
    simp only [herr]

/-- What is covered without a gap ends less than `2^18` after `rcv_nxt`. -/
theorem reach_lt (hq : OoseqInv r wnd pcb.ooseq) (hwnd : wnd ≤ 2^16) (hw : pcb.rcv_wnd < 2^16) :
    reach (covers pcb s) (pcb.ooseq.map (Seg.range r)) < 2^18 := by
  have hc : covers pcb s ≤ pcb.rcv_wnd := min_le_right _ _
  have hle : reach (covers pcb s) (pcb.ooseq.map (Seg.range r)) ≤ 2^17 := by
    refine reach_le (by omega) (forall_range.mpr fun x hx => ?_)
    have hstop := x.stop_le (r := r)
    have hlen := (hq.ok x hx).len_lt
    have hbelow := hq.below x hx
    omega
  omega

/-- The progress is maximal if the loop over the queue ends where it should. -/
theorem maximalProgress_iff_agrees {last : ℕ × List Seg} {call : Except Abort Rx}
    (hw : pcb.rcv_wnd < 2^16)
    (hwnd : wnd ≤ 2^16) (hq : OoseqInv pcb.rcv_nxt wnd pcb.ooseq)
    (hdata : tcpReceiveData o m pcb s = call)
    (hcall : if last.1 ≤ pcb.rcv_wnd then ∃ rx, call = .ok rx ∧
    rx.pcb.rcv_nxt = pcb.rcv_nxt.adv last.1 ∧
        rx.pcb.ooseq = last.2 else ∃ a, call = .error a) :
    MaximalProgress o m pcb s ↔ Agrees pcb.rcv_nxt pcb.rcv_wnd (covers pcb s) pcb.ooseq last := by
  have hreach := isReach_reach (e := covers pcb s) hq.sorted
  have hlt := reach_lt (s := s) hq hwnd hw
  constructor
  · rintro ⟨rx, n, hrx, hn, hnxt, hooseq⟩
    rw [hdata] at hrx
    obtain rfl := hn.unique hreach
    split at hcall
    · next hin =>
      obtain ⟨rx', hrx', hnxt', hooseq'⟩ := hcall
      rw [hrx] at hrx'
      cases hrx'
      -- Both ends are near to `rcv_nxt`.
      have hend : last.1 = reach (covers pcb s) (pcb.ooseq.map (Seg.range pcb.rcv_nxt)) := by
        have hdist := congrArg (Serial.dist pcb.rcv_nxt) (hnxt'.symm.trans hnxt)
        rwa [Serial.dist_self_adv (by omega), Serial.dist_self_adv (by omega)] at hdist
      exact ⟨hin, hend, by rw [hend]; exact hooseq'.symm.trans hooseq⟩
    · obtain ⟨a, ha⟩ := hcall
      rw [hrx] at ha
      cases ha
  · rintro ⟨hin, hend, hqueue⟩
    rw [if_pos hin] at hcall
    obtain ⟨rx, hrx, hnxt, hooseq⟩ := hcall
    exact ⟨rx, last.1, hdata.trans hrx, hend ▸ hreach, hnxt, hooseq.trans hqueue⟩

/-- For every queue of segments out of sequence that satisfies its invariant, and every segment that
reaches over `rcv_nxt` while the window is open: `tcp_receive` advances `rcv_nxt` as far as the
segment and the queue cover without a gap, and keeps the queued segments beyond, if and only if the
condition holds. -/
theorem maximal_progress_iff (o : Opts) (m : RxAlloc) (hs : s.Incoming) (h0 : 0 < pcb.rcv_wnd)
    (hw : pcb.rcv_wnd < 2^16) (hwnd : wnd ≤ 2^16) (hq : OoseqInv pcb.rcv_nxt wnd pcb.ooseq)
    (hover : Serial.dist s.seqno pcb.rcv_nxt < s.tcplen) :
    MaximalProgress o m pcb s ↔ ProgressFits pcb s := by
  have hdata := tcpReceiveData_over (o := o) (m := m) hs h0 hw hover
  by_cases hnear : Serial.dist s.seqno pcb.rcv_nxt < 0x7fff
  · rw [if_pos hnear] at hdata
    obtain ⟨hok, hl, htcp⟩ := Seg.front_ok hs hover
    obtain ⟨t, u, q', htok, htlen, htfin, hcase, hcall⟩ :=
      tcpReceiveInSeq_chain (o := o) hok hl rfl h0 hw hwnd hq
    rw [htcp] at htlen htfin
    have hagrees := hcase.agrees_iff (w := pcb.rcv_wnd) htok hq htlen (min_le_right _ _) htfin
    rw [maximalProgress_iff_agrees hw hwnd hq hdata hcall]
    refine hagrees.trans ⟨fun h => ?_, fun h => ?_⟩
    · exact ⟨hnear, h.within, h.fin, h.queuedFin, h.oneCut⟩
    · exact ⟨h.within, h.fin, h.queuedFin, h.oneCut⟩
  · rw [if_neg hnear] at hdata
    refine iff_of_false ?_ fun h => hnear h.near
    rintro ⟨rx, n, hrx, -⟩
    rw [hdata] at hrx
    cases hrx

end Whole

/-- A connection in this build, with the first sequence number 1 expected and these segments
queued. -/
def queuedPcb (ooseq : List Seg) : TcpPcb := { TcpPcb.established .shipped 0 0 1000 with ooseq }

/-- Seven bytes from the number 1 on. -/
def sevenBytes : Seg := dataSeg 1 (List.replicate 7 0) false

/-- Four bytes from the number 6 on. -/
def fourBytes : Seg := dataSeg 6 (List.replicate 4 0) false

/-- Two bytes from the number 3 on. -/
def twoBytes : Seg := dataSeg 3 (List.replicate 2 0) false

/-- The queue of the example is in order. -/
theorem queue_inv : OoseqInv 1 2144 [twoBytes, fourBytes] where
  order := .cons (fun x hx => by cases List.mem_singleton.mp hx; exact ⟨by decide, by decide, rfl⟩)
    (List.pairwise_singleton _ _)
  ok x hx := by
    rcases List.mem_cons.mp hx with rfl | hx
    · exact ⟨rfl, by decide, .inr (by decide), rfl⟩
    · cases List.mem_singleton.mp hx
      exact ⟨rfl, by decide, .inr (by decide), rfl⟩
  below := by decide
  above := by decide

/-- A part of the queue. -/
theorem OoseqInv.tail {x : Seg} {q : List Seg} (hq : OoseqInv r wnd (x :: q)) :
    OoseqInv r wnd q where
  order := (List.pairwise_cons.mp hq.order).2
  ok y hy := hq.ok y (List.mem_cons_of_mem x hy)
  below y hy := hq.below y (List.mem_cons_of_mem x hy)
  above y hy := hq.above y (List.mem_cons_of_mem x hy)

/-- The segment of the example takes the receiver to the end of the queue. -/
theorem maximal_progress_iff_sevenBytes :
    MaximalProgress .shipped {} (queuedPcb [fourBytes]) sevenBytes :=
  (maximal_progress_iff .shipped {} ⟨rfl, by decide, rfl⟩ (by decide) (by decide)
    (show 2144 ≤ 2^16 by decide) queue_inv.tail (by decide)).mpr
    ⟨by decide, by decide, by decide, by decide, by decide⟩

/-- The seven bytes cover the two that are queued, and one of the four: `rcv_nxt` stops at the
number 3, and the two bytes are gone. -/
theorem covered_bytes_dropped : ¬ ∀ (pcb : TcpPcb) (s : Seg), s.Incoming → 0 < pcb.rcv_wnd →
    pcb.rcv_wnd < 2^16 → OoseqInv pcb.rcv_nxt 2144 pcb.ooseq →
    Serial.dist s.seqno pcb.rcv_nxt < s.tcplen → MaximalProgress .shipped {} pcb s := by
  intro h
  obtain ⟨rx, n, hrx, hreach, hnxt, -⟩ := h (queuedPcb [twoBytes, fourBytes]) sevenBytes
    ⟨rfl, by decide, rfl⟩ (by decide) (by decide) queue_inv (by decide)
  have hstop : (tcpReceiveData .shipped {} (queuedPcb [twoBytes, fourBytes]) sevenBytes).map
      (·.pcb.rcv_nxt) = .ok 3 := rfl
  rw [hrx] at hstop
  have hshort : rx.pcb.rcv_nxt = 3 := Except.ok.inj hstop
  -- The range ends after nine numbers.
  have hnine : n = 9 := hreach.unique (isReach_reach queue_inv.sorted)
  rw [hshort, hnine] at hnxt
  exact absurd hnxt (by decide)

end Lwip.Tcp
