import Lwip.Tcp.Frame
import Lwip.Tcp.Ooseq

/-!
# A segment in sequence

What `tcp_receive` does with a segment that starts at `rcv_nxt`: `Taken` describes the segment that
is left after the trimming to the window and against the queue, `tcpReceiveInSeq_eq` reduces the
branch to the two assertions on the window and the loop over the queue, and `dequeueOoseq_induction`
is the invariant rule of that loop. `tcpReceiveData_cases` then lists all that a call of the data
half can do.
-/

namespace Lwip.Tcp

variable {r : Serial} {wnd : ℕ}

/-- `s'` is `s` cut short at its end: the data are a prefix, and a FIN stays only if nothing is
cut. -/
structure Seg.Cut (s s' : Seg) : Prop where
  seqno : s'.seqno = s.seqno
  len : s'.len ≤ s.len
  p : s'.p = s.p.take s'.len
  fin : s'.flags.fin = true → s.flags.fin = true ∧ s'.len = s.len

/-- A segment is its own cut. -/
theorem Seg.Cut.refl {s : Seg} (h : s.len = s.p.length) : s.Cut s :=
  ⟨rfl, le_rfl, by rw [h, List.take_length], fun hf => ⟨hf, rfl⟩⟩

/-- Cutting a segment without a FIN further. -/
theorem Seg.Cut.trim {s s' : Seg} (h : s.Cut s') (hf : s'.flags.fin = false) {n : ℕ}
    (hn : n ≤ s'.len) : s.Cut (s'.trim n) where
  seqno := h.seqno
  len := hn.trans h.len
  p := by rw [Seg.trim_p, Seg.trim_len, h.p, List.take_take, min_eq_left hn]
  fin hf' := by rw [Seg.trim_flags, hf] at hf'; cases hf'

/-- The segment that is handed up in place of `s`, from a queue `q` and a window of `wnd`: a part of
`s` that fits, or a part of it with the FIN of a queued segment that it covers. -/
inductive Taken (r : Serial) (wnd : ℕ) (q : List Seg) (s : Seg) : Seg → Prop where
  | part {s' : Seg} : s.Cut s' → s'.tcplen ≤ wnd → Taken r wnd q s s'
  | fin {s' x : Seg} : s.Cut s' → s'.flags.fin = false → s'.len = min s.len wnd → x ∈ q →
      x.flags.fin = true → x.off r + x.len ≤ s'.len → Taken r wnd q s s'.setFin

/-- The length in sequence space of a segment without a SYN. -/
theorem Seg.Ok.tcplen_eq {s : Seg} (h : s.Ok) :
    s.tcplen = s.len + if s.flags.fin then 1 else 0 := by
  simp [Seg.tcplen, h.syn]

/-- A segment of the queue takes up a sequence number. -/
theorem Seg.Ok.tcplen_pos {s : Seg} (h : s.Ok) : 0 < s.tcplen := by
  rw [h.tcplen_eq]
  rcases h.nonempty with hf | hl
  · simp [hf]
  · omega

/-- A FIN takes up one sequence number. -/
theorem Seg.tcplen_le (s : Seg) : s.tcplen ≤ s.len + 1 := by
  unfold Seg.tcplen
  split <;> omega

/-- The data take up sequence numbers. -/
theorem Seg.len_le_tcplen (s : Seg) : s.len ≤ s.tcplen := Nat.le_add_right _ _

/-! ## The trimming to the window -/

/-- A segment in sequence trims to the window without a failed assertion. -/
theorem trimToWnd_spec {pcb : TcpPcb} {s : Seg} (hs : s.Ok) (hl : s.len + 1 < 2^16)
    (hseq : s.seqno = pcb.rcv_nxt) (h0 : 0 < pcb.rcv_wnd) (hw : pcb.rcv_wnd < 2^16) :
    ∃ s', trimToWnd pcb s = .ok (s', s'.tcplen) ∧ s'.Ok ∧ s.Cut s' ∧
      s'.tcplen = min s.tcplen pcb.rcv_wnd ∧ s'.len = min s.len pcb.rcv_wnd ∧
      (s'.flags.fin = true ↔ s.flags.fin = true ∧ s.tcplen ≤ pcb.rcv_wnd) := by
  have htl := s.tcplen_le
  unfold trimToWnd
  rw [u16_eq (by omega : s.tcplen < 2^16)]
  by_cases hgt : s.tcplen > pcb.rcv_wnd
  · rw [if_pos hgt]
    set t : Seg := { s with flags := { s.flags with fin := false } } with ht
    have hsyn : t.flags.syn = false := hs.syn
    have hlen : pcb.rcv_wnd ≤ s.len := by omega
    have htcp : (t.trim pcb.rcv_wnd).tcplen = pcb.rcv_wnd := by
      simp [Seg.tcplen, ht, hs.syn]
    refine ⟨t.trim pcb.rcv_wnd, ?_, ⟨?_, hw, .inr h0, hs.syn⟩, ⟨rfl, hlen, rfl, ?_⟩, ?_, ?_, ?_⟩
    · simp only [hsyn, Bool.false_eq_true, if_false, htcp, u16_eq hw]
      have hadv : t.seqno.adv pcb.rcv_wnd = pcb.rcv_nxt.adv pcb.rcv_wnd := by rw [← hseq]
      simp [lwipAssert, hadv]
    · have := hs.len_eq
      simp only [Seg.trim_len, Seg.trim_p, List.length_take, ht]
      omega
    · intro hf; cases hf
    · rw [htcp, min_eq_right (by omega)]
    · rw [min_eq_right hlen]; rfl
    · constructor
      · intro hf; cases hf
      · exact fun hf => absurd hf.2 (not_le.mpr hgt)
  · rw [if_neg hgt]
    have := s.len_le_tcplen
    exact ⟨s, rfl, hs, .refl hs.len_eq, by rw [min_eq_left (by omega)], by
      rw [min_eq_left (by omega)], ⟨fun hf => ⟨hf, not_lt.mp hgt⟩, And.left⟩⟩

/-! ## The trimming against the queue -/

/-- The loop drops a prefix of the queue, up to the first segment that reaches past the data of `s`.
A FIN passes on only if the whole queue goes. -/
theorem absorbOoseq_spec {s : Seg} {q : List Seg} (hwnd : wnd ≤ 2^16) (hs : s.Ok)
    (hl : s.len + 1 < 2^16) (hs0 : s.off r = 0) (hq : OoseqWeak r wnd q) :
    ∃ A q', q = A ++ q' ∧ (∀ x ∈ A, x.off r + x.len ≤ s.len) ∧
      (∀ n ∈ q'.head?, s.len < n.off r + n.len) ∧
      ((∀ x ∈ A, x.flags.fin = false) ∧ absorbOoseq s s.len q = (s, s.len, q') ∨
        q' = [] ∧ (∃ x ∈ A, x.flags.fin = true) ∧
          absorbOoseq s s.len q = (s.setFin, s.len + 1, [])) := by
  induction q with
  | nil => exact ⟨[], [], rfl, by simp, by simp, .inl ⟨by simp, rfl⟩⟩
  | cons n l ih =>
    have hn := hq.ok n (by simp)
    have hnw := hq.below n (by simp)
    have hnl := hn.len_lt
    obtain ⟨hbefore, hpw⟩ := List.pairwise_cons.mp hq.order
    have hiff := geq_end_iff (r := r) (a := s) (b := n) (by omega) (by omega)
    by_cases hge : n.off r + n.len ≤ s.off r + s.len
    · have hcovered : n.off r + n.len ≤ s.len := by omega
      simp only [absorbOoseq, hiff.mpr hge, if_true, hs.syn, Bool.not_false, Bool.and_true]
      cases hfin : n.flags.fin with
      | true =>
        -- Nothing can follow a FIN.
        have hnil : l = [] := by
          cases l with
          | nil => rfl
          | cons m l => have := (hbefore m (by simp)).fin; rw [hfin] at this; cases this
        subst hnil
        have htl : u16 s.setFin.tcplen = s.len + 1 := by
          rw [hs.setFin.tcplen_eq]; exact u16_eq (by simpa using hl)
        refine ⟨[n], [], rfl, by simpa using hcovered, by simp, .inr ⟨rfl, ⟨n, by simp, hfin⟩, ?_⟩⟩
        simp [absorbOoseq, htl]
      | false =>
        obtain ⟨A, q', happ, hA, hh, hres⟩ := ih
          ⟨hpw, fun x hx => hq.ok x (by simp [hx]), fun x hx => hq.below x (by simp [hx])⟩
        refine ⟨n :: A, q', by rw [happ, List.cons_append], ?_, hh, ?_⟩
        · intro x hx
          rcases List.mem_cons.mp hx with rfl | hx
          · exact hcovered
          · exact hA x hx
        · simp only [Bool.false_eq_true, if_false]
          rcases hres with ⟨hnofin, h⟩ | ⟨hnil, ⟨x, hx, hxf⟩, h⟩
          · exact .inl ⟨by simpa [hfin] using hnofin, h⟩
          · exact .inr ⟨hnil, ⟨x, by simp [hx], hxf⟩, h⟩
    · have hngeq : ¬ Serial.geq (s.seqno.adv s.len) (n.seqno.adv n.len) := mt hiff.mp hge
      refine ⟨[], n :: l, rfl, by simp, by simp; omega, .inl ⟨by simp, ?_⟩⟩
      simp [absorbOoseq, hngeq]

/-- What can become of the segment in sequence `t`, trimmed to the window, and of the queue `q`. -/
inductive MergeCase (r : Serial) (t : Seg) (q : List Seg) : Seg → List Seg → Prop where
  /-- A FIN empties the queue. -/
  | fin : t.flags.fin = true → MergeCase r t q t []
  /-- The whole queue is covered, and its FIN passes to the segment. -/
  | passed : t.flags.fin = false → (∀ x ∈ q, x.off r + x.len ≤ t.len) →
    (∃ x ∈ q, x.flags.fin = true) →
      MergeCase r t q t.setFin []
  /-- A front part of the queue is covered, and the rest starts no earlier than the segment ends. -/
  | dropped {A q' : List Seg} : t.flags.fin = false → q = A ++ q' →
      (∀ x ∈ A, x.off r + x.len ≤ t.len ∧ x.flags.fin = false) →
      (∀ x ∈ q', t.len ≤ x.off r ∧ t.len < x.off r + x.len) → MergeCase r t q t q'
  /-- A front part is covered, and the segment ends within the first of the rest: it is cut to the
  start of what was the head of the queue. -/
  | cut {A rest : List Seg} {head n : Seg} : t.flags.fin = false → q = A ++ n :: rest →
      (∀ x ∈ A, x.off r + x.len ≤ t.len ∧ x.flags.fin = false) → q.head? = some head →
      n.off r < t.len → t.len < n.off r + n.len → MergeCase r t q (t.trim (head.off r)) (n :: rest)

/-- The segment in sequence against the queue: no assertion fails. -/
theorem mergeOoseq_cases {t : Seg} {q : List Seg} (hwnd : wnd ≤ 2^16) (ht : t.Ok)
    (hl : t.len + 1 < 2^16) (ht0 : t.off r = 0) (hq : OoseqInv r wnd q) :
    ∃ u q', mergeOoseq q t t.tcplen = .ok (u, u.tcplen, q') ∧ MergeCase r t q u q' := by
  cases hf : t.flags.fin with
  | true =>
    refine ⟨t, [], ?_, .fin hf⟩
    cases q with
    | nil => rfl
    | cons head l => simp [mergeOoseq, hf]
  | false =>
    have htl : t.tcplen = t.len := by rw [ht.tcplen_eq]; simp [hf]
    cases q with
    | nil => exact ⟨t, [], rfl, .dropped (A := []) hf rfl (by simp) (by simp)⟩
    | cons head l =>
      obtain ⟨A, q', happ, hA, hh, ⟨hnofin, h⟩ | ⟨rfl, ⟨x, hx, hxf⟩, h⟩⟩ :=
        absorbOoseq_spec hwnd ht hl ht0 hq.toOoseqWeak
      · have hcovered : ∀ x ∈ A, x.off r + x.len ≤ t.len ∧ x.flags.fin = false :=
          fun x hx => ⟨hA x hx, hnofin x hx⟩
        cases q' with
        | nil =>
          exact ⟨t, [], by simp [mergeOoseq, hf, htl, h], .dropped hf happ hcovered (by simp)⟩
        | cons n l' =>
          have hsuf : n :: l' <:+ head :: l := ⟨A, happ.symm⟩
          have hmem : n ∈ head :: l := hsuf.mem (by simp)
          have hn := hq.ok n hmem
          have hnl := hn.len_lt
          have hnw := hq.below n hmem
          have hend := hh n (by simp)
          have hpw := List.pairwise_cons.mp (hq.order.sublist hsuf.sublist)
          have hiff := gt_start_iff (r := r) (a := t) (b := n) (by omega) (by omega)
          by_cases hov : n.off r < t.off r + t.len
          · -- The trimming reads the old head, which starts no later than the first that is left.
            have hhead : head.off r ≤ n.off r := by
              rcases List.mem_cons.mp hmem with rfl | hm
              · exact le_rfl
              · exact ((List.pairwise_cons.mp hq.order).1 n hm).lt.le
            have hhpos := hq.above head (by simp)
            have hlen : u16 (Serial.dist t.seqno head.seqno) = head.off r := by
              have h0 : t.seqno = r := (Serial.dist_eq_zero_iff r t.seqno).mp ht0
              rw [h0]
              exact u16_eq (by unfold Seg.off at *; omega)
            have hok : (t.trim (head.off r)).Ok := ht.trim hhpos (by omega)
            have htcp : (t.trim (head.off r)).tcplen = head.off r := by
              rw [hok.tcplen_eq]; simp [hf]
            have hadv : t.seqno.adv (head.off r) = head.seqno := by
              have h0 : t.seqno = r := (Serial.dist_eq_zero_iff r t.seqno).mp ht0
              rw [h0]
              exact Serial.adv_dist r head.seqno
            refine ⟨t.trim (head.off r), n :: l', ?_, .cut hf happ hcovered rfl (by omega) hend⟩
            simp only [mergeOoseq, hf, htl, h, hiff.mpr hov, Bool.false_eq_true, if_false, if_true,
              ht.syn, hlen, htcp, Seg.trim_seqno, lwipAssert,
              u16_eq (by omega : head.off r < 2^16), hadv]
            rfl
          · refine ⟨t, n :: l', ?_, .dropped hf happ hcovered fun x hx => ?_⟩
            · simp only [mergeOoseq, hf, htl, h, mt hiff.mp hov, Bool.false_eq_true, if_false]
              rfl
            · rcases List.mem_cons.mp hx with rfl | hx
              · omega
              · have := (hpw.1 x hx).disjoint
                omega
      · rw [List.append_nil] at happ
        have hsf : t.setFin.tcplen = t.len + 1 := by rw [ht.setFin.tcplen_eq]; simp
        exact ⟨t.setFin, [], by simp [mergeOoseq, hf, htl, h, hsf],
          .passed hf (happ ▸ hA) ⟨x, happ ▸ hx, hxf⟩⟩

/-- `s'` is handed up in place of `s`, and `q'` stays of the queue `q`: it starts at the end of `s'`
or later. -/
structure Merged (r : Serial) (wnd : ℕ) (q : List Seg) (s s' : Seg) (q' : List Seg) : Prop where
  ok : s'.Ok
  seqno : s'.seqno = s.seqno
  suffix : q' <:+ q
  after : ∀ x ∈ q', s'.tcplen ≤ x.off r
  taken : Taken r wnd q s s'

/-- What is left of a segment and of the queue has the form of both. -/
theorem MergeCase.merged {s t u : Seg} {q q' : List Seg} {w : ℕ}
    (h : MergeCase r t q u q') (ht : t.Ok)
    (hq : OoseqInv r wnd q) (hcut : s.Cut t) (hw : t.tcplen ≤ w) (hmin : t.len = min s.len w) :
    Merged r w q s u q' := by
  have htl : t.flags.fin = false → t.tcplen = t.len := fun hf => by rw [ht.tcplen_eq]; simp [hf]
  cases h with
  | fin hf => exact ⟨ht, hcut.seqno, List.nil_suffix, by simp, .part hcut hw⟩
  | passed hf hcovered hfin =>
    obtain ⟨x, hx, hxf⟩ := hfin
    exact ⟨ht.setFin, hcut.seqno, List.nil_suffix, by simp,
      .fin hcut hf hmin hx hxf (hcovered x hx)⟩
  | dropped hf happ hA hafter =>
    exact ⟨ht, hcut.seqno, ⟨_, happ.symm⟩, fun x hx => htl hf ▸ (hafter x hx).1, .part hcut hw⟩
  | @cut A rest head n hf happ hA hhead hover hend =>
    have hsuf : n :: rest <:+ q := ⟨A, happ.symm⟩
    obtain ⟨l, rfl⟩ : ∃ l, q = head :: l := by
      cases q with
      | nil => cases hhead
      | cons m l => cases hhead; exact ⟨l, rfl⟩
    have hpw := List.pairwise_cons.mp hq.order
    -- The old head starts no later than what is left.
    have hfirst : ∀ x ∈ head :: l, head.off r ≤ x.off r := by
      intro x hx
      rcases List.mem_cons.mp hx with rfl | hx
      · exact le_rfl
      · exact (hpw.1 x hx).lt.le
    have hlt : head.off r < t.len := (hfirst n (hsuf.mem (by simp))).trans_lt hover
    have hok : (t.trim (head.off r)).Ok := ht.trim (hq.above head (by simp)) hlt
    have htcp : (t.trim (head.off r)).tcplen = head.off r := by
      rw [hok.tcplen_eq]; simp [hf]
    refine ⟨hok, hcut.seqno, hsuf, fun x hx => ?_, .part (hcut.trim hf hlt.le) ?_⟩
    · rw [htcp]
      exact hfirst x (hsuf.mem hx)
    · have := htl hf
      omega

/-! ## The branch as a whole -/

/-- The state in which the loop over the queue starts. -/
def inSeqStart (o : Opts) (pcb : TcpPcb) (s : Seg) (ooseq : List Seg) : Rx where
  pcb := (tcpUpdateRcvAnnWnd o { pcb with
    ooseq
    rcv_nxt := s.seqno.adv s.tcplen
    rcv_wnd := pcb.rcv_wnd - s.tcplen }).1
  recv_data := s.p
  got_fin := s.flags.fin

/-- The branch for a segment in sequence: what stays of the segment and of the queue, the assertion
on the window, and the loop over the queue. -/
theorem tcpReceiveInSeq_merged {o : Opts} {pcb : TcpPcb} {s : Seg} (hs : s.Ok)
    (hl : s.len + 1 < 2^16) (hseq : s.seqno = pcb.rcv_nxt) (h0 : 0 < pcb.rcv_wnd)
    (hw : pcb.rcv_wnd < 2^16) (hwnd : wnd ≤ 2^16) (hq : OoseqInv pcb.rcv_nxt wnd pcb.ooseq) :
    ∃ t s' q', mergeOoseq pcb.ooseq t t.tcplen = .ok (s', s'.tcplen, q') ∧
      Merged pcb.rcv_nxt pcb.rcv_wnd pcb.ooseq s s' q' ∧
      tcpReceiveInSeq o pcb s = (do
        lwipAssert .tcplenGtRcvWnd (pcb.rcv_wnd ≥ s'.tcplen)
        let rx ← dequeueOoseq o q' (inSeqStart o pcb s' q')
        return { rx with pcb := tcpAck rx.pcb }) := by
  obtain ⟨t, htrim, htok, hcut, htcp, hmin, -⟩ := trimToWnd_spec hs hl hseq h0 hw
  have ht0 : t.off pcb.rcv_nxt = 0 := by
    unfold Seg.off
    rw [hcut.seqno, hseq, Serial.dist_self]
  have htl : t.len + 1 < 2^16 := by have := hcut.len; omega
  obtain ⟨s', q', hmerge, hcase⟩ := mergeOoseq_cases hwnd htok htl ht0 hq
  have hM := hcase.merged htok hq hcut (htcp ▸ min_le_right _ _) hmin
  refine ⟨t, s', q', hmerge, hM, ?_⟩
  unfold tcpReceiveInSeq
  simp only [htrim, hmerge, bind, Except.bind]
  rfl

/-- The branch for a segment in sequence comes down to the assertion on the window and the loop over
what stays queued. -/
theorem tcpReceiveInSeq_eq {o : Opts} {pcb : TcpPcb} {s : Seg} (hs : s.Ok) (hl : s.len + 1 < 2^16)
    (hseq : s.seqno = pcb.rcv_nxt) (h0 : 0 < pcb.rcv_wnd) (hw : pcb.rcv_wnd < 2^16)
    (hwnd : wnd ≤ 2^16) (hq : OoseqInv pcb.rcv_nxt wnd pcb.ooseq) :
    ∃ s' q', Merged pcb.rcv_nxt pcb.rcv_wnd pcb.ooseq s s' q' ∧
      tcpReceiveInSeq o pcb s = (do
        lwipAssert .tcplenGtRcvWnd (pcb.rcv_wnd ≥ s'.tcplen)
        let rx ← dequeueOoseq o q' (inSeqStart o pcb s' q')
        return { rx with pcb := tcpAck rx.pcb }) := by
  obtain ⟨t, s', q', -, hM, heq⟩ := tcpReceiveInSeq_merged (o := o) hs hl hseq h0 hw hwnd hq
  exact ⟨s', q', hM, heq⟩

/-! ## The loop over the queue -/

/-- The invariant rule of the loop that hands up queued segments: what each round preserves holds at
the end, where the queue's head is not in sequence. -/
theorem dequeueOoseq_induction {o : Opts} {q : List Seg} {rx rx' : Rx}
    (h : dequeueOoseq o q rx = .ok rx') (I : List Seg → Rx → Prop)
    (hstep : ∀ c rest rx, I (c :: rest) rx → c.seqno = rx.pcb.rcv_nxt →
      c.tcplen ≤ rx.pcb.rcv_wnd → I rest (dequeueOne o c rest rx))
    (hI : I q rx) : ∃ q', I q' rx' ∧ ∀ c ∈ q'.head?, c.seqno ≠ rx'.pcb.rcv_nxt := by
  induction q generalizing rx with
  | nil => cases h; exact ⟨[], hI, by simp⟩
  | cons c rest ih =>
    unfold dequeueOoseq at h
    by_cases hc : c.seqno = rx.pcb.rcv_nxt
    · rw [if_pos hc] at h
      obtain ⟨_, hw, h⟩ := bind_eq_ok.mp h
      exact ih h (hstep c rest rx hI hc (lwipAssert_eq_ok.mp hw))
    · rw [if_neg hc] at h
      cases h
      exact ⟨c :: rest, hI, by simpa using hc⟩

/-- The same rule where the invariant also bounds the segments by the window: the loop ends. -/
theorem dequeueOoseq_ok {o : Opts} {q : List Seg} {rx : Rx} (I : List Seg → Rx → Prop)
    (hstep : ∀ c rest rx, I (c :: rest) rx → c.seqno = rx.pcb.rcv_nxt →
      c.tcplen ≤ rx.pcb.rcv_wnd ∧ I rest (dequeueOne o c rest rx))
    (hI : I q rx) : ∃ rx', dequeueOoseq o q rx = .ok rx' := by
  induction q generalizing rx with
  | nil => exact ⟨rx, rfl⟩
  | cons c rest ih =>
    unfold dequeueOoseq
    by_cases hc : c.seqno = rx.pcb.rcv_nxt
    · obtain ⟨hw, hI'⟩ := hstep c rest rx hI hc
      rw [if_pos hc, (lwipAssert_eq_ok (u := ())).mpr hw]
      exact ih hI'
    · exact ⟨rx, by rw [if_neg hc]⟩

/-- The invariant rule of the whole branch: the loop starts with what is left of the segment and the
queue, and ends with a queue whose head is not in sequence. -/
theorem tcpReceiveInSeq_induction {o : Opts} {pcb : TcpPcb} {s : Seg} {rx : Rx} (hs : s.Ok)
    (hl : s.len + 1 < 2^16) (hseq : s.seqno = pcb.rcv_nxt) (h0 : 0 < pcb.rcv_wnd)
    (hw : pcb.rcv_wnd < 2^16) (hwnd : wnd ≤ 2^16) (hq : OoseqInv pcb.rcv_nxt wnd pcb.ooseq)
    (I : List Seg → Rx → Prop)
    (hstart : ∀ s' q', Merged pcb.rcv_nxt pcb.rcv_wnd pcb.ooseq s s' q' →
      s'.tcplen ≤ pcb.rcv_wnd → I q' (inSeqStart o pcb s' q'))
    (hstep : ∀ c rest rx, I (c :: rest) rx → c.seqno = rx.pcb.rcv_nxt →
      c.tcplen ≤ rx.pcb.rcv_wnd → I rest (dequeueOne o c rest rx))
    (h : tcpReceiveInSeq o pcb s = .ok rx) :
    ∃ q' rx', rx = { rx' with pcb := tcpAck rx'.pcb } ∧ I q' rx' ∧
      ∀ c ∈ q'.head?, c.seqno ≠ rx'.pcb.rcv_nxt := by
  obtain ⟨s', q', hM, heq⟩ := tcpReceiveInSeq_eq (o := o) hs hl hseq h0 hw hwnd hq
  rw [heq] at h
  obtain ⟨_, hwnd', h⟩ := bind_eq_ok.mp h
  obtain ⟨rx', hdeq, h⟩ := bind_eq_ok.mp h
  obtain ⟨q'', hI, hhead⟩ :=
    dequeueOoseq_induction hdeq I hstep (hstart s' q' hM (lwipAssert_eq_ok.mp hwnd'))
  exact ⟨q'', rx', (Except.ok.inj h).symm, hI, hhead⟩

/-! ## The fields of the loop's state -/

/-- The announced window is not `rcv_nxt`. -/
@[simp] theorem tcpUpdateRcvAnnWnd_rcv_nxt (o : Opts) (pcb : TcpPcb) :
    (tcpUpdateRcvAnnWnd o pcb).1.rcv_nxt = pcb.rcv_nxt := by
  unfold tcpUpdateRcvAnnWnd; dsimp only; split_ifs <;> rfl

/-- The announced window is not the receive window. -/
@[simp] theorem tcpUpdateRcvAnnWnd_rcv_wnd (o : Opts) (pcb : TcpPcb) :
    (tcpUpdateRcvAnnWnd o pcb).1.rcv_wnd = pcb.rcv_wnd := by
  unfold tcpUpdateRcvAnnWnd; dsimp only; split_ifs <;> rfl

/-- The announced window leaves the queue alone. -/
@[simp] theorem tcpUpdateRcvAnnWnd_ooseq (o : Opts) (pcb : TcpPcb) :
    (tcpUpdateRcvAnnWnd o pcb).1.ooseq = pcb.ooseq := by
  unfold tcpUpdateRcvAnnWnd; dsimp only; split_ifs <;> rfl

/-- The recorded edge moves only when a segment is sent. -/
@[simp] theorem tcpUpdateRcvAnnWnd_edge (o : Opts) (pcb : TcpPcb) :
    (tcpUpdateRcvAnnWnd o pcb).1.rcv_ann_right_edge = pcb.rcv_ann_right_edge := by
  unfold tcpUpdateRcvAnnWnd; dsimp only; split_ifs <;> rfl

section Fields

variable (o : Opts) (pcb : TcpPcb) (s : Seg) (q : List Seg) (rx : Rx)

/-- `rcv_nxt` moves to the end of the segment. -/
@[simp] theorem inSeqStart_rcv_nxt :
    (inSeqStart o pcb s q).pcb.rcv_nxt = s.seqno.adv s.tcplen := by simp [inSeqStart]

/-- The window shrinks by the segment. -/
@[simp] theorem inSeqStart_rcv_wnd :
    (inSeqStart o pcb s q).pcb.rcv_wnd = pcb.rcv_wnd - s.tcplen := by simp [inSeqStart]

/-- Nothing is sent at first. -/
@[simp] theorem inSeqStart_ooseq : (inSeqStart o pcb s q).pcb.ooseq = q := by simp [inSeqStart]
@[simp] theorem inSeqStart_recv_data : (inSeqStart o pcb s q).recv_data = s.p := rfl
@[simp] theorem inSeqStart_got_fin : (inSeqStart o pcb s q).got_fin = s.flags.fin := rfl
@[simp] theorem inSeqStart_sent : (inSeqStart o pcb s q).sent = [] := rfl

/-- `rcv_nxt` moves on to the end of the queued segment. -/
@[simp] theorem dequeueOne_rcv_nxt :
    (dequeueOne o s q rx).pcb.rcv_nxt = rx.pcb.rcv_nxt.adv s.tcplen := by simp [dequeueOne]

/-- The window shrinks by the queued segment. -/
@[simp] theorem dequeueOne_rcv_wnd :
    (dequeueOne o s q rx).pcb.rcv_wnd = rx.pcb.rcv_wnd - s.tcplen := by simp [dequeueOne]

/-- The data of the queued segment are handed up behind the others. -/
@[simp] theorem dequeueOne_ooseq : (dequeueOne o s q rx).pcb.ooseq = q := rfl
@[simp] theorem dequeueOne_recv_data :
    (dequeueOne o s q rx).recv_data = rx.recv_data ++ s.p := rfl

/-- A FIN of the queued segment is noted. -/
@[simp] theorem dequeueOne_got_fin :
    (dequeueOne o s q rx).got_fin = (rx.got_fin || s.flags.fin) := rfl

/-- To take a segment off the queue sends nothing. -/
@[simp] theorem dequeueOne_sent : (dequeueOne o s q rx).sent = rx.sent := rfl

end Fields

/-- `tcp_ack` changes no receive field. -/
theorem tcpAck_sameRcv (pcb : TcpPcb) : SameRcv pcb (tcpAck pcb) := ⟨rfl, rfl, rfl, rfl, rfl, rfl⟩

/-! ## The data half of `tcp_receive` -/

/-- An incoming segment as `tcp_process` hands it to `tcp_receive` once the connection is
established: the payload fits in an IP datagram after the two headers, and there is no SYN, which
`tcp_process` answers by itself. -/
structure Seg.Incoming (s : Seg) : Prop where
  len_eq : s.len = s.p.length
  len_le : s.len + 40 ≤ 0xffff
  syn : s.flags.syn = false

/-- An incoming segment that occupies sequence space has the form of a queued one. -/
theorem Seg.Incoming.ok {s : Seg} (h : s.Incoming) (h0 : 0 < s.tcplen) : s.Ok where
  len_eq := h.len_eq
  len_lt := by have := h.len_le; omega
  nonempty := by
    unfold Seg.tcplen at h0
    cases hf : s.flags.fin with
    | true => exact .inl rfl
    | false => simp [hf, h.syn] at h0; exact .inr (by omega)
  syn := h.syn

/-- `s'` is the incoming segment `s` from the sequence number `r` on. The last case is a defect of
the test for it: a single byte, or a bare FIN, from the opposite point of the circle passes as the
next in sequence. -/
inductive Front (r : Serial) (s : Seg) : Seg → Prop where
  | whole : s.seqno = r → Front r s s
  | cut : 0 < Serial.dist s.seqno r → Serial.dist s.seqno r < s.tcplen →
      Front r s { s with
        seqno := r
        len := s.len - Serial.dist s.seqno r
        p := s.p.drop (Serial.dist s.seqno r) }
  | antipode : Serial.dist s.seqno r = 2^31 → s.tcplen = 1 → Front r s { s with seqno := r }

/-- The segment at the front starts at `rcv_nxt`. -/
theorem Front.seqno {s s' : Seg} (hf : Front r s s') : s'.seqno = r := by
  cases hf with
  | whole h => exact h
  | cut => rfl
  | antipode => rfl

/-- What is left of an incoming segment has the form of a queued one. -/
theorem Front.ok {s s' : Seg} (hf : Front r s s') (hs : s.Incoming) (h0 : 0 < s.tcplen) :
    s'.Ok ∧ s'.len + 1 < 2^16 := by
  have hle := hs.len_le
  have hok := hs.ok h0
  have htl := hok.tcplen_eq
  cases hf with
  | whole => exact ⟨hok, by omega⟩
  | cut hd hd' =>
    refine ⟨⟨?_, ?_, ?_, hs.syn⟩, by dsimp only; omega⟩
    · simp only [List.length_drop, hs.len_eq]
    · dsimp only; omega
    · dsimp only
      cases hf : s.flags.fin with
      | true => exact .inl rfl
      | false => simp [hf] at htl; exact .inr (by omega)
  | antipode => exact ⟨⟨hs.len_eq, hok.len_lt, hok.nonempty, hs.syn⟩, by dsimp only; omega⟩

/-- All that a call of the data half of `tcp_receive` can do. -/
inductive DataCase (o : Opts) (m : RxAlloc) (pcb : TcpPcb) (s : Seg) : Except Abort Rx → Prop where
  | insane : DataCase o m pcb s (.error .insaneOffset)
  | quiet {rx : Rx} : Stamped pcb rx.pcb rx.sent → rx.recv_data = [] → rx.got_fin = false →
      DataCase o m pcb s (.ok rx)
  | queued {pcb' : TcpPcb} {sent : List Sent} : Stamped pcb pcb' sent → s.Ok →
      s.seqno ≠ pcb.rcv_nxt →
      Serial.between s.seqno pcb.rcv_nxt (pcb.rcv_nxt.adv pcb.rcv_wnd - 1) →
      DataCase o m pcb s
        (.ok { pcb := { pcb' with ooseq := tcpQueueOoseq m.seg s pcb.ooseq }, sent })
  | inSeq {pcb' : TcpPcb} {s' : Seg} : SameRcv pcb pcb' → Front pcb.rcv_nxt s s' → s'.Ok →
      s'.len + 1 < 2^16 → 0 < pcb.rcv_wnd → DataCase o m pcb s (tcpReceiveInSeq o pcb' s')

/-- The window has room if its first sequence number passes the window test. -/
theorem rcv_wnd_pos {r : Serial} {w : ℕ} (h : Serial.between r r (r.adv w - 1)) : 0 < w := by
  rcases Nat.eq_zero_or_pos w with rfl | hw
  · have h1 : Serial.dist (r.adv 0 - 1) r = 1 := by
      rw [Serial.adv_zero, Serial.dist_sub_one_left (by simp), Serial.dist_self]
    rcases (Serial.leq_iff _ _).mp h.2 with h2 | h2 <;> omega
  · exact hw

/-- The start of an open window passes its test. -/
theorem between_start {r : Serial} {w : ℕ} (h0 : 0 < w) (hw : w < 2^16) :
    Serial.between r r (r.adv w - 1) := by
  have hend : Serial.dist r (r.adv w) = w := Serial.dist_self_adv (by omega)
  have hlast : Serial.dist r (r.adv w - 1) = w - 1 := by
    rw [Serial.dist_sub_one (by omega), hend]
  constructor
  · rw [Serial.geq_iff, Serial.dist_self]
    decide
  · rw [Serial.leq_iff_dist (r := r) (by rw [Serial.dist_self]; decide) (by omega),
      Serial.dist_self]
    exact Nat.zero_le _

/-- The front of the segment is cut exactly if `rcv_nxt` lies inside of it, or on the opposite point
of the circle from a single sequence number. -/
theorem between_front {s : Seg} (h0 : 0 < s.tcplen) (hl : s.tcplen < 2^16)
    (h : Serial.between r (s.seqno.adv 1) (s.seqno.adv s.tcplen - 1)) :
    0 < Serial.dist s.seqno r ∧ Serial.dist s.seqno r < s.tcplen ∨
      Serial.dist s.seqno r = 2^31 ∧ s.tcplen = 1 := by
  have hlt := Serial.dist_lt s.seqno r
  have h1 : Serial.dist s.seqno (s.seqno.adv 1) = 1 := Serial.dist_self_adv (by omega)
  have ht : Serial.dist s.seqno (s.seqno.adv s.tcplen) = s.tcplen :=
    Serial.dist_self_adv (by omega)
  have ht' : Serial.dist s.seqno (s.seqno.adv s.tcplen - 1) = s.tcplen - 1 := by
    rw [Serial.dist_sub_one (by omega), ht]
  have hge := (Serial.geq_iff _ _).mp h.1
  have hle := (Serial.leq_iff _ _).mp h.2
  have hd : 0 < Serial.dist s.seqno r := by
    by_contra hd
    rw [Serial.dist_eq_sub_wrap (r := s.seqno) (by omega)] at hge
    omega
  rw [Serial.dist_eq_sub (r := s.seqno) (by omega)] at hge
  rcases le_or_gt (s.tcplen - 1) (Serial.dist s.seqno r) with hc | hc
  · rw [Serial.dist_eq_sub (r := s.seqno) (by omega)] at hle
    omega
  · omega

/-- The test holds if `rcv_nxt` lies inside of the segment. -/
theorem front_between {s : Seg} (hd : 0 < Serial.dist s.seqno r)
    (hd' : Serial.dist s.seqno r < s.tcplen)
    (hl : s.tcplen < 2^16) : Serial.between r (s.seqno.adv 1) (s.seqno.adv s.tcplen - 1) := by
  have h1 : Serial.dist s.seqno (s.seqno.adv 1) = 1 := Serial.dist_self_adv (by omega)
  have ht : Serial.dist s.seqno (s.seqno.adv s.tcplen) = s.tcplen := Serial.dist_self_adv (by omega)
  have ht' : Serial.dist s.seqno (s.seqno.adv s.tcplen - 1) = s.tcplen - 1 := by
    rw [Serial.dist_sub_one (by omega), ht]
  constructor
  · rw [Serial.geq_iff, Serial.dist_eq_sub (r := s.seqno) (by omega), h1]
    omega
  · rw [Serial.leq_iff_dist (r := s.seqno) (by omega) (by omega), ht']
    omega

/-- The offset of the trimming, a signed number. -/
theorem trim_offset (pcb : TcpPcb) (s : Seg) : (pcb.rcv_nxt - s.seqno).toInt =
    if 2 * Serial.dist s.seqno pcb.rcv_nxt < 2^32 then (Serial.dist s.seqno pcb.rcv_nxt : ℤ)
    else (Serial.dist s.seqno pcb.rcv_nxt : ℤ) - 2^32 := by
  rw [BitVec.toInt_eq_toNat_cond]; rfl

/-- From the opposite point of the circle the offset is negative, and nothing is trimmed. -/
theorem trimFront_antipode {pcb : TcpPcb} {s : Seg} (hd : Serial.dist s.seqno pcb.rcv_nxt = 2^31)
    (hle : s.len + 40 ≤ 0xffff) : trimFront pcb s = .ok { s with seqno := pcb.rcv_nxt } := by
  have hoff := trim_offset pcb s
  rw [hd, if_neg (by decide)] at hoff
  have hsub : u16sub s.len (Serial.dist s.seqno pcb.rcv_nxt) = s.len := by
    rw [hd]; unfold u16sub; omega
  have hins : (pcb.rcv_nxt - s.seqno).toInt < 0x7fff := by omega
  have hle' : (pcb.rcv_nxt - s.seqno).toInt ≤ s.p.length := by omega
  have hzero : (pcb.rcv_nxt - s.seqno).toInt.toNat = 0 := by omega
  simp only [trimFront, lwipAssert, if_pos hins, if_pos hle', hzero, hsub, List.drop_zero, bind,
    Except.bind, pure, Except.pure]

/-- The segment from the sequence number `r` on. -/
def Seg.front (r : Serial) (s : Seg) : Seg :=
  { s with
    seqno := r
    len := s.len - Serial.dist s.seqno r
    p := s.p.drop (Serial.dist s.seqno r) }

/-- From inside of the segment, the offset must be less than the assertion allows. -/
theorem trimFront_inside {pcb : TcpPcb} {s : Seg} (hlen : s.len = s.p.length)
    (hle : s.len + 40 ≤ 0xffff) (hd : Serial.dist s.seqno pcb.rcv_nxt < s.tcplen) :
    trimFront pcb s = if Serial.dist s.seqno pcb.rcv_nxt < 0x7fff then .ok (s.front pcb.rcv_nxt)
      else .error .insaneOffset := by
  have htl := s.tcplen_le
  have hoff := trim_offset pcb s
  rw [if_pos (by omega)] at hoff
  by_cases hins : Serial.dist s.seqno pcb.rcv_nxt < 0x7fff
  · have hp : Serial.dist s.seqno pcb.rcv_nxt ≤ s.p.length := by rw [← hlen]; omega
    have hsub : u16sub s.len (Serial.dist s.seqno pcb.rcv_nxt) =
        s.len - Serial.dist s.seqno pcb.rcv_nxt := by
      unfold u16sub; omega
    have hins' : (Serial.dist s.seqno pcb.rcv_nxt : ℤ) < 0x7fff := by omega
    have hp' : (Serial.dist s.seqno pcb.rcv_nxt : ℤ) ≤ s.p.length := by omega
    simp [trimFront, Seg.front, lwipAssert, hins, hoff, hins', hp', hsub, bind, Except.bind, pure,
      Except.pure]
  · have hins' : ¬ (Serial.dist s.seqno pcb.rcv_nxt : ℤ) < 0x7fff := by omega
    simp [trimFront, lwipAssert, hins, hoff, hins', bind, Except.bind]

/-- The trimming of the front: the segment from `rcv_nxt` on, or a failed assertion on the
offset. -/
theorem trimFront_spec {pcb : TcpPcb} {s : Seg} (hlen : s.len = s.p.length)
    (hle : s.len + 40 ≤ 0xffff) (h0 : 0 < s.tcplen)
    (h : Serial.between pcb.rcv_nxt (s.seqno.adv 1) (s.seqno.adv s.tcplen - 1)) :
    trimFront pcb s = .error .insaneOffset ∨ ∃ s', trimFront pcb s = .ok s' ∧
      Front pcb.rcv_nxt s s' := by
  have htl := s.tcplen_le
  rcases between_front h0 (by omega) h with ⟨hd, hd'⟩ | ⟨hd, ht⟩
  · rw [trimFront_inside hlen hle hd']
    split
    · exact .inr ⟨_, rfl, .cut hd hd'⟩
    · exact .inl rfl
  · exact .inr ⟨_, trimFront_antipode hd hle, .antipode hd ht⟩

/-- A call of the data half of `tcp_receive` on a segment from IP. -/
theorem tcpReceiveData_cases (o : Opts) (m : RxAlloc) (pcb : TcpPcb) {s : Seg} (hs : s.Incoming) :
    DataCase o m pcb s (tcpReceiveData o m pcb s) := by
  have htl := s.tcplen_le
  have hle := hs.len_le
  have hu : u16 s.tcplen = s.tcplen := u16_eq (by omega)
  have hsame : ∀ p, p = pcb ∨ p = tcpAckNowInput pcb → SameRcv pcb p := by
    rintro p (rfl | rfl) <;> exact ⟨rfl, rfl, rfl, rfl, rfl, rfl⟩
  unfold tcpReceiveData
  rw [hu]
  by_cases h0 : s.tcplen > 0
  · rw [if_pos h0]
    by_cases hb : Serial.between pcb.rcv_nxt (s.seqno.adv 1) (s.seqno.adv s.tcplen - 1)
    · rw [if_pos hb]
      rcases trimFront_spec hs.len_eq hs.len_le h0 hb with h | ⟨s', h, hf⟩
      · rw [h]; exact .insane
      · rw [h]
        change DataCase o m pcb s (tcpReceiveWindow o m pcb s')
        unfold tcpReceiveWindow
        dsimp only
        rw [hf.seqno]
        split
        · next hw =>
          rw [if_pos rfl]
          obtain ⟨hok, hl⟩ := hf.ok hs h0
          exact .inSeq (.refl pcb) hf hok hl (rcv_wnd_pos hw)
        · exact .quiet (tcpSendEmptyAck_stamped _ _) rfl rfl
    · rw [if_neg hb]
      have hp := hsame (if Serial.lt s.seqno pcb.rcv_nxt then tcpAckNowInput pcb else pcb)
        (by split; exacts [.inr rfl, .inl rfl])
      generalize (if Serial.lt s.seqno pcb.rcv_nxt then tcpAckNowInput pcb else pcb) = p at hp ⊢
      have hst : Stamped pcb (tcpSendEmptyAck m.ack p).1 (tcpSendEmptyAck m.ack p).2 := by
        simpa using hp.stamped.trans (tcpSendEmptyAck_stamped m.ack p)
      unfold tcpReceiveWindow
      dsimp only
      rw [hp.rcv_nxt, hp.rcv_wnd]
      split
      · next hw =>
        by_cases heq : pcb.rcv_nxt = s.seqno
        · rw [if_pos heq]
          have hf : Front pcb.rcv_nxt s s := .whole heq.symm
          exact .inSeq hp hf (hf.ok hs h0).1 (hf.ok hs h0).2 (rcv_wnd_pos (heq ▸ hw))
        · rw [if_neg heq, hst.ooseq]
          exact .queued hst (hs.ok h0) (Ne.symm heq) hw
      · exact .quiet hst rfl rfl
  · rw [if_neg h0]
    refine .quiet (hsame _ ?_).stamped rfl rfl
    dsimp only
    split
    exacts [.inl rfl, .inr rfl]

/-- The cases do not depend on the sender's fields. -/
theorem DataCase.of_sameRcv {o : Opts} {m : RxAlloc} {pcb pcb' : TcpPcb} {s : Seg}
    {x : Except Abort Rx} (h : SameRcv pcb pcb') (hx : DataCase o m pcb' s x) :
    DataCase o m pcb s x := by
  cases hx with
  | insane => exact .insane
  | quiet hst hd hf => exact .quiet (by simpa using h.stamped.trans hst) hd hf
  | queued hst hok hne hb =>
    rw [h.rcv_nxt] at hne
    rw [h.rcv_nxt, h.rcv_wnd] at hb
    rw [h.ooseq]
    exact .queued (by simpa using h.stamped.trans hst) hok hne hb
  | inSeq hsame hf hok hl hw =>
    rw [h.rcv_nxt] at hf
    rw [h.rcv_wnd] at hw
    exact .inSeq (h.trans hsame) hf hok hl hw

/-- A call of `tcp_receive` on a segment from IP: it stops in the acknowledgement, or does what the
data half does. -/
theorem tcpReceive_cases (o : Opts) (ticks : BitVec 32) (m : RxAlloc) (pcb : TcpPcb) {i : In}
    (hs : i.seg.Incoming) :
    (∃ a, tcpReceiveAck ticks pcb i = .error a ∧ tcpReceive o ticks m pcb i = .error a) ∨
      DataCase o m pcb i.seg (tcpReceive o ticks m pcb i) := by
  unfold tcpReceive
  cases hack : i.seg.flags.ack with
  | false => exact .inr (tcpReceiveData_cases o m pcb hs)
  | true =>
    cases h : tcpReceiveAck ticks pcb i with
    | error a => exact .inl ⟨a, rfl, by simp [bind, Except.bind]⟩
    | ok pcb' =>
      refine .inr (DataCase.of_sameRcv (tcpReceiveAck_sameRcv h) ?_)
      simpa [h, bind, Except.bind] using tcpReceiveData_cases o m pcb' hs

end Lwip.Tcp
