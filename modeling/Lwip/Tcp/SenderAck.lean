import Lwip.Tcp.Sender

/-!
# Acknowledgements

What `tcp_receive` does to the send queues. An acknowledgement of new data is the move `ack` of the
abstract sender. Every other one leaves the numbers alone, but may retransmit, and takes off
`unsent` what the second loop of the source takes for acknowledged: nothing, as long as the
acknowledgement number does not fool its two comparisons (`StrayAck`).
-/

namespace Lwip.Tcp

open Relation (ReflTransGen)

/-- The sender after an acknowledgement of `a`. -/
def Tx.acked (t : Tx) (a : ℕ) : Tx :=
  { t with
    lastack := a
    unacked := t.unacked.dropWhile (fun r => decide (r.stop ≤ a))
    unsent := t.unsent.dropWhile (fun r => decide (r.stop ≤ a))
    infr := false }

/-- The acknowledgement number lies behind `snd_nxt`, and yet ahead of the end of the first unsent
segment, which lies ahead of `snd_nxt`: the three are spread around the circle. -/
def StrayAck (pcb : TcpPcb) (ackno : Serial) : Prop :=
  ∃ s ∈ pcb.unsent.head?, Serial.lt pcb.snd_nxt s.endSeq ∧ Serial.lt ackno pcb.snd_nxt ∧
    Serial.geq ackno s.endSeq

section

variable {base : Serial} {pcb pcb' : TcpPcb} {t : Tx} {i : In} {ticks : BitVec 32} {e : Serial}

/-! ## The loops -/

/-- The loop frees the segments in front that are acknowledged. -/
theorem freeAcked_eq {acks : Seg → Bool} {other q q' : List Seg} {ql ql' a a' : ℕ}
    (h : freeAcked acks other q ql a = .ok (q', ql', a')) : q' = q.dropWhile acks := by
  induction q generalizing ql a with
  | nil => cases h; rfl
  | cons s q ih =>
    unfold freeAcked at h
    split at h
    · next hs =>
      obtain ⟨_, -, h⟩ := bind_eq_ok.mp h
      obtain ⟨_, -, h⟩ := bind_eq_ok.mp h
      rw [List.dropWhile_cons_of_pos hs]
      exact ih h
    · next hs =>
      cases h
      rw [List.dropWhile_cons_of_neg hs]

/-- The second loop takes segments off `unsent` and nothing else. -/
theorem tcpReceiveUnsent_eq (h : tcpReceiveUnsent pcb i = .ok pcb') :
    ∃ ql a, pcb' = { pcb with
      unsent := pcb.unsent.dropWhile
        (fun s => decide (Serial.between i.ackno s.endSeq pcb.snd_nxt))
      acked := a
      snd_queuelen := ql } := by
  unfold tcpReceiveUnsent at h
  obtain ⟨⟨q, ql, a⟩, hf, h⟩ := bind_eq_ok.mp h
  cases h
  exact ⟨ql, a, by rw [freeAcked_eq hf]⟩

/-- What an acknowledgement of new data changes of the sender's fields. -/
structure NewAcked (pcb pcb' : TcpPcb) (i : In) : Prop where
  lastack : pcb'.lastack = i.ackno
  snd_nxt : pcb'.snd_nxt = pcb.snd_nxt
  snd_lbb : pcb'.snd_lbb = pcb.snd_lbb
  unacked : pcb'.unacked =
    pcb.unacked.dropWhile (fun s => decide (Serial.leq s.endSeq i.ackno))
  unsent : pcb'.unsent = pcb.unsent
  infr : pcb'.flags.infr = false
  fin : pcb'.flags.fin = pcb.flags.fin
  snd_wnd : pcb'.snd_wnd = pcb.snd_wnd
  mss : pcb'.mss = pcb.mss
  snd_buf : pcb'.snd_buf = u16 (pcb.snd_buf + u16 (Serial.dist pcb.lastack i.ackno))
  state : pcb'.state = pcb.state

/-- An ACK of new data is an acknowledgement. -/
theorem tcpReceiveNewAck_newAcked (h : tcpReceiveNewAck pcb i = .ok pcb') :
    NewAcked pcb pcb' i := by
  unfold tcpReceiveNewAck at h
  obtain ⟨cwnd, -, h⟩ := bind_eq_ok.mp h
  obtain ⟨⟨q, ql, a⟩, hf, h⟩ := bind_eq_ok.mp h
  cases h
  exact ⟨rfl, rfl, rfl, freeAcked_eq hf, rfl, rfl, rfl, rfl, rfl, rfl, rfl⟩

/-! ## New data -/

/-- An acknowledgement number that passes the two tests lies between `lastack` and `snd_nxt`. -/
theorem Sender.new_ack (h : Sender base pcb t) {ackno : Serial}
    (h₁ : ¬Serial.leq ackno pcb.lastack)
    (h₂ : Serial.between ackno (pcb.lastack.adv 1) pcb.snd_nxt) :
    ∃ a, t.lastack < a ∧ a ≤ t.nxt ∧ ackno = base.adv a := by
  have hw1 := h.weak.nxt_ge
  have hw2 := h.weak.nxt_le
  have hw3 := h.weak.win
  obtain ⟨d, hd⟩ : ∃ d, Serial.dist pcb.lastack ackno = d := ⟨_, rfl⟩
  have hack : ackno = base.adv (t.lastack + d) := by
    rw [← Serial.adv_adv, ← h.lastack, ← hd, Serial.adv_dist]
  rw [Serial.leq_iff, hd] at h₁
  have hle := h₂.2
  rw [hack, h.snd_nxt, Serial.leq_adv_iff (by omega) (by omega)] at hle
  exact ⟨t.lastack + d, by omega, hle, hack⟩

/-- The queues of the pcb after an acknowledgement of `a` are those of the abstract sender. -/
theorem Sender.acked_forall₂ (h : Sender base pcb t) {a : ℕ} (ha : t.lastack < a) (ha' : a ≤ t.nxt)
    (hack : i.ackno = base.adv a) :
    List.Forall₂ (SegAt base)
        (pcb.unacked.dropWhile (fun s => decide (Serial.leq s.endSeq i.ackno)))
        (t.acked a).unacked ∧
      List.Forall₂ (SegAt base)
        (pcb.unsent.dropWhile (fun s => decide (Serial.between i.ackno s.endSeq pcb.snd_nxt)))
        (t.acked a).unsent := by
  have hw2 := h.weak.nxt_le
  have hw3 := h.weak.win
  constructor
  · refine forall₂_dropWhile h.unacked fun s r hr hs => ?_
    obtain ⟨h1, h2, h3, -⟩ := h.weak.bounds (r := r) (by simp [hr])
    rw [decide_eq_decide, hs.endSeq, hack]
    exact Serial.leq_adv_iff (by omega) (by omega)
  · refine forall₂_dropWhile h.unsent fun s r hr hs => ?_
    obtain ⟨h1, h2, h3, -⟩ := h.weak.bounds (r := r) (by simp [hr])
    rw [decide_eq_decide, hs.endSeq, hack, h.snd_nxt]
    unfold Serial.between
    rw [Serial.geq_adv_iff (by omega) (by omega), Serial.leq_adv_iff (by omega) (by omega)]
    exact and_iff_left ha'

/-- The send buffer grows by what was acknowledged. -/
theorem Sender.snd_buf_acked (h : Sender base pcb t) {a : ℕ} (ha : t.lastack < a) (ha' : a ≤ t.nxt)
    (hack : i.ackno = base.adv a) (hf : pcb.flags.fin = false) :
    u16 (pcb.snd_buf + u16 (Serial.dist pcb.lastack i.ackno)) + (t.lbb - a) ≤ 0xffff := by
  have hw2 := h.weak.nxt_le
  have hw3 := h.weak.win
  have hroom := h.room hf
  rw [h.lastack, hack, Serial.dist_adv_adv ha.le (by omega)]
  unfold u16
  omega

/-- The two loops after an acknowledgement of new data. -/
theorem Sender.acked (h : Sender base pcb t) {a : ℕ} (ha : t.lastack < a) (ha' : a ≤ t.nxt)
    (hack : i.ackno = base.adv a) {p : TcpPcb} (hp : NewAcked pcb p i)
    (hu : tcpReceiveUnsent p i = .ok pcb') : Sender base pcb' (t.acked a) := by
  obtain ⟨ql, n, rfl⟩ := tcpReceiveUnsent_eq hu
  obtain ⟨h1, h2⟩ := h.acked_forall₂ ha ha' hack
  refine ⟨hp.lastack.trans hack, hp.snd_nxt.trans h.snd_nxt, hp.snd_lbb.trans h.snd_lbb, ?_, ?_,
    hp.infr, ?_, ?_, fun hf => ?_, ?_, ?_, h.weak.ack ha ha'⟩
  · show List.Forall₂ _ p.unacked _
    rw [hp.unacked]
    exact h1
  · dsimp only
    rw [hp.unsent, hp.snd_nxt]
    exact h2
  · show p.snd_wnd ≤ _
    rw [hp.snd_wnd]
    exact h.snd_wnd_le
  · show p.mss ≤ _
    rw [hp.mss]
    exact h.mss_le
  · show p.snd_buf + (t.lbb - a) ≤ _
    rw [hp.snd_buf]
    exact h.snd_buf_acked ha ha' hack (hp.fin.symm.trans hf)
  · show p.state.geEstablished = true
    rw [hp.state]
    exact h.live
  · show p.state = _ ∨ p.state = _ → p.flags.fin = false
    rw [hp.state, hp.fin]
    exact h.writable

/-! ## Everything else -/

/-- An acknowledgement that is not of new data leaves the numbers, and moves segments at most from
one queue to the other, if it acknowledges `lastack` once more. -/
structure Kept (base : Serial) (pcb p : TcpPcb) (t t' : Tx) (i : In) : Prop where
  sender : Sender base p t'
  steps : ReflTransGen TxStep t t'
  snd_nxt : p.snd_nxt = pcb.snd_nxt
  snd_lbb : p.snd_lbb = pcb.snd_lbb
  perm : (p.unacked ++ p.unsent).Perm (pcb.unacked ++ pcb.unsent)
  tperm : (t'.unacked ++ t'.unsent).Perm (t.unacked ++ t.unsent)
  lastack : t'.lastack = t.lastack
  nxt : t'.nxt = t.nxt
  unsent : p.unsent = pcb.unsent ∨ i.ackno = pcb.lastack
  state : p.state = pcb.state

/-- The same send fields have the same sender. -/
theorem Sender.kept (h : Sender base pcb t) {p : TcpPcb} (hp : SameSnd pcb p) :
    Kept base pcb p t t i :=
  ⟨h.congr hp, .refl, hp.snd_nxt, hp.snd_lbb, by rw [hp.unacked, hp.unsent], .rfl, rfl, rfl,
    .inl hp.unsent, hp.state⟩

/-- The fast retransmission. -/
theorem Sender.tcpRexmitFast (h : Sender base pcb t) (hack : i.ackno = pcb.lastack) :
    ∃ t', Kept base pcb (tcpRexmitFast pcb) t t' i := by
  unfold Lwip.Tcp.tcpRexmitFast
  split
  · next hc =>
    have hun := h.unacked
    unfold tcpRexmit
    split
    · next hnil => exact absurd hnil hc.1
    · next seg rest hseg =>
      rw [hseg] at hun
      obtain ⟨r, rs, hr, hrs, hrt⟩ := List.forall₂_cons_left_iff.mp hun
      have hlt : ∀ x, ∀ y ∈ t.unsent, SegAt base x y →
          decide (Serial.lt x.seqno seg.seqno) = decide (y.start < r.start) := by
        intro x y hy hxy
        rw [decide_eq_decide]
        exact h.weak.seqno_lt hxy hr (by simp [hy]) (by simp [hrt])
      have hstep := TxStep.rexmit hrt (h.infr.symm.trans hc.2)
      have hins : List.Forall₂ (SegAt base)
          (pcb.unsent.takeWhile (fun s => decide (Serial.lt s.seqno seg.seqno)) ++
            seg :: pcb.unsent.dropWhile (fun s => decide (Serial.lt s.seqno seg.seqno)))
          (insertByStart r t.unsent) :=
        List.rel_append (forall₂_takeWhile h.unsent hlt) (.cons hr (forall₂_dropWhile h.unsent hlt))
      refine ⟨{ t with unacked := rs, unsent := insertByStart r t.unsent, infr := true },
        ⟨h.lastack, h.snd_nxt, h.snd_lbb, hrs, hins, rfl, h.snd_wnd_le, h.mss_le, h.room,
          h.live, h.writable, h.weak.step hstep⟩,
        .single hstep, rfl, rfl, ?_, ?_, rfl, rfl, .inr hack, rfl⟩
      · dsimp only
        rw [hseg]
        refine .trans (.append_left rest ?_) List.perm_middle
        refine List.perm_middle.trans ?_
        rw [List.takeWhile_append_dropWhile]
      · dsimp only
        rw [hrt]
        exact ((insertByStart_perm r t.unsent).append_left rs).trans List.perm_middle
  · exact ⟨t, h.kept (.refl pcb)⟩

/-- An ACK of nothing new may retransmit. -/
theorem Sender.tcpReceiveOldAck (h : Sender base pcb t) :
    ∃ t', Kept base pcb (tcpReceiveOldAck e pcb i) t t' i := by
  have hsame : ∀ d, SameSnd pcb { pcb with acked := 0, dupacks := d } := fun d =>
    ⟨rfl, rfl, rfl, rfl, rfl, rfl, rfl, rfl, rfl, rfl, rfl⟩
  unfold Lwip.Tcp.tcpReceiveOldAck tcpReceiveDupAck
  split
  · next hc =>
    split
    · exact ⟨t, h.kept ⟨rfl, rfl, rfl, rfl, rfl, rfl, rfl, rfl, rfl, rfl, rfl⟩⟩
    · split
      · have h' := h.congr (hsame ((pcb.dupacks + 1) % 2^8))
        obtain ⟨t', hk⟩ := h'.tcpRexmitFast (i := i) hc.2.2.2.symm
        exact ⟨t', hk.sender, hk.steps, hk.snd_nxt, hk.snd_lbb, hk.perm, hk.tperm, hk.lastack,
          hk.nxt, .inr hc.2.2.2.symm, hk.state⟩
      · exact ⟨t, h.kept (hsame _)⟩
  · exact ⟨t, h.kept (hsame 0)⟩

/-- The three cases of the acknowledgement number, up to the second loop. -/
theorem Sender.tcpReceiveAckno (h : Sender base pcb t) {p : TcpPcb}
    (hp : tcpReceiveAckno e pcb i = .ok p) :
    (∃ a, t.lastack < a ∧ a ≤ t.nxt ∧ i.ackno = base.adv a ∧ NewAcked pcb p i) ∨
      ((∀ a, t.lastack < a → a ≤ t.nxt → i.ackno ≠ base.adv a) ∧ ∃ t', Kept base pcb p t t' i) := by
  have hw2 := h.weak.nxt_le
  have hw3 := h.weak.win
  unfold Lwip.Tcp.tcpReceiveAckno at hp
  by_cases h₁ : Serial.leq i.ackno pcb.lastack
  · rw [if_pos h₁] at hp
    cases hp
    refine .inr ⟨fun a ha ha' hack => ?_, h.tcpReceiveOldAck⟩
    rw [hack, h.lastack, Serial.leq_adv_iff (by omega) (by omega)] at h₁
    omega
  · rw [if_neg h₁] at hp
    by_cases h₂ : Serial.between i.ackno (pcb.lastack.adv 1) pcb.snd_nxt
    · rw [if_pos h₂] at hp
      obtain ⟨a, ha, ha', hack⟩ := h.new_ack h₁ h₂
      exact .inl ⟨a, ha, ha', hack, tcpReceiveNewAck_newAcked hp⟩
    · rw [if_neg h₂] at hp
      cases hp
      refine .inr ⟨fun a ha ha' hack => h₂ ?_,
        t, h.kept ⟨rfl, rfl, rfl, rfl, rfl, rfl, rfl, rfl, rfl, rfl, rfl⟩⟩
      rw [hack, h.lastack, h.snd_nxt, Serial.adv_adv]
      exact ⟨(Serial.geq_adv_iff (by omega) (by omega)).mpr (by omega),
        (Serial.leq_adv_iff (by omega) (by omega)).mpr ha'⟩

/-- Losing a first part of `unsent`. -/
theorem Sender.drop (h : Sender base pcb t) (k ql n : ℕ) :
    Sender base { pcb with unsent := pcb.unsent.drop k, acked := n, snd_queuelen := ql }
      (t.drop k) :=
  ⟨h.lastack, h.snd_nxt, h.snd_lbb, h.unacked, List.forall₂_drop k h.unsent, h.infr, h.snd_wnd_le,
    h.mss_le, h.room, h.live, h.writable, h.weak.drop k⟩

/-- The second loop takes a segment that is not acknowledged only if the acknowledgement number is
stray. -/
theorem Sender.strayAck (h : Sender base pcb t) {s : Seg} {r : Range}
    (hs : s ∈ pcb.unsent.head?) (hr : SegAt base s r) (hmem : r ∈ t.unacked ++ t.unsent)
    (hlt : t.lastack < r.stop) {ackno : Serial}
    (hnew : ∀ a, t.lastack < a → a ≤ t.nxt → ackno ≠ base.adv a)
    (hb : Serial.between ackno s.endSeq pcb.snd_nxt) : StrayAck pcb ackno := by
  obtain ⟨h1, h2, h3, -⟩ := h.weak.bounds hmem
  have hw1 := h.weak.nxt_ge
  have hw2 := h.weak.nxt_le
  have hw3 := h.weak.win
  refine ⟨s, hs, ?_⟩
  obtain ⟨d, hd⟩ : ∃ d, Serial.dist (base.adv t.lastack) ackno = d := ⟨_, rfl⟩
  have hd32 : d < 2^32 := by rw [← hd]; exact Serial.dist_lt _ _
  have hack : ackno = base.adv (t.lastack + d) := by
    rw [← Serial.adv_adv, ← hd, Serial.adv_dist]
  have hn := hnew (t.lastack + d)
  rw [hr.endSeq, h.snd_nxt] at hb ⊢
  obtain ⟨hb1, hb2⟩ := hb
  -- `ackno` is at most half a circle ahead of the segment's end, and more than that ahead of `nxt`.
  have hd1 : r.stop ≤ t.lastack + d ∧ t.lastack + d < r.stop + 2^31 := by
    rw [Serial.geq_iff, hack] at hb1
    rcases le_or_gt r.stop (t.lastack + d) with hle | hgt
    · rw [Serial.dist_adv_adv hle (by omega)] at hb1
      omega
    · rw [Serial.dist_adv_adv_wrap hgt (by omega)] at hb1
      omega
  have hd2 : t.nxt + 2^31 ≤ t.lastack + d := by
    by_contra hlt'
    rw [hack, Serial.leq_adv_iff (by omega) (by omega)] at hb2
    exact hn (by omega) hb2 hack
  refine ⟨(Serial.lt_adv_iff (by omega) (by omega)).mpr (by omega), ?_, hb1⟩
  rw [Serial.lt_iff, hack, Serial.dist_adv_adv (by omega) (by omega)]
  omega

/-! ## `tcp_receive` -/

/-- The update of the peer's window changes these fields only. -/
theorem updateSndWnd_eq (pcb : TcpPcb) (i : In) :
    ∃ w wl1 wl2 pb, (w = i.wnd.toNat ∨ w = pcb.snd_wnd) ∧ updateSndWnd pcb i =
      { pcb with snd_wnd := w, snd_wl1 := wl1, snd_wl2 := wl2, persist_backoff := pb } := by
  unfold updateSndWnd
  split
  · exact ⟨_, _, _, _, .inl rfl, rfl⟩
  · exact ⟨_, _, _, _, .inr rfl, rfl⟩

/-- The estimate of the round trip changes no send field. -/
theorem estimateRtt_sameSnd (ticks : BitVec 32) (pcb : TcpPcb) (i : In) :
    SameSnd pcb (estimateRtt ticks pcb i) := by
  unfold estimateRtt
  split <;> exact ⟨rfl, rfl, rfl, rfl, rfl, rfl, rfl, rfl, rfl, rfl, rfl⟩

/-- An acknowledgement of `a`: what it takes off the queues. -/
structure AckedUpTo (base : Serial) (pcb pcb' : TcpPcb) (t : Tx) (i : In) (a : ℕ) : Prop where
  lt : t.lastack < a
  le : a ≤ t.nxt
  ackno : i.ackno = base.adv a
  sender : Sender base pcb' (t.acked a)
  unacked : pcb'.unacked =
    pcb.unacked.dropWhile (fun s => decide (Serial.leq s.endSeq i.ackno))
  unsent : pcb'.unsent =
    pcb.unsent.dropWhile (fun s => decide (Serial.between i.ackno s.endSeq pcb.snd_nxt))
  snd_nxt : pcb'.snd_nxt = pcb.snd_nxt
  snd_lbb : pcb'.snd_lbb = pcb.snd_lbb
  state : pcb'.state = pcb.state

/-- An acknowledgement of nothing new: `k` segments of `unsent` are lost, none if the queues are in
order and the acknowledgement number is not stray. -/
structure AckedNothing (base : Serial) (pcb pcb' : TcpPcb) (t t' : Tx) (i : In) (k : ℕ) : Prop where
  not_new : ∀ a, t.lastack < a → a ≤ t.nxt → i.ackno ≠ base.adv a
  steps : ReflTransGen TxStep t t'
  lastack : t'.lastack = t.lastack
  nxt : t'.nxt = t.nxt
  sender : Sender base pcb' (t'.drop k)
  kept : t.Strong → ¬StrayAck pcb i.ackno →
    k = 0 ∧ (pcb'.unacked ++ pcb'.unsent).Perm (pcb.unacked ++ pcb.unsent)
  snd_nxt : pcb'.snd_nxt = pcb.snd_nxt
  snd_lbb : pcb'.snd_lbb = pcb.snd_lbb
  state : pcb'.state = pcb.state

/-- The second loop after an acknowledgement of nothing new. -/
theorem Sender.ackedNothing (h : Sender base pcb t) {p : TcpPcb} {t' : Tx}
    (hnew : ∀ a, t.lastack < a → a ≤ t.nxt → i.ackno ≠ base.adv a) (hk : Kept base pcb p t t' i)
    (hu : tcpReceiveUnsent p i = .ok pcb') : ∃ k, AckedNothing base pcb pcb' t t' i k := by
  obtain ⟨ql, n, rfl⟩ := tcpReceiveUnsent_eq hu
  set f := fun s : Seg => decide (Serial.between i.ackno s.endSeq p.snd_nxt) with hf
  by_cases hhead : ∃ s ∈ p.unsent.head?, Serial.between i.ackno s.endSeq p.snd_nxt
  · -- A segment is lost; then the queues are not in order, or the acknowledgement is stray.
    have hdrop := List.suffix_iff_eq_drop.mp (List.dropWhile_suffix (l := p.unsent) f)
    refine ⟨_, hnew, hk.steps, hk.lastack, hk.nxt,
      by rw [hdrop]; exact hk.sender.drop _ ql n, fun hst hstray => ?_, hk.snd_nxt,
      hk.snd_lbb, hk.state⟩
    exfalso
    obtain ⟨s, hs, hb⟩ := hhead
    obtain ⟨r, hr, hat⟩ := forall₂_mem_left hk.sender.unsent (List.mem_of_mem_head? hs)
    have hmem : r ∈ t.unacked ++ t.unsent := hk.tperm.mem_iff.mp (by simp [hr])
    have hlt := hst.lt_stop r hmem
    rw [hk.snd_nxt] at hb
    rcases hk.unsent with hun | hack
    · rw [hun] at hs
      exact hstray (h.strayAck hs hat hmem hlt hnew hb)
    · obtain ⟨h1, h2, h3, -⟩ := h.weak.bounds hmem
      have hb1 := hb.1
      rw [hack, h.lastack, hat.endSeq, Serial.geq_adv_iff (by omega) (by omega)] at hb1
      omega
  · have hkeep : p.unsent.dropWhile f = p.unsent := by
      cases hun : p.unsent with
      | nil => rfl
      | cons s l =>
        refine List.dropWhile_cons_of_neg fun hs => hhead ⟨s, by rw [hun]; rfl, ?_⟩
        simpa [hf] using hs
    refine ⟨0, hnew, hk.steps, hk.lastack, hk.nxt, ?_, fun _ _ => ⟨rfl, ?_⟩, hk.snd_nxt,
      hk.snd_lbb, hk.state⟩
    · rw [hkeep]
      exact hk.sender.drop 0 ql n
    · dsimp only
      rw [hkeep]
      exact hk.perm

/-- `tcp_receive` under `if (flags & TCP_ACK)`. -/
theorem Sender.tcpReceiveAck (h : Sender base pcb t)
    (ha : tcpReceiveAck ticks pcb i = .ok pcb') :
    (∃ a, AckedUpTo base pcb pcb' t i a) ∨ ∃ t' k, AckedNothing base pcb pcb' t t' i k := by
  unfold Lwip.Tcp.tcpReceiveAck at ha
  obtain ⟨p, hp, ha⟩ := bind_eq_ok.mp ha
  obtain ⟨q, hq, ha⟩ := bind_eq_ok.mp ha
  cases ha
  have hrtt := estimateRtt_sameSnd ticks q i
  obtain ⟨w, wl1, wl2, pb, hw, hupd⟩ := updateSndWnd_eq pcb i
  have h₁ : Sender base (updateSndWnd pcb i) t := by
    rw [hupd]
    refine ⟨h.lastack, h.snd_nxt, h.snd_lbb, h.unacked, h.unsent, h.infr, ?_, h.mss_le, h.room,
      h.live, h.writable, h.weak⟩
    have := i.wnd.isLt
    have := h.snd_wnd_le
    dsimp only
    omega
  rcases h₁.tcpReceiveAckno hp with ⟨a, hlt, hle, hack, hnew⟩ | ⟨hnew, t', hk⟩
  · obtain ⟨ql, n, rfl⟩ := tcpReceiveUnsent_eq hq
    refine .inl ⟨a, hlt, hle, hack, (h₁.acked hlt hle hack hnew hq).congr hrtt, ?_, ?_, ?_, ?_,
      ?_⟩
    · rw [hrtt.unacked]
      show p.unacked = _
      rw [hnew.unacked, hupd]
    · rw [hrtt.unsent]
      dsimp only
      rw [hnew.unsent, hnew.snd_nxt, hupd]
    · rw [hrtt.snd_nxt]
      show p.snd_nxt = _
      rw [hnew.snd_nxt, hupd]
    · rw [hrtt.snd_lbb]
      show p.snd_lbb = _
      rw [hnew.snd_lbb, hupd]
    · rw [hrtt.state]
      show p.state = _
      rw [hnew.state, hupd]
  · obtain ⟨k, hn⟩ := h₁.ackedNothing hnew hk hq
    refine .inr ⟨t', k, hnew, hn.steps, hn.lastack, hn.nxt, hn.sender.congr hrtt,
      fun hst hstray => ?_, by rw [hrtt.snd_nxt, hn.snd_nxt, hupd],
      by rw [hrtt.snd_lbb, hn.snd_lbb, hupd], by rw [hrtt.state, hn.state, hupd]⟩
    have hkept := hn.kept hst (by rw [hupd]; exact hstray)
    rw [hupd] at hkept
    rw [hrtt.unacked, hrtt.unsent]
    exact hkept

end

end Lwip.Tcp
