import Lwip.Tcp.Closing
import Lwip.Tcp.Counted

/-!
# What the queued segments carry

The bytes that `tcp_write` has accepted make up a stream. A segment on a send queue carries a part
of it: the bytes from the position that its sequence number gives, and a FIN only at the end of the
stream. The output, the timers and the acknowledgements only move segments or take them off the
queues (`Requeued`); `tcp_enqueue` puts the next bytes of the stream behind `snd_lbb`, glued to the
last segment or not. So in every run the queues hold parts of what was accepted
(`connStep_content`).
-/

namespace Lwip.Tcp

/-- What of a segment goes over the wire besides its acknowledgement. -/
structure Payload where
  seqno : Serial
  p : List UInt8
  fin : Bool
  deriving DecidableEq

/-- The payload of a queued segment. -/
def Seg.payload (s : Seg) : Payload := ⟨s.seqno, s.p, s.flags.fin⟩

/-- The payload is a part of the stream `S`, whose first byte has the sequence number `r₀`. -/
structure Payload.Of (S : List UInt8) (r₀ : Serial) (k : Payload) : Prop where
  end_le : Serial.dist r₀ k.seqno + k.p.length ≤ S.length
  bytes : k.p = (S.drop (Serial.dist r₀ k.seqno)).take k.p.length
  fin : k.fin = true → Serial.dist r₀ k.seqno + k.p.length = S.length

/-- The segment carries a part of the stream, and occupies the sequence numbers of just this
part. -/
structure Seg.Carries (S : List UInt8) (r₀ : Serial) (s : Seg) : Prop where
  part : s.payload.Of S r₀
  tcplen : s.tcplen = s.p.length + if s.flags.fin then 1 else 0

/-- The queues of the pcb hold parts of the stream `S`, which ends at `snd_lbb`. -/
structure Content (S : List UInt8) (r₀ : Serial) (pcb : TcpPcb) : Prop where
  segs : ∀ s ∈ pcb.unacked ++ pcb.unsent, s.Carries S r₀
  fins : pcb.flags.fin = false → ∀ s ∈ pcb.unacked ++ pcb.unsent, s.flags.fin = false
  lbb : pcb.snd_lbb = r₀.adv (S.length + if pcb.flags.fin then 1 else 0)

/-! ## Segments that are moved or freed -/

/-- The queues of `b` hold segments of those of `a` only, and nothing is enqueued. -/
structure Requeued (a b : TcpPcb) : Prop where
  segs : ∀ s ∈ b.unacked ++ b.unsent, ∃ x ∈ a.unacked ++ a.unsent, x.key = s.key
  lbb : b.snd_lbb = a.snd_lbb
  fin : b.flags.fin = a.flags.fin

section Requeued

variable {S : List UInt8} {r₀ : Serial} {a b c : TcpPcb}

/-- Fewer segments with the same numbers are requeued ones. -/
theorem Requeued.of_subset (h : b.unacked ++ b.unsent ⊆ a.unacked ++ a.unsent)
    (hl : b.snd_lbb = a.snd_lbb) (hf : b.flags.fin = a.flags.fin) : Requeued a b :=
  ⟨fun s hs => ⟨s, h hs, rfl⟩, hl, hf⟩

/-- The queues as they are. -/
theorem Requeued.refl (a : TcpPcb) : Requeued a a := .of_subset (List.Subset.refl _) rfl rfl

/-- Segments can be moved twice. -/
theorem Requeued.trans (h : Requeued a b) (h' : Requeued b c) : Requeued a c where
  segs s hs := by
    obtain ⟨x, hx, hxs⟩ := h'.segs s hs
    obtain ⟨y, hy, hyx⟩ := h.segs x hx
    exact ⟨y, hy, hyx.trans hxs⟩
  lbb := h'.lbb.trans h.lbb
  fin := h'.fin.trans h.fin

/-- The same send fields have the same segments. -/
theorem SameSnd.requeued (h : SameSnd a b) : Requeued a b :=
  .of_subset (by rw [h.unacked, h.unsent]; exact List.Subset.refl _) h.snd_lbb h.fin

/-- A FIN that moves does not move segments. -/
theorem FinMoved.requeued (h : FinMoved a b) : Requeued a b :=
  .of_subset (by rw [h.same.unacked, h.same.unsent]; exact List.Subset.refl _)
    h.same.snd_lbb h.same.fin

/-- What a segment carries depends on its key only. -/
theorem Seg.Carries.of_key {s x : Seg} (h : x.Carries S r₀) (hk : x.key = s.key) :
    s.Carries S r₀ := by
  simp only [Seg.key, Prod.mk.injEq] at hk
  obtain ⟨hseq, hp, -, htcplen, hfin⟩ := hk
  have hpay : s.payload = x.payload := by
    unfold Seg.payload
    rw [hseq, hp, hfin]
  exact ⟨hpay ▸ h.part, by rw [← htcplen, h.tcplen, hp, hfin]⟩

/-- Moved segments carry what they carried. -/
theorem Content.requeued (h : Content S r₀ a) (hab : Requeued a b) : Content S r₀ b where
  segs s hs := by
    obtain ⟨x, hx, hk⟩ := hab.segs s hs
    exact (h.segs x hx).of_key hk
  fins hf s hs := by
    obtain ⟨x, hx, hk⟩ := hab.segs s hs
    have hxf := h.fins (hab.fin.symm.trans hf) x hx
    simp only [Seg.key, Prod.mk.injEq] at hk
    rw [← hk.2.2.2.2, hxf]
  lbb := by rw [hab.lbb, hab.fin, h.lbb]

end Requeued

section Moves

variable {o : Opts} {ticks : BitVec 32} {input alloc : Bool} {pcb pcb' : TcpPcb} {out : List Sent}
  {i : In}

/-- A segment that is sent moves to `unacked`. -/
theorem tcpOutputOne_requeued {seg : Seg} {rest : List Seg} (hq : pcb.unsent = seg :: rest) :
    Requeued pcb (tcpOutputOne ticks pcb seg rest).1 := by
  set sent : Seg := { seg with flags := { seg.flags with
    ack := seg.flags.ack || !decide (pcb.state = .SYN_SENT) } } with hsent
  have hun : (tcpOutputOne ticks pcb seg rest).1.unacked =
      if sent.tcplen > 0 then unackedInsert pcb.unacked sent else pcb.unacked := rfl
  have hrest : (tcpOutputOne ticks pcb seg rest).1.unsent = rest := rfl
  refine ⟨fun s hs => ?_, rfl, ?_⟩
  · rw [hrest, List.mem_append] at hs
    rw [hq]
    rcases hs with hs | hs
    · -- A segment without sequence numbers is freed when it is sent.
      have hmem : s = sent ∨ s ∈ pcb.unacked := by
        rw [hun] at hs
        split at hs
        · exact List.mem_cons.mp ((unackedInsert_perm _ _).mem_iff.mp hs)
        · exact .inr hs
      rcases hmem with rfl | hs
      · exact ⟨seg, List.mem_append_right _ List.mem_cons_self, rfl⟩
      · exact ⟨s, List.mem_append_left _ hs, rfl⟩
    · exact ⟨s, List.mem_append_right _ (List.mem_cons_of_mem _ hs), rfl⟩
  · show (tcpOutputOne ticks pcb seg rest).1.flags.fin = pcb.flags.fin
    unfold tcpOutputOne tcpOutputSegment
    dsimp only
    split <;> rfl

/-- The loop of `tcp_output` only moves segments. -/
theorem tcpOutputLoop_requeued {wnd : ℕ} {q : List Seg} {out' : List Sent} (hq : pcb.unsent = q)
    (h : tcpOutputLoop ticks wnd q pcb out = .ok (pcb', out')) : Requeued pcb pcb' := by
  obtain ⟨rest, -, hp⟩ := tcpOutputLoop_rule
    (P := fun q p _ => p.unsent = q ∧ Requeued pcb p) h ⟨hq, .refl _⟩
    fun seg rest p _ hp _ => ⟨rfl, hp.2.trans (tcpOutputOne_requeued hp.1)⟩
  exact hp

/-- `tcp_output` only moves segments. -/
theorem tcpOutput_requeued (h : tcpOutput ticks alloc pcb = .ok (pcb', out)) :
    Requeued pcb pcb' := by
  exact tcpOutput_rule (P := fun p _ => Requeued pcb p) h
    (tcpSendEmptyAck_sameSnd alloc pcb).requeued
    fun {p _} hl => (tcpOutputLoop_requeued rfl hl).trans (tcpOutputPersist_sameSnd p).requeued

/-- The same with the test of the first lines. -/
theorem tcpOutputUnlessInput_requeued
    (h : tcpOutputUnlessInput input ticks alloc pcb = .ok (pcb', out)) : Requeued pcb pcb' := by
  exact tcpOutputUnlessInput_rule (P := fun p _ => Requeued pcb p) h (.refl _) tcpOutput_requeued

/-- `tcp_ack_now` only moves segments. -/
theorem tcpAckNow_requeued (h : tcpAckNow input ticks alloc pcb = .ok (pcb', out)) :
    Requeued pcb pcb' := by
  have hs : Requeued pcb { pcb with flags := { pcb.flags with ack_now := true } } :=
    .of_subset (List.Subset.refl _) rfl rfl
  exact hs.trans (tcpOutputUnlessInput_requeued h)

/-- `tcp_recved` only moves segments. -/
theorem tcpRecved_requeued {len : ℕ} (h : tcpRecved o input ticks alloc pcb len = .ok (pcb', out)) :
    Requeued pcb pcb' := by
  obtain ⟨w, h⟩ := tcpRecved_cases h
  have hw : Requeued pcb { pcb with rcv_wnd := w } := .of_subset (List.Subset.refl _) rfl rfl
  have hs := hw.trans (tcpUpdateRcvAnnWnd_sameSnd o _).requeued
  obtain h | ⟨rfl, -⟩ := h
  · exact hs.trans (tcpAckNow_requeued h)
  · exact hs

/-- The queue that `tcp_rexmit` puts a segment into holds nothing else that is new. -/
theorem mem_insertBefore {lt : Seg → Bool} {seg s : Seg} {q : List Seg}
    (h : s ∈ q.takeWhile lt ++ seg :: q.dropWhile lt) : s = seg ∨ s ∈ q := by
  rcases List.mem_append.mp h with h | h
  · exact .inr ((List.takeWhile_sublist _).subset h)
  · rcases List.mem_cons.mp h with rfl | h
    · exact .inl rfl
    · exact .inr ((List.dropWhile_sublist _).subset h)

/-- `tcp_rexmit` only moves a segment. -/
theorem tcpRexmit_requeued (pcb : TcpPcb) : Requeued pcb (tcpRexmit pcb) := by
  unfold tcpRexmit
  split
  · exact .refl _
  · next seg rest hq =>
    refine .of_subset (fun s hs => ?_) rfl rfl
    rw [hq]
    rcases List.mem_append.mp hs with hs | hs
    · exact List.mem_append_left _ (List.mem_cons_of_mem _ hs)
    · rcases mem_insertBefore hs with rfl | hs
      · exact List.mem_append_left _ List.mem_cons_self
      · exact List.mem_append_right _ hs

/-- A fast retransmission only moves a segment. -/
theorem tcpRexmitFast_requeued (pcb : TcpPcb) : Requeued pcb (tcpRexmitFast pcb) := by
  unfold tcpRexmitFast
  split
  · exact (tcpRexmit_requeued pcb).trans (.of_subset (List.Subset.refl _) rfl rfl)
  · exact .refl _

/-- `tcp_rexmit_rto` only moves segments. -/
theorem tcpRexmitRto_requeued (h : tcpRexmitRto ticks alloc pcb = .ok (pcb', out)) :
    Requeued pcb pcb' := by
  unfold tcpRexmitRto at h
  split at h
  · cases h
    exact .refl _
  · have hmove : Requeued pcb { pcb with
        unsent := pcb.unacked ++ pcb.unsent, unacked := [],
        nrtx := (pcb.nrtx + 1) % 2^8, rttest := 0 } :=
      .of_subset (List.Subset.refl _) rfl rfl
    exact hmove.trans (tcpOutput_requeued h)

/-- An acknowledgement frees segments, and may move one. -/
theorem tcpReceiveAckno_requeued {e : Serial} (h : tcpReceiveAckno e pcb i = .ok pcb') :
    Requeued pcb pcb' := by
  unfold tcpReceiveAckno at h
  split at h
  · cases h
    unfold tcpReceiveOldAck
    split
    · have hdup : Requeued pcb { pcb with acked := 0, dupacks := (pcb.dupacks + 1) % 2^8 } :=
        .of_subset (List.Subset.refl _) rfl rfl
      refine hdup.trans ?_
      unfold tcpReceiveDupAck
      split
      · exact .of_subset (List.Subset.refl _) rfl rfl
      · split
        · exact tcpRexmitFast_requeued _
        · exact .refl _
    · exact .of_subset (List.Subset.refl _) rfl rfl
  · split at h
    · have hn := tcpReceiveNewAck_newAcked h
      refine .of_subset (fun s hs => ?_) hn.snd_lbb hn.fin
      rw [hn.unacked, hn.unsent] at hs
      rcases List.mem_append.mp hs with hs | hs
      · exact List.mem_append_left _ ((List.dropWhile_sublist _).subset hs)
      · exact List.mem_append_right _ hs
    · cases h
      exact .of_subset (List.Subset.refl _) rfl rfl

/-- An acknowledgement moves segments or takes them off. -/
theorem tcpReceiveAck_requeued (h : tcpReceiveAck ticks pcb i = .ok pcb') : Requeued pcb pcb' := by
  unfold tcpReceiveAck at h
  obtain ⟨p, hp, h⟩ := bind_eq_ok.mp h
  obtain ⟨p', hu, h⟩ := bind_eq_ok.mp h
  cases h
  have hwnd : Requeued pcb (updateSndWnd pcb i) := by
    obtain ⟨w, wl1, wl2, pb, -, he⟩ := updateSndWnd_eq pcb i
    rw [he]
    exact .of_subset (List.Subset.refl _) rfl rfl
  have hunsent : Requeued p p' := by
    obtain ⟨ql, n, rfl⟩ := tcpReceiveUnsent_eq hu
    refine .of_subset (fun s hs => ?_) rfl rfl
    rcases List.mem_append.mp hs with hs | hs
    · exact List.mem_append_left _ hs
    · exact List.mem_append_right _ ((List.dropWhile_sublist _).subset hs)
  exact hwnd.trans ((tcpReceiveAckno_requeued hp).trans
    (hunsent.trans (estimateRtt_sameSnd ticks p' i).requeued))

/-- `tcp_receive` moves segments or takes them off. -/
theorem tcpReceive_requeued {m : RxAlloc} {rx : Rx} (h : tcpReceive o ticks m pcb i = .ok rx) :
    Requeued pcb rx.pcb := by
  obtain ⟨p, ⟨-, hp⟩ | ⟨-, rfl⟩, hd⟩ := tcpReceive_eq_ok h
  · exact (tcpReceiveAck_requeued hp).trans (tcpReceiveData_finMoved hd).requeued
  · exact (tcpReceiveData_finMoved hd).requeued

/-- A purge takes all segments off. -/
theorem tcpPcbPurge_requeued (pcb : TcpPcb) : Requeued pcb (tcpPcbPurge pcb) := by
  unfold tcpPcbPurge
  split
  · exact .refl _
  · exact .refl _
  · exact .refl _
  · exact .of_subset (List.nil_subset _) rfl rfl

/-- A retransmission only moves segments. -/
theorem slowtmrRexmit_requeued {e : TickEnv} (h : slowtmrRexmit o ticks e pcb = .ok (pcb', out)) :
    Requeued pcb pcb' := by
  unfold slowtmrRexmit at h
  split at h
  · cases h
    exact .refl _
  split at h
  · have hp := slowtmrPersist_sameSnd e pcb
    rw [Except.ok.inj h] at hp
    exact hp.requeued
  · dsimp only at h
    split at h
    · obtain ⟨p, hp, hrto⟩ := slowtmrRto_eq h
      have hs : Requeued pcb p := .of_subset
        (by rw [hp.unacked, hp.unsent]; exact List.Subset.refl _) hp.snd_lbb hp.fin
      exact hs.trans (tcpRexmitRto_requeued hrto)
    · cases h
      exact .of_subset (List.Subset.refl _) rfl rfl

end Moves

/-! ## Segments that are enqueued -/

section Enqueue

variable {S d : List UInt8} {r₀ : Serial} {o : Opts} {ticks : BitVec 32} {input : Bool}
  {alloc : ℕ → Bool} {pcb pcb' : TcpPcb} {out : List Sent} {copy more : Bool}

/-- A stream that grows keeps the parts that are not its end. -/
theorem Seg.Carries.append {s : Seg} (h : s.Carries S r₀) (hf : s.flags.fin = false)
    (d : List UInt8) : s.Carries (S ++ d) r₀ where
  part := by
    have hend := h.part.end_le
    refine ⟨by rw [List.length_append]; omega, ?_, fun hfin => ?_⟩
    · have hdrop : (S.drop (Serial.dist r₀ s.payload.seqno)).length ≥ s.payload.p.length := by
        rw [List.length_drop]
        omega
      calc s.payload.p
          = (S.drop (Serial.dist r₀ s.payload.seqno)).take s.payload.p.length := h.part.bytes
        _ = (S.drop (Serial.dist r₀ s.payload.seqno) ++ d).take s.payload.p.length :=
          (List.take_append_of_le_length hdrop).symm
        _ = ((S ++ d).drop (Serial.dist r₀ s.payload.seqno)).take s.payload.p.length := by
          rw [List.drop_append_of_le_length (by omega)]
    · rw [Seg.payload, hf] at hfin
      cases hfin
  tcplen := h.tcplen

/-- Two parts that follow each other. -/
theorem Payload.Of.concat {k k' : Payload} (hS : S.length < 2^31) (h : k.Of S r₀) (h' : k'.Of S r₀)
    (hk : k.seqno.adv k.p.length = k'.seqno) :
    Payload.Of S r₀ ⟨k.seqno, k.p ++ k'.p, false⟩ := by
  have hend := h.end_le
  have hend' := h'.end_le
  have hdist : Serial.dist r₀ k'.seqno = Serial.dist r₀ k.seqno + k.p.length := by
    rw [← hk, Serial.dist_adv _ _ _ (by omega)]
  refine ⟨?_, ?_, fun hfin => by cases hfin⟩
  · dsimp only
    rw [List.length_append]
    omega
  · calc k.p ++ k'.p
      _ = (S.drop (Serial.dist r₀ k.seqno)).take k.p.length ++
          ((S.drop (Serial.dist r₀ k.seqno)).drop k.p.length).take k'.p.length := by
        rw [← h.bytes, List.drop_drop, ← hdist, ← h'.bytes]
      _ = _ := by
        rw [← List.take_add, List.length_append]

/-- The loop of `tcp_enqueue` makes segments of the stream from `k` on. -/
theorem tcpEnqueueLoop_carries {mss fuel left ql ql' k : ℕ} {queue res : List Seg}
    {ptr : List UInt8}
    {seqno : Serial} (hS : S.length < 2^31) (hseq : seqno = r₀.adv k) (hptr : S.drop k = ptr)
    (hoff : k + left = S.length) (hleft : left ≤ 0xffff)
    (h : tcpEnqueueLoop o mss 0 {} copy false fuel alloc queue ptr left seqno ql =
    some (res, ql')) : ∀ s ∈ res, s ∈ queue ∨ (s.Carries S r₀ ∧ s.flags = {}) := by
  induction fuel generalizing alloc queue ptr left seqno ql k with
  | zero => cases h
  | succ fuel ih =>
    generalize hn : (if (left : ℤ) > (mss : ℤ) - ((0 : ℕ) : ℤ) then u16sub mss 0 else left) = n
    have hle : n ≤ left := by
      rw [← hn]
      unfold u16sub
      split <;> omega
    have hrest : u16sub left n = left - n := u16sub_of_le hleft hle
    have hlen : ptr.length = left := by rw [← hptr, List.length_drop]; omega
    have hdist : Serial.dist r₀ seqno = k := by
      rw [hseq]
      exact Serial.dist_self_adv (by omega)
    -- The segment of this round.
    have hseg : ∀ clen,
        Seg.Carries S r₀ { seqno, len := n, flags := {}, p := ptr.take n, clen } := by
      intro clen
      have htake : (ptr.take n).length = n := by rw [List.length_take]; omega
      refine ⟨⟨?_, ?_, fun hfin => by cases hfin⟩, ?_⟩
      · show Serial.dist r₀ seqno + (ptr.take n).length ≤ S.length
        omega
      · show ptr.take n = (S.drop (Serial.dist r₀ seqno)).take (ptr.take n).length
        rw [hdist, hptr, htake]
      · show n + 0 = (ptr.take n).length + 0
        rw [htake]
    obtain ⟨clen, ⟨-, h⟩ | ⟨-, h⟩⟩ := tcpEnqueueLoop_cases hn h
    · rw [hrest] at h
      have hnext : S.drop (k + n) = ptr.drop n := by rw [← List.drop_drop, hptr]
      intro s hs
      rcases ih (k := k + n) (by rw [hseq, Serial.adv_adv]) hnext (by omega)
        (by omega) h s hs with hs | hs
      · rcases List.mem_append.mp hs with hs | hs
        · exact .inl hs
        · rw [List.mem_singleton.mp hs]
          exact .inr ⟨hseg clen, rfl⟩
      · exact .inr hs
    · intro s hs
      rw [show res = _ from congrArg Prod.fst h] at hs
      rcases List.mem_append.mp hs with hs | hs
      · exact .inl hs
      · rw [List.mem_singleton.mp hs]
        exact .inr ⟨hseg clen, rfl⟩

/-- What the test for gluing says of the last segment. -/
theorem canGlue_spec {flags : TcpFlags} {useg q : Seg} (h : canGlue pcb flags useg q = true)
    (hu : useg.Carries S r₀) : useg.flags.fin = false ∧ useg.len = useg.p.length ∧
      useg.flags.syn = false ∧ useg.seqno.adv useg.len = q.seqno := by
  unfold canGlue at h
  simp only [Bool.and_eq_true, decide_eq_true_eq, Bool.not_eq_true', Bool.or_eq_false_iff] at h
  obtain ⟨⟨⟨⟨⟨-, hsyn, hfin⟩, -⟩, -⟩, -⟩, hseq⟩ := h
  have hlen := hu.tcplen
  unfold Seg.tcplen at hlen
  rw [hfin, hsyn] at hlen
  exact ⟨hfin, hlen, hsyn, hseq⟩

/-- New data behind the queue, or in its last segment. -/
theorem tcpEnqueueAppend_carries {q : Seg} {qs unsent : List Seg} {ql ql' : ℕ}
    (hS : S.length < 2^31) (hold : ∀ s ∈ pcb.unsent, s.Carries S r₀ ∧ s.flags.fin = false)
    (hnew : ∀ s ∈ q :: qs, s.Carries S r₀ ∧ s.flags = {})
    (h : tcpEnqueueAppend pcb {} copy q qs ql = .ok (unsent, ql')) :
    ∀ s ∈ unsent, s.Carries S r₀ ∧ s.flags.fin = false := by
  have hnew' : ∀ s ∈ q :: qs, s.Carries S r₀ ∧ s.flags.fin = false := fun s hs =>
    ⟨(hnew s hs).1, by rw [(hnew s hs).2]⟩
  unfold tcpEnqueueAppend at h
  split at h
  · cases h
    exact hnew'
  · next useg hlast =>
    split at h
    · next hglue =>
      obtain ⟨init, hinit⟩ := List.getLast?_eq_some_iff.mp hlast
      obtain ⟨_, -, h⟩ := bind_eq_ok.mp h
      cases h
      rw [hinit] at hold
      obtain ⟨hu, -⟩ := hold useg (by simp)
      obtain ⟨hq, hqf⟩ := hnew q List.mem_cons_self
      obtain ⟨hfin, hlen, hsyn, hseq⟩ := canGlue_spec hglue hu
      rw [hinit, modifyLast_concat]
      intro s hs
      simp only [List.append_assoc, List.mem_append, List.mem_singleton] at hs
      rcases hs with hs | rfl | hs
      · exact hold s (List.mem_append_left _ hs)
      · -- The glued segment carries the two parts.
        have hqlen : q.len = q.p.length := by
          have := hq.tcplen
          unfold Seg.tcplen at this
          rw [hqf] at this
          exact this
        refine ⟨⟨?_, ?_⟩, hfin⟩
        · have hnext : useg.payload.seqno.adv useg.payload.p.length = q.payload.seqno := by
            show useg.seqno.adv useg.p.length = q.seqno
            rw [← hlen, hseq]
          have hcat := hu.part.concat hS hq.part hnext
          rw [Seg.payload] at hcat ⊢
          rw [hfin]
          exact hcat
        · unfold Seg.tcplen
          dsimp only
          rw [hfin, hsyn, hlen, hqlen, List.length_append]
          rfl
      · exact hnew' s (List.mem_cons_of_mem _ hs)
    · cases h
      intro s hs
      rcases List.mem_append.mp hs with hs | hs
      · exact hold s hs
      · exact hnew' s hs

/-- The flag `PSH` is no part of the payload. -/
theorem mem_modifyLast_psh {q : List Seg} {s : Seg}
    (h : s ∈ modifyLast (fun s => if decide (s.len > 0) && !more then s.setPsh else s) q) :
    ∃ x ∈ q, x.key = s.key := by
  obtain ⟨x, hx, rfl | rfl⟩ := mem_modifyLast h
  · exact ⟨s, hx, rfl⟩
  · refine ⟨x, hx, ?_⟩
    split <;> rfl

/-- Segments with the same key have the same FIN. -/
theorem fin_of_key {x s : Seg} (h : x.key = s.key) : s.flags.fin = x.flags.fin := by
  simp only [Seg.key, Prod.mk.injEq] at h
  exact h.2.2.2.2.symm

/-- Data are enqueued behind the stream. -/
theorem Content.enqueue {e : Err} (h : Content S r₀ pcb) (hfin : pcb.flags.fin = false)
    (hbuf : pcb.snd_buf ≤ 0xffff) (hS : (S ++ if e = .OK then d else []).length < 2^31)
    (hq : tcpEnqueue o alloc pcb d {} copy more false = .ok (e, pcb')) :
    Content (S ++ if e = .OK then d else []) r₀ pcb' := by
  rcases tcpEnqueue_cases hq with ⟨rfl, rfl⟩ | ⟨rfl, hle, q, qs, ql, unsent, ql', hloop, happ, rfl⟩
  · rw [if_neg (by decide), List.append_nil]
    exact ⟨h.segs, h.fins, h.lbb⟩
  · rw [if_pos rfl] at hS ⊢
    rw [List.length_append] at hS
    have hlbb : pcb.snd_lbb = r₀.adv S.length := by
      rw [h.lbb, hfin]
      rfl
    have hold : ∀ s ∈ pcb.unacked ++ pcb.unsent, s.Carries (S ++ d) r₀ ∧ s.flags.fin = false :=
      fun s hs => ⟨(h.segs s hs).append (h.fins hfin s hs) d, h.fins hfin s hs⟩
    have hnew : ∀ s ∈ q :: qs, s.Carries (S ++ d) r₀ ∧ s.flags = {} := by
      intro s hs
      have hin := tcpEnqueueLoop_carries (S := S ++ d) (k := S.length)
        (by rw [List.length_append]; exact hS) hlbb List.drop_left
        (by rw [List.length_append]) (by omega) hloop s hs
      exact hin.resolve_left List.not_mem_nil
    have hall := tcpEnqueueAppend_carries (by rw [List.length_append]; exact hS)
      (fun s hs => hold s (List.mem_append_right _ hs)) hnew happ
    have hboth : ∀ s ∈ pcb.unacked ++ modifyLast
          (fun s => if decide (s.len > 0) && !more then s.setPsh else s) unsent,
        s.Carries (S ++ d) r₀ ∧ s.flags.fin = false := by
      intro s hs
      rcases List.mem_append.mp hs with hs | hs
      · exact hold s (List.mem_append_left _ hs)
      · obtain ⟨x, hx, hk⟩ := mem_modifyLast_psh hs
        exact ⟨(hall x hx).1.of_key hk, (fin_of_key hk).trans (hall x hx).2⟩
    refine ⟨fun s hs => (hboth s hs).1, fun _ s hs => (hboth s hs).2, ?_⟩
    show pcb.snd_lbb.adv (d.length) =
      r₀.adv ((S ++ d).length + if (pcb.flags.fin || false) = true then 1 else 0)
    rw [hlbb, hfin, Serial.adv_adv, List.length_append]
    rfl

/-- `tcp_write` on a connection that is not closed. -/
theorem Content.write {e : Err} (h : Content S r₀ pcb)
    (hs : Snd (fun _ => True) pcb ∨ pcb.state = .TIME_WAIT)
    (hS : (S ++ if e = .OK then d else []).length < 2^31)
    (hw : tcpWrite o alloc pcb d copy more = .ok (e, pcb')) :
    Content (S ++ if e = .OK then d else []) r₀ pcb' := by
  -- The states before `ESTABLISHED` are not reached.
  have hlive : pcb.state.geEstablished = true := by
    rcases hs with ⟨base, t, ht, -⟩ | hs
    · exact ht.live
    · rw [hs]
      rfl
  obtain ⟨rfl, rfl⟩ | ⟨hst, ⟨rfl, rfl, rfl⟩ | ⟨hpos, hw⟩⟩ := tcpWrite_cases hw
  · rw [if_neg (by decide), List.append_nil]
    exact h
  · rw [if_pos rfl, List.append_nil]
    exact h
  have hopen : pcb.state = .ESTABLISHED ∨ pcb.state = .CLOSE_WAIT := by
    obtain hst | hst | hst | hst := hst
    · exact .inl hst
    · exact .inr hst
    · rw [hst] at hlive
      cases hlive
    · rw [hst] at hlive
      cases hlive
  obtain ⟨base, t, ht, -⟩ : Snd (fun _ => True) pcb := by
    refine hs.resolve_right fun htw => ?_
    rw [htw] at hopen
    rcases hopen with hst | hst <;> cases hst
  have hfin := ht.writable hopen
  have hroom := ht.room hfin
  exact h.enqueue hfin (by omega) hS hw

/-- The FIN is the end of the stream. -/
theorem Content.fin {e : Err} (h : Content S r₀ pcb) (hfin : pcb.flags.fin = false)
    (hS : S.length < 2^31)
    (hq : tcpSendCtrl o alloc pcb { fin := true } = .ok (e, pcb')) : Content S r₀ pcb' := by
  rcases tcpEnqueue_cases hq with ⟨rfl, rfl⟩ | ⟨-, -, q, qs, ql, unsent, ql', hloop, happ, rfl⟩
  · exact ⟨h.segs, h.fins, h.lbb⟩
  have hlbb : pcb.snd_lbb = r₀.adv S.length := by
    rw [h.lbb, hfin]
    rfl
  have hdist : Serial.dist r₀ pcb.snd_lbb = S.length := by
    rw [hlbb]
    exact Serial.dist_self_adv (by omega)
  -- The loop makes one segment, of the FIN alone.
  obtain ⟨clen, rfl, rfl⟩ : ∃ clen, qs = [] ∧
      q = { seqno := pcb.snd_lbb, len := 0, flags := { fin := true }, p := [], clen } := by
    obtain ⟨clen, ⟨hmore, -⟩ | ⟨-, hres⟩⟩ :=
      tcpEnqueueLoop_cases (n := 0) (by rw [if_neg (by simp)]; rfl) hloop
    · cases hmore
    · cases hres
      exact ⟨clen, rfl, rfl⟩
  have hnew : ∀ s ∈ unsent, s.Carries S r₀ := by
    unfold tcpEnqueueAppend at happ
    split at happ
    · cases happ
      intro s hs
      rw [List.mem_singleton.mp hs]
      exact ⟨⟨hdist.le, rfl, fun _ => hdist⟩, rfl⟩
    · next useg hlast =>
      split at happ
      · next hglue =>
        obtain ⟨init, hinit⟩ := List.getLast?_eq_some_iff.mp hlast
        obtain ⟨_, -, happ⟩ := bind_eq_ok.mp happ
        cases happ
        have hu : useg.Carries S r₀ := h.segs useg (by rw [hinit]; simp)
        obtain ⟨hf, hlen, hsyn, hseq⟩ := canGlue_spec hglue hu
        have hend := hu.part.end_le
        rw [hinit, modifyLast_concat]
        intro s hs
        rcases List.mem_append.mp hs with hs | hs
        · exact h.segs s (by rw [hinit]; simp [hs])
        · rw [List.mem_singleton.mp hs]
          refine ⟨⟨hu.part.end_le, hu.part.bytes, fun _ => ?_⟩, ?_⟩
          · show Serial.dist r₀ useg.seqno + useg.p.length = S.length
            have hpos := Serial.dist_adv r₀ useg.seqno useg.len
              (by rw [hlen]; exact lt_of_le_of_lt hend (by omega))
            rw [← hlen, ← hpos, hseq, hdist]
          · unfold Seg.tcplen Seg.setFin
            dsimp only
            rw [hlen]
            rfl
      · cases happ
        intro s hs
        rcases List.mem_append.mp hs with hs | hs
        · exact h.segs s (List.mem_append_right _ hs)
        · rw [List.mem_singleton.mp hs]
          exact ⟨⟨hdist.le, rfl, fun _ => hdist⟩, rfl⟩
  refine ⟨fun s hs => ?_, fun hf => ?_, ?_⟩
  · rcases List.mem_append.mp hs with hs | hs
    · exact h.segs s (List.mem_append_left _ hs)
    · obtain ⟨x, hx, hk⟩ := mem_modifyLast_psh hs
      exact (hnew x hx).of_key hk
  · change (pcb.flags.fin || true) = false at hf
    rw [Bool.or_true] at hf
    cases hf
  · show pcb.snd_lbb.adv (0 + 1) =
      r₀.adv (S.length + if (pcb.flags.fin || true) = true then 1 else 0)
    rw [hlbb, Serial.adv_adv, Bool.or_true]
    rfl

end Enqueue

end Lwip.Tcp
