import Lwip.Tcp.Receive

/-!
# What the sender's functions leave alone

The receiver's fields of a pcb are changed by the data half of `tcp_receive` and by `tcp_recved`.
Everything else leaves them alone (`SameRcv`), except that sending a segment stamps the announced
window on it and records its right edge (`Stamped`). The invariants of the receiver need no more of
the sender than these two relations.
-/

namespace Lwip.Tcp

/-- The fields of the receiver, which the sender's functions do not touch. -/
structure SameRcv (a b : TcpPcb) : Prop where
  rcv_nxt : b.rcv_nxt = a.rcv_nxt
  rcv_wnd : b.rcv_wnd = a.rcv_wnd
  rcv_ann_wnd : b.rcv_ann_wnd = a.rcv_ann_wnd
  rcv_ann_right_edge : b.rcv_ann_right_edge = a.rcv_ann_right_edge
  ooseq : b.ooseq = a.ooseq
  mss : b.mss = a.mss

/-- The receive fields of a pcb are its own. -/
theorem SameRcv.refl (a : TcpPcb) : SameRcv a a := ⟨rfl, rfl, rfl, rfl, rfl, rfl⟩

/-- The same receive fields in two steps. -/
theorem SameRcv.trans {a b c : TcpPcb} (h : SameRcv a b) (h' : SameRcv b c) : SameRcv a c :=
  ⟨h'.rcv_nxt.trans h.rcv_nxt, h'.rcv_wnd.trans h.rcv_wnd, h'.rcv_ann_wnd.trans h.rcv_ann_wnd,
    h'.rcv_ann_right_edge.trans h.rcv_ann_right_edge, h'.ooseq.trans h.ooseq, h'.mss.trans h.mss⟩

/-- The peer's window is no receive field. -/
theorem updateSndWnd_sameRcv (pcb : TcpPcb) (i : In) : SameRcv pcb (updateSndWnd pcb i) := by
  unfold updateSndWnd
  split <;> exact ⟨rfl, rfl, rfl, rfl, rfl, rfl⟩

/-- A retransmission changes no receive field. -/
theorem tcpRexmit_sameRcv (pcb : TcpPcb) : SameRcv pcb (tcpRexmit pcb) := by
  unfold tcpRexmit
  split <;> exact ⟨rfl, rfl, rfl, rfl, rfl, rfl⟩

/-- A fast retransmission changes no receive field. -/
theorem tcpRexmitFast_sameRcv (pcb : TcpPcb) : SameRcv pcb (tcpRexmitFast pcb) := by
  unfold tcpRexmitFast
  split
  · have h := tcpRexmit_sameRcv pcb
    exact ⟨h.rcv_nxt, h.rcv_wnd, h.rcv_ann_wnd, h.rcv_ann_right_edge, h.ooseq, h.mss⟩
  · exact .refl pcb

/-- An ACK of nothing new changes no receive field. -/
theorem tcpReceiveOldAck_sameRcv (e : Serial) (pcb : TcpPcb) (i : In) :
    SameRcv pcb (tcpReceiveOldAck e pcb i) := by
  unfold tcpReceiveOldAck tcpReceiveDupAck
  split
  · split
    · exact ⟨rfl, rfl, rfl, rfl, rfl, rfl⟩
    · split
      · exact SameRcv.trans (b := { pcb with acked := 0, dupacks := (pcb.dupacks + 1) % 2^8 })
          ⟨rfl, rfl, rfl, rfl, rfl, rfl⟩ (tcpRexmitFast_sameRcv _)
      · exact ⟨rfl, rfl, rfl, rfl, rfl, rfl⟩
  · exact ⟨rfl, rfl, rfl, rfl, rfl, rfl⟩

/-- An ACK of new data changes no receive field. -/
theorem tcpReceiveNewAck_sameRcv {pcb pcb' : TcpPcb} {i : In}
    (h : tcpReceiveNewAck pcb i = .ok pcb') : SameRcv pcb pcb' := by
  unfold tcpReceiveNewAck at h
  obtain ⟨cwnd, -, h⟩ := bind_eq_ok.mp h
  obtain ⟨r, -, h⟩ := bind_eq_ok.mp h
  cases h
  exact ⟨rfl, rfl, rfl, rfl, rfl, rfl⟩

/-- The second loop of `tcp_receive` changes no receive field. -/
theorem tcpReceiveUnsent_sameRcv {pcb pcb' : TcpPcb} {i : In}
    (h : tcpReceiveUnsent pcb i = .ok pcb') : SameRcv pcb pcb' := by
  unfold tcpReceiveUnsent at h
  obtain ⟨r, -, h⟩ := bind_eq_ok.mp h
  cases h
  exact ⟨rfl, rfl, rfl, rfl, rfl, rfl⟩

/-- The estimate of the round trip changes no receive field. -/
theorem estimateRtt_sameRcv (ticks : BitVec 32) (pcb : TcpPcb) (i : In) :
    SameRcv pcb (estimateRtt ticks pcb i) := by
  unfold estimateRtt
  split <;> exact ⟨rfl, rfl, rfl, rfl, rfl, rfl⟩

/-- An acknowledgement changes nothing of the receiver. -/
theorem tcpReceiveAck_sameRcv {ticks : BitVec 32} {pcb pcb' : TcpPcb} {i : In}
    (h : tcpReceiveAck ticks pcb i = .ok pcb') : SameRcv pcb pcb' := by
  unfold tcpReceiveAck at h
  obtain ⟨p, hp, h⟩ := bind_eq_ok.mp h
  obtain ⟨q, hq, h⟩ := bind_eq_ok.mp h
  cases h
  have hp' : SameRcv (updateSndWnd pcb i) p := by
    unfold tcpReceiveAckno at hp
    split at hp
    · cases hp; exact tcpReceiveOldAck_sameRcv _ _ _
    · split at hp
      · exact tcpReceiveNewAck_sameRcv hp
      · cases hp; exact ⟨rfl, rfl, rfl, rfl, rfl, rfl⟩
  exact (updateSndWnd_sameRcv pcb i).trans
    (hp'.trans ((tcpReceiveUnsent_sameRcv hq).trans (estimateRtt_sameRcv _ _ _)))


/-! ## Sending -/

/-- `b` is `a` after it sent the segments `out`: each carries `rcv_nxt` and `rcv_ann_wnd`, and the
announced right edge is that of the last one. -/
structure Stamped (a b : TcpPcb) (out : List Sent) : Prop where
  rcv_nxt : b.rcv_nxt = a.rcv_nxt
  rcv_wnd : b.rcv_wnd = a.rcv_wnd
  rcv_ann_wnd : b.rcv_ann_wnd = a.rcv_ann_wnd
  ooseq : b.ooseq = a.ooseq
  mss : b.mss = a.mss
  stamp : ∀ s ∈ out, s.ackno = a.rcv_nxt ∧ s.wnd = a.rcv_ann_wnd
  edge : b.rcv_ann_right_edge =
    if out = [] then a.rcv_ann_right_edge else a.rcv_nxt.adv a.rcv_ann_wnd

/-- Where nothing is sent no edge is recorded. -/
theorem SameRcv.stamped {a b : TcpPcb} (h : SameRcv a b) : Stamped a b [] :=
  ⟨h.rcv_nxt, h.rcv_wnd, h.rcv_ann_wnd, h.ooseq, h.mss, by simp, h.rcv_ann_right_edge⟩

/-- The segments of two steps are stamped one after the other. -/
theorem Stamped.trans {a b c : TcpPcb} {out out' : List Sent} (h : Stamped a b out)
    (h' : Stamped b c out') : Stamped a c (out ++ out') where
  rcv_nxt := h'.rcv_nxt.trans h.rcv_nxt
  rcv_wnd := h'.rcv_wnd.trans h.rcv_wnd
  rcv_ann_wnd := h'.rcv_ann_wnd.trans h.rcv_ann_wnd
  ooseq := h'.ooseq.trans h.ooseq
  mss := h'.mss.trans h.mss
  stamp s hs := by
    rcases List.mem_append.mp hs with hs | hs
    · exact h.stamp s hs
    · rw [← h.rcv_nxt, ← h.rcv_ann_wnd]
      exact h'.stamp s hs
  edge := by
    rw [h'.edge, h.edge, h.rcv_nxt, h.rcv_ann_wnd]
    by_cases ho' : out' = []
    · simp [ho']
    · simp [ho']

/-- An empty ACK is stamped. -/
theorem tcpSendEmptyAck_stamped (alloc : Bool) (pcb : TcpPcb) :
    Stamped pcb (tcpSendEmptyAck alloc pcb).1 (tcpSendEmptyAck alloc pcb).2 := by
  unfold tcpSendEmptyAck
  cases alloc with
  | false => exact (SameRcv.refl pcb).stamped
  | true => exact ⟨rfl, rfl, rfl, rfl, rfl, by simp [tcpOutputSetHeader], rfl⟩

/-- A keepalive is stamped. -/
theorem tcpKeepalive_stamped (alloc : Bool) (pcb : TcpPcb) :
    Stamped pcb (tcpKeepalive alloc pcb).1 (tcpKeepalive alloc pcb).2 := by
  unfold tcpKeepalive
  cases alloc with
  | false => exact (SameRcv.refl pcb).stamped
  | true => exact ⟨rfl, rfl, rfl, rfl, rfl, by simp [tcpOutputSetHeader], rfl⟩

/-- A zero window probe is stamped. -/
theorem tcpZeroWindowProbe_stamped (alloc : Bool) (pcb : TcpPcb) :
    Stamped pcb (tcpZeroWindowProbe alloc pcb).1 (tcpZeroWindowProbe alloc pcb).2 := by
  unfold tcpZeroWindowProbe
  split
  · exact (SameRcv.refl pcb).stamped
  · cases alloc with
    | false => exact (SameRcv.refl pcb).stamped
    | true => exact ⟨rfl, rfl, rfl, rfl, rfl, by simp [tcpOutputSetHeader], rfl⟩

/-- A segment of the queue is stamped when it is sent. -/
theorem tcpOutputOne_stamped (ticks : BitVec 32) (pcb : TcpPcb) (seg : Seg) (rest : List Seg) :
    Stamped pcb (tcpOutputOne ticks pcb seg rest).1 [(tcpOutputOne ticks pcb seg rest).2] := by
  exact ⟨rfl, rfl, rfl, rfl, rfl, by simp [tcpOutputOne, tcpOutputSegment], rfl⟩

/-- The loop of `tcp_output` stamps every segment that it adds to those already sent. -/
theorem tcpOutputLoop_stamped {ticks : BitVec 32} {wnd : ℕ} {q : List Seg} {pcb pcb' : TcpPcb}
    {out out' : List Sent} (h : tcpOutputLoop ticks wnd q pcb out = .ok (pcb', out')) :
    ∃ new, out' = out ++ new ∧ Stamped pcb pcb' new := by
  induction q generalizing pcb out with
  | nil => cases h; exact ⟨[], by simp, (SameRcv.refl _).stamped⟩
  | cons seg rest ih =>
    unfold tcpOutputLoop at h
    have hstay : ∀ {x : TcpPcb × List Sent}, Except.ok (ε := Abort) (pcb, out) = .ok x →
        x = (pcb', out') → ∃ new, out' = out ++ new ∧ Stamped pcb pcb' new := by
      rintro x h rfl
      cases h
      exact ⟨[], by simp, (SameRcv.refl _).stamped⟩
    split at h
    · split at h
      · cases h
      · split at h
        · exact hstay h rfl
        · obtain ⟨new, rfl, hn⟩ := ih h
          exact ⟨[(tcpOutputOne ticks pcb seg rest).2] ++ new, by simp,
            (tcpOutputOne_stamped ticks pcb seg rest).trans hn⟩
    · exact hstay h rfl

/-- The persist timer changes no receive field. -/
theorem tcpOutputPersist_sameRcv (pcb : TcpPcb) : SameRcv pcb (tcpOutputPersist pcb) :=
  ⟨rfl, rfl, rfl, rfl, rfl, rfl⟩

/-- `tcp_output` stamps what it sends, and changes nothing else of the receiver. -/
theorem tcpOutput_stamped {ticks : BitVec 32} {alloc : Bool} {pcb pcb' : TcpPcb}
    {out : List Sent} (h : tcpOutput ticks alloc pcb = .ok (pcb', out)) : Stamped pcb pcb' out := by
  unfold tcpOutput at h
  dsimp only at h
  split at h
  · have heq : tcpSendEmptyAck alloc pcb = (pcb', out) := Except.ok.inj h
    simpa [heq] using tcpSendEmptyAck_stamped alloc pcb
  · obtain ⟨⟨p, out'⟩, hl, h⟩ := bind_eq_ok.mp h
    cases h
    obtain ⟨new, rfl, hn⟩ := tcpOutputLoop_stamped hl
    simpa using hn.trans (tcpOutputPersist_sameRcv p).stamped

/-- The segments of `tcp_output` are stamped, with the test of its first lines too. -/
theorem tcpOutputUnlessInput_stamped {input : Bool} {ticks : BitVec 32} {alloc : Bool}
    {pcb pcb' : TcpPcb} {out : List Sent}
    (h : tcpOutputUnlessInput input ticks alloc pcb = .ok (pcb', out)) : Stamped pcb pcb' out := by
  unfold tcpOutputUnlessInput at h
  split at h
  · cases h; exact (SameRcv.refl _).stamped
  · exact tcpOutput_stamped h

/-- The segments of `tcp_ack_now` are stamped. -/
theorem tcpAckNow_stamped {input : Bool} {ticks : BitVec 32} {alloc : Bool} {pcb pcb' : TcpPcb}
    {out : List Sent} (h : tcpAckNow input ticks alloc pcb = .ok (pcb', out)) :
    Stamped pcb pcb' out := by
  have hs : SameRcv pcb { pcb with flags := { pcb.flags with ack_now := true } } :=
    ⟨rfl, rfl, rfl, rfl, rfl, rfl⟩
  simpa using hs.stamped.trans (tcpOutputUnlessInput_stamped h)

/-- What `tcp_enqueue` can leave: the pcb with the memory error noted, or the new segments
enqueued. -/
theorem tcpEnqueue_cases {o : Opts} {alloc : ℕ → Bool} {pcb pcb' : TcpPcb} {arg : List UInt8}
    {flags : TcpFlags} {copy more optMss : Bool} {e : Err}
    (h : tcpEnqueue o alloc pcb arg flags copy more optMss = .ok (e, pcb')) :
    (e = .MEM ∧ pcb' = tcpMemErr pcb) ∨
      (e = .OK ∧ arg.length ≤ pcb.snd_buf ∧
        ∃ q qs queuelen unsent queuelen',
          tcpEnqueueLoop o pcb.mss (if optMss then 4 else 0) flags copy optMss
            (o.TCP_SND_QUEUELEN + 1) alloc [] arg arg.length pcb.snd_lbb pcb.snd_queuelen =
              some (q :: qs, queuelen) ∧
          tcpEnqueueAppend pcb flags copy q qs queuelen = .ok (unsent, queuelen') ∧
          pcb' = tcpEnqueueCommit pcb arg.length flags more unsent queuelen') := by
  unfold tcpEnqueue at h
  obtain ⟨_, -, h⟩ := bind_eq_ok.mp h
  split at h
  · cases h; exact .inl ⟨rfl, rfl⟩
  next hbuf =>
  split at h
  · cases h; exact .inl ⟨rfl, rfl⟩
  obtain ⟨_, -, h⟩ := bind_eq_ok.mp h
  obtain ⟨_, -, h⟩ := bind_eq_ok.mp h
  obtain ⟨_, -, h⟩ := bind_eq_ok.mp h
  split at h
  · obtain ⟨_, -, h⟩ := bind_eq_ok.mp h
    cases h; exact .inl ⟨rfl, rfl⟩
  · obtain ⟨_, -, h⟩ := bind_eq_ok.mp h
    cases h; exact .inl ⟨rfl, rfl⟩
  · next q qs queuelen hloop =>
    obtain ⟨⟨unsent, queuelen'⟩, happ, h⟩ := bind_eq_ok.mp h
    cases h
    exact .inr ⟨rfl, by omega, q, qs, queuelen, unsent, queuelen', hloop, happ, rfl⟩

/-- `tcp_enqueue` changes no receive field. -/
theorem tcpEnqueue_sameRcv {o : Opts} {alloc : ℕ → Bool} {pcb pcb' : TcpPcb} {arg : List UInt8}
    {flags : TcpFlags} {copy more optMss : Bool} {e : Err}
    (h : tcpEnqueue o alloc pcb arg flags copy more optMss = .ok (e, pcb')) : SameRcv pcb pcb' := by
  rcases tcpEnqueue_cases h with ⟨-, rfl⟩ | ⟨-, -, q, qs, ql, unsent, ql', -, -, rfl⟩
  · exact ⟨rfl, rfl, rfl, rfl, rfl, rfl⟩
  · exact ⟨rfl, rfl, rfl, rfl, rfl, rfl⟩

/-- `tcp_write` changes no receive field. -/
theorem tcpWrite_sameRcv {o : Opts} {alloc : ℕ → Bool} {pcb pcb' : TcpPcb} {data : List UInt8}
    {copy more : Bool} {e : Err} (h : tcpWrite o alloc pcb data copy more = .ok (e, pcb')) :
    SameRcv pcb pcb' := by
  unfold tcpWrite at h
  split at h
  all_goals first
    | (split at h
       · exact tcpEnqueue_sameRcv h
       · cases h; exact .refl _)
    | (cases h; exact .refl _)

end Lwip.Tcp
