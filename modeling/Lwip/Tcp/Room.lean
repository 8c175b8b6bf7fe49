import Lwip.Tcp.Closing
import Lwip.Tcp.CountedStep
import Lwip.Tcp.Untouched

/-!
# The room of the send buffer

`snd_buf` counts the sequence numbers that may still be enqueued: together with those that are
enqueued and not acknowledged it makes up `TCP_SND_BUF`. `tcp_enqueue` takes off the buffer what it
adds to `snd_lbb`, and an acknowledgement of new data puts back what it adds to `lastack`; nothing
else touches the three numbers. The sum is kept unless a FIN is enqueued when the buffer is full:
the length that `tcp_enqueue` compares with `snd_buf` is that of the data, and the FIN is added to
it afterwards.
-/

namespace Lwip.Tcp

/-- The send buffer has room for what is not enqueued. -/
def Room (o : Opts) (pcb : TcpPcb) : Prop :=
  pcb.snd_buf + Serial.dist pcb.lastack pcb.snd_lbb = o.TCP_SND_BUF

instance (o : Opts) (pcb : TcpPcb) : Decidable (Room o pcb) :=
  inferInstanceAs (Decidable (_ = _))

/-- The three numbers are the same. -/
structure SameRoom (a b : TcpPcb) : Prop where
  lastack : b.lastack = a.lastack
  snd_lbb : b.snd_lbb = a.snd_lbb
  snd_buf : b.snd_buf = a.snd_buf

namespace SameRoom

variable {o : Opts} {a b c : TcpPcb}

/-- The room of a pcb is its own. -/
theorem refl (a : TcpPcb) : SameRoom a a := ⟨rfl, rfl, rfl⟩

/-- The same room in two steps. -/
theorem trans (h : SameRoom a b) (h' : SameRoom b c) : SameRoom a c :=
  ⟨h'.lastack.trans h.lastack, h'.snd_lbb.trans h.snd_lbb, h'.snd_buf.trans h.snd_buf⟩

/-- The room depends on these fields only. -/
theorem room (h : SameRoom a b) (ha : Room o a) : Room o b := by
  unfold Room
  rw [h.lastack, h.snd_lbb, h.snd_buf]
  exact ha

end SameRoom

/-- The same send fields leave the same room. -/
theorem SameSnd.sameRoom {a b : TcpPcb} (h : SameSnd a b) : SameRoom a b :=
  ⟨h.lastack, h.snd_lbb, h.snd_buf⟩

/-- A FIN that moves leaves the same room. -/
theorem FinMoved.sameRoom {a b : TcpPcb} (h : FinMoved a b) : SameRoom a b :=
  ⟨h.same.lastack, h.same.snd_lbb, h.same.snd_buf⟩

/-! ## What does not touch the numbers -/

section SameRoom

variable {o : Opts} {ticks : BitVec 32} {input alloc : Bool} {pcb pcb' : TcpPcb}
  {out out' : List Sent} {e : TickEnv}

/-- The loop of `tcp_output` leaves the room alone. -/
theorem tcpOutputLoop_sameRoom {wnd : ℕ} {q : List Seg}
    (h : tcpOutputLoop ticks wnd q pcb out = .ok (pcb', out')) : SameRoom pcb pcb' := by
  obtain ⟨-, hp⟩ := tcpOutputLoop_rule (P := fun _ p _ => SameRoom pcb p) h (.refl _)
    fun seg rest p _ hp _ => hp.trans (by constructor <;> rfl)
  exact hp

/-- `tcp_output` leaves the room alone. -/
theorem tcpOutput_sameRoom (h : tcpOutput ticks alloc pcb = .ok (pcb', out)) :
    SameRoom pcb pcb' := by
  exact tcpOutput_rule (P := fun p _ => SameRoom pcb p) h
    (tcpSendEmptyAck_sameSnd alloc pcb).sameRoom
    fun {p _} hl => (tcpOutputLoop_sameRoom hl).trans (tcpOutputPersist_sameSnd p).sameRoom

/-- The same with the test of the first lines. -/
theorem tcpOutputUnlessInput_sameRoom
    (h : tcpOutputUnlessInput input ticks alloc pcb = .ok (pcb', out)) : SameRoom pcb pcb' := by
  exact tcpOutputUnlessInput_rule (P := fun p _ => SameRoom pcb p) h (.refl _) tcpOutput_sameRoom

/-- `tcp_ack_now` leaves the room alone. -/
theorem tcpAckNow_sameRoom (h : tcpAckNow input ticks alloc pcb = .ok (pcb', out)) :
    SameRoom pcb pcb' := by
  have hnow : SameRoom pcb { pcb with flags := { pcb.flags with ack_now := true } } := by
    constructor <;> rfl
  exact hnow.trans (tcpOutputUnlessInput_sameRoom h)

/-- `tcp_recved` leaves the room alone. -/
theorem tcpRecved_sameRoom {len : ℕ} (h : tcpRecved o input ticks alloc pcb len = .ok (pcb', out)) :
    SameRoom pcb pcb' := by
  obtain ⟨w, h⟩ := tcpRecved_cases h
  have hwnd : SameRoom pcb { pcb with rcv_wnd := w } := by constructor <;> rfl
  have hann := hwnd.trans (tcpUpdateRcvAnnWnd_sameSnd o { pcb with rcv_wnd := w }).sameRoom
  obtain h | ⟨rfl, -⟩ := h
  · exact hann.trans (tcpAckNow_sameRoom h)
  · exact hann

/-- `tcp_rexmit` leaves the room alone. -/
theorem tcpRexmit_sameRoom (pcb : TcpPcb) : SameRoom pcb (tcpRexmit pcb) := by
  unfold tcpRexmit
  split
  · exact .refl _
  · constructor <;> rfl

/-- A fast retransmission leaves the room alone. -/
theorem tcpRexmitFast_sameRoom (pcb : TcpPcb) : SameRoom pcb (tcpRexmitFast pcb) := by
  unfold tcpRexmitFast
  split
  · have hfast := tcpRexmit_sameRoom pcb
    exact ⟨hfast.lastack, hfast.snd_lbb, hfast.snd_buf⟩
  · exact .refl _

/-- A retransmission leaves the room alone. -/
theorem slowtmrRexmit_sameRoom (h : slowtmrRexmit o ticks e pcb = .ok (pcb', out)) :
    SameRoom pcb pcb' := by
  unfold slowtmrRexmit at h
  split at h
  · cases h
    exact .refl _
  split at h
  · have hpersist := (slowtmrPersist_sameSnd e pcb).sameRoom
    rwa [Except.ok.inj h] at hpersist
  · dsimp only at h
    generalize (if pcb.rtime ≥ 0 then s16 (pcb.rtime + 1) else pcb.rtime) = rtime at h
    split at h
    · obtain ⟨p, hp, h⟩ := slowtmrRto_eq h
      have htimed : SameRoom pcb { pcb with rtime := rtime } := by constructor <;> rfl
      have hsame : SameRoom pcb p := htimed.trans hp.sameRoom
      unfold tcpRexmitRto at h
      split at h
      · cases h
        exact hsame
      · have hall : SameRoom p { p with
            unsent := p.unacked ++ p.unsent
            unacked := []
            nrtx := (p.nrtx + 1) % 2^8
            rttest := 0 } := by constructor <;> rfl
        exact hsame.trans (hall.trans (tcpOutput_sameRoom h))
    · cases h
      constructor <;> rfl

end SameRoom

/-! ## Enqueuing -/

/-- A call of `tcp_close` does not enqueue its FIN into a full buffer. -/
def FinFits (o : Opts) (pcb : TcpPcb) : AppCall → Prop
  | .close alloc _ =>
    pcb.state = .SYN_RCVD ∨ pcb.state = .ESTABLISHED ∨ pcb.state = .CLOSE_WAIT →
      pcb.snd_queuelen < o.TCP_SND_QUEUELEN → alloc 0 = true → alloc 1 = true → 0 < pcb.snd_buf
  | _ => True

instance (o : Opts) (pcb : TcpPcb) : (c : AppCall) → Decidable (FinFits o pcb c)
  | .close alloc _ => inferInstanceAs (Decidable (_ ∨ _ ∨ _ → _ → alloc 0 = true → _ → _))
  | .write .. => inferInstanceAs (Decidable True)
  | .recved .. => inferInstanceAs (Decidable True)

section Enqueue

variable {o : Opts} {ticks : BitVec 32} {input : Bool} {pcb pcb' : TcpPcb} {alloc : ℕ → Bool}
  {arg : List UInt8} {flags : TcpFlags} {copy more optMss : Bool} {out : List Sent} {e : Err}

/-- What `tcp_enqueue` enqueues comes off the buffer. -/
theorem tcpEnqueue_room (hr : Room o pcb)
    (hfits : e = .OK → (if flags.syn || flags.fin then arg.length + 1
    else arg.length) ≤ pcb.snd_buf)
    (h : tcpEnqueue o alloc pcb arg flags copy more optMss = .ok (e, pcb')) : Room o pcb' := by
  rcases tcpEnqueue_cases h with ⟨-, rfl⟩ | ⟨rfl, -, q, qs, ql, unsent, ql', -, -, rfl⟩
  · have hsame : SameRoom pcb (tcpMemErr pcb) := by constructor <;> rfl
    exact hsame.room hr
  · have hbuf := hfits rfl
    have hle := o.snd_buf_le
    unfold Room at hr ⊢
    unfold tcpEnqueueCommit
    dsimp only
    generalize (if flags.syn || flags.fin then arg.length + 1 else arg.length) = n at hbuf ⊢
    rw [u16sub_of_le (by omega) hbuf, Serial.dist_adv _ _ _ (by omega)]
    omega

/-- A successful `tcp_enqueue` passed its test of the buffer. -/
theorem tcpEnqueue_fits (h : tcpEnqueue o alloc pcb arg flags copy more optMss = .ok (.OK, pcb')) :
    arg.length ≤ pcb.snd_buf := by
  rcases tcpEnqueue_cases h with ⟨hmem, -⟩ | ⟨-, hbuf, -⟩
  · cases hmem
  · exact hbuf

/-- Segments are enqueued only when the queue is not full, and with two allocations. -/
theorem tcpEnqueue_enqueues
    (h : tcpEnqueue o alloc pcb arg flags copy more optMss = .ok (.OK, pcb')) :
    pcb.snd_queuelen < o.TCP_SND_QUEUELEN ∧ alloc 0 = true ∧ alloc 1 = true := by
  unfold tcpEnqueue at h
  obtain ⟨_, -, h⟩ := bind_eq_ok.mp h
  split at h
  · cases h
  split at h
  · cases h
  next hroom =>
  obtain ⟨_, -, h⟩ := bind_eq_ok.mp h
  obtain ⟨_, -, h⟩ := bind_eq_ok.mp h
  obtain ⟨_, -, h⟩ := bind_eq_ok.mp h
  refine ⟨by omega, ?_⟩
  split at h
  · obtain ⟨_, -, h⟩ := bind_eq_ok.mp h
    cases h
  · obtain ⟨_, -, h⟩ := bind_eq_ok.mp h
    cases h
  · next hloop =>
    -- The loop ran once, so its first two allocations succeeded.
    unfold tcpEnqueueLoop at hloop
    dsimp only at hloop
    split at hloop
    · cases hloop
    · next halloc =>
      simp only [Bool.or_eq_true, Bool.not_eq_true', not_or, Bool.not_eq_false] at halloc
      exact ⟨halloc.1.1, halloc.1.2⟩

/-- A FIN as well. -/
theorem tcpSendCtrl_enqueues (h : tcpSendCtrl o alloc pcb flags = .ok (.OK, pcb')) :
    pcb.snd_queuelen < o.TCP_SND_QUEUELEN ∧ alloc 0 = true ∧ alloc 1 = true := tcpEnqueue_enqueues h

/-- `tcp_write` takes the room for what it enqueues. -/
theorem tcpWrite_room {data : List UInt8} (hr : Room o pcb)
    (h : tcpWrite o alloc pcb data copy more = .ok (e, pcb')) : Room o pcb' := by
  obtain ⟨-, rfl⟩ | ⟨-, ⟨-, -, rfl⟩ | ⟨-, h⟩⟩ := tcpWrite_cases h
  · exact hr
  · exact hr
  refine tcpEnqueue_room hr (fun he => ?_) h
  subst he
  exact tcpEnqueue_fits h

/-- A `tcp_close` after which the pcb is still there. -/
theorem tcpClose_room {ack : Bool} (hr : Room o pcb) (hfin : FinFits o pcb (.close alloc ack))
    (h : tcpClose o input ticks alloc ack pcb = .ok (e, some pcb', out)) : Room o pcb' := by
  obtain ⟨-, rfl, -⟩ | ⟨next, q, hnext, hq, hend⟩ := tcpClose_cases h
  · exact hr
  have hst : pcb.state = .SYN_RCVD ∨ pcb.state = .ESTABLISHED ∨ pcb.state = .CLOSE_WAIT := by
    rcases hnext with ⟨hst | hst, -⟩ | ⟨hst, -⟩
    · exact .inl hst
    · exact .inr (.inl hst)
    · exact .inr (.inr hst)
  have hroom : Room o q := by
    refine tcpEnqueue_room hr (fun he => ?_) hq
    subst he
    obtain ⟨hlt, h0, h1⟩ := tcpSendCtrl_enqueues hq
    exact hfin hst hlt h0 h1
  obtain ⟨-, hout⟩ | ⟨-, rfl, -⟩ := hend
  · have hstate : SameRoom q { q with state := next } := by constructor <;> rfl
    exact (hstate.trans (tcpOutputUnlessInput_sameRoom hout)).room hroom
  · exact hroom

/-- A call of the application keeps the room right, if a FIN fits. -/
theorem appCall_room {c : AppCall} (hr : Room o pcb) (hfin : FinFits o pcb c)
    (h : appCall o input ticks pcb c = .ok (some pcb', out)) : Room o pcb' := by
  cases c with
  | write allocs data copy more =>
    obtain ⟨r, hw, h⟩ := bind_eq_ok.mp h
    cases h
    exact tcpWrite_room hr hw
  | recved alloc len =>
    obtain ⟨r, hrec, h⟩ := bind_eq_ok.mp h
    cases h
    exact (tcpRecved_sameRoom hrec).room hr
  | close allocs ack =>
    obtain ⟨⟨err, rest⟩, hcl, h⟩ := bind_eq_ok.mp h
    cases h
    exact tcpClose_room hr hfin hcl

/-- Every call of a callback meets the condition at the pcb it is made for. -/
def CallsFit (o : Opts) (input : Bool) (ticks : BitVec 32) : TcpPcb → List AppCall → Prop
  | _, [] => True
  | pcb, c :: cs => FinFits o pcb c ∧
      ∀ p out, appCall o input ticks pcb c = .ok (some p, out) → CallsFit o input ticks p cs

instance CallsFit.decidable (o : Opts) (input : Bool) (ticks : BitVec 32) :
    (pcb : TcpPcb) → (cs : List AppCall) → Decidable (CallsFit o input ticks pcb cs)
  | _, [] => .isTrue trivial
  | pcb, c :: cs =>
    match h : appCall o input ticks pcb c with
    | .error _ => decidable_of_iff (FinFits o pcb c)
        ⟨fun hC => ⟨hC, fun p out hp => by rw [h] at hp; cases hp⟩, And.left⟩
    | .ok (none, _) => decidable_of_iff (FinFits o pcb c)
        ⟨fun hC => ⟨hC, fun p out hp => by rw [h] at hp; cases hp⟩, And.left⟩
    | .ok (some q, _) =>
      have := CallsFit.decidable o input ticks q cs
      decidable_of_iff (FinFits o pcb c ∧ CallsFit o input ticks q cs)
        ⟨fun hC => ⟨hC.1, fun p out hp => by rw [h] at hp; cases hp; exact hC.2⟩,
          fun hC => ⟨hC.1, hC.2 q _ h⟩⟩

end Enqueue

/-! ## Acknowledgements -/

section Ack

variable {o : Opts} {base : Serial} {ticks : BitVec 32} {m : RxAlloc} {pcb pcb' : TcpPcb} {t : Tx}
  {i : In} {rx : Rx}

/-- The peer's window is not the room. -/
theorem updateSndWnd_sameRoom (pcb : TcpPcb) (i : In) : SameRoom pcb (updateSndWnd pcb i) := by
  unfold updateSndWnd
  split <;> (constructor <;> rfl)

/-- An acknowledgement that is not of new data. -/
theorem tcpReceiveOldAck_sameRoom (e : Serial) (pcb : TcpPcb) (i : In) :
    SameRoom pcb (tcpReceiveOldAck e pcb i) := by
  have hdup : ∀ n, SameRoom pcb { pcb with acked := 0, dupacks := n } := by
    intro n
    constructor <;> rfl
  unfold tcpReceiveOldAck tcpReceiveDupAck
  split
  · split
    · constructor <;> rfl
    · split
      · exact (hdup ((pcb.dupacks + 1) % 2^8)).trans (tcpRexmitFast_sameRoom _)
      · exact hdup _
  · exact hdup 0

/-- The bytes acknowledged go back into the buffer. -/
theorem Sender.newAck_room (h : Sender base pcb t) (hr : Room o pcb)
    (h₁ : ¬Serial.leq i.ackno pcb.lastack)
    (h₂ : Serial.between i.ackno (pcb.lastack.adv 1) pcb.snd_nxt)
    (hp : tcpReceiveNewAck pcb i = .ok pcb') : Room o pcb' := by
  have hnew := tcpReceiveNewAck_newAcked hp
  obtain ⟨a, hlt, hle, hack⟩ := h.new_ack h₁ h₂
  have hw2 := h.weak.nxt_le
  have hw3 := h.weak.win
  have hbuf := o.snd_buf_le
  unfold Room at hr ⊢
  rw [h.lastack, h.snd_lbb, Serial.dist_adv_adv (by omega) (by omega)] at hr
  -- On the line of the sender, `lastack` moves forward to `a`, which is not past `snd_lbb`.
  have hmoved : Serial.dist (base.adv t.lastack) (base.adv a) = a - t.lastack :=
    Serial.dist_adv_adv hlt.le (by omega)
  have hleft : Serial.dist (base.adv a) (base.adv t.lbb) = t.lbb - a :=
    Serial.dist_adv_adv (by omega) (by omega)
  rw [hnew.snd_buf, hnew.lastack, hnew.snd_lbb, hack, h.lastack, h.snd_lbb, hmoved, hleft]
  unfold u16
  omega

/-- An acknowledgement keeps the room. -/
theorem Sender.receiveAck_room (h : Sender base pcb t) (hr : Room o pcb)
    (ha : Lwip.Tcp.tcpReceiveAck ticks pcb i = .ok pcb') : Room o pcb' := by
  unfold Lwip.Tcp.tcpReceiveAck at ha
  obtain ⟨p, hp, ha⟩ := bind_eq_ok.mp ha
  obtain ⟨q, hq, ha⟩ := bind_eq_ok.mp ha
  cases ha
  obtain ⟨w, wl1, wl2, pb, hw, hupd⟩ := updateSndWnd_eq pcb i
  have hsend : Sender base (updateSndWnd pcb i) t := by
    have hwnd : (updateSndWnd pcb i).snd_wnd ≤ 0xffff := by
      have hlt := i.wnd.isLt
      have hle := h.snd_wnd_le
      rw [hupd]
      dsimp only
      omega
    rw [hupd] at hwnd ⊢
    exact ⟨h.lastack, h.snd_nxt, h.snd_lbb, h.unacked, h.unsent, h.infr, hwnd, h.mss_le, h.room,
      h.live, h.writable, h.weak⟩
  have hupdated : Room o (updateSndWnd pcb i) := (updateSndWnd_sameRoom pcb i).room hr
  -- The three cases of the acknowledgement number.
  have hp' : Room o p := by
    unfold Lwip.Tcp.tcpReceiveAckno at hp
    split at hp
    · cases hp
      exact (tcpReceiveOldAck_sameRoom _ _ _).room hupdated
    · next hnot =>
      split at hp
      · next hbetween => exact hsend.newAck_room hupdated hnot hbetween hp
      · cases hp
        have hzero : SameRoom (updateSndWnd pcb i) { updateSndWnd pcb i with acked := 0 } := by
          constructor <;> rfl
        exact hzero.room hupdated
  obtain ⟨ql, n, rfl⟩ := tcpReceiveUnsent_eq hq
  have hfreed : SameRoom p { p with
      unsent := p.unsent.dropWhile
        (fun s => decide (Serial.between i.ackno s.endSeq p.snd_nxt))
      acked := n
      snd_queuelen := ql } := by constructor <;> rfl
  exact (hfreed.trans (estimateRtt_sameSnd ticks _ i).sameRoom).room hp'

/-- An acknowledgement gives the room back. -/
theorem Sender.receive_room (h : Sender base pcb t) (hr : Room o pcb)
    (hrx : tcpReceive o ticks m pcb i = .ok rx) : Room o rx.pcb := by
  obtain ⟨p, ⟨-, hp⟩ | ⟨-, rfl⟩, hd⟩ := tcpReceive_eq_ok hrx
  · exact (tcpReceiveData_finMoved hd).sameRoom.room (h.receiveAck_room hr hp)
  · exact (tcpReceiveData_finMoved hd).sameRoom.room hr

end Ack

end Lwip.Tcp
