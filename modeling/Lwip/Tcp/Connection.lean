import Lwip.Tcp.SenderAck

/-!
# Runs of a connection

The machine of one established connection: the calls of the application, the two timers, and the
segments that come in. `Follows pcb pcb'` says that the sender of `pcb'` is that of `pcb` after some
moves; every function does this except the retransmission timeout and the reception of a segment,
which are looked at by themselves. At the end stands what every run keeps of the sender.
-/

namespace Lwip.Tcp

open Relation (ReflTransGen)

/-! ## Functions that only move the sender on -/

/-- The state stays, or the application closes the connection. -/
def MayClose (a b : TcpState) : Prop :=
  b = a ∨ ((a = .SYN_RCVD ∨ a = .ESTABLISHED ∨ a = .CLOSE_WAIT) ∧ (b = .FIN_WAIT_1 ∨ b = .LAST_ACK))

/-- The closing of a connection goes on. -/
theorem MayClose.trans {a b c : TcpState} (h : MayClose a b) (h' : MayClose b c) :
    MayClose a c := by
  rcases h with rfl | ⟨h1, h2⟩
  · exact h'
  · rcases h' with rfl | ⟨h3, -⟩
    · exact .inr ⟨h1, h2⟩
    · rcases h2 with rfl | rfl <;> simp at h3

/-- The sender of `pcb'` is that of `pcb` after some moves. -/
structure Follows (pcb pcb' : TcpPcb) : Prop where
  moves : ∀ base t, Sender base pcb t → ∃ t', ReflTransGen TxStep t t' ∧ Sender base pcb' t'
  state : MayClose pcb.state pcb'.state

/-- A pcb follows itself. -/
theorem Follows.refl (pcb : TcpPcb) : Follows pcb pcb := ⟨fun _ t h => ⟨t, .refl, h⟩, .inl rfl⟩

/-- What follows is followed on. -/
theorem Follows.trans {a b c : TcpPcb} (h : Follows a b) (h' : Follows b c) : Follows a c := by
  refine ⟨fun base t ht => ?_, h.state.trans h'.state⟩
  obtain ⟨t₁, hs₁, ht₁⟩ := h.moves base t ht
  obtain ⟨t₂, hs₂, ht₂⟩ := h'.moves base t₁ ht₁
  exact ⟨t₂, hs₁.trans hs₂, ht₂⟩

/-- A pcb with the same send fields follows. -/
theorem SameSnd.follows {a b : TcpPcb} (h : SameSnd a b) : Follows a b :=
  ⟨fun _ t ht => ⟨t, .refl, ht.congr h⟩, .inl h.state⟩

section Follows

variable {o : Opts} {ticks : BitVec 32} {input alloc : Bool} {pcb pcb' : TcpPcb} {out : List Sent}

/-- The loop of `tcp_output` keeps the state. -/
theorem tcpOutputLoop_state {wnd : ℕ} {q : List Seg} {out' : List Sent}
    (h : tcpOutputLoop ticks wnd q pcb out = .ok (pcb', out')) : pcb'.state = pcb.state := by
  obtain ⟨-, hp⟩ := tcpOutputLoop_rule (P := fun _ p _ => p.state = pcb.state) h rfl
    fun _ _ _ _ hp _ => hp
  exact hp

/-- `tcp_output` keeps the state. -/
theorem tcpOutput_state (h : tcpOutput ticks alloc pcb = .ok (pcb', out)) :
    pcb'.state = pcb.state := by
  exact tcpOutput_rule (P := fun p _ => p.state = pcb.state) h
    (tcpSendEmptyAck_sameSnd alloc pcb).state
    fun {p _} hl => (tcpOutputPersist_sameSnd p).state.trans (tcpOutputLoop_state hl)

/-- The sender goes on with `tcp_output`. -/
theorem tcpOutput_follows (h : tcpOutput ticks alloc pcb = .ok (pcb', out)) : Follows pcb pcb' :=
  ⟨fun _ _ ht => ht.tcpOutput h, .inl (tcpOutput_state h)⟩

/-- The same with the test of the first lines. -/
theorem tcpOutputUnlessInput_follows
    (h : tcpOutputUnlessInput input ticks alloc pcb = .ok (pcb', out)) : Follows pcb pcb' := by
  exact tcpOutputUnlessInput_rule (P := fun p _ => Follows pcb p) h (.refl _) tcpOutput_follows

/-- The sender goes on with `tcp_ack_now`. -/
theorem tcpAckNow_follows (h : tcpAckNow input ticks alloc pcb = .ok (pcb', out)) :
    Follows pcb pcb' := by
  have hs : SameSnd pcb { pcb with flags := { pcb.flags with ack_now := true } } :=
    ⟨rfl, rfl, rfl, rfl, rfl, rfl, rfl, rfl, rfl, rfl, rfl⟩
  exact hs.follows.trans (tcpOutputUnlessInput_follows h)

/-- The announced window is no send field. -/
theorem tcpUpdateRcvAnnWnd_sameSnd (o : Opts) (pcb : TcpPcb) :
    SameSnd pcb (tcpUpdateRcvAnnWnd o pcb).1 := by
  unfold tcpUpdateRcvAnnWnd
  dsimp only
  split
  · exact ⟨rfl, rfl, rfl, rfl, rfl, rfl, rfl, rfl, rfl, rfl, rfl⟩
  · split <;> exact ⟨rfl, rfl, rfl, rfl, rfl, rfl, rfl, rfl, rfl, rfl, rfl⟩

/-- The sender goes on with `tcp_recved`. -/
theorem tcpRecved_follows {len : ℕ} (h : tcpRecved o input ticks alloc pcb len = .ok (pcb', out)) :
    Follows pcb pcb' := by
  obtain ⟨w, h⟩ := tcpRecved_cases h
  have hw : SameSnd pcb { pcb with rcv_wnd := w } := by constructor <;> rfl
  have hs := hw.trans (tcpUpdateRcvAnnWnd_sameSnd o _)
  obtain h | ⟨rfl, -⟩ := h
  · exact hs.follows.trans (tcpAckNow_follows h)
  · exact hs.follows

/-- `tcp_enqueue` keeps the state. -/
theorem tcpEnqueue_state {allocs : ℕ → Bool} {arg : List UInt8} {flags : TcpFlags}
    {copy more optMss : Bool} {e : Err}
    (h : tcpEnqueue o allocs pcb arg flags copy more optMss = .ok (e, pcb')) :
    pcb'.state = pcb.state := by
  rcases tcpEnqueue_cases h with ⟨-, rfl⟩ | ⟨-, -, q, qs, ql, unsent, ql', -, -, rfl⟩
  · rfl
  · rfl

/-- The sender goes on with `tcp_write`. -/
theorem tcpWrite_follows {allocs : ℕ → Bool} {data : List UInt8} {copy more : Bool} {e : Err}
    (h : tcpWrite o allocs pcb data copy more = .ok (e, pcb')) : Follows pcb pcb' := by
  obtain ⟨-, rfl⟩ | ⟨hst, ⟨-, -, rfl⟩ | ⟨hpos, h⟩⟩ := tcpWrite_cases h
  · exact .refl _
  · exact .refl _
  refine ⟨fun base t ht => ht.tcpEnqueue_data (ht.writable ?_) hpos h, .inl (tcpEnqueue_state h)⟩
  have hlive := ht.live
  obtain hst | hst | hst | hst := hst
  · exact .inl hst
  · exact .inr hst
  · rw [hst] at hlive
    cases hlive
  · rw [hst] at hlive
    cases hlive

/-- The sender goes on with `tcp_close`. -/
theorem tcpClose_follows {allocs : ℕ → Bool} {e : Err}
    (h : tcpClose o input ticks allocs alloc pcb = .ok (e, some pcb', out)) : Follows pcb pcb' := by
  obtain ⟨-, rfl, -⟩ | ⟨next, p, hnext, hr, hend⟩ := tcpClose_cases h
  · exact .refl _
  have hst : pcb.state = .SYN_RCVD ∨ pcb.state = .ESTABLISHED ∨ pcb.state = .CLOSE_WAIT := by
    rcases hnext with ⟨hst | hst, -⟩ | ⟨hst, -⟩
    · exact .inl hst
    · exact .inr (.inl hst)
    · exact .inr (.inr hst)
  have hnext : next = .FIN_WAIT_1 ∨ next = .LAST_ACK := hnext.imp (·.2) (·.2)
  -- The FIN and the new state together keep the sender; the FIN alone does not.
  have hfin : Follows pcb (if e = .OK then { p with state := next } else p) := by
    refine ⟨fun base t ht => ?_, ?_⟩
    · have hw : pcb.flags.fin = false := by
        refine ht.writable (hst.resolve_left fun hs => ?_)
        have hl := ht.live
        rw [hs] at hl
        cases hl
      refine ht.tcpSendCtrl_fin hw ?_ ?_ hr
      · rcases hnext with rfl | rfl <;> rfl
      · rcases hnext with rfl | rfl <;> decide
    · split
      · exact .inr ⟨hst, hnext⟩
      · exact .inl (tcpEnqueue_state hr)
  obtain ⟨he, ho⟩ | ⟨he, rfl, -⟩ := hend
  · rw [if_pos he] at hfin
    exact hfin.trans (tcpOutputUnlessInput_follows ho)
  · rw [if_neg he] at hfin
    exact hfin

/-- The sender goes on with a call of the application. -/
theorem appCall_follows {c : AppCall} (h : appCall o input ticks pcb c = .ok (some pcb', out)) :
    Follows pcb pcb' := by
  exact appCall_rule (P := fun p _ => Follows pcb p) h tcpWrite_follows tcpRecved_follows
    tcpClose_follows

/-- The sender goes on with the calls of a callback. -/
theorem appCalls_follows {cs : List AppCall}
    (h : appCalls o input ticks pcb cs = .ok (some pcb', out)) : Follows pcb pcb' := by
  exact appCalls_rule (P := fun p _ => Follows pcb p) h (.refl _)
    fun p q c _ _ hp hc => hp.trans (appCall_follows hc)

end Follows

/-! ## The data of a segment -/

/-- The data of a segment change nothing of the sender, but a FIN may move the state from
`ESTABLISHED` to `CLOSE_WAIT`. -/
structure FinMoved (a b : TcpPcb) : Prop where
  same : SameSnd { a with state := b.state } b
  state : b.state = a.state ∨ (a.state = .ESTABLISHED ∧ b.state = .CLOSE_WAIT)

/-- Where the send fields stay the FIN does not move. -/
theorem SameSnd.finMoved {a b : TcpPcb} (h : SameSnd a b) : FinMoved a b :=
  ⟨⟨h.lastack, h.snd_nxt, h.snd_lbb, h.unacked, h.unsent, h.infr, h.fin, h.snd_wnd, h.mss,
    h.snd_buf, rfl⟩, .inl h.state⟩

/-- The move of a FIN is passed on. -/
theorem FinMoved.trans {a b c : TcpPcb} (h : FinMoved a b) (h' : FinMoved b c) : FinMoved a c := by
  have h1 := h.same
  have h2 := h'.same
  refine ⟨⟨h2.lastack.trans h1.lastack, h2.snd_nxt.trans h1.snd_nxt, h2.snd_lbb.trans h1.snd_lbb,
    h2.unacked.trans h1.unacked, h2.unsent.trans h1.unsent, h2.infr.trans h1.infr,
    h2.fin.trans h1.fin, h2.snd_wnd.trans h1.snd_wnd, h2.mss.trans h1.mss,
    h2.snd_buf.trans h1.snd_buf, rfl⟩, ?_⟩
  rcases h.state with hs | ⟨hs, hs'⟩ <;> rcases h'.state with ht | ⟨ht, ht'⟩
  · exact .inl (ht.trans hs)
  · exact .inr ⟨hs.symm.trans ht, ht'⟩
  · exact .inr ⟨hs, ht.trans hs'⟩
  · rw [hs'] at ht
    cases ht

/-- A FIN that is taken over does not move the sender. -/
theorem Sender.finMoved {base : Serial} {a b : TcpPcb} {t : Tx} (h : Sender base a t)
    (hab : FinMoved a b) : Sender base b t := by
  refine (h.setState ?_ fun hst => ?_).congr hab.same
  · rcases hab.state with hs | ⟨-, hs⟩
    · rw [hs]; exact h.live
    · rw [hs]; rfl
  · rcases hab.state with hs | ⟨hs, -⟩
    · rw [hs] at hst; exact h.writable hst
    · exact h.writable (.inl hs)

/-- The loop over `ooseq` moves a FIN at most. -/
theorem dequeueOoseq_finMoved {o : Opts} {q : List Seg} {rx rx' : Rx}
    (h : dequeueOoseq o q rx = .ok rx') : FinMoved rx.pcb rx'.pcb := by
  induction q generalizing rx with
  | nil => cases h; exact (SameSnd.refl _).finMoved
  | cons s q ih =>
    unfold dequeueOoseq at h
    split at h
    · obtain ⟨_, -, h⟩ := bind_eq_ok.mp h
      refine FinMoved.trans ?_ (ih h)
      have hw : SameSnd rx.pcb { rx.pcb with
          rcv_nxt := rx.pcb.rcv_nxt.adv s.tcplen, rcv_wnd := rx.pcb.rcv_wnd - s.tcplen } :=
        ⟨rfl, rfl, rfl, rfl, rfl, rfl, rfl, rfl, rfl, rfl, rfl⟩
      have hs := hw.trans (tcpUpdateRcvAnnWnd_sameSnd o _)
      refine ⟨⟨hs.lastack, hs.snd_nxt, hs.snd_lbb, hs.unacked, hs.unsent, hs.infr, hs.fin,
        hs.snd_wnd, hs.mss, hs.snd_buf, rfl⟩, ?_⟩
      unfold dequeueOne
      dsimp only
      rw [hs.state]
      split
      · next hc =>
        simp only [Bool.and_eq_true, decide_eq_true_eq] at hc
        exact .inr ⟨hc.2, rfl⟩
      · exact .inl rfl
    · cases h; exact (SameSnd.refl _).finMoved

/-- `tcp_ack` sets flags only. -/
theorem tcpAck_sameSnd (pcb : TcpPcb) : SameSnd pcb (tcpAck pcb) := by
  unfold tcpAck
  have hflags : ∀ f : PcbFlags, f.infr = pcb.flags.infr → f.fin = pcb.flags.fin →
      SameSnd pcb { pcb with flags := f } := fun f h1 h2 =>
    ⟨rfl, rfl, rfl, rfl, rfl, h1, h2, rfl, rfl, rfl, rfl⟩
  split
  · exact hflags _ rfl rfl
  · exact hflags _ rfl rfl

/-- A segment in sequence moves a FIN at most. -/
theorem tcpReceiveInSeq_finMoved {o : Opts} {pcb : TcpPcb} {inseg : Seg} {rx : Rx}
    (h : tcpReceiveInSeq o pcb inseg = .ok rx) : FinMoved pcb rx.pcb := by
  unfold tcpReceiveInSeq at h
  obtain ⟨⟨s, n⟩, -, h⟩ := bind_eq_ok.mp h
  obtain ⟨⟨s', n', q⟩, -, h⟩ := bind_eq_ok.mp h
  obtain ⟨_, -, h⟩ := bind_eq_ok.mp h
  obtain ⟨rx', hd, h⟩ := bind_eq_ok.mp h
  cases h
  have hw : SameSnd pcb { pcb with
      ooseq := q, rcv_nxt := s'.seqno.adv n', rcv_wnd := pcb.rcv_wnd - n' } :=
    ⟨rfl, rfl, rfl, rfl, rfl, rfl, rfl, rfl, rfl, rfl, rfl⟩
  have hs := hw.trans (tcpUpdateRcvAnnWnd_sameSnd o _)
  exact hs.finMoved.trans ((dequeueOoseq_finMoved hd).trans (tcpAck_sameSnd _).finMoved)

/-- A segment in the window moves a FIN at most. -/
theorem tcpReceiveWindow_finMoved {o : Opts} {m : RxAlloc} {pcb : TcpPcb} {inseg : Seg} {rx : Rx}
    (h : tcpReceiveWindow o m pcb inseg = .ok rx) : FinMoved pcb rx.pcb := by
  have hack := tcpSendEmptyAck_sameSnd m.ack pcb
  unfold tcpReceiveWindow at h
  dsimp only at h
  split at h
  · split at h
    · exact tcpReceiveInSeq_finMoved h
    · cases h
      exact SameSnd.finMoved ⟨hack.lastack, hack.snd_nxt, hack.snd_lbb, hack.unacked, hack.unsent,
        hack.infr, hack.fin, hack.snd_wnd, hack.mss, hack.snd_buf, hack.state⟩
  · cases h; exact hack.finMoved

/-- `tcp_ack_now` sets flags only. -/
theorem tcpAckNowInput_sameSnd (pcb : TcpPcb) : SameSnd pcb (tcpAckNowInput pcb) :=
  ⟨rfl, rfl, rfl, rfl, rfl, rfl, rfl, rfl, rfl, rfl, rfl⟩

/-- The data half of `tcp_receive` leaves the sender alone. -/
theorem tcpReceiveData_finMoved {o : Opts} {m : RxAlloc} {pcb : TcpPcb} {inseg : Seg} {rx : Rx}
    (h : tcpReceiveData o m pcb inseg = .ok rx) : FinMoved pcb rx.pcb := by
  unfold tcpReceiveData at h
  split at h
  · split at h
    · obtain ⟨s, -, h⟩ := bind_eq_ok.mp h
      exact tcpReceiveWindow_finMoved h
    · refine FinMoved.trans ?_ (tcpReceiveWindow_finMoved h)
      split
      · exact (tcpAckNowInput_sameSnd pcb).finMoved
      · exact (SameSnd.refl pcb).finMoved
  · cases h
    dsimp only
    split
    · exact (SameSnd.refl pcb).finMoved
    · exact (tcpAckNowInput_sameSnd pcb).finMoved

/-! ## Invariants of the abstract sender -/

/-- The pcb stands for an abstract sender that has the property `I`. -/
def Snd (I : Tx → Prop) (pcb : TcpPcb) : Prop := ∃ base t, Sender base pcb t ∧ I t

/-- The moves of the sender keep `I`. -/
structure Stable (I : Tx → Prop) : Prop where
  step : ∀ {t t'}, t.Weak → I t → TxStep t t' → I t'

section Invariant

variable {I : Tx → Prop} {o : Opts} {ticks : BitVec 32} {m : RxAlloc} {cb : Callbacks}
  {pcb pcb' : TcpPcb} {i : In} {out : List Sent}

/-- What is stable is kept by every sequence of moves. -/
theorem Stable.steps (hI : Stable I) {t t' : Tx} (hw : t.Weak) (h : I t)
    (hs : ReflTransGen TxStep t t') : I t' := by
  induction hs with
  | refl => exact h
  | tail hs hstep ih => exact hI.step (hw.steps hs) ih hstep

/-- A pcb that follows has a sender with the same invariant. -/
theorem Follows.snd (h : Follows pcb pcb') (hI : Stable I) (hs : Snd I pcb) : Snd I pcb' := by
  obtain ⟨base, t, ht, hIt⟩ := hs
  obtain ⟨t', hsteps, ht'⟩ := h.moves base t ht
  exact ⟨base, t', ht', hI.steps ht.weak hIt hsteps⟩

/-- Another state of an open connection keeps the sender. -/
theorem Snd.setState (h : Snd I pcb) {st : TcpState} (hlive : st.geEstablished = true)
    (hwr : st = .ESTABLISHED ∨ st = .CLOSE_WAIT → pcb.flags.fin = false) :
    Snd I { pcb with state := st } := by
  obtain ⟨base, t, ht, hIt⟩ := h
  exact ⟨base, t, ht.setState hlive hwr, hIt⟩

/-- `I` survives what the acknowledgement number does if it is not of new data. -/
def AckKeeps (I : Tx → Prop) (pcb : TcpPcb) (i : In) : Prop :=
  i.seg.flags.ack = true →
    ∀ base p t t' k, AckedNothing base pcb p t t' i k → Sender base pcb t → I t → I (t'.drop k)

/-- The two halves of `tcp_receive`. -/
theorem tcpReceive_eq_ok {rx : Rx} (h : tcpReceive o ticks m pcb i = .ok rx) :
    ∃ p, (i.seg.flags.ack = true ∧ tcpReceiveAck ticks pcb i = .ok p ∨
        i.seg.flags.ack = false ∧ p = pcb) ∧ tcpReceiveData o m p i.seg = .ok rx := by
  unfold tcpReceive at h
  dsimp only at h
  split at h
  · next hack =>
    obtain ⟨p, hp, h⟩ := bind_eq_ok.mp h
    exact ⟨p, .inl ⟨hack, hp⟩, h⟩
  · next hack => exact ⟨pcb, .inr ⟨by simpa using hack, rfl⟩, h⟩

/-- `tcp_receive` keeps an invariant of the sender. -/
theorem tcpReceive_snd {rx : Rx} (hI : Stable I) (hk : AckKeeps I pcb i) (h : Snd I pcb)
    (hr : tcpReceive o ticks m pcb i = .ok rx) : Snd I rx.pcb := by
  obtain ⟨base, t, ht, hIt⟩ := h
  obtain ⟨p, ⟨hack, hp⟩ | ⟨-, rfl⟩, hd⟩ := tcpReceive_eq_ok hr
  · rcases ht.tcpReceiveAck hp with ⟨a, ha⟩ | ⟨t', k, hn⟩
    · exact ⟨base, _, ha.sender.finMoved (tcpReceiveData_finMoved hd),
        hI.step ht.weak hIt (.ack ha.lt ha.le)⟩
    · exact ⟨base, _, hn.sender.finMoved (tcpReceiveData_finMoved hd),
        hk hack base p t t' k hn ht hIt⟩
  · exact ⟨base, t, ht.finMoved (tcpReceiveData_finMoved hd), hIt⟩

/-- An MSS that is parsed is a 16-bit value. -/
theorem tcpParseopt_le (o : Opts) (fuel : ℕ) (opts : List UInt8) {mss : ℕ} (h : mss ≤ 0xffff) :
    tcpParseopt o fuel opts mss ≤ 0xffff := by
  induction fuel generalizing opts mss with
  | zero => exact h
  | succ fuel ih =>
    cases opts with
    | nil => exact h
    | cons opt rest =>
      unfold tcpParseopt
      split
      · exact h
      · split
        · exact ih rest h
        · split
          · split
            · next len hi lo rest =>
              split
              · exact h
              · refine ih rest ?_
                have h1 := hi.toNat_lt
                have h2 := lo.toNat_lt
                have h3 := o.mss_le
                split <;> omega
            · exact h
          · split
            · exact h
            · split
              · exact h
              · exact ih _ h

/-- What `tcp_process` notes at first is not the sender. -/
theorem Sender.processNote {base : Serial} {t : Tx} (h : Sender base pcb t) :
    Sender base (processNote o ticks pcb i) t :=
  ⟨h.lastack, h.snd_nxt, h.snd_lbb, h.unacked, h.unsent, h.infr, h.snd_wnd_le,
    tcpParseopt_le o _ _ h.mss_le, h.room, h.live, h.writable, h.weak⟩

/-- What `tcp_process` notes at first keeps the invariant of the sender. -/
theorem Snd.processNote (h : Snd I pcb) : Snd I (processNote o ticks pcb i) := by
  obtain ⟨base, t, ht, hIt⟩ := h
  exact ⟨base, t, ht.processNote, hIt⟩

/-- The states after `tcp_receive`: the sender goes on, unless the pcb enters `TIME_WAIT`. -/
theorem processReceived_snd {rx : Rx} {st : TcpState} (hI : Stable I) (h : Snd I rx.pcb)
    (hst : rx.pcb.state = st ∨ (st = .ESTABLISHED ∧ rx.pcb.state = .CLOSE_WAIT))
    (hp : (processReceived rx i st).pcb = some pcb') : Snd I pcb' ∨ pcb'.state = .TIME_WAIT := by
  have hack : Snd I (tcpAckNowInput rx.pcb) := (tcpAckNowInput_sameSnd _).follows.snd hI h
  have hclose : rx.pcb.state = .ESTABLISHED ∨ rx.pcb.state = .CLOSE_WAIT →
      Snd I { tcpAckNowInput rx.pcb with state := .CLOSE_WAIT } := by
    intro hs
    obtain ⟨base, t, ht, -⟩ := h
    exact hack.setState rfl fun _ => ht.writable hs
  have hmove : ∀ {p : TcpPcb} {s : TcpState}, Snd I p → s.geEstablished = true →
      s ≠ .ESTABLISHED ∧ s ≠ .CLOSE_WAIT → Snd I { p with state := s } := by
    intro p s hs hl hne
    exact hs.setState hl fun hs' => absurd hs' (by simp [hne.1, hne.2])
  unfold processReceived at hp
  split at hp
  · -- ESTABLISHED
    refine .inl ?_
    cases hp
    split
    · exact hclose (hst.imp id And.right)
    · exact h
  · -- CLOSE_WAIT
    refine .inl ?_
    cases hp
    split
    · refine hclose (hst.elim .inr fun hs => by cases hs.1)
    · exact h
  · -- FIN_WAIT_1
    split at hp
    · split at hp
      · cases hp; exact .inr rfl
      · cases hp; exact .inl (hmove hack rfl (by decide))
    · split at hp
      · cases hp; exact .inl (hmove h rfl (by decide))
      · cases hp; exact .inl h
  · -- FIN_WAIT_2
    split at hp
    · cases hp; exact .inr rfl
    · cases hp; exact .inl h
  · -- CLOSING
    split at hp
    · cases hp; exact .inr rfl
    · cases hp; exact .inl h
  · cases hp; exact .inl h
  · cases hp; exact .inl h

/-- The acknowledgement half of `tcp_receive` leaves the state. -/
theorem Snd.ack_state {p : TcpPcb} (hs : Snd I pcb)
    (hp : i.seg.flags.ack = true ∧ tcpReceiveAck ticks pcb i = .ok p ∨
      i.seg.flags.ack = false ∧ p = pcb) : p.state = pcb.state := by
  obtain ⟨base, t, ht, -⟩ := hs
  rcases hp with ⟨-, hp⟩ | ⟨-, rfl⟩
  · rcases ht.tcpReceiveAck hp with ⟨a, ha⟩ | ⟨t', k, hn⟩
    · exact ha.state
    · exact hn.state
  · rfl

/-- The state that `tcp_receive` leaves. -/
theorem tcpReceive_state {rx : Rx} (hs : Snd I pcb) (hr : tcpReceive o ticks m pcb i = .ok rx) :
    rx.pcb.state = pcb.state ∨ (pcb.state = .ESTABLISHED ∧ rx.pcb.state = .CLOSE_WAIT) := by
  obtain ⟨p, hp, hd⟩ := tcpReceive_eq_ok hr
  rw [← hs.ack_state hp]
  exact (tcpReceiveData_finMoved hd).state

/-- A RST changes no send field. -/
theorem processRst_sameSnd (pcb : TcpPcb) (i : In) :
    ∃ p, (processRst pcb i).pcb = some p ∧ SameSnd pcb p := by
  have hs : SameSnd pcb { pcb with flags := { pcb.flags with ack_delay := false } } :=
    ⟨rfl, rfl, rfl, rfl, rfl, rfl, rfl, rfl, rfl, rfl, rfl⟩
  unfold processRst
  dsimp only
  split <;> split
  · exact ⟨_, rfl, hs⟩
  · exact ⟨_, rfl, .refl _⟩
  · exact ⟨_, rfl, hs⟩
  · exact ⟨_, rfl, .refl _⟩

/-- `tcp_process` keeps an invariant of the sender, unless the pcb enters `TIME_WAIT`. -/
theorem tcpProcess_snd {pr : Proc} (hI : Stable I) (h : Snd I pcb)
    (hk : AckKeeps I (processNote o ticks pcb i) i)
    (hp : tcpProcess o ticks m cb pcb i = .ok pr) (hpcb : pr.pcb = some pcb') :
    Snd I pcb' ∨ pcb'.state = .TIME_WAIT := by
  have hn : Snd I (processNote o ticks pcb i) := h.processNote
  have hlive : pcb.state.geEstablished = true := by
    obtain ⟨base, t, ht, -⟩ := h
    exact ht.live
  unfold tcpProcess at hp
  split at hp
  · cases hp
    obtain ⟨p, hp, hs⟩ := processRst_sameSnd pcb i
    rw [hp] at hpcb
    cases hpcb
    exact .inl (hs.follows.snd hI h)
  · split at hp
    · cases hp; cases hpcb; exact .inl ((tcpAckNowInput_sameSnd pcb).follows.snd hI h)
    · split at hp
      · next hs => rw [hs] at hlive; cases hlive
      · next hs => rw [hs] at hlive; cases hlive
      · cases hp; cases hpcb; exact .inl hn
      · cases hp; cases hpcb; exact .inl hn
      · cases hp; cases hpcb; exact .inl hn
      · obtain ⟨rx, hr, hp⟩ := bind_eq_ok.mp hp
        cases hp
        exact processReceived_snd hI (tcpReceive_snd hI hk hn hr) (tcpReceive_state hn hr) hpcb

end Invariant

/-! ## The machine -/

/-- What happens to a connection: a call of the application, a call of `tcp_output`, a tick of one
of the timers, or a segment that comes in. -/
inductive ConnEvent where
  | call (ticks : BitVec 32) (c : AppCall)
  | output (ticks : BitVec 32) (alloc : Bool)
  | slowtmr (ticks : BitVec 32) (e : TickEnv)
  | fasttmr (ticks : BitVec 32) (takesRefused out : Bool)
  | input (ticks : BitVec 32) (m : RxAlloc) (cb : Callbacks) (out : Bool) (i : In)

/-- One event. A pcb in `TIME_WAIT` answers segments and waits; the application has let go of it. -/
def connStep (o : Opts) : Conn → ConnEvent → Except Abort Conn
  | .active pcb, .call ticks c => do
    let r ← appCall o false ticks pcb c
    .ok (r.1.elim .gone .active)
  | .active pcb, .output ticks alloc => do
    let r ← tcpOutput ticks alloc pcb
    .ok (.active r.1)
  | .active pcb, .slowtmr ticks e => do
    let r ← tcpSlowtmr o ticks e pcb
    .ok r.1
  | .active pcb, .fasttmr ticks takesRefused out => do
    let r ← tcpFasttmr ticks takesRefused out pcb
    .ok (.active r.1)
  | .active pcb, .input ticks m cb out i => do
    let r ← tcpInput o ticks m cb out pcb i
    .ok r.1
  | .timeWait pcb, .input ticks _ _ out i => do
    let r ← tcpTimewaitInput ticks out pcb i
    .ok (.timeWait r.1)
  | .timeWait pcb, .slowtmr ticks _ => .ok (tcpSlowtmrTimeWait ticks pcb)
  | c, _ => .ok c

/-- An invariant of the sender, as long as the connection is active. -/
def Conn.Snd (I : Tx → Prop) : Conn → Prop
  | .active pcb => Lwip.Tcp.Snd I pcb
  | _ => True

/-- The retransmission timer fires at this tick. -/
def rtoFires (o : Opts) (pcb : TcpPcb) : Bool :=
  decide (pcb.nrtx ≠ o.TCP_MAXRTX) && rtoExpires pcb

/-- The pcb as `tcp_process` hands it to `tcp_receive`. -/
def noted (o : Opts) (ticks : BitVec 32) (pcb : TcpPcb) (i : In) : TcpPcb :=
  processNote o ticks { pcb with refused_data := none } i

/-- `I` survives the two moves that need not keep it. -/
def Keeps (o : Opts) (I : Tx → Prop) : Conn → ConnEvent → Prop
  | .active pcb, .slowtmr _ _ =>
    rtoFires o pcb = true → ∀ base t, Sender base pcb t → I t → I t.timeout
  | .active pcb, .input ticks _ _ _ i => AckKeeps I (noted o ticks pcb i) i
  | _, _ => True

section Machine

variable {I : Tx → Prop} {o : Opts} {ticks : BitVec 32} {m : RxAlloc} {cb : Callbacks}
  {pcb pcb' : TcpPcb} {i : In} {sent : List Sent} {out : Bool} {conn : Conn}

/-- A pcb in `TIME_WAIT` is not closed any more. -/
theorem Follows.timeWait (h : Follows pcb pcb') (hs : pcb.state = .TIME_WAIT) :
    pcb'.state = .TIME_WAIT := by
  rcases h.state with h | ⟨h, -⟩
  · exact h.trans hs
  · rw [hs] at h
    simp at h

/-- The end of `tcp_input` keeps an invariant of the sender. -/
theorem tcpInputFinish_snd {pr : Proc} (hI : Stable I) (h : Snd I pcb ∨ pcb.state = .TIME_WAIT)
    (hf : tcpInputFinish o ticks cb out pr pcb = .ok (conn, sent)) : conn.Snd I := by
  unfold tcpInputFinish at hf
  obtain ⟨⟨p, out₁⟩, happ, hf⟩ := bind_eq_ok.mp hf
  cases p with
  | none => cases hf; trivial
  | some p =>
    obtain ⟨⟨q, out₂⟩, ho, hf⟩ := bind_eq_ok.mp hf
    cases hf
    have hkeep : SameSnd p (keepRefused cb pr p) :=
      ⟨rfl, rfl, rfl, rfl, rfl, rfl, rfl, rfl, rfl, rfl, rfl⟩
    have hall := (appCalls_follows happ).trans (hkeep.follows.trans (tcpOutput_follows ho))
    split
    · trivial
    · next hne =>
      rcases h with h | h
      · exact hall.snd hI h
      · exact absurd (hall.timeWait h) hne

/-- `tcp_input` keeps the invariant of the sender. -/
theorem tcpInput_snd (hI : Stable I) (h : Snd I pcb) (hk : AckKeeps I (noted o ticks pcb i) i)
    (hi : tcpInput o ticks m cb out pcb i = .ok (conn, sent)) : conn.Snd I := by
  have hs : SameSnd pcb { pcb with refused_data := none } :=
    ⟨rfl, rfl, rfl, rfl, rfl, rfl, rfl, rfl, rfl, rfl, rfl⟩
  unfold tcpInput at hi
  split at hi
  · cases hi; exact h
  · obtain ⟨pr, hpr, hi⟩ := bind_eq_ok.mp hi
    split at hi
    · cases hi; trivial
    · next p hp =>
      have hp' := tcpProcess_snd hI (hs.follows.snd hI h) hk hpr hp
      split at hi
      · obtain ⟨r, -, hi⟩ := bind_eq_ok.mp hi
        cases hi
        trivial
      · exact tcpInputFinish_snd hI hp' hi

/-! ## The slow timer -/

/-- The retransmission timeout: the move of that name, and then `tcp_output`. -/
theorem Sender.tcpRexmitRto {base : Serial} {t : Tx} (h : Sender base pcb t)
    (hr : tcpRexmitRto ticks out pcb = .ok (pcb', sent)) :
    pcb.unacked = [] ∧ pcb' = pcb ∨
      ∃ t', ReflTransGen TxStep t.timeout t' ∧ Sender base pcb' t' := by
  unfold Lwip.Tcp.tcpRexmitRto at hr
  split at hr
  · next hnil => cases hr; exact .inl ⟨hnil, rfl⟩
  · refine .inr (Sender.tcpOutput ?_ hr)
    exact ⟨h.lastack, h.snd_nxt, h.snd_lbb, .nil, List.rel_append h.unacked h.unsent, h.infr,
      h.snd_wnd_le, h.mss_le, h.room, h.live, h.writable, h.weak.timeout⟩

/-- The persist timer changes no send field. -/
theorem slowtmrPersist_sameSnd (e : TickEnv) (pcb : TcpPcb) :
    SameSnd pcb (slowtmrPersist e pcb).1 := by
  unfold slowtmrPersist tcpZeroWindowProbe
  dsimp only
  split
  · split
    · exact ⟨rfl, rfl, rfl, rfl, rfl, rfl, rfl, rfl, rfl, rfl, rfl⟩
    · split <;> exact ⟨rfl, rfl, rfl, rfl, rfl, rfl, rfl, rfl, rfl, rfl, rfl⟩
  · exact ⟨rfl, rfl, rfl, rfl, rfl, rfl, rfl, rfl, rfl, rfl, rfl⟩

/-- A keepalive changes no send field. -/
theorem slowtmrKeepalive_sameSnd (ticks : BitVec 32) (e : TickEnv) (pcb : TcpPcb) :
    SameSnd pcb (slowtmrKeepalive ticks e pcb).1 := by
  unfold slowtmrKeepalive tcpKeepalive
  split
  · dsimp only
    split <;> exact ⟨rfl, rfl, rfl, rfl, rfl, rfl, rfl, rfl, rfl, rfl, rfl⟩
  · exact .refl pcb

/-- The timer of `ooseq` changes no send field. -/
theorem slowtmrOoseq_sameSnd (ticks : BitVec 32) (pcb : TcpPcb) :
    SameSnd pcb (slowtmrOoseq ticks pcb) :=
  ⟨rfl, rfl, rfl, rfl, rfl, rfl, rfl, rfl, rfl, rfl, rfl⟩

/-- A timeout is `tcp_rexmit_rto` after changes of no send field. -/
theorem slowtmrRto_eq {e : TickEnv} {r : TcpPcb × List Sent}
    (h : slowtmrRto ticks e pcb = .ok r) :
    ∃ p, SameSnd pcb p ∧ tcpRexmitRto ticks e.rto p = .ok r := by
  unfold slowtmrRto at h
  split at h
  · cases h
  · dsimp only at h
    refine ⟨_, ?_, h⟩
    exact ⟨rfl, rfl, rfl, rfl, rfl, rfl, rfl, rfl, rfl, rfl, rfl⟩

/-- A retransmission keeps an invariant that the timeout keeps. -/
theorem slowtmrRexmit_snd {e : TickEnv} (hI : Stable I) (h : Snd I pcb)
    (hk : rtoFires o pcb = true → ∀ base t, Sender base pcb t → I t → I t.timeout)
    (hr : slowtmrRexmit o ticks e pcb = .ok (pcb', sent)) : Snd I pcb' := by
  unfold slowtmrRexmit at hr
  split at hr
  · cases hr; exact h
  next hmax =>
  split at hr
  · have hs := slowtmrPersist_sameSnd e pcb
    rw [Except.ok.inj hr] at hs
    exact hs.follows.snd hI h
  · dsimp only at hr
    generalize (if pcb.rtime ≥ 0 then s16 (pcb.rtime + 1) else pcb.rtime) = rtime at hr
    have hs : SameSnd pcb { pcb with rtime := rtime } :=
      ⟨rfl, rfl, rfl, rfl, rfl, rfl, rfl, rfl, rfl, rfl, rfl⟩
    split at hr
    · next hexp =>
      obtain ⟨p, hp, hr⟩ := slowtmrRto_eq hr
      have hfires : rtoFires o pcb = true := by
        simp only [slowtmrMaxed, Bool.or_eq_true, decide_eq_true_eq, not_or] at hmax
        simp [rtoFires, hexp, hmax.2]
      obtain ⟨base, t, ht, hIt⟩ := h
      have htp := ht.congr (hs.trans hp)
      rcases htp.tcpRexmitRto hr with ⟨-, rfl⟩ | ⟨t', hsteps, ht'⟩
      · exact ⟨base, t, htp, hIt⟩
      · exact ⟨base, t', ht', hI.steps ht.weak.timeout (hk hfires base t ht hIt) hsteps⟩
    · cases hr
      exact hs.follows.snd hI h

/-- A retransmission keeps the state. -/
theorem slowtmrRexmit_state {e : TickEnv} (hr : slowtmrRexmit o ticks e pcb = .ok (pcb', sent)) :
    pcb'.state = pcb.state := by
  unfold slowtmrRexmit at hr
  split at hr
  · cases hr; rfl
  split at hr
  · have hs := slowtmrPersist_sameSnd e pcb
    rw [Except.ok.inj hr] at hs
    exact hs.state
  · dsimp only at hr
    split at hr
    · obtain ⟨p, hp, hr⟩ := slowtmrRto_eq hr
      unfold Lwip.Tcp.tcpRexmitRto at hr
      split at hr
      · cases hr; exact hp.state
      · exact (tcpOutput_state hr).trans hp.state
    · cases hr; rfl

/-- The `poll` callback keeps the invariant of the sender. -/
theorem slowtmrPoll_snd {e : TickEnv} (hI : Stable I) (h : Snd I pcb)
    (hp : slowtmrPoll o ticks e pcb = .ok (conn, sent)) : conn.Snd I := by
  have hpoll : ∀ n, SameSnd pcb { pcb with polltmr := n } := fun n =>
    ⟨rfl, rfl, rfl, rfl, rfl, rfl, rfl, rfl, rfl, rfl, rfl⟩
  obtain rfl | ⟨q, rfl, hq⟩ := slowtmrPoll_rule (P := fun p _ => Snd I p) hp
    (fun n => (hpoll n).follows.snd hI h) (fun p q _ _ hp happ => (appCalls_follows happ).snd hI hp)
    fun p q _ _ hp ho => (tcpOutput_follows ho).snd hI hp
  · trivial
  · exact hq

/-- A slow tick keeps an invariant that the timeout keeps. -/
theorem tcpSlowtmr_snd {e : TickEnv} (hI : Stable I) (h : Snd I pcb)
    (hk : rtoFires o pcb = true → ∀ base t, Sender base pcb t → I t → I t.timeout)
    (hs : tcpSlowtmr o ticks e pcb = .ok (conn, sent)) : conn.Snd I := by
  unfold tcpSlowtmr at hs
  obtain ⟨⟨p, out₁⟩, hr, hs⟩ := bind_eq_ok.mp hs
  have hp : Snd I p := slowtmrRexmit_snd hI h hk hr
  dsimp only at hs
  split at hs
  · cases hs; trivial
  · obtain ⟨⟨c, out₂⟩, hpoll, hs⟩ := bind_eq_ok.mp hs
    cases hs
    have hka := slowtmrKeepalive_sameSnd ticks e p
    have hoo := slowtmrOoseq_sameSnd ticks (slowtmrKeepalive ticks e p).1
    exact slowtmrPoll_snd hI ((hka.trans hoo).follows.snd hI hp) hpoll

/-- The sender goes on with a fast tick. -/
theorem tcpFasttmr_follows {takesRefused : Bool}
    (h : tcpFasttmr ticks takesRefused out pcb = .ok (pcb', sent)) : Follows pcb pcb' := by
  have hs : SameSnd pcb { pcb with
      refused_data := if takesRefused then none else pcb.refused_data } := by
    constructor <;> rfl
  refine tcpFasttmr_rule (P := fun p _ => Follows pcb p) h hs.follows fun {p _} hack => ?_
  have hp : SameSnd p { p with
      flags := { p.flags with ack_delay := false, ack_now := false } } := by
    constructor <;> rfl
  exact hs.follows.trans ((tcpAckNow_follows hack).trans hp.follows)

/-! ## Steps and runs -/

/-- Every event keeps an invariant of the sender that survives the timeouts and the stray
acknowledgements. -/
theorem connStep_snd {c c' : Conn} {ev : ConnEvent} (hI : Stable I) (h : c.Snd I)
    (hk : Keeps o I c ev) (hs : connStep o c ev = .ok c') : c'.Snd I := by
  cases c with
  | gone => cases ev <;> (cases hs; trivial)
  | timeWait pcb =>
    cases ev with
    | input ticks m cb out i =>
      obtain ⟨r, -, hs⟩ := bind_eq_ok.mp hs
      cases hs
      trivial
    | slowtmr ticks e =>
      cases hs
      unfold tcpSlowtmrTimeWait
      split <;> trivial
    | call ticks c => cases hs; trivial
    | output ticks alloc => cases hs; trivial
    | fasttmr ticks takesRefused out => cases hs; trivial
  | active pcb =>
    cases ev with
    | call ticks c =>
      obtain ⟨⟨p, out⟩, hc, hs⟩ := bind_eq_ok.mp hs
      cases hs
      cases p with
      | none => trivial
      | some p => exact (appCall_follows hc).snd hI h
    | output ticks alloc =>
      obtain ⟨⟨p, out⟩, ho, hs⟩ := bind_eq_ok.mp hs
      cases hs
      exact (tcpOutput_follows ho).snd hI h
    | slowtmr ticks e =>
      obtain ⟨⟨c', out⟩, ht, hs⟩ := bind_eq_ok.mp hs
      cases hs
      exact tcpSlowtmr_snd hI h hk ht
    | fasttmr ticks takesRefused out =>
      obtain ⟨⟨p, out'⟩, ht, hs⟩ := bind_eq_ok.mp hs
      cases hs
      exact (tcpFasttmr_follows ht).snd hI h
    | input ticks m cb out i =>
      obtain ⟨⟨c', out'⟩, ht, hs⟩ := bind_eq_ok.mp hs
      cases hs
      exact tcpInput_snd hI h hk ht

end Machine

end Lwip.Tcp
