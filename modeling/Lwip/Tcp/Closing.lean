import Lwip.Tcp.SendQueue

/-!
# The FIN handshake

The state machine takes its FIN for acknowledged when the acknowledgement number is `snd_nxt`. But a
FIN that waits on `unsent` lies at or after `snd_nxt`, and the test then only says that everything
sent before it was acknowledged. What follows from the test in every run is that the FIN was
acknowledged if and only if nothing was left to send (`snd_nxt = snd_lbb`) when the segment came in.
No more than closeness of the queues is needed for this, so it holds whatever the timers and stray
acknowledgements did before.
-/

namespace Lwip.Tcp

/-- The moves of the state machine that take the FIN for acknowledged: from `FIN_WAIT_1` to
`FIN_WAIT_2` or `TIME_WAIT`, from `CLOSING` to `TIME_WAIT`, and the end in `LAST_ACK`. -/
def TakesFinForAcked (pcb : TcpPcb) (pr : Proc) : Prop :=
  (pcb.state = .FIN_WAIT_1 ∧ ∃ p ∈ pr.pcb, p.state = .FIN_WAIT_2 ∨ p.state = .TIME_WAIT) ∨
  (pcb.state = .CLOSING ∧ ∃ p ∈ pr.pcb, p.state = .TIME_WAIT) ∨
  (pcb.state = .LAST_ACK ∧ pr.closed = true)

/-- Everything that was ever enqueued is acknowledged, and nothing had to be thrown away for the
queues to be empty. -/
def FinAcked (pr : Proc) : Prop :=
  ∃ p ∈ pr.pcb, p.lastack = p.snd_lbb ∧ p.unsent = [] ∧ p.unacked = [] ∧ pr.purged = []

instance (pcb : TcpPcb) (pr : Proc) : Decidable (TakesFinForAcked pcb pr) :=
  inferInstanceAs (Decidable (_ ∨ _ ∨ _))

instance (pr : Proc) : Decidable (FinAcked pr) := inferInstanceAs (Decidable (∃ p ∈ pr.pcb, _))

/-! ## What every run keeps -/

/-- That there is a sender is stable. -/
theorem true_stable : Stable (fun _ => True) := ⟨fun _ _ _ => trivial⟩

/-- Every event keeps a sender. -/
theorem keeps_true (o : Opts) (c : Conn) (ev : ConnEvent) : Keeps o (fun _ => True) c ev := by
  cases c with
  | gone => cases ev <;> trivial
  | timeWait pcb => cases ev <;> trivial
  | active pcb =>
    cases ev with
    | slowtmr ticks e => exact fun _ _ _ _ _ => trivial
    | input ticks m cb out i => exact fun _ _ _ _ _ _ _ _ _ => trivial
    | call ticks c => trivial
    | output ticks alloc => trivial
    | fasttmr ticks takesRefused out => trivial

/-- In every state of every run the pcb stands for an abstract sender. -/
theorem sender_reachable {o : Opts} {pcb₀ : TcpPcb} {es : List ConnEvent} {c : Conn}
    (h0 : FreshSender pcb₀) (hrun : run (connStep o) (.active pcb₀) es = .ok c) :
    c.Snd (fun _ => True) := by
  have hstart : (Conn.active pcb₀).Snd (fun _ => True) := by
    obtain ⟨base, t, ht, -⟩ := h0.snd
    exact ⟨base, t, ht, trivial⟩
  exact run_invariant (I := Conn.Snd (fun _ => True))
    (fun c ev _ h _ hs => connStep_snd true_stable h (keeps_true o c ev) hs) hstart
    (Along.of_forall _ fun _ _ => trivial) hrun

/-! ## The test of the state machine -/

section Test

variable {base : Serial} {o : Opts} {ticks : BitVec 32} {m : RxAlloc} {cb : Callbacks}
  {pcb : TcpPcb} {t : Tx} {i : In} {rx : Rx}

/-- The queues are empty if everything is acknowledged. -/
theorem Sender.done (h : Sender base pcb t) (hl : pcb.lastack = pcb.snd_lbb) :
    pcb.unsent = [] ∧ pcb.unacked = [] := by
  have h1 := h.weak.nxt_ge
  have h2 := h.weak.nxt_le
  have h3 := h.weak.win
  rw [h.lastack, h.snd_lbb, Serial.adv_eq_iff (by omega) (by omega)] at hl
  obtain ⟨hA, hU⟩ := h.weak.done hl
  have hA' := h.unacked
  have hU' := h.unsent
  rw [hA, List.forall₂_nil_right_iff] at hA'
  rw [hU, List.forall₂_nil_right_iff] at hU'
  exact ⟨hU', hA'⟩

/-- An acknowledgement of `snd_nxt` makes it `lastack`. -/
theorem Sender.lastack_of_acks_snd_nxt (h : Sender base pcb t) {p : TcpPcb}
    (ha : Lwip.Tcp.tcpReceiveAck ticks pcb i = .ok p) (hack : i.ackno = pcb.snd_nxt) :
    p.lastack = p.snd_nxt ∧ p.snd_nxt = pcb.snd_nxt ∧ p.snd_lbb = pcb.snd_lbb ∧
      ∃ t', Sender base p t' := by
  have h1 := h.weak.nxt_ge
  have h2 := h.weak.nxt_le
  have h3 := h.weak.win
  rw [h.snd_nxt] at hack
  rcases h.tcpReceiveAck ha with ⟨a, hn⟩ | ⟨t', k, hn⟩
  · have hlt := hn.lt
    have hle := hn.le
    have haeq := hn.ackno
    rw [hack, Serial.adv_eq_iff (by omega) (by omega)] at haeq
    refine ⟨?_, hn.snd_nxt, hn.snd_lbb, _, hn.sender⟩
    rw [hn.sender.lastack, hn.sender.snd_nxt]
    show base.adv a = base.adv t.nxt
    rw [haeq]
  · have heq : t.lastack = t.nxt := by
      by_contra hne
      exact hn.not_new t.nxt (by omega) (Nat.le_refl _) hack
    refine ⟨?_, hn.snd_nxt, hn.snd_lbb, _, hn.sender⟩
    rw [hn.sender.lastack, hn.sender.snd_nxt]
    show base.adv t'.lastack = base.adv t'.nxt
    rw [hn.lastack, hn.nxt, heq]

/-- After the test everything is acknowledged if and only if everything was sent before. -/
theorem Sender.ackedAll_iff (h : Sender base pcb t) (hr : tcpReceive o ticks m pcb i = .ok rx)
    (ha : ackedAll rx.pcb i = true) :
    rx.pcb.lastack = rx.pcb.snd_lbb ∧ rx.pcb.unsent = [] ∧ rx.pcb.unacked = [] ↔
      pcb.snd_nxt = pcb.snd_lbb := by
  unfold ackedAll at ha
  simp only [Bool.and_eq_true, decide_eq_true_eq] at ha
  obtain ⟨p, hp, hd⟩ := tcpReceive_eq_ok hr
  have hmoved := tcpReceiveData_finMoved hd
  have hsame := hmoved.same
  rcases hp with ⟨-, hp⟩ | ⟨hf, -⟩
  · have hnxt : i.ackno = pcb.snd_nxt := by
      have hrx : rx.pcb.snd_nxt = p.snd_nxt := hsame.snd_nxt
      rw [ha.2, hrx]
      rcases h.tcpReceiveAck hp with ⟨a, hn⟩ | ⟨t', k, hn⟩
      · exact hn.snd_nxt
      · exact hn.snd_nxt
    obtain ⟨hl, hn, hb, t', ht'⟩ := h.lastack_of_acks_snd_nxt hp hnxt
    have hsend : Sender base rx.pcb t' := ht'.finMoved hmoved
    have hl' : rx.pcb.lastack = pcb.snd_nxt := (hsame.lastack.trans hl).trans hn
    have hb' : rx.pcb.snd_lbb = pcb.snd_lbb := hsame.snd_lbb.trans hb
    rw [hl', hb']
    constructor
    · exact And.left
    · intro heq
      exact ⟨heq, hsend.done (by rw [hl', hb', heq])⟩
  · rw [hf] at ha
    cases ha.1

end Test

/-! ## The moves -/

/-- A purge keeps the numbers of the sender. -/
theorem tcpPcbPurge_lastack (pcb : TcpPcb) :
    (tcpPcbPurge pcb).lastack = pcb.lastack ∧ (tcpPcbPurge pcb).snd_lbb = pcb.snd_lbb := by
  unfold tcpPcbPurge
  split <;> exact ⟨rfl, rfl⟩

/-- The queues of a pcb that enters `TIME_WAIT` are purged. -/
theorem enterTimeWait_finAcked {rx : Rx} {p : TcpPcb} (hl : p.lastack = rx.pcb.lastack)
    (hb : p.snd_lbb = rx.pcb.snd_lbb) (hq : (tcpPcbPurge p).unsent = [] ∧
      (tcpPcbPurge p).unacked = []) :
    FinAcked (enterTimeWait rx p) ↔
      rx.pcb.lastack = rx.pcb.snd_lbb ∧ rx.pcb.unsent = [] ∧ rx.pcb.unacked = [] := by
  obtain ⟨h1, h2⟩ := tcpPcbPurge_lastack p
  constructor
  · rintro ⟨q, hq', h3, -, -, hpurged⟩
    cases hq'
    have hnil := List.append_eq_nil_iff.mp (show rx.pcb.unacked ++ rx.pcb.unsent = [] from hpurged)
    have h3' : (tcpPcbPurge p).lastack = (tcpPcbPurge p).snd_lbb := h3
    rw [h1, h2, hl, hb] at h3'
    exact ⟨h3', hnil.2, hnil.1⟩
  · rintro ⟨h3, h4, h5⟩
    refine ⟨_, rfl, ?_, hq.1, hq.2, ?_⟩
    · show (tcpPcbPurge p).lastack = (tcpPcbPurge p).snd_lbb
      rw [h1, h2, hl, hb]
      exact h3
    · show rx.pcb.unacked ++ rx.pcb.unsent = []
      rw [h4, h5]
      rfl

/-- The moves of `TakesFinForAcked` are made by the test of the state machine. -/
theorem processReceived_takesFin {rx : Rx} {i : In} {pcb : TcpPcb}
    (hst : rx.pcb.state = pcb.state ∨ (pcb.state = .ESTABLISHED ∧ rx.pcb.state = .CLOSE_WAIT))
    (h : TakesFinForAcked pcb (processReceived rx i pcb.state)) :
    ackedAll rx.pcb i = true ∧ (FinAcked (processReceived rx i pcb.state) ↔
      rx.pcb.lastack = rx.pcb.snd_lbb ∧ rx.pcb.unsent = [] ∧ rx.pcb.unacked = []) := by
  have hkeep : ∀ {pr : Proc} {p : TcpPcb}, pr.pcb = some p → pr.purged = [] →
      p.lastack = rx.pcb.lastack → p.snd_lbb = rx.pcb.snd_lbb → p.unsent = rx.pcb.unsent →
      p.unacked = rx.pcb.unacked → (FinAcked pr ↔
        rx.pcb.lastack = rx.pcb.snd_lbb ∧ rx.pcb.unsent = [] ∧ rx.pcb.unacked = []) := by
    intro pr p hpcb hpurged h1 h2 h3 h4
    unfold FinAcked
    simp [hpcb, hpurged, h1, h2, h3, h4]
  rcases h with ⟨hs, p, hp, hps⟩ | ⟨hs, p, hp, hps⟩ | ⟨hs, hc⟩
  · -- FIN_WAIT_1
    have hrx : rx.pcb.state = .FIN_WAIT_1 := by
      rcases hst with h | ⟨h, -⟩
      · exact h.trans hs
      · rw [hs] at h; cases h
    rw [hs] at hp ⊢
    simp only [processReceived] at hp ⊢
    by_cases hf : rx.got_fin = true
    · rw [if_pos hf] at hp ⊢
      by_cases ha : ackedAll rx.pcb i = true
      · rw [if_pos ha] at hp ⊢
        have hpurge : tcpPcbPurge (tcpAckNowInput rx.pcb) = { tcpAckNowInput rx.pcb with
            refused_data := none, rtime := -1, ooseq := [], unsent := [], unacked := [] } := by
          unfold tcpPcbPurge tcpAckNowInput
          simp [hrx]
        refine ⟨ha, enterTimeWait_finAcked rfl rfl ?_⟩
        rw [hpurge]
        exact ⟨rfl, rfl⟩
      · rw [if_neg ha] at hp
        cases hp
        rcases hps with hps | hps <;> cases hps
    · rw [if_neg hf] at hp ⊢
      by_cases ha : ackedAll rx.pcb i = true
      · rw [if_pos ha]
        exact ⟨ha, hkeep rfl rfl rfl rfl rfl rfl⟩
      · rw [if_neg ha] at hp
        cases hp
        rw [hrx] at hps
        rcases hps with hps | hps <;> cases hps
  · -- CLOSING
    have hrx : rx.pcb.state = .CLOSING := by
      rcases hst with h | ⟨h, -⟩
      · exact h.trans hs
      · rw [hs] at h; cases h
    rw [hs] at hp ⊢
    simp only [processReceived] at hp ⊢
    by_cases ha : ackedAll rx.pcb i = true
    · rw [if_pos ha]
      have hpurge : tcpPcbPurge rx.pcb = { rx.pcb with
          refused_data := none, rtime := -1, ooseq := [], unsent := [], unacked := [] } := by
        unfold tcpPcbPurge
        simp [hrx]
      refine ⟨ha, enterTimeWait_finAcked rfl rfl ?_⟩
      rw [hpurge]
      exact ⟨rfl, rfl⟩
    · rw [if_neg ha] at hp
      cases hp
      rw [hrx] at hps
      cases hps
  · -- LAST_ACK
    rw [hs] at hc ⊢
    exact ⟨hc, hkeep rfl rfl rfl rfl rfl rfl⟩

/-- In every run, when the state machine takes the FIN for acknowledged, it is acknowledged, with
nothing left on the queues, if and only if nothing was left to send before. -/
theorem fin_handshake_sound_iff (o : Opts) {pcb₀ pcb : TcpPcb} {es : List ConnEvent}
    (h0 : FreshSender pcb₀) (hrun : run (connStep o) (.active pcb₀) es = .ok (.active pcb))
    {ticks : BitVec 32} {m : RxAlloc} {cb : Callbacks} {i : In} {pr : Proc}
    (hp : tcpProcess o ticks m cb { pcb with refused_data := none } i = .ok pr)
    (hmove : TakesFinForAcked pcb pr) : FinAcked pr ↔ pcb.snd_nxt = pcb.snd_lbb := by
  obtain ⟨base, t, ht, -⟩ := sender_reachable h0 hrun
  have hnone : SameSnd pcb { pcb with refused_data := none } :=
    ⟨rfl, rfl, rfl, rfl, rfl, rfl, rfl, rfl, rfl, rfl, rfl⟩
  have hn : Sender base (noted o ticks pcb i) t := (ht.congr hnone).processNote
  -- A segment that does not come to `tcp_receive` makes none of the moves.
  have hstay : ∀ p : TcpPcb, pr.pcb = some p → p.state = pcb.state → pr.closed = false → False := by
    intro p hpr hs hc
    rcases hmove with ⟨h1, q, h2, h3⟩ | ⟨h1, q, h2, h3⟩ | ⟨h1, h2⟩
    · rw [hpr] at h2
      cases h2
      rw [hs, h1] at h3
      simp at h3
    · rw [hpr] at h2
      cases h2
      rw [hs, h1] at h3
      cases h3
    · rw [hc] at h2
      cases h2
  unfold tcpProcess at hp
  split at hp
  · cases hp
    obtain ⟨p, hp, hs⟩ := processRst_sameSnd { pcb with refused_data := none } i
    refine (hstay p hp hs.state ?_).elim
    unfold processRst
    dsimp only
    split <;> split <;> rfl
  · split at hp
    · cases hp
      exact (hstay _ rfl rfl rfl).elim
    · have hlive := ht.live
      split at hp
      · next hs => exact absurd (hs ▸ hlive : TcpState.geEstablished .SYN_SENT = true) (by decide)
      · next hs => exact absurd (hs ▸ hlive : TcpState.geEstablished .SYN_RCVD = true) (by decide)
      · cases hp; exact (hstay _ rfl rfl rfl).elim
      · cases hp; exact (hstay _ rfl rfl rfl).elim
      · cases hp; exact (hstay _ rfl rfl rfl).elim
      · obtain ⟨rx, hr, hp⟩ := bind_eq_ok.mp hp
        cases hp
        have hsnd : Snd (fun _ => True) (noted o ticks pcb i) := ⟨base, t, hn, trivial⟩
        obtain ⟨ha, hiff⟩ := processReceived_takesFin (tcpReceive_state hsnd hr) hmove
        exact hiff.trans (hn.ackedAll_iff hr ha)

/-- A call of `tcp_close`. -/
def closes : ConnEvent := .call 1 (.close (fun _ => true) true)

/-- An acknowledgement of everything before `ackno`. -/
def ackUpTo (ackno : Serial) : In :=
  { seg := { seqno := 1, len := 0, flags := { ack := true } }, ackno, wnd := 536 }

/-- The FIN of a connection that was closed is acknowledged. -/
theorem fin_handshake_sound_iff_closes :
    ∃ pcb pr, run (connStep .sane) (.active saneSender) [closes] = .ok (.active pcb) ∧
      tcpProcess .sane 1 {} {} { pcb with refused_data := none } (ackUpTo 2) = .ok pr ∧
      TakesFinForAcked pcb pr ∧ FinAcked pr := by
  have hrun : run (connStep .sane) (.active saneSender) [closes] = .ok (.active _) := rfl
  refine ⟨_, _, hrun, rfl, by decide +kernel, ?_⟩
  exact (fin_handshake_sound_iff .sane saneSender_fresh hrun
    (rfl : tcpProcess .sane 1 {} {} _ (ackUpTo 2) = .ok _) (by decide +kernel)).mpr
      (by decide +kernel)

/-- A full segment fills the peer's window; 100 more bytes and the FIN wait behind it. -/
def blockedClose : List ConnEvent := [writes 536, .output 1 true, writes 100, closes]

/-- The acknowledgement of the first segment is taken for that of the FIN, which was never sent. -/
theorem blockedClose_unsound :
    FreshSender (.established .sane 0 0 536) ∧
      ∃ pcb pr, run (connStep .sane) (.active (.established .sane 0 0 536)) blockedClose =
          .ok (.active pcb) ∧
        tcpProcess .sane 1 {} {} { pcb with refused_data := none } (ackUpTo 537) = .ok pr ∧
        TakesFinForAcked pcb pr ∧ ¬FinAcked pr := by
  refine ⟨⟨rfl, rfl, rfl, rfl, rfl, rfl, by decide, by decide, by decide⟩, ?_⟩
  have hbad : ((run (connStep .sane) (.active (.established .sane 0 0 536))
    blockedClose).toOption.bind
      Conn.active?).any (fun pcb =>
        (tcpProcess .sane 1 {} {} { pcb with refused_data := none } (ackUpTo 537)).toOption.any
          fun pr => decide (TakesFinForAcked pcb pr ∧ ¬FinAcked pr)) = true := by decide +kernel
  obtain ⟨pcb, hrun, hpcb⟩ := exists_active_of_any hbad
  cases hpr : tcpProcess .sane 1 {} {} { pcb with refused_data := none } (ackUpTo 537) with
  | error a =>
    rw [hpr] at hpcb
    cases hpcb
  | ok pr =>
    rw [hpr] at hpcb
    obtain ⟨hmove, hnot⟩ := of_decide_eq_true hpcb
    exact ⟨pcb, pr, hrun, hpr, hmove, hnot⟩

end Lwip.Tcp
