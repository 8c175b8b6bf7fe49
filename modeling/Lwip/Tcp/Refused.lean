import Lwip.Tcp.Connection
import Lwip.Tcp.Untouched

/-!
# The data that the application refused

`refused_data` is written by `tcp_input` and by `tcp_fasttmr`, and dropped by `tcp_pcb_purge`. All
other functions leave it alone. `tcpProcess_cases` then lists what `tcp_process` hands up: nothing,
or what a call of `tcp_receive` does.
-/

namespace Lwip.Tcp

section Receive

variable {o : Opts} {ticks : BitVec 32} {m : RxAlloc} {pcb pcb' : TcpPcb} {i : In} {rx : Rx}

/-- The acknowledgement half of `tcp_receive` leaves the state and the refused data alone. -/
theorem tcpReceiveAck_refused (h : tcpReceiveAck ticks pcb i = .ok pcb') :
    pcb'.state = pcb.state ∧ pcb'.refused_data = pcb.refused_data := by
  unfold tcpReceiveAck at h
  obtain ⟨p, hp, h⟩ := bind_eq_ok.mp h
  obtain ⟨q, hq, h⟩ := bind_eq_ok.mp h
  cases h
  have hrtt : (estimateRtt ticks q i).state = q.state ∧
      (estimateRtt ticks q i).refused_data = q.refused_data := by
    unfold estimateRtt
    split <;> exact ⟨rfl, rfl⟩
  have hunsent : q.state = p.state ∧ q.refused_data = p.refused_data := by
    unfold tcpReceiveUnsent at hq
    obtain ⟨r, -, hq⟩ := bind_eq_ok.mp hq
    cases hq
    exact ⟨rfl, rfl⟩
  have hwnd : (updateSndWnd pcb i).state = pcb.state ∧
      (updateSndWnd pcb i).refused_data = pcb.refused_data := by
    unfold updateSndWnd
    split <;> exact ⟨rfl, rfl⟩
  have hackno : p.state = (updateSndWnd pcb i).state ∧
      p.refused_data = (updateSndWnd pcb i).refused_data := by
    unfold tcpReceiveAckno at hp
    split at hp
    · cases hp
      unfold tcpReceiveOldAck tcpReceiveDupAck tcpRexmitFast tcpRexmit
      repeat' split
      all_goals exact ⟨rfl, rfl⟩
    · split at hp
      · unfold tcpReceiveNewAck at hp
        obtain ⟨cwnd, -, hp⟩ := bind_eq_ok.mp hp
        obtain ⟨r, -, hp⟩ := bind_eq_ok.mp hp
        cases hp
        exact ⟨rfl, rfl⟩
      · cases hp
        exact ⟨rfl, rfl⟩
  constructor
  · exact hrtt.1.trans (hunsent.1.trans (hackno.1.trans hwnd.1))
  · exact hrtt.2.trans (hunsent.2.trans (hackno.2.trans hwnd.2))

/-- `tcp_receive` does not touch the refused data. -/
theorem tcpReceive_refused (h : tcpReceive o ticks m pcb i = .ok rx) :
    rx.pcb.refused_data = pcb.refused_data := by
  obtain ⟨p, hp, h⟩ := tcpReceive_eq_ok h
  have hack : p.refused_data = pcb.refused_data := by
    rcases hp with ⟨-, hp⟩ | ⟨-, rfl⟩
    · exact (tcpReceiveAck_refused hp).2
    · rfl
  exact (tcpReceiveData_dataFrame h).refused_data.trans hack

/-- The state that `tcp_receive` leaves. -/
theorem tcpReceive_move (h : tcpReceive o ticks m pcb i = .ok rx) :
    rx.pcb.state = pcb.state ∨ (pcb.state = .ESTABLISHED ∧ rx.pcb.state = .CLOSE_WAIT) := by
  obtain ⟨p, hp, h⟩ := tcpReceive_eq_ok h
  have hack : p.state = pcb.state := by
    rcases hp with ⟨-, hp⟩ | ⟨-, rfl⟩
    · exact (tcpReceiveAck_refused hp).1
    · rfl
  rw [← hack]
  exact (tcpReceiveData_finMoved h).state

/-- `tcp_receive` does not start to open a connection. -/
theorem tcpReceive_opening (h : tcpReceive o ticks m pcb i = .ok rx)
    (hs : rx.pcb.state = .SYN_SENT) : pcb.state = .SYN_SENT := by
  rcases tcpReceive_move h with hst | ⟨-, hst⟩
  · exact hst.symm.trans hs
  · rw [hs] at hst
    cases hst

end Receive

/-! ## Sending, and the calls of the application -/

section Send

variable {o : Opts} {ticks : BitVec 32} {input alloc : Bool} {pcb pcb' : TcpPcb} {out : List Sent}

/-- `tcp_output` keeps the state, with the test of the first lines too. -/
theorem tcpOutputUnlessInput_state
    (h : tcpOutputUnlessInput input ticks alloc pcb = .ok (pcb', out)) :
    pcb'.state = pcb.state := by
  exact tcpOutputUnlessInput_rule (P := fun p _ => p.state = pcb.state) h rfl tcpOutput_state

/-- `tcp_recved` keeps the state. -/
theorem tcpRecved_state {len : ℕ} (h : tcpRecved o input ticks alloc pcb len = .ok (pcb', out)) :
    pcb'.state = pcb.state := by
  obtain ⟨w, h⟩ := tcpRecved_cases h
  have hann := (tcpUpdateRcvAnnWnd_sameSnd o { pcb with rcv_wnd := w }).state
  obtain h | ⟨rfl, -⟩ := h
  · exact (tcpOutputUnlessInput_state h).trans hann
  · exact hann

/-- `tcp_write` keeps the state. -/
theorem tcpWrite_state {allocs : ℕ → Bool} {data : List UInt8} {copy more : Bool} {e : Err}
    (h : tcpWrite o allocs pcb data copy more = .ok (e, pcb')) : pcb'.state = pcb.state := by
  obtain ⟨-, rfl⟩ | ⟨-, ⟨-, -, rfl⟩ | ⟨-, h⟩⟩ := tcpWrite_cases h
  · rfl
  · rfl
  · exact tcpEnqueue_state h

/-! ## The timers -/

/-- `tcp_rexmit_rto` leaves the refused data alone. -/
theorem tcpRexmitRto_refused (h : tcpRexmitRto ticks alloc pcb = .ok (pcb', out)) :
    pcb'.refused_data = pcb.refused_data := by
  unfold tcpRexmitRto at h
  split at h
  · cases h
    rfl
  · exact (tcpOutput_callFrame h).refused_data.trans rfl

/-- A retransmission leaves the refused data alone. -/
theorem slowtmrRexmit_refused {e : TickEnv}
    (h : slowtmrRexmit o ticks e pcb = .ok (pcb', out)) : pcb'.refused_data = pcb.refused_data := by
  unfold slowtmrRexmit at h
  split at h
  · cases h
    rfl
  split at h
  · have heq : slowtmrPersist e pcb = (pcb', out) := Except.ok.inj h
    have hp : (slowtmrPersist e pcb).1.refused_data = pcb.refused_data := by
      unfold slowtmrPersist tcpZeroWindowProbe
      dsimp only
      split
      · split
        · rfl
        · split <;> rfl
      · rfl
    rwa [heq] at hp
  · dsimp only at h
    generalize (if pcb.rtime ≥ 0 then s16 (pcb.rtime + 1) else pcb.rtime) = rtime at h
    split at h
    · unfold slowtmrRto at h
      split at h
      · cases h
      · exact (tcpRexmitRto_refused h).trans rfl
    · cases h
      rfl

/-- A keepalive leaves the refused data alone. -/
theorem slowtmrKeepalive_refused (ticks : BitVec 32) (e : TickEnv) (pcb : TcpPcb) :
    (slowtmrKeepalive ticks e pcb).1.refused_data = pcb.refused_data := by
  unfold slowtmrKeepalive tcpKeepalive
  split
  · dsimp only
    split <;> rfl
  · rfl

/-- A slow timer tick after which the pcb is still there. -/
theorem tcpSlowtmr_refused {e : TickEnv} {conn : Conn}
    (h : tcpSlowtmr o ticks e pcb = .ok (conn, out)) :
    conn = .gone ∨ ∃ pcb', conn = .active pcb' ∧ pcb'.refused_data = pcb.refused_data := by
  exact tcpSlowtmr_rule (P := fun p _ => p.refused_data = pcb.refused_data) h
    (fun p _ hr _ _ => (slowtmrKeepalive_refused ticks e p).trans (slowtmrRexmit_refused hr))
    (fun p q _ _ hp happ => (appCalls_callFrame happ).refused_data.trans hp)
    fun p q _ _ hp ho => (tcpOutput_callFrame ho).refused_data.trans hp

end Send

/-! ## What `tcp_process` hands up -/

/-- The fields that say what the receiver has and will take. The connection is not one that is being
opened, unless it was. -/
structure SameWnd (a b : TcpPcb) : Prop where
  rcv_nxt : b.rcv_nxt = a.rcv_nxt
  rcv_wnd : b.rcv_wnd = a.rcv_wnd
  rcv_ann_wnd : b.rcv_ann_wnd = a.rcv_ann_wnd
  rcv_ann_right_edge : b.rcv_ann_right_edge = a.rcv_ann_right_edge
  ooseq : b.ooseq = a.ooseq
  refused : b.refused_data = a.refused_data
  opening : b.state = .SYN_SENT → a.state = .SYN_SENT

/-- The fields of the window are those of the pcb. -/
theorem SameWnd.refl (a : TcpPcb) : SameWnd a a := ⟨rfl, rfl, rfl, rfl, rfl, rfl, id⟩

/-- The same fields of the window in two steps. -/
theorem SameWnd.trans {a b c : TcpPcb} (h : SameWnd a b) (h' : SameWnd b c) : SameWnd a c :=
  ⟨h'.rcv_nxt.trans h.rcv_nxt, h'.rcv_wnd.trans h.rcv_wnd, h'.rcv_ann_wnd.trans h.rcv_ann_wnd,
    h'.rcv_ann_right_edge.trans h.rcv_ann_right_edge, h'.ooseq.trans h.ooseq,
    h'.refused.trans h.refused, fun hs => h.opening (h'.opening hs)⟩

/-- The receive fields and the refused data are the fields of the window. -/
theorem SameRcv.sameWnd {a b : TcpPcb} (h : SameRcv a b) (hr : b.refused_data = a.refused_data)
    (hs : b.state = .SYN_SENT → a.state = .SYN_SENT) : SameWnd a b :=
  ⟨h.rcv_nxt, h.rcv_wnd, h.rcv_ann_wnd, h.rcv_ann_right_edge, h.ooseq, hr, hs⟩

/-- The arguments of a call of `tcp_write`, with the outcomes of its allocations. -/
structure WriteCall where
  alloc : ℕ → Bool := fun _ => true
  data : List UInt8
  copy : Bool := true
  more : Bool := false

/-- The call of the application. -/
def WriteCall.call (w : WriteCall) : AppCall := .write w.alloc w.data w.copy w.more

/-- `tcp_process` gives the segment to `tcp_receive`. -/
def receives (pcb : TcpPcb) (i : In) : Bool :=
  !i.seg.flags.rst && match pcb.state with
    | .SYN_RCVD => i.seg.flags.ack &&
        decide (Serial.between i.ackno (pcb.lastack.adv 1) pcb.snd_nxt)
    | .CLOSED | .LISTEN | .SYN_SENT | .TIME_WAIT => false
    | _ => !i.seg.flags.syn

/-- `tcp_process` hands up what `tcp_receive` did. The receiver of the pcb that it leaves is that of
`tcp_receive`, unless the pcb enters `TIME_WAIT`. -/
structure HandsUp (rx : Rx) (pr : Proc) : Prop where
  data : pr.recv_data = rx.recv_data
  fin : pr.got_fin = rx.got_fin
  pcb : ∀ p, pr.pcb = some p → SameWnd rx.pcb p ∨
    p.state = .TIME_WAIT ∧ (rx.pcb.refused_data = none → p.refused_data = none)

/-- What `tcp_process` hands up: nothing, or what `tcp_receive` does. -/
inductive ProcCase (o : Opts) (ticks : BitVec 32) (m : RxAlloc) (pcb : TcpPcb) (i : In) :
    Proc → Prop where
  | quiet {pr : Proc} : pr.recv_data = [] → pr.got_fin = false →
      (∀ p, pr.pcb = some p → p.refused_data = pcb.refused_data) →
      (∀ p, pr.pcb = some p → pcb.state ≠ .SYN_SENT → SameWnd pcb p) → ProcCase o ticks m pcb i pr
  | received {pr : Proc} {p : TcpPcb} {rx : Rx} : receives pcb i = true → SameWnd pcb p →
      tcpReceive o ticks m p i = .ok rx → HandsUp rx pr → ProcCase o ticks m pcb i pr

section Process

variable {o : Opts} {ticks : BitVec 32} {m : RxAlloc} {cb : Callbacks} {pcb pcb' : TcpPcb} {i : In}
  {out : List Sent}

/-- Writing changes nothing of the receiver, nor the state. -/
theorem appCalls_writes {input : Bool} {ws : List WriteCall} {r : Option TcpPcb}
    (h : appCalls o input ticks pcb (ws.map WriteCall.call) = .ok (r, out)) :
    ∃ p, r = some p ∧ SameWnd pcb p ∧ p.state = pcb.state := by
  induction ws generalizing pcb out with
  | nil =>
    cases h
    exact ⟨pcb, rfl, .refl pcb, rfl⟩
  | cons w ws ih =>
    obtain ⟨⟨r₁, out₁⟩, hc, h⟩ := bind_eq_ok.mp h
    obtain ⟨⟨e, p⟩, hw, hc⟩ := bind_eq_ok.mp hc
    cases hc
    obtain ⟨⟨r₂, out₂⟩, hcs, h⟩ := bind_eq_ok.mp h
    cases h
    obtain ⟨p', rfl, hp', hst⟩ := ih hcs
    have hsame : SameWnd pcb p := (tcpWrite_sameRcv hw).sameWnd (tcpWrite_callFrame hw).refused_data
      fun hs => (tcpWrite_state hw).symm.trans hs
    exact ⟨p', rfl, hsame.trans hp', hst.trans (tcpWrite_state hw)⟩

/-- The pcb after `tcp_receive` goes on with the receiver as it is. -/
theorem SameWnd.handsUp {rx : Rx} {q : TcpPcb} (h : SameWnd rx.pcb q) :
    HandsUp rx (rx.toProc q) where
  data := rfl
  fin := rfl
  pcb p hp := by
    cases hp
    exact .inl h

/-- The pcb after `tcp_receive` enters `TIME_WAIT`. -/
theorem enterTimeWait_handsUp {rx : Rx} {q : TcpPcb} (hq : q.refused_data = rx.pcb.refused_data) :
    HandsUp rx (enterTimeWait rx q) where
  data := rfl
  fin := rfl
  pcb p hp := by
    cases hp
    refine .inr ⟨rfl, fun hn => ?_⟩
    show (tcpPcbPurge q).refused_data = none
    unfold tcpPcbPurge
    split
    · exact hq.trans hn
    · exact hq.trans hn
    · exact hq.trans hn
    · rfl

/-- Behind `tcp_receive` nothing more is handed up. -/
theorem processReceived_handsUp (rx : Rx) (i : In) (st : TcpState) :
    HandsUp rx (processReceived rx i st) := by
  have hstay : HandsUp rx (rx.toProc rx.pcb) := (SameWnd.refl _).handsUp
  have hclosing : HandsUp rx (rx.toProc { tcpAckNowInput rx.pcb with state := .CLOSING }) :=
    SameWnd.handsUp ⟨rfl, rfl, rfl, rfl, rfl, rfl, fun h => by cases h⟩
  have htw : HandsUp rx (enterTimeWait rx (tcpAckNowInput rx.pcb)) := enterTimeWait_handsUp rfl
  have hwait : SameWnd rx.pcb
      (if rx.got_fin then { tcpAckNowInput rx.pcb with state := .CLOSE_WAIT } else rx.pcb) := by
    split
    · exact ⟨rfl, rfl, rfl, rfl, rfl, rfl, fun h => by cases h⟩
    · exact .refl _
  cases st with
  | ESTABLISHED | CLOSE_WAIT => exact hwait.handsUp
  | FIN_WAIT_1 =>
    simp only [processReceived]
    split
    · split
      · exact htw
      · exact hclosing
    · split
      · exact SameWnd.handsUp ⟨rfl, rfl, rfl, rfl, rfl, rfl, fun h => by cases h⟩
      · exact hstay
  | FIN_WAIT_2 =>
    simp only [processReceived]
    split
    · exact htw
    · exact hstay
  | CLOSING =>
    simp only [processReceived]
    split
    · exact enterTimeWait_handsUp rfl
    · exact hstay
  | LAST_ACK => exact ⟨rfl, rfl, hstay.pcb⟩
  | CLOSED | LISTEN | SYN_SENT | SYN_RCVD | TIME_WAIT => exact hstay

/-- The state `SYN_RCVD`, with an `accept` callback that only writes. -/
theorem processSynRcvd_cases {ws : List WriteCall} {pr : Proc}
    (hcb : cb.onAccept = ws.map WriteCall.call) (hst : pcb.state = .SYN_RCVD)
    (hrst : i.seg.flags.rst = false)
    (h : processSynRcvd o ticks m cb (processNote o ticks pcb i) i = .ok pr) :
    ProcCase o ticks m pcb i pr := by
  have hnote : SameWnd pcb (processNote o ticks pcb i) := ⟨rfl, rfl, rfl, rfl, rfl, rfl, id⟩
  have hquiet : ∀ {q : TcpPcb} {rst : Option (Serial × Serial)}, SameWnd pcb q →
      ProcCase o ticks m pcb i { pcb := some q, rst } := by
    intro q rst hq
    exact .quiet rfl rfl (fun p hp => by cases hp; exact hq.refused)
      fun p hp _ => by cases hp; exact hq
  unfold processSynRcvd at h
  split at h
  · next hack =>
    split at h
    · next hb =>
      obtain ⟨⟨r, out⟩, happ, h⟩ := bind_eq_ok.mp h
      rw [hcb] at happ
      obtain ⟨p, rfl, hp, -⟩ := appCalls_writes happ
      dsimp only at h
      split at h
      · cases h
        exact .quiet rfl rfl (fun p hp => by cases hp) fun p hp => by cases hp
      · obtain ⟨rx, hr, h⟩ := bind_eq_ok.mp h
        cases h
        have hrec : receives pcb i = true := by
          simp only [receives, hst, hrst, hack]
          have hb' : Serial.between i.ackno (pcb.lastack.adv 1) pcb.snd_nxt := hb
          simpa using hb'
        have hopen : SameWnd pcb { processNote o ticks pcb i with state := .ESTABLISHED } :=
          ⟨rfl, rfl, rfl, rfl, rfl, rfl, fun h => by cases h⟩
        refine .received hrec (hopen.trans hp) hr (SameWnd.handsUp ?_)
        split
        · exact ⟨rfl, rfl, rfl, rfl, rfl, rfl, fun h => by cases h⟩
        · exact ⟨rfl, rfl, rfl, rfl, rfl, rfl, id⟩
    · cases h
      exact hquiet hnote
  · split at h
    · cases h
      have hrex : (tcpRexmit (processNote o ticks pcb i)).refused_data = pcb.refused_data := by
        unfold tcpRexmit
        split <;> rfl
      have hst' : (tcpRexmit (processNote o ticks pcb i)).state = .SYN_SENT →
          pcb.state = .SYN_SENT := by
        unfold tcpRexmit
        split <;> exact id
      exact hquiet (hnote.trans ((tcpRexmit_sameRcv _).sameWnd hrex hst'))
    · cases h
      exact hquiet hnote

/-- `tcp_process`, with an `accept` callback that only writes. -/
theorem tcpProcess_cases {ws : List WriteCall} {pr : Proc}
    (hcb : cb.onAccept = ws.map WriteCall.call) (h : tcpProcess o ticks m cb pcb i = .ok pr) :
    ProcCase o ticks m pcb i pr := by
  have hnote : SameWnd pcb (processNote o ticks pcb i) := ⟨rfl, rfl, rfl, rfl, rfl, rfl, id⟩
  have hquiet : ∀ {q : TcpPcb} {rst : Option (Serial × Serial)} {b : Bool}, SameWnd pcb q →
      ProcCase o ticks m pcb i { pcb := some q, rst, reset := b } := by
    intro q rst b hq
    exact .quiet rfl rfl (fun p hp => by cases hp; exact hq.refused)
      fun p hp _ => by cases hp; exact hq
  unfold tcpProcess at h
  split at h
  · cases h
    unfold processRst
    dsimp only
    split <;> split <;> exact hquiet ⟨rfl, rfl, rfl, rfl, rfl, rfl, id⟩
  next hrst =>
  have hrst' : i.seg.flags.rst = false := by simpa using hrst
  split at h
  · cases h
    exact hquiet ⟨rfl, rfl, rfl, rfl, rfl, rfl, id⟩
  next hsyn =>
  have hreceived : ∀ st, pcb.state = st → st.geEstablished = true → st ≠ .TIME_WAIT →
      (tcpReceive o ticks m (processNote o ticks pcb i) i >>= fun rx =>
        .ok (processReceived rx i st)) = .ok pr → ProcCase o ticks m pcb i pr := by
    intro st hst hlive hne h
    obtain ⟨rx, hr, h⟩ := bind_eq_ok.mp h
    cases h
    have hrec : receives pcb i = true := by
      have hnosyn : i.seg.flags.syn = false := by
        cases st <;> simp_all [TcpState.geEstablished]
      cases st <;> simp_all [receives, TcpState.geEstablished]
    exact .received hrec hnote hr (processReceived_handsUp rx i st)
  split at h
  · next hs =>
    -- A connection that is being opened hands up nothing.
    unfold processSynSent at h
    split at h
    · split at h
      · cases h
      · cases h
        exact hquiet hnote
    · split at h
      · obtain ⟨_, -, h⟩ := bind_eq_ok.mp h
        cases h
        exact .quiet rfl rfl (fun p hp => by cases hp; rfl) fun p hp hne => absurd hs hne
      · cases h
        exact hquiet hnote
  · next hs => exact processSynRcvd_cases hcb hs hrst' h
  · cases h
    exact hquiet hnote
  · cases h
    exact hquiet hnote
  · cases h
    exact hquiet hnote
  · exact hreceived _ rfl (by cases hs : pcb.state <;> simp_all [TcpState.geEstablished])
      (by simp_all) h

/-- The connection is there for the application: it has not closed it. -/
def Up (st : TcpState) : Prop := st = .SYN_RCVD ∨ st = .ESTABLISHED ∨ st = .CLOSE_WAIT

/-- `tcp_receive` does not close the connection. -/
theorem tcpReceive_up {rx : Rx} (h : tcpReceive o ticks m pcb i = .ok rx) (hup : Up pcb.state) :
    Up rx.pcb.state := by
  rcases tcpReceive_move h with hst | ⟨-, hst⟩
  · rw [hst]
    exact hup
  · exact .inr (.inr hst)

/-- `tcp_process` does not close the connection. -/
theorem tcpProcess_up {ws : List WriteCall} {pr : Proc} {p : TcpPcb}
    (hcb : cb.onAccept = ws.map WriteCall.call) (hup : Up pcb.state)
    (h : tcpProcess o ticks m cb pcb i = .ok pr) (hp : pr.pcb = some p) : Up p.state := by
  unfold tcpProcess at h
  split at h
  · cases h
    unfold processRst at hp
    dsimp only at hp
    split at hp <;> split at hp <;> (cases hp; exact hup)
  split at h
  · cases h
    cases hp
    exact hup
  rcases hup with hs | hs | hs
  · simp only [hs] at h
    unfold processSynRcvd at h
    split at h
    · split at h
      · obtain ⟨⟨r, out⟩, happ, h⟩ := bind_eq_ok.mp h
        rw [hcb] at happ
        obtain ⟨q, rfl, -, hst⟩ := appCalls_writes happ
        dsimp only at h
        split at h
        · cases h
          cases hp
        · obtain ⟨rx, hr, h⟩ := bind_eq_ok.mp h
          cases h
          cases hp
          split
          · exact .inr (.inr rfl)
          · exact tcpReceive_up hr (.inr (.inl hst))
      · cases h
        cases hp
        exact .inl hs
    · split at h
      · cases h
        cases hp
        unfold tcpRexmit
        split <;> exact .inl hs
      · cases h
        cases hp
        exact .inl hs
  · simp only [hs] at h
    obtain ⟨rx, hr, h⟩ := bind_eq_ok.mp h
    cases h
    cases hp
    split
    · exact .inr (.inr rfl)
    · exact tcpReceive_up hr (.inr (.inl hs))
  · simp only [hs] at h
    obtain ⟨rx, hr, h⟩ := bind_eq_ok.mp h
    cases h
    cases hp
    split
    · exact .inr (.inr rfl)
    · exact tcpReceive_up hr (.inr (.inr hs))

end Process

end Lwip.Tcp
