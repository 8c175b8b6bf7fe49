import Lwip.Tcp.Open
import Lwip.Tcp.StayOpen

/-!
# The states of the pcbs on the lists

A pcb on `tcp_active_pcbs` is in one of the states between `CLOSED` and `TIME_WAIT` (`Active`). The
calls of the application leave it in one of these, and `tcp_input` leaves it in one of these or
moves it to `TIME_WAIT`. A pcb in `TIME_WAIT` stays there.
-/

namespace Lwip.Tcp

/-- The states of the pcbs on `tcp_active_pcbs`. -/
def Active (st : TcpState) : Prop := st ≠ .CLOSED ∧ st ≠ .LISTEN ∧ st ≠ .TIME_WAIT

instance (st : TcpState) : Decidable (Active st) := inferInstanceAs (Decidable (_ ∧ _))

/-- A connection goes on: it is active as before, or in `TIME_WAIT` as before. -/
structure GoesOn (st st' : TcpState) : Prop where
  active : Active st → Active st'
  timeWait : st = .TIME_WAIT → st' = .TIME_WAIT

/-- The state may stay. -/
theorem GoesOn.of_eq {st st' : TcpState} (h : st' = st) : GoesOn st st' :=
  ⟨fun ha => h ▸ ha, fun ht => h.trans ht⟩

/-- The changes of two steps. -/
theorem GoesOn.trans {st st' st'' : TcpState} (h : GoesOn st st') (h' : GoesOn st' st'') :
    GoesOn st st'' :=
  ⟨fun ha => h'.active (h.active ha), fun ht => h'.timeWait (h.timeWait ht)⟩

variable {o : Opts} {input : Bool} {ticks : BitVec 32} {m : RxAlloc} {cb : Callbacks}
  {pcb pcb' : TcpPcb} {i : In} {out alloc : Bool} {sent : List Sent}

/-! ## Calls of the application -/

/-- `tcp_close` of a connection that it does not free. -/
theorem tcpClose_goesOn {allocs : ℕ → Bool} {e : Err}
    (h : tcpClose o input ticks allocs alloc pcb = .ok (e, some pcb', sent)) :
    GoesOn pcb.state pcb'.state := by
  obtain ⟨-, rfl, -⟩ | ⟨next, q, hnext, hq, hend⟩ := tcpClose_cases h
  · exact .of_eq rfl
  obtain ⟨-, hout⟩ | ⟨-, rfl, -⟩ := hend
  · have hnext' : Active next ∧ pcb.state ≠ .TIME_WAIT := by
      rcases hnext with ⟨hst | hst, rfl⟩ | ⟨hst, rfl⟩ <;> rw [hst] <;> decide
    exact ⟨fun _ => tcpOutputUnlessInput_state hout ▸ hnext'.1, fun ht => absurd ht hnext'.2⟩
  · exact .of_eq (tcpEnqueue_state hq)

/-- A call of the application changes the state as a connection goes on. -/
theorem appCall_goesOn {c : AppCall} (h : appCall o input ticks pcb c = .ok (some pcb', sent)) :
    GoesOn pcb.state pcb'.state := by
  exact appCall_rule (P := fun p _ => GoesOn pcb.state p.state) h
    (fun hw => .of_eq (tcpWrite_state hw)) (fun hr => .of_eq (tcpRecved_state hr)) tcpClose_goesOn

/-- The calls of a callback change the state as a connection goes on. -/
theorem appCalls_goesOn {cs : List AppCall}
    (h : appCalls o input ticks pcb cs = .ok (some pcb', sent)) : GoesOn pcb.state pcb'.state := by
  exact appCalls_rule (P := fun p _ => GoesOn pcb.state p.state) h (.of_eq rfl)
    fun p q c _ _ hp hc => hp.trans (appCall_goesOn hc)

/-! ## Segments -/

/-- `tcp_receive` changes the state as a connection goes on. -/
theorem tcpReceive_goesOn {rx : Rx} (h : tcpReceive o ticks m pcb i = .ok rx) :
    GoesOn pcb.state rx.pcb.state := by
  rcases tcpReceive_move h with hst | ⟨hs, hst⟩
  · exact .of_eq hst
  · rw [hs, hst]
    exact ⟨fun _ => by decide, fun h => by cases h⟩

/-- What `tcp_process` makes of an active connection. -/
def ActiveOrTimeWait (p : Option TcpPcb) : Prop :=
  ∀ q, p = some q → Active q.state ∨ q.state = .TIME_WAIT

/-- Behind `tcp_receive` the pcb is active or in `TIME_WAIT`. -/
theorem processReceived_active {rx : Rx} {st : TcpState} (ha : Active rx.pcb.state) :
    ActiveOrTimeWait (processReceived rx i st).pcb := by
  have hsame : ActiveOrTimeWait (some rx.pcb) := by
    rintro q ⟨⟩
    exact .inl ha
  have hset : ∀ p : TcpPcb, Active p.state → ActiveOrTimeWait (some p) := by
    rintro p hp q ⟨⟩
    exact .inl hp
  have htw : ∀ p, ActiveOrTimeWait (enterTimeWait rx p).pcb := by
    rintro p q ⟨⟩
    exact .inr rfl
  have hcw : ActiveOrTimeWait (rx.toProc
      (if rx.got_fin then { tcpAckNowInput rx.pcb with state := .CLOSE_WAIT }
      else rx.pcb)).pcb := by
    split
    · exact hset _ (by show Active .CLOSE_WAIT; decide)
    · exact hsame
  cases st with
  | ESTABLISHED => exact hcw
  | CLOSE_WAIT => exact hcw
  | FIN_WAIT_1 =>
    simp only [processReceived]
    split
    · split
      · exact htw _
      · exact hset _ (by show Active .CLOSING; decide)
    · split
      · exact hset _ (by show Active .FIN_WAIT_2; decide)
      · exact hsame
  | FIN_WAIT_2 =>
    simp only [processReceived]
    split
    · exact htw _
    · exact hsame
  | CLOSING =>
    simp only [processReceived]
    split
    · exact htw _
    · exact hsame
  | LAST_ACK => exact hsame
  | CLOSED => exact hsame
  | LISTEN => exact hsame
  | SYN_SENT => exact hsame
  | SYN_RCVD => exact hsame
  | TIME_WAIT => exact hsame

/-- Behind a RST the pcb is active or in `TIME_WAIT`. -/
theorem processRst_active (ha : Active pcb.state) : ActiveOrTimeWait (processRst pcb i).pcb := by
  unfold processRst
  dsimp only
  split
  all_goals
    split
    all_goals
      rintro q ⟨⟩
      exact .inl ha

/-- From `SYN_SENT` the pcb stays active. -/
theorem processSynSent_active {pr : Proc} (ha : Active pcb.state)
    (h : processSynSent m pcb i = .ok pr) : ActiveOrTimeWait pr.pcb := by
  unfold processSynSent at h
  split at h
  · split at h
    · cases h
    · cases h
      rintro q ⟨⟩
      exact .inl ha
  · split at h
    · obtain ⟨_, -, h⟩ := bind_eq_ok.mp h
      cases h
      rintro q ⟨⟩
      exact .inl (by show Active .ESTABLISHED; decide)
    · cases h
      rintro q ⟨⟩
      exact .inl ha

/-- From `SYN_RCVD` the pcb stays active, or gets to `TIME_WAIT`. -/
theorem processSynRcvd_active {pr : Proc} (ha : Active pcb.state)
    (h : processSynRcvd o ticks m cb pcb i = .ok pr) : ActiveOrTimeWait pr.pcb := by
  unfold processSynRcvd at h
  split at h
  · split at h
    · obtain ⟨⟨r, out₁⟩, happ, h⟩ := bind_eq_ok.mp h
      cases r with
      | none =>
        cases h
        exact fun q hq => by cases hq
      | some p =>
        have hestablished : Active .ESTABLISHED := by decide
        have hp : Active p.state := (appCalls_goesOn happ).active hestablished
        dsimp only at h
        split at h
        · cases h
          exact fun q hq => by cases hq
        · obtain ⟨rx, hrx, h⟩ := bind_eq_ok.mp h
          cases h
          rintro q ⟨⟩
          left
          split
          · show Active .CLOSE_WAIT
            decide
          · exact (tcpReceive_goesOn hrx).active hp
    · cases h
      rintro q ⟨⟩
      exact .inl ha
  · split at h
    · cases h
      rintro q ⟨⟩
      left
      have hst : (tcpRexmit pcb).state = pcb.state := by
        unfold tcpRexmit
        split <;> rfl
      exact hst ▸ ha
    · cases h
      rintro q ⟨⟩
      exact .inl ha

/-- Behind `tcp_process` the pcb is active or in `TIME_WAIT`. -/
theorem tcpProcess_active {pr : Proc} (ha : Active pcb.state)
    (h : tcpProcess o ticks m cb pcb i = .ok pr) : ActiveOrTimeWait pr.pcb := by
  unfold tcpProcess at h
  split at h
  · cases h
    exact processRst_active ha
  split at h
  · cases h
    rintro q ⟨⟩
    exact .inl ha
  have hnote : Active (processNote o ticks pcb i).state := ha
  split at h
  · exact processSynSent_active hnote h
  · exact processSynRcvd_active hnote h
  · next hs => exact absurd hs ha.1
  · next hs => exact absurd hs ha.2.1
  · next hs => exact absurd hs ha.2.2
  · obtain ⟨rx, hrx, h⟩ := bind_eq_ok.mp h
    cases h
    exact processReceived_active ((tcpReceive_goesOn hrx).active ha)

/-- The state of a connection fits the list that it is on. -/
def Conn.Listed : Conn → Prop
  | .active pcb => Active pcb.state
  | .timeWait pcb => pcb.state = .TIME_WAIT
  | .gone => True

/-- Behind `tcp_input` the pcb is in a state for its list. -/
theorem tcpInput_listed {conn : Conn} (ha : Active pcb.state)
    (h : tcpInput o ticks m cb out pcb i = .ok (conn, sent)) : conn.Listed := by
  unfold tcpInput at h
  split at h
  · cases h
    exact ha
  · obtain ⟨pr, hpr, h⟩ := bind_eq_ok.mp h
    have hstate : Active ({ pcb with refused_data := none } : TcpPcb).state := ha
    have hact := tcpProcess_active hstate hpr
    split at h
    · cases h
      trivial
    · next p hp =>
      split at h
      · obtain ⟨_, -, h⟩ := bind_eq_ok.mp h
        cases h
        trivial
      · obtain ⟨⟨r, out₁⟩, happ, h⟩ := bind_eq_ok.mp h
        cases r with
        | none =>
          cases h
          trivial
        | some q =>
          obtain ⟨⟨q', out₂⟩, ho, h⟩ := bind_eq_ok.mp h
          have hq' : q'.state = q.state := (tcpOutput_state ho).trans rfl
          cases h
          dsimp only
          split
          · next htw => exact htw
          · next htw =>
            rcases hact p hp with hp' | hp'
            · show Active q'.state
              rw [hq']
              exact (appCalls_goesOn happ).active hp'
            · exact absurd (hq'.trans ((appCalls_goesOn happ).timeWait hp')) htw

/-- A segment leaves a pcb in `TIME_WAIT`. -/
theorem tcpTimewaitInput_state (h : tcpTimewaitInput ticks out pcb i = .ok (pcb', sent)) :
    pcb'.state = pcb.state := by
  refine tcpTimewaitInput_rule (P := fun p _ => p.state = pcb.state) h (fun _ => rfl) fun ho => ?_
  have hst := tcpOutput_state ho
  exact hst

/-! ## New connections -/

/-- `tcp_connect` leads to `SYN_SENT`. -/
theorem tcpConnect_state {e : ConnectEnv} {err : Err}
    (h : tcpConnect o e pcb = .ok (some (err, pcb', sent))) : pcb'.state = .SYN_SENT := by
  unfold tcpConnect at h
  split at h
  · cases h
  · obtain ⟨⟨err', q⟩, hq, h⟩ := bind_eq_ok.mp h
    have hst : q.state = .SYN_SENT := tcpEnqueue_state hq
    dsimp only at h
    split at h
    · obtain ⟨⟨q', out₁⟩, ho, h⟩ := bind_eq_ok.mp h
      cases h
      exact (tcpOutput_state ho).trans hst
    · cases h
      exact hst

/-! ## Ticks of the slow timer -/

/-- The `poll` callback leaves the pcb active, or frees it. -/
theorem slowtmrPoll_active {e : TickEnv} {conn : Conn} (ha : Active pcb.state)
    (h : slowtmrPoll o ticks e pcb = .ok (conn, sent)) :
    conn = .gone ∨ ∃ p, conn = .active p ∧ Active p.state := by
  exact slowtmrPoll_rule (P := fun p _ => Active p.state) h (fun _ => ha)
    (fun p q _ _ hp happ => (appCalls_goesOn happ).active hp)
    fun p q _ _ hp ho => (tcpOutput_state ho).symm ▸ hp

/-- A keepalive keeps the state. -/
theorem slowtmrKeepalive_state (ticks : BitVec 32) (e : TickEnv) (pcb : TcpPcb) :
    (slowtmrKeepalive ticks e pcb).1.state = pcb.state := by
  unfold slowtmrKeepalive
  split
  · unfold tcpKeepalive
    split <;> rfl
  · rfl

end Lwip.Tcp
