import Lwip.Tcp.Process

/-!
# What the functions with loops and calls can do

A property of the pcb, and of what was sent, is kept by a loop if every round keeps it
(`tcpOutputLoop_rule`, `appCalls_rule`), and by a tick if its parts do (`tcpSlowtmr_rule`).
`tcp_close` leaves the pcb as it is, or enqueues a FIN (`tcpClose_cases`).
-/

namespace Lwip.Tcp

section Rules

variable {o : Opts} {input alloc : Bool} {ticks : BitVec 32} {pcb pcb' : TcpPcb}
  {out out' : List Sent} {conn : Conn} {e : TickEnv} {P : TcpPcb → List Sent → Prop}

/-- `tcp_write` fails in a state that cannot send, does nothing with no data, or enqueues. -/
theorem tcpWrite_cases {allocs : ℕ → Bool} {data : List UInt8} {copy more : Bool} {err : Err}
    (h : tcpWrite o allocs pcb data copy more = .ok (err, pcb')) :
    err = .CONN ∧ pcb' = pcb ∨
      (pcb.state = .ESTABLISHED ∨ pcb.state = .CLOSE_WAIT ∨ pcb.state = .SYN_SENT ∨
          pcb.state = .SYN_RCVD) ∧
        (err = .OK ∧ data = [] ∧ pcb' = pcb ∨
          0 < data.length ∧ tcpEnqueue o allocs pcb data {} copy more false = .ok (err, pcb')) := by
  have hdata : (if data.length > 0 then tcpEnqueue o allocs pcb data {} copy more false
      else .ok (.OK, pcb)) = .ok (err, pcb') → err = .OK ∧ data = [] ∧ pcb' = pcb ∨
        0 < data.length ∧ tcpEnqueue o allocs pcb data {} copy more false = .ok (err, pcb') := by
    intro h
    split at h
    · next hpos => exact .inr ⟨hpos, h⟩
    · next hlen =>
      cases h
      exact .inl ⟨rfl, List.length_eq_zero_iff.mp (by omega), rfl⟩
  unfold tcpWrite at h
  split at h
  · next hst => exact .inr ⟨.inl hst, hdata h⟩
  · next hst => exact .inr ⟨.inr (.inl hst), hdata h⟩
  · next hst => exact .inr ⟨.inr (.inr (.inl hst)), hdata h⟩
  · next hst => exact .inr ⟨.inr (.inr (.inr hst)), hdata h⟩
  · cases h
    exact .inl ⟨rfl, rfl⟩

/-- A property that every round of the loop of `tcp_output` keeps holds at its end. -/
theorem tcpOutputLoop_rule {P : List Seg → TcpPcb → List Sent → Prop} {wnd : ℕ} {q : List Seg}
    (h : tcpOutputLoop ticks wnd q pcb out = .ok (pcb', out')) (hstart : P q pcb out)
    (hround : ∀ seg rest p out, P (seg :: rest) p out → needs p seg ≤ wnd →
      P rest (tcpOutputOne ticks p seg rest).1 (out ++ [(tcpOutputOne ticks p seg rest).2])) :
    ∃ rest, P rest pcb' out' := by
  induction q generalizing pcb out with
  | nil =>
    cases h
    exact ⟨[], hstart⟩
  | cons seg rest ih =>
    unfold tcpOutputLoop at h
    split at h
    · next hneeds =>
      split at h
      · cases h
      split at h
      · cases h
        exact ⟨_, hstart⟩
      · exact ih h (hround seg rest pcb out hstart hneeds)
    · cases h
      exact ⟨_, hstart⟩

/-- `tcp_output` sends an empty ACK, or runs its loop and starts the persist timer. -/
theorem tcpOutput_rule (h : tcpOutput ticks alloc pcb = .ok (pcb', out))
    (hack : P (tcpSendEmptyAck alloc pcb).1 (tcpSendEmptyAck alloc pcb).2)
    (hloop : ∀ {p out}, tcpOutputLoop ticks (min pcb.snd_wnd pcb.cwnd) pcb.unsent pcb [] =
      .ok (p, out) → P (tcpOutputPersist p) out) : P pcb' out := by
  unfold tcpOutput at h
  dsimp only at h
  split at h
  · rwa [Except.ok.inj h] at hack
  · obtain ⟨⟨p, out'⟩, hl, h⟩ := bind_eq_ok.mp h
    cases h
    exact hloop hl

/-- A call for the pcb whose input is processed does nothing, every other one is `tcp_output`. -/
theorem tcpOutputUnlessInput_rule
    (h : tcpOutputUnlessInput input ticks alloc pcb = .ok (pcb', out)) (hstart : P pcb [])
    (houtput : ∀ {q out}, tcpOutput ticks alloc pcb = .ok (q, out) → P q out) : P pcb' out := by
  unfold tcpOutputUnlessInput at h
  split at h
  · cases h
    exact hstart
  · exact houtput h

/-- `tcp_recved` opens the receive window, recomputes the announced one, and calls `tcp_ack_now` if
that grew enough. -/
theorem tcpRecved_cases {len : ℕ} (h : tcpRecved o input ticks alloc pcb len = .ok (pcb', out)) :
    ∃ w, tcpAckNow input ticks alloc (tcpUpdateRcvAnnWnd o { pcb with rcv_wnd := w }).1 =
        .ok (pcb', out) ∨
      pcb' = (tcpUpdateRcvAnnWnd o { pcb with rcv_wnd := w }).1 ∧ out = [] := by
  unfold tcpRecved at h
  obtain ⟨_, -, h⟩ := bind_eq_ok.mp h
  dsimp only at h
  generalize (if pcb.rcv_wnd + len > o.TCP_WND then o.TCP_WND else pcb.rcv_wnd + len) = w at h
  refine ⟨w, ?_⟩
  split at h
  · exact .inl h
  · cases h
    exact .inr ⟨rfl, rfl⟩

/-- What `tcp_write`, `tcp_recved` and a `tcp_close` that keeps the pcb do holds of a call. -/
theorem appCall_rule {c : AppCall} (h : appCall o input ticks pcb c = .ok (some pcb', out))
    (hwrite : ∀ {allocs data copy more err q},
      tcpWrite o allocs pcb data copy more = .ok (err, q) → P q [])
    (hrecved : ∀ {alloc len q out},
      tcpRecved o input ticks alloc pcb len = .ok (q, out) → P q out)
    (hclose : ∀ {allocs ack err q out},
      tcpClose o input ticks allocs ack pcb = .ok (err, some q, out) → P q out) : P pcb' out := by
  cases c with
  | write allocs data copy more =>
    obtain ⟨⟨err, q⟩, hw, h⟩ := bind_eq_ok.mp h
    cases h
    exact hwrite hw
  | recved alloc len =>
    obtain ⟨⟨q, out'⟩, hr, h⟩ := bind_eq_ok.mp h
    cases h
    exact hrecved hr
  | close allocs ack =>
    obtain ⟨⟨err, q⟩, hc, h⟩ := bind_eq_ok.mp h
    cases h
    exact hclose hc

/-- A property that every call of the application keeps holds after all of them. -/
theorem appCalls_rule {cs : List AppCall}
    (h : appCalls o input ticks pcb cs = .ok (some pcb', out)) (hstart : P pcb [])
    (hcall : ∀ p q c out out', P p out → appCall o input ticks p c = .ok (some q, out') →
      P q (out ++ out')) : P pcb' out := by
  have hrun : ∀ before, P pcb before → P pcb' (before ++ out) := by
    clear hstart
    induction cs generalizing pcb out with
    | nil =>
      cases h
      intro before hp
      rwa [List.append_nil]
    | cons c cs ih =>
      intro before hp
      obtain ⟨⟨r, out₁⟩, hc, h⟩ := bind_eq_ok.mp h
      cases r with
      | none => cases h
      | some q =>
        obtain ⟨⟨r', out₂⟩, hcs, h⟩ := bind_eq_ok.mp h
        cases h
        rw [← List.append_assoc]
        exact ih hcs _ (hcall pcb q c before out₁ hp hc)
  exact hrun [] hstart

/-- A property that the calls of the application and `tcp_output` keep holds after the poll. -/
theorem slowtmrPoll_rule (h : slowtmrPoll o ticks e pcb = .ok (conn, out))
    (hstart : ∀ n, P { pcb with polltmr := n } [])
    (hcalls : ∀ p q out out', P p out → appCalls o false ticks p e.poll = .ok (some q, out') →
      P q (out ++ out'))
    (houtput : ∀ p q out out', P p out → tcpOutput ticks e.out p = .ok (q, out') →
      P q (out ++ out')) :
    conn = .gone ∨ ∃ q, conn = .active q ∧ P q out := by
  unfold slowtmrPoll at h
  dsimp only at h
  split at h
  · obtain ⟨⟨r, out₁⟩, happ, h⟩ := bind_eq_ok.mp h
    cases r with
    | none =>
      cases h
      exact .inl rfl
    | some p =>
      have hp : P p out₁ := hcalls _ p [] out₁ (hstart 0) happ
      dsimp only at h
      split at h
      · obtain ⟨⟨q, out₂⟩, ho, h⟩ := bind_eq_ok.mp h
        cases h
        exact .inr ⟨q, rfl, houtput p q out₁ out₂ hp ho⟩
      · cases h
        exact .inr ⟨p, rfl, hp⟩
  · cases h
    exact .inr ⟨_, rfl, hstart _⟩

/-- A property that holds after the retransmission and the keepalive probe, and that the calls of
the application and `tcp_output` keep, holds after a tick. -/
theorem tcpSlowtmr_rule (h : tcpSlowtmr o ticks e pcb = .ok (conn, out))
    (hstart : ∀ p out, slowtmrRexmit o ticks e pcb = .ok (p, out) →
      slowtmrRemoves o ticks pcb (slowtmrOoseq ticks (slowtmrKeepalive ticks e p).1) = false →
      ∀ n, P { slowtmrOoseq ticks (slowtmrKeepalive ticks e p).1 with polltmr := n }
        (out ++ (slowtmrKeepalive ticks e p).2))
    (hcalls : ∀ p q out out', P p out → appCalls o false ticks p e.poll = .ok (some q, out') →
      P q (out ++ out'))
    (houtput : ∀ p q out out', P p out → tcpOutput ticks e.out p = .ok (q, out') →
      P q (out ++ out')) :
    conn = .gone ∨ ∃ q, conn = .active q ∧ P q out := by
  unfold tcpSlowtmr at h
  obtain ⟨⟨p, out₁⟩, hr, h⟩ := bind_eq_ok.mp h
  dsimp only at h
  split at h
  · cases h
    exact .inl rfl
  · next hstays =>
    obtain ⟨⟨c, out₂⟩, hpoll, h⟩ := bind_eq_ok.mp h
    cases h
    refine slowtmrPoll_rule (P := fun q out => P q (_ ++ out)) hpoll (fun n => ?_)
      (fun p q out out' hp happ => ?_) fun p q out out' hp ho => ?_
    · rw [List.append_nil]
      exact hstart p out₁ hr (Bool.eq_false_of_not_eq_true hstays) n
    · rw [← List.append_assoc]
      exact hcalls p q _ out' hp happ
    · rw [← List.append_assoc]
      exact houtput p q _ out' hp ho

/-- `tcp_close` takes a connection that is open to the state `next`. -/
def Closes (st next : TcpState) : Prop :=
  (st = .SYN_RCVD ∨ st = .ESTABLISHED) ∧ next = .FIN_WAIT_1 ∨ st = .CLOSE_WAIT ∧ next = .LAST_ACK

/-- A `tcp_close` after which the pcb is still there does nothing to it, or enqueues a FIN. If that
works, the state changes and `tcp_output` is called. -/
theorem tcpClose_cases {allocs : ℕ → Bool} {err : Err}
    (h : tcpClose o input ticks allocs alloc pcb = .ok (err, some pcb', out)) :
    (err = .OK ∧ pcb' = pcb ∧ out = []) ∨
      ∃ next q, Closes pcb.state next ∧ tcpSendCtrl o allocs pcb { fin := true } = .ok (err, q) ∧
        (err = .OK ∧
            tcpOutputUnlessInput input ticks alloc { q with state := next } = .ok (pcb', out) ∨
          err ≠ .OK ∧ pcb' = q ∧ out = []) := by
  have hwith : ∀ next, Closes pcb.state next →
      tcpCloseWith o input ticks allocs alloc next pcb = .ok (err, some pcb', out) →
      ∃ next q, Closes pcb.state next ∧ tcpSendCtrl o allocs pcb { fin := true } = .ok (err, q) ∧
        (err = .OK ∧
            tcpOutputUnlessInput input ticks alloc { q with state := next } = .ok (pcb', out) ∨
          err ≠ .OK ∧ pcb' = q ∧ out = []) := by
    intro next hnext h
    obtain ⟨⟨err', q⟩, hq, h⟩ := bind_eq_ok.mp h
    dsimp only at h
    split at h
    · next hok =>
      obtain ⟨⟨p, out'⟩, hout, h⟩ := bind_eq_ok.mp h
      cases h
      exact ⟨next, q, hnext, by rw [hq, hok], .inl ⟨rfl, hout⟩⟩
    · next herr =>
      cases h
      exact ⟨next, pcb', hnext, hq, .inr ⟨herr, rfl, rfl⟩⟩
  unfold tcpClose at h
  split at h
  · cases h
  · cases h
  · obtain ⟨_, -, h⟩ := bind_eq_ok.mp h
    cases h
  · next hst => exact .inr (hwith _ (.inl ⟨.inl hst, rfl⟩) h)
  · next hst => exact .inr (hwith _ (.inl ⟨.inr hst, rfl⟩) h)
  · next hst => exact .inr (hwith _ (.inr ⟨hst, rfl⟩) h)
  · cases h
    exact .inl ⟨rfl, rfl, rfl⟩

/-- After `tcp_receive` the pcb is left as it is, or acknowledges a FIN and moves on, or moves on to
`FIN_WAIT_2`, or is purged and waits. -/
theorem processReceived_rule {P : TcpPcb → Prop} {rx : Rx} {i : In} {st : TcpState}
    (hp : (processReceived rx i st).pcb = some pcb') (hstay : P rx.pcb)
    (hfin : ∀ s, P { tcpAckNowInput rx.pcb with state := s })
    (hacked : P { rx.pcb with state := .FIN_WAIT_2 })
    (hwait : ∀ q, q = rx.pcb ∨ q = tcpAckNowInput rx.pcb →
      P { tcpPcbPurge q with state := .TIME_WAIT }) : P pcb' := by
  unfold processReceived at hp
  split at hp
  · cases hp
    split
    · exact hfin _
    · exact hstay
  · cases hp
    split
    · exact hfin _
    · exact hstay
  · split at hp
    · split at hp
      · cases hp
        exact hwait _ (.inr rfl)
      · cases hp
        exact hfin _
    · split at hp
      · cases hp
        exact hacked
      · cases hp
        exact hstay
  · split at hp
    · cases hp
      exact hwait _ (.inr rfl)
    · cases hp
      exact hstay
  · split at hp
    · cases hp
      exact hwait _ (.inl rfl)
    · cases hp
      exact hstay
  · cases hp
    exact hstay
  · cases hp
    exact hstay

/-- A segment in `TIME_WAIT` at most restarts the timer, and is acknowledged. -/
theorem tcpTimewaitInput_rule {i : In}
    (h : tcpTimewaitInput ticks alloc pcb i = .ok (pcb', out))
    (hstay : ∀ n, P { pcb with tmr := n } [])
    (hack : ∀ {n p out}, tcpOutput ticks alloc { pcb with
      tmr := n, flags := { pcb.flags with ack_now := true } } = .ok (p, out) → P p out) :
    P pcb' out := by
  unfold tcpTimewaitInput at h
  split at h
  · cases h
    exact hstay pcb.tmr
  split at h
  · cases h
    exact hstay pcb.tmr
  dsimp only at h
  have htmr : ∃ n, (if !i.seg.flags.syn && i.seg.flags.fin then { pcb with tmr := ticks }
      else pcb) = { pcb with tmr := n } := by
    split
    · exact ⟨ticks, rfl⟩
    · exact ⟨pcb.tmr, rfl⟩
  obtain ⟨n, hn⟩ := htmr
  rw [hn] at h
  split at h
  · exact hack h
  · cases h
    exact hstay n

/-- A fast tick offers the refused data again, and sends the delayed ACK. -/
theorem tcpFasttmr_rule {takesRefused : Bool}
    (h : tcpFasttmr ticks takesRefused alloc pcb = .ok (pcb', out))
    (hstay : P { pcb with refused_data := if takesRefused then none else pcb.refused_data } [])
    (hack : ∀ {p out}, tcpAckNow false ticks alloc { pcb with
        refused_data := if takesRefused then none else pcb.refused_data } = .ok (p, out) →
      P { p with flags := { p.flags with ack_delay := false, ack_now := false } } out) :
    P pcb' out := by
  unfold tcpFasttmr at h
  dsimp only at h
  split at h
  · obtain ⟨⟨p, out'⟩, ha, h⟩ := bind_eq_ok.mp h
    cases h
    exact hack ha
  · cases h
    exact hstay

end Rules

end Lwip.Tcp
