import Lwip.Tcp.CountedStep

/-!
# Connections that stay open

As long as the application does not close it and the peer goes on answering, a connection stays in
`ESTABLISHED` or `CLOSE_WAIT`, the states in which the application may write. `tcp_close` in one of
these states depends on the queues alone: it fails if they hold as many pbufs as they may, and puts
a FIN behind everything if they are empty.
-/

namespace Lwip.Tcp

/-- The states in which the application may write. -/
def Writable (st : TcpState) : Prop := st = .ESTABLISHED ∨ st = .CLOSE_WAIT

instance (st : TcpState) : Decidable (Writable st) :=
  inferInstanceAs (Decidable (st = .ESTABLISHED ∨ st = .CLOSE_WAIT))

/-- The call is not `tcp_close`. -/
def AppCall.leavesOpen : AppCall → Bool
  | .write .. | .recved .. => true
  | .close .. => false

/-- Nothing in the event closes the connection: the application does not call `tcp_close`, no RST
comes in, and the slow timer does not give up. -/
def LeavesOpen (o : Opts) : Conn → ConnEvent → Prop
  | .active _, .call _ c => c.leavesOpen = true
  | .active pcb, .slowtmr _ e =>
    slowtmrMaxed o pcb = false ∧ pcb.keepalive = false ∧ e.poll.all AppCall.leavesOpen = true
  | .active _, .input _ _ cb _ i =>
    i.seg.flags.rst = false ∧ cb.calls.all AppCall.leavesOpen = true
  | _, _ => True

instance (o : Opts) : (c : Conn) → (ev : ConnEvent) → Decidable (LeavesOpen o c ev)
  | .active _, .call _ c => inferInstanceAs (Decidable (c.leavesOpen = true))
  | .active pcb, .slowtmr _ e => inferInstanceAs (Decidable (slowtmrMaxed o pcb = false ∧
      pcb.keepalive = false ∧ e.poll.all AppCall.leavesOpen = true))
  | .active _, .input _ _ cb _ i => inferInstanceAs (Decidable (i.seg.flags.rst = false ∧
      cb.calls.all AppCall.leavesOpen = true))
  | .active _, .output .. | .active _, .fasttmr .. | .timeWait _, _ | .gone, _ => .isTrue trivial

section Open

variable {o : Opts} {input : Bool} {ticks : BitVec 32} {m : RxAlloc} {cb : Callbacks}
  {pcb pcb' : TcpPcb} {i : In} {out : Bool} {conn : Conn} {sent : List Sent}

/-- Calls that leave the connection open keep its state. -/
theorem appCalls_leaveOpen {cs : List AppCall} {r : Option TcpPcb}
    (hcs : cs.all AppCall.leavesOpen = true) (h : appCalls o input ticks pcb cs = .ok (r, sent)) :
    ∃ p, r = some p ∧ p.state = pcb.state := by
  induction cs generalizing pcb sent with
  | nil =>
    cases h
    exact ⟨_, rfl, rfl⟩
  | cons c cs ih =>
    obtain ⟨hc, hcs⟩ := Bool.and_eq_true_iff.mp ((List.all_cons ..).symm.trans hcs)
    obtain ⟨⟨q, out₁⟩, hq, h⟩ := bind_eq_ok.mp h
    have hstate : ∃ p, q = some p ∧ p.state = pcb.state := by
      cases c with
      | write allocs data copy more =>
        obtain ⟨r', hw, hq⟩ := bind_eq_ok.mp hq
        cases hq
        exact ⟨_, rfl, tcpWrite_state hw⟩
      | recved alloc len =>
        obtain ⟨r', hr, hq⟩ := bind_eq_ok.mp hq
        cases hq
        exact ⟨_, rfl, tcpRecved_state hr⟩
      | close allocs ack => cases hc
    obtain ⟨p, rfl, hp⟩ := hstate
    obtain ⟨⟨r', out₂⟩, hrest, h⟩ := bind_eq_ok.mp h
    cases h
    obtain ⟨p', rfl, hp'⟩ := ih hcs hrest
    exact ⟨p', rfl, hp'.trans hp⟩

/-- `tcp_process` of anything but a RST. -/
theorem tcpProcess_writable {pr : Proc} (hw : Writable pcb.state) (hrst : i.seg.flags.rst = false)
    (h : tcpProcess o ticks m cb pcb i = .ok pr) :
    pr.reset = false ∧ pr.closed = false ∧ ∃ p, pr.pcb = some p ∧ Writable p.state := by
  have hreceived : ∀ rx st, Writable rx.pcb.state → Writable st →
      (processReceived rx i st).reset = false ∧ (processReceived rx i st).closed = false ∧
        ∃ p, (processReceived rx i st).pcb = some p ∧ Writable p.state := by
    rintro rx st hrx (rfl | rfl)
    · refine ⟨rfl, rfl, _, rfl, ?_⟩
      split
      · exact .inr rfl
      · exact hrx
    · refine ⟨rfl, rfl, _, rfl, ?_⟩
      split
      · exact .inr rfl
      · exact hrx
  unfold tcpProcess at h
  rw [hrst] at h
  split at h
  · next hc => cases hc
  split at h
  · cases h
    exact ⟨rfl, rfl, _, rfl, hw⟩
  · have hrx : ∀ rx, tcpReceive o ticks m (processNote o ticks pcb i) i = .ok rx →
        Writable rx.pcb.state := by
      intro rx hr
      rcases tcpReceive_move hr with hst | ⟨-, hst⟩
      · rw [hst]
        exact hw
      · exact .inr hst
    rcases hw with hs | hs
    · simp only [hs] at h
      obtain ⟨rx, hr, h⟩ := bind_eq_ok.mp h
      cases h
      exact hreceived rx _ (hrx rx hr) (.inl rfl)
    · simp only [hs] at h
      obtain ⟨rx, hr, h⟩ := bind_eq_ok.mp h
      cases h
      exact hreceived rx _ (hrx rx hr) (.inr rfl)

/-- `tcp_input` without a RST leaves the connection open. -/
theorem tcpInput_writable (hw : Writable pcb.state) (hrst : i.seg.flags.rst = false)
    (hcb : cb.calls.all AppCall.leavesOpen = true)
    (h : tcpInput o ticks m cb out pcb i = .ok (conn, sent)) :
    ∃ p, conn = .active p ∧ Writable p.state := by
  unfold tcpInput at h
  split at h
  · cases h
    exact ⟨_, rfl, hw⟩
  · obtain ⟨pr, hpr, h⟩ := bind_eq_ok.mp h
    obtain ⟨hreset, hclosed, p, hp, hwp⟩ := tcpProcess_writable (by exact hw) hrst hpr
    simp only [hp, hreset, hclosed, Bool.or_self, Bool.false_eq_true, if_false] at h
    obtain ⟨⟨r, out₁⟩, happ, h⟩ := bind_eq_ok.mp h
    obtain ⟨q, rfl, hq⟩ := appCalls_leaveOpen hcb happ
    obtain ⟨⟨q', out₂⟩, ho, h⟩ := bind_eq_ok.mp h
    have hq' : q'.state = p.state := (tcpOutput_state ho).trans hq
    have hne : q'.state ≠ .TIME_WAIT := by
      rw [hq']
      rcases hwp with hs | hs <;> simp [hs]
    cases h
    rw [if_neg hne]
    exact ⟨_, rfl, hq' ▸ hwp⟩

/-- A retransmission leaves the keepalive option alone. -/
theorem slowtmrRexmit_keepalive {e : TickEnv}
    (h : slowtmrRexmit o ticks e pcb = .ok (pcb', sent)) : pcb'.keepalive = pcb.keepalive := by
  unfold slowtmrRexmit at h
  split at h
  · cases h
    rfl
  split at h
  · have heq : slowtmrPersist e pcb = (pcb', sent) := Except.ok.inj h
    have hka : (slowtmrPersist e pcb).1.keepalive = pcb.keepalive := by
      unfold slowtmrPersist tcpZeroWindowProbe
      dsimp only
      split
      · split
        · rfl
        · split <;> rfl
      · rfl
    rwa [heq] at hka
  · dsimp only at h
    generalize (if pcb.rtime ≥ 0 then s16 (pcb.rtime + 1) else pcb.rtime) = rtime at h
    split at h
    · unfold slowtmrRto tcpRexmitRto at h
      split at h
      · cases h
      · dsimp only at h
        split at h
        · cases h
          rfl
        · exact (tcpOutput_callFrame h).keepalive.trans rfl
    · cases h
      rfl

/-- A slow tick that does not give up leaves the connection open. -/
theorem tcpSlowtmr_writable {e : TickEnv} (hw : Writable pcb.state)
    (hmax : slowtmrMaxed o pcb = false) (hka : pcb.keepalive = false)
    (hpoll : e.poll.all AppCall.leavesOpen = true)
    (h : tcpSlowtmr o ticks e pcb = .ok (conn, sent)) :
    ∃ p, conn = .active p ∧ Writable p.state := by
  unfold tcpSlowtmr at h
  obtain ⟨⟨p, out₁⟩, hr, h⟩ := bind_eq_ok.mp h
  have hp : p.state = pcb.state := slowtmrRexmit_state hr
  have hpka : p.keepalive = false := (slowtmrRexmit_keepalive hr).trans hka
  have hoff : slowtmrKeepalive ticks e p = (p, []) := by
    unfold slowtmrKeepalive keepaliveOn
    rw [hpka]
    rfl
  have hkeep : slowtmrRemoves o ticks pcb (slowtmrOoseq ticks (slowtmrKeepalive ticks e p).1) =
      false := by
    rw [hoff]
    unfold slowtmrRemoves keepaliveOn slowtmrOoseq
    dsimp only
    rw [hmax, hpka, hp]
    rcases hw with hs | hs <;> simp [hs]
  dsimp only at h
  rw [hkeep, hoff] at h
  obtain ⟨⟨c, out₂⟩, hpl, h⟩ := bind_eq_ok.mp h
  cases h
  have hwq : Writable (slowtmrOoseq ticks p).state := hp.symm ▸ hw
  generalize slowtmrOoseq ticks p = q at hwq hpl
  unfold slowtmrPoll at hpl
  dsimp only at hpl
  split at hpl
  · obtain ⟨⟨r, out₃⟩, happ, hpl⟩ := bind_eq_ok.mp hpl
    obtain ⟨q', rfl, hq'⟩ := appCalls_leaveOpen hpoll happ
    have hwq' : Writable q'.state := hq'.symm ▸ hwq
    dsimp only at hpl
    split at hpl
    · obtain ⟨⟨q'', out₄⟩, ho, hpl⟩ := bind_eq_ok.mp hpl
      cases hpl
      exact ⟨_, rfl, (tcpOutput_state ho).symm ▸ hwq'⟩
    · cases hpl
      exact ⟨_, rfl, hwq'⟩
  · cases hpl
    exact ⟨_, rfl, hwq⟩

/-- A fast tick keeps the state. -/
theorem tcpFasttmr_state {takesRefused : Bool}
    (h : tcpFasttmr ticks takesRefused out pcb = .ok (pcb', sent)) : pcb'.state = pcb.state := by
  refine tcpFasttmr_rule (P := fun p _ => p.state = pcb.state) h rfl fun hack => ?_
  have hst := tcpOutputUnlessInput_state hack
  exact hst

/-- Every event that leaves the connection open leaves it in a state in which the application may
write. -/
theorem connStep_writable {ev : ConnEvent} (hw : Writable pcb.state)
    (hopen : LeavesOpen o (.active pcb) ev) (h : connStep o (.active pcb) ev = .ok conn) :
    ∃ p, conn = .active p ∧ Writable p.state := by
  cases ev with
  | call ticks c =>
    obtain ⟨⟨r, out⟩, hcall, h⟩ := bind_eq_ok.mp h
    cases h
    -- One call is a list of one.
    have happ : appCalls o false ticks pcb [c] = .ok (r, out) := by
      unfold appCalls
      rw [hcall]
      cases r with
      | none => rfl
      | some p => simp [appCalls, bind, Except.bind]
    have hcs : [c].all AppCall.leavesOpen = true := by
      rw [List.all_cons, List.all_nil, Bool.and_true]
      exact hopen
    obtain ⟨p, rfl, hp⟩ := appCalls_leaveOpen hcs happ
    exact ⟨p, rfl, hp.symm ▸ hw⟩
  | output ticks alloc =>
    obtain ⟨⟨p, out⟩, ho, h⟩ := bind_eq_ok.mp h
    cases h
    exact ⟨p, rfl, (tcpOutput_state ho).symm ▸ hw⟩
  | slowtmr ticks e =>
    obtain ⟨⟨c, out⟩, ht, h⟩ := bind_eq_ok.mp h
    cases h
    obtain ⟨hmax, hka, hpoll⟩ := hopen
    exact tcpSlowtmr_writable hw hmax hka hpoll ht
  | fasttmr ticks takesRefused out =>
    obtain ⟨⟨p, out'⟩, ht, h⟩ := bind_eq_ok.mp h
    cases h
    exact ⟨p, rfl, (tcpFasttmr_state ht).symm ▸ hw⟩
  | input ticks m cb out i =>
    obtain ⟨⟨c, out'⟩, ht, h⟩ := bind_eq_ok.mp h
    cases h
    obtain ⟨hrst, hcb⟩ := hopen
    exact tcpInput_writable hw hrst hcb ht

end Open

/-! ## Closing -/

section Close

variable {o : Opts} {input alloc : Bool} {ticks : BitVec 32} {allocs : ℕ → Bool} {pcb : TcpPcb}

/-- `tcp_output` stops at a RST on the queue and at nothing else. -/
theorem tcpOutputLoop_ok {wnd : ℕ} {q : List Seg} {out : List Sent}
    (hq : ∀ s ∈ q, s.flags.rst = false) : ∃ r, tcpOutputLoop ticks wnd q pcb out = .ok r := by
  induction q generalizing pcb out with
  | nil => exact ⟨_, rfl⟩
  | cons seg rest ih =>
    unfold tcpOutputLoop
    split
    · rw [hq seg List.mem_cons_self]
      split
      · next hc => cases hc
      split
      · exact ⟨_, rfl⟩
      · exact ih fun s hs => hq s (List.mem_cons_of_mem _ hs)
    · exact ⟨_, rfl⟩

/-- `tcp_output` does not abort without a RST in the queue. -/
theorem tcpOutputUnlessInput_ok (hq : ∀ s ∈ pcb.unsent, s.flags.rst = false) :
    ∃ r, tcpOutputUnlessInput input ticks alloc pcb = .ok r := by
  unfold tcpOutputUnlessInput tcpOutput
  split
  · exact ⟨_, rfl⟩
  · dsimp only
    split
    · exact ⟨_, rfl⟩
    · obtain ⟨r, hr⟩ : ∃ r, tcpOutputLoop ticks (min pcb.snd_wnd pcb.cwnd)
          pcb.unsent pcb [] = .ok r :=
        tcpOutputLoop_ok hq
      exact ⟨(tcpOutputPersist r.1, r.2), bind_eq_ok.mpr ⟨r, hr, rfl⟩⟩

/-- `tcp_close` while the queues hold as many pbufs as they may: it fails and notes it. -/
theorem tcpClose_full (hw : Writable pcb.state) (hfull : pcb.snd_queuelen ≥ o.TCP_SND_QUEUELEN) :
    tcpClose o input ticks allocs alloc pcb = .ok (.MEM, some (tcpMemErr pcb), []) := by
  have hctrl : tcpSendCtrl o allocs pcb { fin := true } = .ok (.MEM, tcpMemErr pcb) := by
    have hnone : ¬([] : List UInt8).length > pcb.snd_buf := Nat.not_lt_zero _
    unfold tcpSendCtrl tcpEnqueue
    refine bind_eq_ok.mpr ⟨(), lwipAssert_eq_ok.mpr (.inr (.inr (.inr rfl))), ?_⟩
    rw [if_neg hnone, if_pos (.inl hfull)]
  have hwith : ∀ next, tcpCloseWith o input ticks allocs alloc next pcb =
      .ok (.MEM, some (tcpMemErr pcb), []) := by
    intro next
    exact bind_eq_ok.mpr ⟨_, hctrl, rfl⟩
  unfold tcpClose
  rcases hw with hs | hs
  · rw [hs]
    exact hwith _
  · rw [hs]
    exact hwith _

/-- What `tcp_close` leaves when nothing was queued: a FIN, right behind everything that was
written. -/
structure FinBehind (pcb p : TcpPcb) : Prop where
  fin : ∃ s, p.unacked ++ p.unsent = [s] ∧ s.seqno = pcb.snd_lbb ∧ s.flags.fin = true ∧ s.p = []
  state : p.state = .FIN_WAIT_1 ∨ p.state = .LAST_ACK

/-- `tcp_close` with empty queues and enough memory for a FIN. -/
theorem tcpClose_empty (hpos : 0 < o.TCP_SND_QUEUELEN) (hc : Counted o pcb)
    (hw : Writable pcb.state)
    (hu : pcb.unacked = []) (hs : pcb.unsent = []) (hseg : allocs 0 = true)
    (hpbuf : allocs 1 = true) :
    ∃ p sent, tcpClose o input ticks allocs alloc pcb = .ok (.OK, some p, sent) ∧
      FinBehind pcb p := by
  have hql : pcb.snd_queuelen = 0 := hc.queues_empty_iff.mpr ⟨hu, hs⟩
  -- The FIN is the only segment.
  set fin : Seg := { seqno := pcb.snd_lbb, len := 0, flags := { fin := true } } with hfin
  obtain ⟨q, hctrl, hqu, hqs⟩ : ∃ q, tcpSendCtrl o allocs pcb { fin := true } = .ok (.OK, q) ∧
      q.unacked = [] ∧ q.unsent = [fin] := by
    have hloop : tcpEnqueueLoop o pcb.mss (if (false : Bool) then 4 else 0)
      { fin := true } true false
        (o.TCP_SND_QUEUELEN + 1) allocs [] [] ([] : List UInt8).length pcb.snd_lbb
        pcb.snd_queuelen =
          some ([fin], 1) := by
      rw [hql]
      show tcpEnqueueLoop o pcb.mss 0 { fin := true } true false (o.TCP_SND_QUEUELEN + 1) allocs
        [] [] 0 pcb.snd_lbb 0 = _
      unfold tcpEnqueueLoop
      have hmss : ¬((0 : ℕ) : ℤ) > (pcb.mss : ℤ) - ((0 : ℕ) : ℤ) := by omega
      have hlimit : ¬(0 + 1 > o.TCP_SND_QUEUELEN ∨ 0 + 1 > TCP_SNDQUEUELEN_OVERFLOW) := by
        unfold TCP_SNDQUEUELEN_OVERFLOW
        omega
      have hleft : ¬u16sub 0 0 > 0 := by decide
      simp only [hseg, hpbuf, if_neg hmss, Bool.not_true, Bool.or_self, Bool.false_and,
        Bool.false_eq_true, if_false, if_neg hlimit, if_neg hleft, List.take_nil]
      rfl
    have hnone : ¬([] : List UInt8).length > pcb.snd_buf := Nat.not_lt_zero _
    have hhas : ¬(pcb.snd_queuelen ≥ o.TCP_SND_QUEUELEN ∨
        pcb.snd_queuelen > TCP_SNDQUEUELEN_OVERFLOW) := by
      unfold TCP_SNDQUEUELEN_OVERFLOW
      omega
    have happ : tcpEnqueueAppend pcb { fin := true } true fin [] 1 = .ok ([fin], 1) := by
      unfold tcpEnqueueAppend
      rw [hs]
      rfl
    refine ⟨tcpEnqueueCommit pcb 0 { fin := true } false [fin] 1, ?_, hu, rfl⟩
    unfold tcpSendCtrl tcpEnqueue
    refine bind_eq_ok.mpr ⟨(), lwipAssert_eq_ok.mpr (.inr (.inr (.inr rfl))), ?_⟩
    rw [if_neg hnone, if_neg hhas]
    refine bind_eq_ok.mpr ⟨(), lwipAssert_eq_ok.mpr (.inl hql), ?_⟩
    refine bind_eq_ok.mpr ⟨(), lwipAssert_eq_ok.mpr (.inr ⟨hu, hs⟩), ?_⟩
    refine bind_eq_ok.mpr ⟨(), lwipAssert_eq_ok.mpr fun h => Nat.not_lt_zero _ h.2.1, ?_⟩
    rw [hloop]
    exact bind_eq_ok.mpr ⟨_, happ, rfl⟩
  have hqc : Counted o q := tcpEnqueue_counted hc (.inr ⟨rfl, rfl⟩) hctrl
  have hwith : ∀ next, (next = .FIN_WAIT_1 ∨ next = .LAST_ACK) →
      ∃ p sent, tcpCloseWith o input ticks allocs alloc next pcb = .ok (.OK, some p, sent) ∧
        FinBehind pcb p := by
    intro next hnext
    have hstate : Moved q { q with state := next } := .of_eq rfl rfl rfl rfl rfl rfl
    have hrst : ∀ s ∈ q.unsent, s.flags.rst = false := by
      intro s hmem
      rw [hqs] at hmem
      rw [List.mem_singleton.mp hmem]
    obtain ⟨⟨p, sent⟩, hout⟩ :
        ∃ r, tcpOutputUnlessInput input ticks alloc { q with state := next } = .ok r :=
      tcpOutputUnlessInput_ok hrst
    refine ⟨p, sent, bind_eq_ok.mpr ⟨_, hctrl, bind_eq_ok.mpr ⟨_, hout, rfl⟩⟩, ?_, ?_⟩
    · -- The output moves the FIN at most to the other queue.
      have hmoved := hstate.trans (tcpOutputUnlessInput_moved (hqc.moved hstate) hout)
      have hperm := hmoved.segs
      rw [hqu, hqs] at hperm
      obtain ⟨s, hsp, hkey⟩ : ∃ s, p.unacked ++ p.unsent = [s] ∧ s.key = fin.key := by
        have hkeys : (p.unacked ++ p.unsent).map Seg.key = [fin.key] :=
          List.perm_singleton.mp hperm
        exact List.map_eq_singleton_iff.mp hkeys
      simp only [Seg.key, Prod.mk.injEq] at hkey
      exact ⟨s, hsp, hkey.1, hkey.2.2.2.2, hkey.2.1⟩
    · have hp : p.state = next := tcpOutputUnlessInput_state hout
      rw [hp]
      exact hnext
  unfold tcpClose
  rcases hw with hst | hst
  · rw [hst]
    exact hwith _ (.inl rfl)
  · rw [hst]
    exact hwith _ (.inr rfl)

end Close

end Lwip.Tcp
