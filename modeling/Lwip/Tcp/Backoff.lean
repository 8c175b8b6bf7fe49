import Lwip.Tcp.Untouched
import Lwip.Tcp.Open
import Lwip.Tcp.Connection

/-!
# The count of retransmissions

`nrtx` grows by one with every retransmission: at a timeout, with the third duplicate
acknowledgement, and with every copy of the SYN that arrives in the state `SYN_RCVD`. `tcp_slowtmr`
gives a connection up when `nrtx` equals `TCP_MAXRTX`, and a timeout reads `tcp_backoff` at `nrtx`.
Both are right as long as `nrtx` does not pass `TCP_MAXRTX` between two ticks. A timeout does not
take it there, since the tick tests it first; the two retransmissions of `tcp_input` can.
-/

namespace Lwip.Tcp

/-! ## The retransmissions of `tcp_input` -/

/-- The acknowledgement is the duplicate with which `tcp_receive` retransmits. -/
def isThirdDupAck (pcb : TcpPcb) (i : In) : Bool :=
  i.seg.flags.ack && decide (i.tcplen = 0) && decide (pcb.lastack = i.ackno) &&
    decide (pcb.rtime ≥ 0) && decide ((pcb.dupacks + 1) % 2^8 = 3) && !pcb.flags.infr &&
    decide ((updateSndWnd pcb i).snd_wl2.adv (updateSndWnd pcb i).snd_wnd =
      pcb.snd_wl2.adv pcb.snd_wnd)

/-- The segment is the peer's SYN once more. -/
def isSynAgain (pcb : TcpPcb) (i : In) : Bool :=
  !i.seg.flags.ack && i.seg.flags.syn && decide (i.seg.seqno = pcb.rcv_nxt - 1)

/-- `tcp_input` calls `tcp_rexmit` for the segment, and there is something to retransmit. -/
def inputRexmits (pcb : TcpPcb) (takesRefused : Bool) (i : In) : Bool :=
  (decide (pcb.refused_data = none) || takesRefused) && !i.seg.flags.rst &&
    decide (pcb.unacked ≠ []) &&
    match pcb.state with
    | .SYN_RCVD => isSynAgain pcb i
    | .CLOSED | .LISTEN | .SYN_SENT | .TIME_WAIT => false
    | _ => !i.seg.flags.syn && isThirdDupAck pcb i

section Count

variable {o : Opts} {ticks : BitVec 32} {m : RxAlloc} {cb : Callbacks} {pcb pcb' : TcpPcb} {i : In}
  {rx : Rx} {sent : List Sent} {out : Bool} {conn : Conn} {n : ℕ}

/-- `tcp_rexmit` counts itself. -/
theorem tcpRexmit_nrtx_le (hn : pcb.nrtx < n) : (tcpRexmit pcb).nrtx ≤ n := by
  unfold tcpRexmit
  split
  · exact le_of_lt hn
  · exact (Nat.mod_le _ _).trans hn

/-- Nothing to retransmit, nothing to count. -/
theorem tcpRexmit_nrtx_of_nil (h : pcb.unacked = []) : (tcpRexmit pcb).nrtx = pcb.nrtx := by
  unfold tcpRexmit
  rw [h]

/-- The peer's window is not the count. -/
theorem updateSndWnd_nrtx (pcb : TcpPcb) (i : In) : (updateSndWnd pcb i).nrtx = pcb.nrtx := by
  unfold updateSndWnd
  split <;> rfl

/-- The branch for an old acknowledgement retransmits at most at the third duplicate. -/
theorem tcpReceiveOldAck_nrtx_le (hflags : i.seg.flags.ack = true) (hn : pcb.nrtx ≤ n)
    (hthird : pcb.unacked ≠ [] → isThirdDupAck pcb i = true → pcb.nrtx ≠ n) :
    (tcpReceiveOldAck (pcb.snd_wl2.adv pcb.snd_wnd) (updateSndWnd pcb i) i).nrtx ≤ n := by
  have hupd : (updateSndWnd pcb i).nrtx ≤ n := (updateSndWnd_nrtx pcb i).le.trans hn
  obtain ⟨hun, hinfr, hrt, hlast, hdup⟩ : (updateSndWnd pcb i).unacked = pcb.unacked ∧
      (updateSndWnd pcb i).flags.infr = pcb.flags.infr ∧ (updateSndWnd pcb i).rtime = pcb.rtime ∧
      (updateSndWnd pcb i).lastack = pcb.lastack ∧ (updateSndWnd pcb i).dupacks = pcb.dupacks := by
    unfold updateSndWnd
    split <;> exact ⟨rfl, rfl, rfl, rfl, rfl⟩
  unfold tcpReceiveOldAck
  split
  · next hold =>
    obtain ⟨htcplen, hedge, hrtime, hackno⟩ := hold
    unfold tcpReceiveDupAck
    dsimp only
    split
    · exact hupd
    split
    · next hthree =>
      unfold tcpRexmitFast
      dsimp only
      split
      · next hcan =>
        obtain ⟨hne, hno⟩ := hcan
        have hlt : (updateSndWnd pcb i).nrtx < n := by
          refine lt_of_le_of_ne hupd ?_
          rw [updateSndWnd_nrtx]
          apply hthird
          · exact hun ▸ hne
          · unfold isThirdDupAck
            rw [hdup] at hthree
            rw [hinfr] at hno
            rw [hrt] at hrtime
            rw [hlast] at hackno
            rw [hflags, decide_eq_true htcplen, decide_eq_true hackno, decide_eq_true hrtime,
              decide_eq_true hthree, hno, decide_eq_true hedge]
            rfl
        exact tcpRexmit_nrtx_le hlt
      · exact hupd
    · exact hupd
  · exact hupd

/-- `tcp_receive` counts at most the retransmission at the third duplicate. -/
theorem tcpReceive_nrtx_le (hn : pcb.nrtx ≤ n)
    (hthird : pcb.unacked ≠ [] → isThirdDupAck pcb i = true → pcb.nrtx ≠ n)
    (h : tcpReceive o ticks m pcb i = .ok rx) : rx.pcb.nrtx ≤ n := by
  obtain ⟨p, ⟨hflags, hp⟩ | ⟨-, rfl⟩, hdata⟩ := tcpReceive_eq_ok h
  · rw [(tcpReceiveData_dataFrame hdata).nrtx]
    unfold tcpReceiveAck at hp
    obtain ⟨p₁, h₁, hp⟩ := bind_eq_ok.mp hp
    obtain ⟨p₂, h₂, hp⟩ := bind_eq_ok.mp hp
    cases hp
    -- The walk through `unsent` and the estimate of the round trip do not count.
    have hafter : (estimateRtt ticks p₂ i).nrtx = p₁.nrtx := by
      have hest : (estimateRtt ticks p₂ i).nrtx = p₂.nrtx := by
        unfold estimateRtt
        split <;> rfl
      unfold tcpReceiveUnsent at h₂
      obtain ⟨⟨q, ql, a⟩, -, h₂⟩ := bind_eq_ok.mp h₂
      cases h₂
      exact hest
    rw [hafter]
    unfold tcpReceiveAckno at h₁
    split at h₁
    · cases h₁
      exact tcpReceiveOldAck_nrtx_le hflags hn hthird
    split at h₁
    · unfold tcpReceiveNewAck at h₁
      obtain ⟨cwnd, -, h₁⟩ := bind_eq_ok.mp h₁
      obtain ⟨⟨q, ql, a⟩, -, h₁⟩ := bind_eq_ok.mp h₁
      cases h₁
      exact Nat.zero_le n
    · cases h₁
      exact (updateSndWnd_nrtx pcb i).le.trans hn
  · rw [(tcpReceiveData_dataFrame hdata).nrtx]
    exact hn

/-- The states after `tcp_receive` do not count. -/
theorem processReceived_nrtx {st : TcpState} (hp : (processReceived rx i st).pcb = some pcb') :
    pcb'.nrtx = rx.pcb.nrtx := by
  refine processReceived_rule (P := fun p => p.nrtx = rx.pcb.nrtx) hp rfl (fun _ => rfl) rfl
    fun q hq => ?_
  have hpurge : (tcpPcbPurge q).nrtx = q.nrtx := by
    unfold tcpPcbPurge
    split <;> rfl
  rcases hq with rfl | rfl
  · exact hpurge
  · exact hpurge

/-- What is noted of every segment makes no acknowledgement a duplicate. -/
theorem isThirdDupAck_note :
    isThirdDupAck (processNote o ticks pcb i) i = isThirdDupAck pcb i := by
  have hedge : (updateSndWnd (processNote o ticks pcb i) i).snd_wl2 = (updateSndWnd pcb i).snd_wl2 ∧
      (updateSndWnd (processNote o ticks pcb i) i).snd_wnd = (updateSndWnd pcb i).snd_wnd := by
    unfold updateSndWnd processNote
    dsimp only
    split <;> exact ⟨rfl, rfl⟩
  unfold isThirdDupAck
  rw [hedge.1, hedge.2]
  rfl

/-- The third duplicate is looked for in the data that `tcp_input` has offered again. -/
theorem isThirdDupAck_offered :
    isThirdDupAck { pcb with refused_data := none } i = isThirdDupAck pcb i := by
  have hedge : (updateSndWnd { pcb with refused_data := none } i).snd_wl2 =
        (updateSndWnd pcb i).snd_wl2 ∧
      (updateSndWnd { pcb with refused_data := none } i).snd_wnd =
        (updateSndWnd pcb i).snd_wnd := by
    unfold updateSndWnd
    dsimp only
    split <;> exact ⟨rfl, rfl⟩
  unfold isThirdDupAck
  rw [hedge.1, hedge.2]

/-- An acknowledgement of more than `lastack` is no duplicate. -/
theorem isThirdDupAck_of_new {nxt : Serial}
    (hb : Serial.between i.ackno (pcb.lastack.adv 1) nxt) : isThirdDupAck pcb i = false := by
  have hne : pcb.lastack ≠ i.ackno := by
    intro heq
    obtain ⟨hge, -⟩ := hb
    have hback : pcb.lastack - pcb.lastack.adv 1 = -1#32 := by
      unfold Serial.adv
      bv_omega
    rw [← heq] at hge
    unfold Serial.geq at hge
    rw [hback] at hge
    revert hge
    decide
  unfold isThirdDupAck
  simp [hne]

/-! ## A segment -/

/-- `tcp_process` counts what `inputRexmits` says. -/
theorem tcpProcess_nrtx_le {pr : Proc} (href : pcb.refused_data = none) (hn : pcb.nrtx ≤ n)
    (hlim : inputRexmits pcb true i = true → pcb.nrtx ≠ n)
    (h : tcpProcess o ticks m cb pcb i = .ok pr) (hp : pr.pcb = some pcb') : pcb'.nrtx ≤ n := by
  unfold tcpProcess at h
  split at h
  · -- A RST changes a flag at most.
    cases h
    unfold processRst at hp
    dsimp only at hp
    split at hp <;> split at hp <;> (cases hp; exact hn)
  next hrst =>
  split at h
  · cases h
    cases hp
    exact hn
  next hsyn =>
  have hnote : (processNote o ticks pcb i).nrtx ≤ n := hn
  split at h
  · -- SYN_SENT
    cases h₁ : pcb.unacked with
    | nil =>
      unfold processSynSent at h
      rw [show (processNote o ticks pcb i).unacked = [] from h₁] at h
      dsimp only at h
      split at h
      · cases h
      · cases h
        cases hp
        exact hnote
    | cons rseg rest =>
      unfold processSynSent at h
      rw [show (processNote o ticks pcb i).unacked = rseg :: rest from h₁] at h
      dsimp only at h
      split at h
      · obtain ⟨_, -, h⟩ := bind_eq_ok.mp h
        cases h
        cases hp
        show (if rest = [] then pcb.nrtx else 0) ≤ n
        split
        · exact hn
        · exact Nat.zero_le n
      · cases h
        cases hp
        exact hnote
  · next hstate =>
    -- SYN_RCVD
    unfold processSynRcvd at h
    split at h
    · split at h
      · next hnew =>
        obtain ⟨⟨acc, out⟩, hacc, h⟩ := bind_eq_ok.mp h
        cases acc with
        | none =>
          cases h
          cases hp
        | some q =>
          dsimp only at h
          split at h
          · cases h
            cases hp
          · obtain ⟨rx, hrx, h⟩ := bind_eq_ok.mp h
            cases h
            have hframe := appCalls_callFrame hacc
            have hq : q.nrtx ≤ n := hframe.nrtx.le.trans hn
            have hrx' : rx.pcb.nrtx ≤ n := by
              apply tcpReceive_nrtx_le hq ?_ hrx
              intro _ hdup
              -- The acknowledgement of the SYN is new.
              have hb : Serial.between i.ackno (q.lastack.adv 1)
                  (processNote o ticks pcb i).snd_nxt := by
                rw [hframe.lastack]
                exact hnew
              rw [isThirdDupAck_of_new hb] at hdup
              cases hdup
            cases hp
            split
            · exact hrx'
            · exact hrx'
      · cases h
        cases hp
        exact hnote
    · next hack =>
      split at h
      · next hagain =>
        cases h
        cases hp
        by_cases hun : pcb.unacked = []
        · have heq : (tcpRexmit (processNote o ticks pcb i)).nrtx = pcb.nrtx :=
            tcpRexmit_nrtx_of_nil hun
          rw [heq]
          exact hn
        · apply tcpRexmit_nrtx_le
          refine lt_of_le_of_ne hnote ?_
          apply hlim
          have hrcv : (processNote o ticks pcb i).rcv_nxt = pcb.rcv_nxt := rfl
          rw [hrcv] at hagain
          simp only [Bool.and_eq_true, decide_eq_true_eq] at hagain
          unfold inputRexmits isSynAgain
          rw [hstate]
          simp [href, hrst, hun, hack, hagain]
      · cases h
        cases hp
        exact hnote
  · cases h
    cases hp
    exact hnote
  · cases h
    cases hp
    exact hnote
  · cases h
    cases hp
    exact hnote
  · next h₁ h₂ h₃ h₄ h₅ =>
    -- The states from ESTABLISHED on.
    obtain ⟨rx, hrx, h⟩ := bind_eq_ok.mp h
    cases h
    rw [processReceived_nrtx hp]
    apply tcpReceive_nrtx_le hnote ?_ hrx
    intro hun hdup
    rw [isThirdDupAck_note] at hdup
    have hun' : pcb.unacked ≠ [] := hun
    have hnosyn : i.seg.flags.syn = false := by
      by_contra hs
      apply hsyn
      rw [Bool.eq_true_of_not_eq_false hs, Bool.true_and, Bool.and_eq_true]
      exact ⟨decide_eq_true h₁, decide_eq_true h₂⟩
    apply hlim
    unfold inputRexmits
    cases hs : pcb.state <;> simp_all

/-- `tcp_input` counts what `inputRexmits` says. -/
theorem tcpInput_nrtx_le (hn : pcb.nrtx ≤ n)
    (hlim : inputRexmits pcb cb.takesRefused i = true → pcb.nrtx ≠ n)
    (h : tcpInput o ticks m cb out pcb i = .ok (.active pcb', sent)) : pcb'.nrtx ≤ n := by
  unfold tcpInput at h
  split at h
  · cases h
    exact hn
  next hkept =>
  obtain ⟨pr, hpr, h⟩ := bind_eq_ok.mp h
  split at h
  · cases h
  next p hp =>
  split at h
  · obtain ⟨r, -, h⟩ := bind_eq_ok.mp h
    cases h
  have hoff : { pcb with refused_data := none }.nrtx ≤ n := hn
  have hlim' : inputRexmits { pcb with refused_data := none } true i = true → pcb.nrtx ≠ n := by
    intro hrex
    apply hlim
    have hnow : (decide (pcb.refused_data = none) || cb.takesRefused) = true := by
      by_contra hno
      exact hkept (by simpa using hno)
    unfold inputRexmits at hrex ⊢
    rw [isThirdDupAck_offered] at hrex
    rw [hnow]
    exact hrex
  have hple : p.nrtx ≤ n := tcpProcess_nrtx_le rfl hoff hlim' hpr hp
  unfold tcpInputFinish at h
  obtain ⟨⟨r, out₁⟩, happ, h⟩ := bind_eq_ok.mp h
  cases r with
  | none => cases h
  | some q =>
    obtain ⟨⟨q', out₂⟩, hout, h⟩ := bind_eq_ok.mp h
    have hkeep : (keepRefused cb pr q).nrtx = q.nrtx := rfl
    have hq' : q'.nrtx ≤ n := by
      calc q'.nrtx = (keepRefused cb pr q).nrtx := (tcpOutput_callFrame hout).nrtx
        _ = q.nrtx := hkeep
        _ = p.nrtx := (appCalls_callFrame happ).nrtx
        _ ≤ n := hple
    dsimp only at h
    split at h
    · cases h
    · cases h
      exact hq'

/-! ## A tick -/

/-- The persist timer leaves the count alone. -/
theorem slowtmrPersist_nrtx (e : TickEnv) (pcb : TcpPcb) :
    (slowtmrPersist e pcb).1.nrtx = pcb.nrtx := by
  unfold slowtmrPersist tcpZeroWindowProbe
  dsimp only
  split
  · split
    · rfl
    · split <;> rfl
  · rfl

/-- A timeout counts itself, after the test of the limit. -/
theorem slowtmrRexmit_nrtx_le {e : TickEnv} (hn : pcb.nrtx ≤ o.TCP_MAXRTX)
    (hmax : slowtmrMaxed o pcb = false) (h : slowtmrRexmit o ticks e pcb = .ok (pcb', sent)) :
    pcb'.nrtx ≤ o.TCP_MAXRTX := by
  have hlt : pcb.nrtx < o.TCP_MAXRTX := by
    refine lt_of_le_of_ne hn ?_
    unfold slowtmrMaxed at hmax
    rw [Bool.or_eq_false_iff] at hmax
    exact of_decide_eq_false hmax.2
  unfold slowtmrRexmit at h
  rw [hmax] at h
  dsimp only at h
  split at h
  · next hc => cases hc
  split at h
  · have heq : slowtmrPersist e pcb = (pcb', sent) := Except.ok.inj h
    have hsame := slowtmrPersist_nrtx e pcb
    rw [heq] at hsame
    exact hsame.le.trans hn
  · generalize (if pcb.rtime ≥ 0 then s16 (pcb.rtime + 1) else pcb.rtime) = rtime at h
    split at h
    · unfold slowtmrRto tcpRexmitRto at h
      split at h
      · cases h
      dsimp only at h
      split at h
      · cases h
        exact hn
      · rw [(tcpOutput_callFrame h).nrtx]
        exact (Nat.mod_le _ _).trans hlt
    · cases h
      exact hn

/-- A pcb that is still there after a tick has not retransmitted more often than it may. -/
theorem tcpSlowtmr_nrtx_le {e : TickEnv} (hn : pcb.nrtx ≤ o.TCP_MAXRTX)
    (h : tcpSlowtmr o ticks e pcb = .ok (.active pcb', sent)) : pcb'.nrtx ≤ o.TCP_MAXRTX := by
  refine (tcpSlowtmr_rule (P := fun p _ => p.nrtx ≤ o.TCP_MAXRTX) h (fun p out₁ hr hstays n => ?_)
    (fun p q _ _ hp happ => (appCalls_callFrame happ).nrtx.le.trans hp)
    fun p q _ _ hp hout => (tcpOutput_callFrame hout).nrtx.le.trans hp).elim nofun ?_
  · have hmax : slowtmrMaxed o pcb = false := by
      unfold slowtmrRemoves at hstays
      simp only [Bool.or_eq_false_iff] at hstays
      exact hstays.1.1.1.1
    have hp : p.nrtx ≤ o.TCP_MAXRTX := slowtmrRexmit_nrtx_le hn hmax hr
    unfold slowtmrOoseq slowtmrKeepalive tcpKeepalive
    dsimp only
    split
    · split <;> exact hp
    · exact hp
  · rintro ⟨q, hq, hle⟩
    cases hq
    exact hle

/-- A fast tick leaves the count alone. -/
theorem tcpFasttmr_nrtx {takesRefused : Bool}
    (h : tcpFasttmr ticks takesRefused out pcb = .ok (pcb', sent)) : pcb'.nrtx = pcb.nrtx := by
  exact tcpFasttmr_rule (P := fun p _ => p.nrtx = pcb.nrtx) h rfl
    fun hack => (tcpAckNow_callFrame hack).nrtx

end Count

/-! ## Every run -/

/-- `tcp_slowtmr` reads `tcp_backoff` at this tick. -/
def readsBackoff (o : Opts) (pcb : TcpPcb) : Bool :=
  !slowtmrMaxed o pcb && rtoExpires pcb && decide (pcb.state ≠ .SYN_SENT)

/-- A tick reads `tcp_backoff` inside its bounds, and leaves no pcb that has retransmitted more
often than it may. -/
def TickOk (o : Opts) : Conn → ConnEvent → Prop
  | .active pcb, .slowtmr ticks e =>
    (readsBackoff o pcb = true → pcb.nrtx < tcpBackoff.length) ∧
      ∀ pcb', connStep o (.active pcb) (.slowtmr ticks e) = .ok (.active pcb') →
        pcb'.nrtx ≤ o.TCP_MAXRTX
  | _, _ => True

/-- No segment makes a pcb retransmit that has done so as often as it may. -/
def RexmitsBelow (o : Opts) : Conn → ConnEvent → Prop
  | .active pcb, .input _ _ cb _ i =>
    inputRexmits pcb cb.takesRefused i = true → pcb.nrtx ≠ o.TCP_MAXRTX
  | _, _ => True

/-- The limit on `nrtx`. -/
def Conn.BelowMax (o : Opts) : Conn → Prop
  | .active pcb => pcb.nrtx ≤ o.TCP_MAXRTX
  | _ => True

/-- Every event keeps the limit. -/
theorem connStep_belowMax {o : Opts} {c c' : Conn} {ev : ConnEvent} (h : c.BelowMax o)
    (hC : RexmitsBelow o c ev) (hs : connStep o c ev = .ok c') : c'.BelowMax o := by
  cases c' with
  | gone => trivial
  | timeWait p => trivial
  | active p =>
    cases c with
    | gone => cases ev <;> cases hs
    | timeWait pcb =>
      cases ev with
      | input ticks m cb out i =>
        obtain ⟨r, -, hs⟩ := bind_eq_ok.mp hs
        cases hs
      | slowtmr ticks e =>
        have hgone : tcpSlowtmrTimeWait ticks pcb = .active p := Except.ok.inj hs
        unfold tcpSlowtmrTimeWait at hgone
        split at hgone <;> cases hgone
      | call ticks c => cases hs
      | output ticks alloc => cases hs
      | fasttmr ticks takesRefused out => cases hs
    | active pcb =>
      cases ev with
      | call ticks c =>
        obtain ⟨⟨r, out⟩, hcall, hs⟩ := bind_eq_ok.mp hs
        cases r with
        | none => cases hs
        | some q =>
          cases hs
          exact (appCall_callFrame hcall).nrtx.le.trans h
      | output ticks alloc =>
        obtain ⟨⟨q, out⟩, hout, hs⟩ := bind_eq_ok.mp hs
        cases hs
        exact (tcpOutput_callFrame hout).nrtx.le.trans h
      | slowtmr ticks e =>
        obtain ⟨⟨q, out⟩, ht, hs⟩ := bind_eq_ok.mp hs
        cases hs
        exact tcpSlowtmr_nrtx_le h ht
      | fasttmr ticks takesRefused out =>
        obtain ⟨⟨q, out'⟩, ht, hs⟩ := bind_eq_ok.mp hs
        cases hs
        exact (tcpFasttmr_nrtx ht).le.trans h
      | input ticks m cb out i =>
        obtain ⟨⟨q, out'⟩, ht, hs⟩ := bind_eq_ok.mp hs
        cases hs
        exact tcpInput_nrtx_le h hC ht

/-- At the limit or below it, a tick is fine. `lwip_init` checks that `TCP_MAXRTX` is at most 12. -/
theorem Conn.BelowMax.tickOk {o : Opts} {c : Conn} {ev : ConnEvent} (hmax : o.TCP_MAXRTX ≤ 12)
    (h : c.BelowMax o) : TickOk o c ev := by
  unfold TickOk
  split
  · next pcb ticks e =>
    refine ⟨fun _ => ?_, fun pcb' hs => ?_⟩
    · calc pcb.nrtx ≤ o.TCP_MAXRTX := h
        _ ≤ 12 := hmax
        _ < tcpBackoff.length := by decide
    · have hC : RexmitsBelow o (.active pcb) (.slowtmr ticks e) := trivial
      exact connStep_belowMax h hC hs
  · trivial

/-- Retransmission gives up in time in every run in which no segment makes a pcb retransmit that has
done so `TCP_MAXRTX` times. -/
theorem retransmission_gives_up {o : Opts} (hmax : o.TCP_MAXRTX ≤ 12) {pcb : TcpPcb}
    {es : List ConnEvent} (h0 : pcb.nrtx = 0)
    (hC : Along (connStep o) (RexmitsBelow o) (.active pcb) es) :
    Along (connStep o) (TickOk o) (.active pcb) es := by
  have hstart : (Conn.active pcb).BelowMax o := by
    show pcb.nrtx ≤ o.TCP_MAXRTX
    omega
  exact run_along (fun _ _ _ h hC hs => connStep_belowMax h hC hs)
    (fun _ _ h _ => h.tickOk hmax) hstart hC

instance (o : Opts) : (c : Conn) → (ev : ConnEvent) → Decidable (TickOk o c ev)
  | .active pcb, .slowtmr ticks e =>
    match h : connStep o (.active pcb) (.slowtmr ticks e) with
    | .ok (.active p) => decidable_of_iff
        ((readsBackoff o pcb = true → pcb.nrtx < tcpBackoff.length) ∧ p.nrtx ≤ o.TCP_MAXRTX)
        (and_congr_right fun _ => ⟨fun hp pcb' hs => by cases h.symm.trans hs; exact hp,
          fun hp => hp p h⟩)
    | .ok (.timeWait _) => decidable_of_iff
        (readsBackoff o pcb = true → pcb.nrtx < tcpBackoff.length)
        ⟨fun hr => ⟨hr, fun pcb' hs => by cases h.symm.trans hs⟩, And.left⟩
    | .ok .gone => decidable_of_iff
        (readsBackoff o pcb = true → pcb.nrtx < tcpBackoff.length)
        ⟨fun hr => ⟨hr, fun pcb' hs => by cases h.symm.trans hs⟩, And.left⟩
    | .error _ => decidable_of_iff
        (readsBackoff o pcb = true → pcb.nrtx < tcpBackoff.length)
        ⟨fun hr => ⟨hr, fun pcb' hs => by cases h.symm.trans hs⟩, And.left⟩
  | .active _, .call _ _ | .active _, .output _ _ | .active _, .fasttmr _ _ _ => .isTrue trivial
  | .active _, .input _ _ _ _ _ => .isTrue trivial
  | .timeWait _, _ | .gone, _ => .isTrue trivial

instance (o : Opts) : (c : Conn) → (ev : ConnEvent) → Decidable (RexmitsBelow o c ev)
  | .active pcb, .input _ _ cb _ i =>
    inferInstanceAs (Decidable (inputRexmits pcb cb.takesRefused i = true →
      pcb.nrtx ≠ o.TCP_MAXRTX))
  | .active _, .call _ _ | .active _, .output _ _ | .active _, .fasttmr _ _ _ => .isTrue trivial
  | .active _, .slowtmr _ _ => .isTrue trivial
  | .timeWait _, _ | .gone, _ => .isTrue trivial

/-- The SYN of a peer that opens a connection, and sends it again when no answer arrives. -/
def openingSyn : In :=
  { seg := { seqno := 0, len := 0, flags := { syn := true } }, ackno := 0, wnd := 1000 }

/-- The pcb that answers it. -/
def synRcvd : TcpPcb :=
  { listenPcb .shipped {} openingSyn with
    rcv_ann_right_edge := 2145
    rtime := 0
    rttest := 1
    snd_nxt := 1
    snd_lbb := 1
    snd_buf := 255
    snd_queuelen := 1
    unacked := [{ seqno := 0, len := 0, flags := { syn := true, ack := true }, optMss := true }] }

/-- `n` copies of the SYN, and `k` ticks. -/
def synRun (n k : ℕ) : List ConnEvent :=
  List.replicate n (.input 1 {} {} true openingSyn) ++ List.replicate k (.slowtmr 1 {})

/-- The count after six copies of the SYN and twelve ticks. -/
theorem retransmission_gives_up_synRun :
    Along (connStep .shipped) (TickOk .shipped) (.active synRcvd) (synRun 12 6) :=
  retransmission_gives_up (by decide) rfl (by decide +kernel)

/-- With thirteen copies between two ticks the count steps over the limit: the pcb survives the
first tick after them, and the sixth reads past the end of `tcp_backoff`. -/
theorem synRun_steps_over_the_limit :
    (∃ sent, tcpListenInput .shipped {} openingSyn = .ok (some synRcvd, sent)) ∧ synRcvd.nrtx = 0 ∧
      ¬ Along (connStep .shipped) (TickOk .shipped) (.active synRcvd) (synRun 13 1) ∧
      run (connStep .shipped) (.active synRcvd) (synRun 13 6) = .error .backoffOutOfBounds :=
  ⟨⟨_, rfl⟩, rfl, by decide +kernel, rfl⟩

end Lwip.Tcp
