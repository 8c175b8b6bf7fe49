import Lwip.Tcp.Counted

/-!
# The count of queued pbufs along a run

Every event of a connection keeps the count (`connStep_counted`), until `TIME_WAIT`, where the
queues are purged and the counter is left as it is. With a limit of one pbuf, as in the options of
this build, at most one segment is queued, so no retransmission can disturb an order.
-/

namespace Lwip.Tcp

section Ack

variable {o : Opts} {ticks : BitVec 32} {pcb pcb' : TcpPcb} {i : In}

/-- The same queues have the same count. -/
theorem SameSnd.moved {a b : TcpPcb} (h : SameSnd a b) (hn : b.snd_queuelen = a.snd_queuelen) :
    Moved a b :=
  .of_eq h.unacked h.unsent hn h.fin h.mss h.snd_buf

/-- The loop that frees acknowledged segments takes them off the count. `acked` stays as it is if
none of them has a FIN. -/
theorem freeAcked_counted {acks : Seg → Bool} {other q q' : List Seg} {ql ql' a a' : ℕ}
    (hql : ql = clens q + clens other) (hsmall : ql < 2^8)
    (h : freeAcked acks other q ql a = .ok (q', ql', a')) :
    ql' = clens q' + clens other ∧ ((∀ s ∈ q, s.flags.fin = false) → a' = a) := by
  induction q generalizing ql a with
  | nil =>
    cases h
    exact ⟨hql, fun _ => rfl⟩
  | cons s q ih =>
    unfold freeAcked at h
    split at h
    · obtain ⟨_, -, h⟩ := bind_eq_ok.mp h
      obtain ⟨_, -, h⟩ := bind_eq_ok.mp h
      rw [clens_cons] at hql
      -- `pbuf_clen` counts in a `u8_t`, which is enough here.
      have hclen : s.pbufClen = s.clen := Nat.mod_eq_of_lt (by omega)
      rw [hclen] at h
      obtain ⟨hq, ha⟩ := ih (by omega) (by omega) h
      refine ⟨hq, fun hf => ?_⟩
      rw [ha fun x hx => hf x (List.mem_cons_of_mem _ hx), hf s List.mem_cons_self]
      simp
    · cases h
      exact ⟨hql, fun _ => rfl⟩

/-- A pcb with fewer segments and the count of those that are left. -/
theorem Counted.fewer (h : Counted o pcb) (hu : pcb'.unacked.Sublist pcb.unacked)
    (hs : pcb'.unsent.Sublist pcb.unsent)
    (hn : pcb'.snd_queuelen = clens pcb'.unacked + clens pcb'.unsent)
    (hf : pcb'.flags.fin = pcb.flags.fin) (hm : pcb'.mss = pcb.mss)
    (hb : pcb'.snd_buf ≤ 0xffff) : Counted o pcb' where
  eq := by
    rw [hn, clens_append]
  le := by
    have hle : ∀ {l l' : List Seg}, l.Sublist l' → clens l ≤ clens l' := fun hl =>
      (hl.map _).sum_le_sum fun _ _ => Nat.zero_le _
    have h1 := hle hu
    have h2 := hle hs
    have h3 := h.eq
    have h4 := h.le
    rw [clens_append] at h3
    omega
  segs s hs' := by
    rw [hf]
    exact h.segs s ((hu.append hs).subset hs')
  mss_le := by
    rw [hm]
    exact h.mss_le
  snd_buf_le := hb

/-- An acknowledgement of new data keeps the count. -/
theorem tcpReceiveNewAck_counted (hq : o.TCP_SND_QUEUELEN < 2^8) (hc : Counted o pcb)
    (h : tcpReceiveNewAck pcb i = .ok pcb') : Counted o pcb' := by
  unfold tcpReceiveNewAck at h
  obtain ⟨cwnd, -, h⟩ := bind_eq_ok.mp h
  obtain ⟨⟨q, ql, a⟩, hfree, h⟩ := bind_eq_ok.mp h
  cases h
  have heq := hc.eq
  have hle := hc.le
  rw [clens_append] at heq
  obtain ⟨hql, -⟩ := freeAcked_counted heq (Nat.lt_of_le_of_lt hle hq) hfree
  have hsub : q.Sublist pcb.unacked := by
    rw [freeAcked_eq hfree]
    exact List.dropWhile_sublist _
  refine hc.fewer hsub (.refl _) hql rfl rfl ?_
  exact Nat.le_of_lt_succ (Nat.mod_lt _ (by decide))

/-- The second loop of `tcp_receive` keeps the count. -/
theorem tcpReceiveUnsent_counted (hq : o.TCP_SND_QUEUELEN < 2^8) (hc : Counted o pcb)
    (h : tcpReceiveUnsent pcb i = .ok pcb') : Counted o pcb' := by
  unfold tcpReceiveUnsent at h
  obtain ⟨⟨q, ql, a⟩, hfree, h⟩ := bind_eq_ok.mp h
  cases h
  have heq := hc.eq
  have hle := hc.le
  rw [clens_append, Nat.add_comm] at heq
  obtain ⟨hql, -⟩ := freeAcked_counted heq (Nat.lt_of_le_of_lt hle hq) hfree
  have hsub : q.Sublist pcb.unsent := by
    rw [freeAcked_eq hfree]
    exact List.dropWhile_sublist _
  exact hc.fewer (.refl _) hsub (hql.trans (Nat.add_comm _ _)) rfl rfl hc.snd_buf_le

/-- An ACK of nothing new moves a segment at most. -/
theorem tcpReceiveOldAck_moved (e : Serial) (pcb : TcpPcb) (i : In) :
    Moved pcb (tcpReceiveOldAck e pcb i) := by
  have hdup : ∀ n, Moved pcb { pcb with acked := 0, dupacks := n } := fun n =>
    .of_eq rfl rfl rfl rfl rfl rfl
  unfold tcpReceiveOldAck tcpReceiveDupAck
  split
  · split
    · exact .of_eq rfl rfl rfl rfl rfl rfl
    · split
      · exact (hdup ((pcb.dupacks + 1) % 2^8)).trans (tcpRexmitFast_moved _)
      · exact hdup _
  · exact hdup 0

/-- An acknowledgement keeps the count. -/
theorem tcpReceiveAck_counted (hq : o.TCP_SND_QUEUELEN < 2^8) (hc : Counted o pcb)
    (h : tcpReceiveAck ticks pcb i = .ok pcb') : Counted o pcb' := by
  unfold tcpReceiveAck at h
  obtain ⟨p, hp, h⟩ := bind_eq_ok.mp h
  obtain ⟨q, hun, h⟩ := bind_eq_ok.mp h
  cases h
  have hwnd : Moved pcb (updateSndWnd pcb i) := by
    unfold updateSndWnd
    split <;> exact .of_eq rfl rfl rfl rfl rfl rfl
  have hc' : Counted o (updateSndWnd pcb i) := hc.moved hwnd
  -- The three cases of the acknowledgement number.
  have hp' : Counted o p := by
    unfold tcpReceiveAckno at hp
    split at hp
    · cases hp
      exact hc'.moved (tcpReceiveOldAck_moved _ _ _)
    · split at hp
      · exact tcpReceiveNewAck_counted hq hc' hp
      · cases hp
        exact hc'.moved (.of_eq rfl rfl rfl rfl rfl rfl)
  have hrtt : Moved q (estimateRtt ticks q i) := by
    unfold estimateRtt
    split <;> exact .of_eq rfl rfl rfl rfl rfl rfl
  exact (tcpReceiveUnsent_counted hq hp' hun).moved hrtt

end Ack

/-! ## The data of a segment -/

section Data

variable {o : Opts} {ticks : BitVec 32} {m : RxAlloc} {pcb pcb' : TcpPcb} {i : In} {rx : Rx}

/-- The announced window is not the count. -/
theorem tcpUpdateRcvAnnWnd_queuelen (o : Opts) (pcb : TcpPcb) :
    (tcpUpdateRcvAnnWnd o pcb).1.snd_queuelen = pcb.snd_queuelen := by
  unfold tcpUpdateRcvAnnWnd
  dsimp only
  split
  · rfl
  · split <;> rfl

/-- An empty ACK is not counted. -/
theorem tcpSendEmptyAck_queuelen (alloc : Bool) (pcb : TcpPcb) :
    (tcpSendEmptyAck alloc pcb).1.snd_queuelen = pcb.snd_queuelen := by
  unfold tcpSendEmptyAck
  split <;> rfl

/-- The loop over `ooseq` leaves the count alone. -/
theorem dequeueOoseq_queuelen {q : List Seg} {rx' : Rx} (h : dequeueOoseq o q rx = .ok rx') :
    rx'.pcb.snd_queuelen = rx.pcb.snd_queuelen := by
  induction q generalizing rx with
  | nil =>
    cases h
    rfl
  | cons s q ih =>
    unfold dequeueOoseq at h
    split at h
    · obtain ⟨_, -, h⟩ := bind_eq_ok.mp h
      exact (ih h).trans (tcpUpdateRcvAnnWnd_queuelen _ _)
    · cases h
      rfl

/-- A segment in sequence leaves the count alone. -/
theorem tcpReceiveInSeq_queuelen {s : Seg} (h : tcpReceiveInSeq o pcb s = .ok rx) :
    rx.pcb.snd_queuelen = pcb.snd_queuelen := by
  unfold tcpReceiveInSeq at h
  obtain ⟨⟨s₁, n₁⟩, -, h⟩ := bind_eq_ok.mp h
  obtain ⟨⟨s₂, n₂, q⟩, -, h⟩ := bind_eq_ok.mp h
  obtain ⟨_, -, h⟩ := bind_eq_ok.mp h
  obtain ⟨rx', hd, h⟩ := bind_eq_ok.mp h
  cases h
  exact (dequeueOoseq_queuelen hd).trans (tcpUpdateRcvAnnWnd_queuelen _ _)

/-- A segment in the window leaves the count alone. -/
theorem tcpReceiveWindow_queuelen {s : Seg} (h : tcpReceiveWindow o m pcb s = .ok rx) :
    rx.pcb.snd_queuelen = pcb.snd_queuelen := by
  have hack := tcpSendEmptyAck_queuelen m.ack pcb
  unfold tcpReceiveWindow at h
  dsimp only at h
  split at h
  · split at h
    · exact tcpReceiveInSeq_queuelen h
    · cases h
      exact hack
  · cases h
    exact hack

/-- The data half leaves the count alone. -/
theorem tcpReceiveData_queuelen {s : Seg} (h : tcpReceiveData o m pcb s = .ok rx) :
    rx.pcb.snd_queuelen = pcb.snd_queuelen := by
  unfold tcpReceiveData at h
  split at h
  · split at h
    · obtain ⟨s', -, h⟩ := bind_eq_ok.mp h
      exact tcpReceiveWindow_queuelen h
    · have hnow : (if Serial.lt s.seqno pcb.rcv_nxt then tcpAckNowInput pcb else pcb).snd_queuelen =
          pcb.snd_queuelen := by
        split <;> rfl
      exact (tcpReceiveWindow_queuelen h).trans hnow
  · cases h
    dsimp only
    split <;> rfl

/-- The data half of `tcp_receive` leaves the queues alone. -/
theorem tcpReceiveData_moved {s : Seg} (h : tcpReceiveData o m pcb s = .ok rx) :
    Moved pcb rx.pcb := by
  have hsame := (tcpReceiveData_finMoved h).same
  exact .of_eq hsame.unacked hsame.unsent (tcpReceiveData_queuelen h) hsame.fin hsame.mss
    hsame.snd_buf

/-- `tcp_receive` keeps the count. -/
theorem tcpReceive_counted (hq : o.TCP_SND_QUEUELEN < 2^8) (hc : Counted o pcb)
    (h : tcpReceive o ticks m pcb i = .ok rx) : Counted o rx.pcb := by
  obtain ⟨p, hp, hd⟩ := tcpReceive_eq_ok h
  have hp' : Counted o p := by
    rcases hp with ⟨-, hp⟩ | ⟨-, rfl⟩
    · exact tcpReceiveAck_counted hq hc hp
    · exact hc
  exact hp'.moved (tcpReceiveData_moved hd)

end Data

/-! ## `tcp_process` and `tcp_input` -/

section Input

variable {o : Opts} {ticks : BitVec 32} {m : RxAlloc} {cb : Callbacks} {pcb pcb' : TcpPcb} {i : In}
  {out : Bool} {conn : Conn} {sent : List Sent}

/-- What `tcp_process` notes at first keeps the count. -/
theorem processNote_counted (hc : Counted o pcb) : Counted o (processNote o ticks pcb i) where
  eq := hc.eq
  le := hc.le
  segs := hc.segs
  mss_le := tcpParseopt_le o _ _ hc.mss_le
  snd_buf_le := hc.snd_buf_le

/-- The states after `tcp_receive` leave the queues, unless the pcb enters `TIME_WAIT`. -/
theorem processReceived_moved {rx : Rx} {st : TcpState}
    (hp : (processReceived rx i st).pcb = some pcb') :
    Moved rx.pcb pcb' ∨ pcb'.state = .TIME_WAIT := by
  exact processReceived_rule (P := fun p => Moved rx.pcb p ∨ p.state = .TIME_WAIT) hp
    (.inl (.refl _)) (fun _ => .inl (.of_eq rfl rfl rfl rfl rfl rfl))
    (.inl (.of_eq rfl rfl rfl rfl rfl rfl)) fun _ _ => .inr rfl

/-- `tcp_process` keeps the count of an established connection, unless the pcb enters
`TIME_WAIT`. -/
theorem tcpProcess_counted {pr : Proc} (hq : o.TCP_SND_QUEUELEN < 2^8) (hc : Counted o pcb)
    (hlive : pcb.state.geEstablished = true) (hp : tcpProcess o ticks m cb pcb i = .ok pr)
    (hpcb : pr.pcb = some pcb') : Counted o pcb' ∨ pcb'.state = .TIME_WAIT := by
  have hnote : Counted o (processNote o ticks pcb i) := processNote_counted hc
  unfold tcpProcess at hp
  split at hp
  · -- A RST changes a flag at most.
    cases hp
    left
    have hrst : Moved pcb { pcb with flags := { pcb.flags with ack_delay := false } } :=
      .of_eq rfl rfl rfl rfl rfl rfl
    unfold processRst at hpcb
    dsimp only at hpcb
    split at hpcb <;> split at hpcb <;> cases hpcb
    · exact hc.moved hrst
    · exact hc
    · exact hc.moved hrst
    · exact hc
  · split at hp
    · cases hp
      cases hpcb
      exact .inl (hc.moved (.of_eq rfl rfl rfl rfl rfl rfl))
    · split at hp
      · next hs => rw [hs] at hlive; cases hlive
      · next hs => rw [hs] at hlive; cases hlive
      · cases hp
        cases hpcb
        exact .inl hnote
      · cases hp
        cases hpcb
        exact .inl hnote
      · cases hp
        cases hpcb
        exact .inl hnote
      · obtain ⟨rx, hr, hp⟩ := bind_eq_ok.mp hp
        cases hp
        have hrx : Counted o rx.pcb := tcpReceive_counted hq hnote hr
        exact (processReceived_moved hpcb).imp hrx.moved id

/-- The count of an active connection. -/
def Conn.Counted (o : Opts) : Conn → Prop
  | .active pcb => Lwip.Tcp.Counted o pcb
  | _ => True

/-- The end of `tcp_input` keeps the count. -/
theorem tcpInputFinish_counted {pr : Proc} (hc : Counted o pcb ∨ pcb.state = .TIME_WAIT)
    (h : tcpInputFinish o ticks cb out pr pcb = .ok (conn, sent)) : conn.Counted o := by
  unfold tcpInputFinish at h
  obtain ⟨⟨p, out₁⟩, happ, h⟩ := bind_eq_ok.mp h
  cases p with
  | none =>
    cases h
    trivial
  | some p =>
    obtain ⟨⟨q, out₂⟩, ho, h⟩ := bind_eq_ok.mp h
    cases h
    have hkeep : Moved p (keepRefused cb pr p) := .of_eq rfl rfl rfl rfl rfl rfl
    have hsame : SameSnd p (keepRefused cb pr p) :=
      ⟨rfl, rfl, rfl, rfl, rfl, rfl, rfl, rfl, rfl, rfl, rfl⟩
    dsimp only
    split
    · trivial
    · next hne =>
      rcases hc with hc | hst
      · have hp : Counted o (keepRefused cb pr p) := (appCalls_counted hc happ).moved hkeep
        exact hp.moved (tcpOutput_moved hp ho)
      · -- The application does not bring a pcb back from `TIME_WAIT`.
        have hall := (appCalls_follows happ).trans (hsame.follows.trans (tcpOutput_follows ho))
        exact absurd (hall.timeWait hst) hne

/-- `tcp_input` keeps the count. -/
theorem tcpInput_counted (hq : o.TCP_SND_QUEUELEN < 2^8) (hc : Counted o pcb)
    (hlive : pcb.state.geEstablished = true)
    (h : tcpInput o ticks m cb out pcb i = .ok (conn, sent)) : conn.Counted o := by
  have hnone : Counted o { pcb with refused_data := none } :=
    hc.moved (.of_eq rfl rfl rfl rfl rfl rfl)
  unfold tcpInput at h
  split at h
  · cases h
    exact hc
  · obtain ⟨pr, hpr, h⟩ := bind_eq_ok.mp h
    split at h
    · cases h
      trivial
    · next p hp =>
      split at h
      · obtain ⟨r, -, h⟩ := bind_eq_ok.mp h
        cases h
        trivial
      · exact tcpInputFinish_counted (tcpProcess_counted hq hnone hlive hpr hp) h

end Input

/-! ## The timers -/

section Timers

variable {o : Opts} {ticks : BitVec 32} {e : TickEnv} {pcb pcb' : TcpPcb} {out : Bool} {conn : Conn}
  {sent : List Sent}

/-- The persist timer moves no segment. -/
theorem slowtmrPersist_moved (e : TickEnv) (pcb : TcpPcb) :
    Moved pcb (slowtmrPersist e pcb).1 := by
  unfold slowtmrPersist tcpZeroWindowProbe
  dsimp only
  split
  · split
    · exact .of_eq rfl rfl rfl rfl rfl rfl
    · split <;> exact .of_eq rfl rfl rfl rfl rfl rfl
  · exact .of_eq rfl rfl rfl rfl rfl rfl

/-- A retransmission moves segments. -/
theorem slowtmrRexmit_moved (hc : Counted o pcb)
    (h : slowtmrRexmit o ticks e pcb = .ok (pcb', sent)) : Moved pcb pcb' := by
  unfold slowtmrRexmit at h
  split at h
  · cases h
    exact .refl _
  split at h
  · have hp := slowtmrPersist_moved e pcb
    rw [Except.ok.inj h] at hp
    exact hp
  · dsimp only at h
    generalize (if pcb.rtime ≥ 0 then s16 (pcb.rtime + 1) else pcb.rtime) = rtime at h
    split at h
    · obtain ⟨p, hp, hql, hrto⟩ : ∃ p, SameSnd pcb p ∧ p.snd_queuelen = pcb.snd_queuelen ∧
          tcpRexmitRto ticks e.rto p = .ok (pcb', sent) := by
        unfold slowtmrRto at h
        split at h
        · cases h
        · refine ⟨_, ?_, ?_, h⟩
          · exact ⟨rfl, rfl, rfl, rfl, rfl, rfl, rfl, rfl, rfl, rfl, rfl⟩
          · rfl
      have hmoved : Moved pcb p := hp.moved hql
      exact hmoved.trans (tcpRexmitRto_moved (hc.moved hmoved) hrto)
    · cases h
      exact .of_eq rfl rfl rfl rfl rfl rfl

/-- A keepalive moves no segment. -/
theorem slowtmrKeepalive_moved (ticks : BitVec 32) (e : TickEnv) (pcb : TcpPcb) :
    Moved pcb (slowtmrKeepalive ticks e pcb).1 := by
  unfold slowtmrKeepalive tcpKeepalive
  split
  · dsimp only
    split <;> exact .of_eq rfl rfl rfl rfl rfl rfl
  · exact .refl _

/-- The `poll` callback keeps the count. -/
theorem slowtmrPoll_counted (hc : Counted o pcb)
    (h : slowtmrPoll o ticks e pcb = .ok (conn, sent)) : conn.Counted o := by
  obtain rfl | ⟨q, rfl, hq⟩ := slowtmrPoll_rule (P := fun p _ => Counted o p) h
    (fun n => hc.moved (.of_eq rfl rfl rfl rfl rfl rfl))
    (fun p q _ _ hp happ => appCalls_counted hp happ)
    fun p q _ _ hp ho => hp.moved (tcpOutput_moved hp ho)
  · trivial
  · exact hq

/-- A slow tick keeps the count. -/
theorem tcpSlowtmr_counted (hc : Counted o pcb)
    (h : tcpSlowtmr o ticks e pcb = .ok (conn, sent)) : conn.Counted o := by
  unfold tcpSlowtmr at h
  obtain ⟨⟨p, out₁⟩, hr, h⟩ := bind_eq_ok.mp h
  have hp : Counted o p := hc.moved (slowtmrRexmit_moved hc hr)
  have hoo : Moved (slowtmrKeepalive ticks e p).1
      (slowtmrOoseq ticks (slowtmrKeepalive ticks e p).1) := .of_eq rfl rfl rfl rfl rfl rfl
  dsimp only at h
  split at h
  · cases h
    trivial
  · obtain ⟨⟨c, out₂⟩, hpoll, h⟩ := bind_eq_ok.mp h
    cases h
    exact slowtmrPoll_counted ((hp.moved (slowtmrKeepalive_moved _ _ _)).moved hoo) hpoll

/-- A fast tick keeps the count. -/
theorem tcpFasttmr_counted {takesRefused : Bool} (hc : Counted o pcb)
    (h : tcpFasttmr ticks takesRefused out pcb = .ok (pcb', sent)) : Counted o pcb' := by
  have href : ∀ r, Counted o { pcb with refused_data := r } := fun r =>
    hc.moved (.of_eq rfl rfl rfl rfl rfl rfl)
  refine tcpFasttmr_rule (P := fun p _ => Counted o p) h (href _) fun {p _} hack => ?_
  have hnow : Counted o { pcb with
      refused_data := if takesRefused then none else pcb.refused_data
      flags := { pcb.flags with ack_now := true } } :=
    (href _).moved (.of_eq rfl rfl rfl rfl rfl rfl)
  have hp : Counted o p := hnow.moved (tcpOutputUnlessInput_moved hnow hack)
  exact hp.moved (.of_eq rfl rfl rfl rfl rfl rfl)

end Timers

/-! ## A step -/

/-- Every event of an established connection keeps the count. -/
theorem connStep_counted {I : Tx → Prop} {o : Opts} {c c' : Conn} {ev : ConnEvent}
    (hq : o.TCP_SND_QUEUELEN < 2^8) (hs : c.Snd I) (hc : c.Counted o)
    (h : connStep o c ev = .ok c') : c'.Counted o := by
  cases c with
  | gone => cases ev <;> (cases h; trivial)
  | timeWait pcb =>
    cases ev with
    | input ticks m cb out i =>
      obtain ⟨r, -, h⟩ := bind_eq_ok.mp h
      cases h
      trivial
    | slowtmr ticks e =>
      cases h
      unfold tcpSlowtmrTimeWait
      split <;> trivial
    | call ticks c => cases h; trivial
    | output ticks alloc => cases h; trivial
    | fasttmr ticks takesRefused out => cases h; trivial
  | active pcb =>
    cases ev with
    | call ticks c =>
      obtain ⟨⟨p, out⟩, hcall, h⟩ := bind_eq_ok.mp h
      cases h
      cases p with
      | none => trivial
      | some p => exact appCall_counted hc hcall
    | output ticks alloc =>
      obtain ⟨⟨p, out⟩, ho, h⟩ := bind_eq_ok.mp h
      cases h
      exact hc.moved (tcpOutput_moved hc ho)
    | slowtmr ticks e =>
      obtain ⟨⟨c', out⟩, ht, h⟩ := bind_eq_ok.mp h
      cases h
      exact tcpSlowtmr_counted hc ht
    | fasttmr ticks takesRefused out =>
      obtain ⟨⟨p, out'⟩, ht, h⟩ := bind_eq_ok.mp h
      cases h
      exact tcpFasttmr_counted hc ht
    | input ticks m cb out i =>
      obtain ⟨⟨c', out'⟩, ht, h⟩ := bind_eq_ok.mp h
      cases h
      obtain ⟨base, t, hsend, -⟩ := hs
      exact tcpInput_counted hq hc hsend.live ht

/-! ## A limit of one pbuf -/

section One

variable {o : Opts} {pcb : TcpPcb}

/-- Every queued segment has a pbuf. -/
theorem Counted.length_le (hc : Counted o pcb) :
    (pcb.unacked ++ pcb.unsent).length ≤ o.TCP_SND_QUEUELEN := by
  have hlen : ∀ q : List Seg, (∀ s ∈ q, 0 < s.clen) → q.length ≤ clens q := by
    intro q hq
    induction q with
    | nil => exact Nat.le_refl _
    | cons s q ih =>
      have hs := hq s List.mem_cons_self
      have htail := ih fun x hx => hq x (List.mem_cons_of_mem _ hx)
      rw [clens_cons, List.length_cons]
      omega
  calc (pcb.unacked ++ pcb.unsent).length
    _ ≤ clens (pcb.unacked ++ pcb.unsent) := hlen _ fun s hs => (hc.segs s hs).clen_pos
    _ = pcb.snd_queuelen := hc.eq.symm
    _ ≤ o.TCP_SND_QUEUELEN := hc.le

/-- The count is 0 exactly if both queues are empty. -/
theorem Counted.queues_empty_iff (hc : Counted o pcb) :
    pcb.snd_queuelen = 0 ↔ pcb.unacked = [] ∧ pcb.unsent = [] := by
  constructor
  · intro h0
    have heq := hc.eq
    rw [h0] at heq
    have hnil : pcb.unacked ++ pcb.unsent = [] := by
      refine List.eq_nil_iff_forall_not_mem.mpr fun s hs => ?_
      have hpos := (hc.segs s hs).clen_pos
      have hle := clen_le_clens hs
      omega
    exact List.append_eq_nil_iff.mp hnil
  · rintro ⟨hu, hs⟩
    rw [hc.eq, hu, hs]
    rfl

/-- With one pbuf at most, the two queues are never both in use. -/
theorem Counted.one_queue (hone : o.TCP_SND_QUEUELEN = 1) (hc : Counted o pcb) :
    pcb.unacked = [] ∨ pcb.unsent = [] := by
  have hlen := hc.length_le
  rw [hone, List.length_append] at hlen
  rcases Nat.eq_zero_or_pos pcb.unacked.length with h | h
  · exact .inl (List.length_eq_zero_iff.mp h)
  · exact .inr (List.length_eq_zero_iff.mp (by omega))

/-- So a retransmission timeout always comes in order. -/
theorem Conn.Counted.rtoInOrder {c : Conn} (hone : o.TCP_SND_QUEUELEN = 1) (hc : c.Counted o)
    (ev : ConnEvent) : RtoInOrder o c ev := by
  cases c with
  | gone => cases ev <;> trivial
  | timeWait pcb => cases ev <;> trivial
  | active pcb =>
    cases ev with
    | slowtmr ticks e =>
      intro _ x hx y hy
      rcases Counted.one_queue hone hc with h | h
      · rw [h] at hx
        cases hx
      · rw [h] at hy
        cases hy
    | input ticks m cb out i => trivial
    | call ticks c => trivial
    | output ticks alloc => trivial
    | fasttmr ticks takesRefused out => trivial

end One

end Lwip.Tcp
