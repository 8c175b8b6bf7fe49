import Lwip.Tcp.Shaking
import Lwip.Tcp.StayOpen
import Lwip.Tcp.Events
import Lwip.Tcp.Backoff

/-!
# The accounting of the send buffer

`Books` holds of a connection from its opening to its end: `snd_buf` is the room that is left, and
`snd_queuelen` counts the queued pbufs. Behind it stands the abstract sender, or, before there is
one, the handshake (`Live`): they place an acknowledgement of new data between `lastack` and
`snd_lbb`, and say that a connection in `FIN_WAIT_2`, whose queues `tcp_pcb_purge` will empty
without a look at the counter, has nothing queued.
-/

namespace Lwip.Tcp

/-- What an active pcb stands for. -/
def Live (pcb : TcpPcb) : Prop :=
  pcb.state = .TIME_WAIT ∨
    Snd (fun _ => True) pcb ∧ (pcb.state = .FIN_WAIT_2 → pcb.lastack = pcb.snd_lbb) ∨
    Shaking pcb

/-- The counters of an active pcb are right. -/
structure Books (o : Opts) (pcb : TcpPcb) : Prop where
  room : Room o pcb
  counted : Counted o pcb
  live : Live pcb

section Live

variable {o : Opts} {a b pcb : TcpPcb}

/-- A pcb with a sender is alive. -/
theorem Live.of_snd (h : Snd (fun _ => True) pcb)
    (h2 : pcb.state = .FIN_WAIT_2 → pcb.lastack = pcb.snd_lbb) : Live pcb := .inr (.inl ⟨h, h2⟩)

/-- A pcb in a state of the handshake is shaking hands. -/
theorem Live.shaking (h : Live pcb) (hst : pcb.state.geEstablished = false) : Shaking pcb := by
  rcases h with h | ⟨⟨base, t, ht, -⟩, -⟩ | h
  · rw [h] at hst
    cases hst
  · rw [ht.live] at hst
    cases hst
  · exact h

/-- From `ESTABLISHED` on there is a sender. -/
theorem Live.snd (h : Live pcb) (hst : pcb.state.geEstablished = true)
    (hne : pcb.state ≠ .TIME_WAIT) :
    Snd (fun _ => True) pcb ∧ (pcb.state = .FIN_WAIT_2 → pcb.lastack = pcb.snd_lbb) := by
  rcases h with h | h | h
  · exact absurd h hne
  · exact h
  · rcases h.state with h | ⟨h, -⟩
    · rw [h] at hst
      cases hst
    · rw [h] at hst
      cases hst

/-- A pcb with the same send fields is as alive. -/
theorem Live.sameSnd (h : Live a) (hs : SameSnd a b) (ho : a.ooseq = [] → b.ooseq = []) :
    Live b := by
  rcases h with h | ⟨h, h2⟩ | h
  · exact .inl (hs.state.trans h)
  · refine .of_snd (hs.follows.snd true_stable h) ?_
    rw [hs.state, hs.lastack, hs.snd_lbb]
    exact h2
  · exact .inr (.inr (h.sameSnd hs ho))

/-- The books depend on the send fields and the counter only. -/
theorem Books.sameSnd (h : Books o a) (hs : SameSnd a b) (hn : b.snd_queuelen = a.snd_queuelen)
    (ho : a.ooseq = [] → b.ooseq = []) : Books o b :=
  ⟨hs.sameRoom.room h.room, h.counted.moved (hs.moved hn), h.live.sameSnd hs ho⟩

/-- The move to an active state of which nothing is known but the sender. -/
theorem Books.of_snd (hr : Room o pcb) (hc : Counted o pcb) (hs : Snd (fun _ => True) pcb)
    (hne : pcb.state ≠ .FIN_WAIT_2) : Books o pcb :=
  ⟨hr, hc, .of_snd hs fun h => absurd h hne⟩

end Live

/-! ## The application -/

section Calls

variable {o : Opts} {ticks : BitVec 32} {input alloc : Bool} {pcb pcb' : TcpPcb} {out : List Sent}

/-- `tcp_output` keeps the books. -/
theorem Books.output (h : Books o pcb) (ho : tcpOutput ticks alloc pcb = .ok (pcb', out)) :
    Books o pcb' := by
  refine ⟨(tcpOutput_sameRoom ho).room h.room, h.counted.moved (tcpOutput_moved h.counted ho), ?_⟩
  rcases h.live with hl | ⟨hl, h2⟩ | hl
  · exact .inl ((tcpOutput_state ho).trans hl)
  · refine .of_snd ((tcpOutput_follows ho).snd true_stable hl) ?_
    rw [tcpOutput_state ho, (tcpOutput_sameRoom ho).lastack, (tcpOutput_sameRoom ho).snd_lbb]
    exact h2
  · exact .inr (.inr (hl.output h.counted ho))

/-- In `FIN_WAIT_2` the application can enqueue nothing more. -/
theorem appCall_finWait2 {c : AppCall} (hst : pcb.state = .FIN_WAIT_2)
    (h : appCall o input ticks pcb c = .ok (some pcb', out)) : SameRoom pcb pcb' := by
  refine appCall_rule (P := fun p _ => SameRoom pcb p) h (fun hw => ?_) tcpRecved_sameRoom
    fun hcl => ?_
  · unfold tcpWrite at hw
    rw [hst] at hw
    cases hw
    exact .refl _
  · unfold tcpClose at hcl
    rw [hst] at hcl
    cases hcl
    exact .refl _

/-- A call of the application keeps the books, if a FIN fits into the buffer. -/
theorem Books.appCall {c : AppCall} (h : Books o pcb) (hfin : FinFits o pcb c)
    (hcall : appCall o input ticks pcb c = .ok (some pcb', out)) : Books o pcb' := by
  refine ⟨appCall_room h.room hfin hcall, appCall_counted h.counted hcall, ?_⟩
  have hfollows := appCall_follows hcall
  rcases h.live with hl | ⟨hl, h2⟩ | hl
  · exact .inl (hfollows.timeWait hl)
  · refine .of_snd (hfollows.snd true_stable hl) fun hst => ?_
    -- The state did not change, and so nothing was enqueued.
    have hst' : pcb.state = .FIN_WAIT_2 := by
      rcases hfollows.state with heq | ⟨-, hst' | hst'⟩
      · exact heq.symm.trans hst
      · rw [hst'] at hst
        cases hst
      · rw [hst'] at hst
        cases hst
    have hsame := appCall_finWait2 hst' hcall
    rw [hsame.lastack, hsame.snd_lbb]
    exact h2 hst'
  · cases c with
    | write allocs data copy more =>
      obtain ⟨r, hw, hcall⟩ := bind_eq_ok.mp hcall
      cases hcall
      exact .inr (.inr (hl.write h.room h.counted hw))
    | recved alloc len =>
      obtain ⟨r, hr, hcall⟩ := bind_eq_ok.mp hcall
      cases hcall
      exact .inr (.inr (hl.recved h.counted hr))
    | close allocs ack =>
      obtain ⟨⟨err, rest⟩, hcl, hcall⟩ := bind_eq_ok.mp hcall
      cases hcall
      rcases hl.close h.room h.counted hfin hcl with hshaking | ⟨hsnd, hst⟩
      · exact .inr (.inr hshaking)
      · exact .of_snd hsnd fun h2 => by
          rw [hst] at h2
          cases h2

/-- The calls of a callback keep the books. -/
theorem Books.appCalls {cs : List AppCall} (h : Books o pcb) (hfit : CallsFit o input ticks pcb cs)
    (hcs : appCalls o input ticks pcb cs = .ok (some pcb', out)) : Books o pcb' := by
  induction cs generalizing pcb out with
  | nil =>
    cases hcs
    exact h
  | cons c cs ih =>
    obtain ⟨⟨q, out₁⟩, hq, hcs⟩ := bind_eq_ok.mp hcs
    cases q with
    | none => cases hcs
    | some q =>
      obtain ⟨⟨r, out₂⟩, hrest, hcs⟩ := bind_eq_ok.mp hcs
      cases hcs
      exact ih (h.appCall hfit.1 hq) (hfit.2 q out₁ hq) hrest

end Calls

/-! ## Segments -/

section Input

variable {o : Opts} {ticks : BitVec 32} {m : RxAlloc} {cb : Callbacks} {pcb pcb' p : TcpPcb}
  {i : In} {rx : Rx} {pr : Proc} {st : TcpState}

/-- What `tcp_process` notes at first keeps the books. -/
theorem Books.note (h : Books o pcb) : Books o (processNote o ticks pcb i) := by
  refine ⟨h.room, processNote_counted h.counted, ?_⟩
  rcases h.live with hl | ⟨hl, h2⟩ | hl
  · exact .inl hl
  · exact .of_snd hl.processNote h2
  · have hfresh := hl.fresh
    exact .inr (.inr ⟨⟨hfresh.segs, hfresh.nxt, hfresh.win, hfresh.snd_wnd_le⟩, hl.fin, hl.ooseq,
      hl.state⟩)

/-- When everything is acknowledged, it stays so. -/
theorem tcpReceive_done (hs : Snd (fun _ => True) pcb) (hd : pcb.lastack = pcb.snd_lbb)
    (hr : tcpReceive o ticks m pcb i = .ok rx) : rx.pcb.lastack = rx.pcb.snd_lbb := by
  obtain ⟨base, t, ht, -⟩ := hs
  have h1 := ht.weak.nxt_ge
  have h2 := ht.weak.nxt_le
  have h3 := ht.weak.win
  have hd' : t.lastack = t.lbb := by
    rwa [ht.lastack, ht.snd_lbb, Serial.adv_eq_iff (by omega) (by omega)] at hd
  obtain ⟨p, hp, hdata⟩ := tcpReceive_eq_ok hr
  have hroom := (tcpReceiveData_finMoved hdata).sameRoom
  rw [hroom.lastack, hroom.snd_lbb]
  rcases hp with ⟨-, hp⟩ | ⟨-, rfl⟩
  · rcases ht.tcpReceiveAck hp with ⟨a, hack⟩ | ⟨t', k, hold⟩
    · -- There is no room for an acknowledgement of new data.
      have hlt := hack.lt
      have hle := hack.le
      omega
    · rw [hold.sender.lastack, hold.snd_lbb, ← hd, ht.lastack]
      exact congrArg base.adv hold.lastack
  · exact hd

/-- `tcp_receive` leaves `snd_nxt`. -/
theorem tcpReceive_snd_nxt (hs : Snd (fun _ => True) pcb)
    (hr : tcpReceive o ticks m pcb i = .ok rx) : rx.pcb.snd_nxt = pcb.snd_nxt := by
  obtain ⟨base, t, ht, -⟩ := hs
  obtain ⟨p, hp, hdata⟩ := tcpReceive_eq_ok hr
  refine (tcpReceiveData_finMoved hdata).same.snd_nxt.trans ?_
  rcases hp with ⟨-, hp⟩ | ⟨-, rfl⟩
  · rcases ht.tcpReceiveAck hp with ⟨a, hack⟩ | ⟨t', k, hold⟩
    · exact hack.snd_nxt
    · exact hold.snd_nxt
  · rfl

/-- The states after `tcp_receive`. Where the pcb enters `FIN_WAIT_2` or `TIME_WAIT`, nothing is
queued. -/
theorem processReceived_books (hr : Room o rx.pcb) (hc : Counted o rx.pcb)
    (hs : Snd (fun _ => True) rx.pcb)
    (hst : rx.pcb.state = st ∨ (st = .ESTABLISHED ∧ rx.pcb.state = .CLOSE_WAIT))
    (hne : st ≠ .TIME_WAIT)
    (hacked : st = .FIN_WAIT_1 ∨ st = .CLOSING → ackedAll rx.pcb i = true →
      rx.pcb.lastack = rx.pcb.snd_lbb)
    (h2 : st = .FIN_WAIT_2 → rx.pcb.lastack = rx.pcb.snd_lbb)
    (hp : (processReceived rx i st).pcb = some pcb') : Books o pcb' := by
  have hsnd := processReceived_snd true_stable hs hst hp
  have hkeep : Moved rx.pcb pcb' → SameRoom rx.pcb pcb' →
      (pcb'.state = .FIN_WAIT_2 → rx.pcb.lastack = rx.pcb.snd_lbb) → Books o pcb' := by
    intro hm hsame hfin2
    refine ⟨hsame.room hr, hc.moved hm, ?_⟩
    rcases hsnd with hsnd | htw
    · refine .of_snd hsnd fun hst' => ?_
      rw [hsame.lastack, hsame.snd_lbb]
      exact hfin2 hst'
    · exact .inl htw
  -- Purging empty queues does not change the count.
  have hwait : ∀ q, SameSnd rx.pcb q → q.snd_queuelen = rx.pcb.snd_queuelen →
      rx.pcb.lastack = rx.pcb.snd_lbb → pcb' = { tcpPcbPurge q with state := .TIME_WAIT } →
      Books o pcb' := by
    intro q hq hql hdone heq
    obtain ⟨base, t, ht, -⟩ := hs
    obtain ⟨hun, hua⟩ := ht.done hdone
    have hempty : q.unacked = [] ∧ q.unsent = [] := ⟨hq.unacked.trans hua, hq.unsent.trans hun⟩
    have hpurge : (tcpPcbPurge q).unacked = q.unacked ∧ (tcpPcbPurge q).unsent = q.unsent ∧
        SameRoom q (tcpPcbPurge q) ∧ (tcpPcbPurge q).snd_queuelen = q.snd_queuelen ∧
        (tcpPcbPurge q).flags = q.flags ∧ (tcpPcbPurge q).mss = q.mss := by
      unfold tcpPcbPurge
      split
      · exact ⟨rfl, rfl, .refl _, rfl, rfl, rfl⟩
      · exact ⟨rfl, rfl, .refl _, rfl, rfl, rfl⟩
      · exact ⟨rfl, rfl, .refl _, rfl, rfl, rfl⟩
      · exact ⟨hempty.1.symm, hempty.2.symm, ⟨rfl, rfl, rfl⟩, rfl, rfl, rfl⟩
    obtain ⟨h1, h2, h3, h4, h5, h6⟩ := hpurge
    have hm : Moved q pcb' := by
      rw [heq]
      exact .of_eq h1 h2 h4 (congrArg PcbFlags.fin h5) h6 h3.snd_buf
    have hsame : SameRoom q pcb' := by
      rw [heq]
      exact ⟨h3.lastack, h3.snd_lbb, h3.snd_buf⟩
    refine hkeep ((hq.moved hql).trans hm) (hq.sameRoom.trans hsame) fun hst' => ?_
    rw [heq] at hst'
    cases hst'
  have hmove : ∀ s, pcb' = { tcpAckNowInput rx.pcb with state := s } → s ≠ .FIN_WAIT_2 →
      Books o pcb' := by
    intro s heq hs2
    refine hkeep ?_ ?_ fun hst' => ?_
    · rw [heq]
      exact .of_eq rfl rfl rfl rfl rfl rfl
    · rw [heq]
      constructor <;> rfl
    · rw [heq] at hst'
      exact absurd hst' hs2
  have hstay : pcb' = rx.pcb → Books o pcb' := by
    rintro rfl
    refine hkeep (.refl _) (.refl _) fun hst' => ?_
    rcases hst with hst | ⟨-, hst⟩
    · exact h2 (hst.symm.trans hst')
    · rw [hst] at hst'
      cases hst'
  have hopen : pcb' = (if rx.got_fin then { tcpAckNowInput rx.pcb with state := .CLOSE_WAIT }
      else rx.pcb) → Books o pcb' := by
    intro heq
    split at heq
    · exact hmove _ heq (by decide)
    · exact hstay heq
  have hnow := tcpAckNowInput_sameSnd rx.pcb
  unfold processReceived at hp
  split at hp
  · -- ESTABLISHED
    exact hopen (Option.some.inj hp).symm
  · -- CLOSE_WAIT
    exact hopen (Option.some.inj hp).symm
  · -- FIN_WAIT_1
    split at hp
    · split at hp
      · next ha => exact hwait _ hnow rfl (hacked (.inl rfl) ha) (Option.some.inj hp).symm
      · exact hmove _ (Option.some.inj hp).symm (by decide)
    · split at hp
      · next ha =>
        have heq : pcb' = { rx.pcb with state := .FIN_WAIT_2 } := (Option.some.inj hp).symm
        refine hkeep ?_ ?_ fun _ => hacked (.inl rfl) ha
        · rw [heq]
          exact .of_eq rfl rfl rfl rfl rfl rfl
        · rw [heq]
          constructor <;> rfl
      · exact hstay (Option.some.inj hp).symm
  · -- FIN_WAIT_2
    split at hp
    · exact hwait _ hnow rfl (h2 rfl) (Option.some.inj hp).symm
    · exact hstay (Option.some.inj hp).symm
  · -- CLOSING
    split at hp
    · next ha => exact hwait _ (.refl _) rfl (hacked (.inr rfl) ha) (Option.some.inj hp).symm
    · exact hstay (Option.some.inj hp).symm
  · exact hstay (Option.some.inj hp).symm
  · exact hstay (Option.some.inj hp).symm

/-- Without a queue only the segment's own FIN is handed up. -/
theorem tcpReceive_fin_of_ooseq (ho : pcb.ooseq = []) (hr : tcpReceive o ticks m pcb i = .ok rx)
    (hf : rx.got_fin = true) : i.seg.flags.fin = true := by
  have hup := tcpReceive_handUp hr
  cases hnext : nextInSeq pcb i.seg with
  | none =>
    rw [(hup.none hnext).2] at hf
    cases hf
  | some s =>
    have hreach := hup.fin s hnext hf
    unfold reachesFin queueFin at hreach
    rw [ho, Bool.or_false] at hreach
    have hfin : s.flags.fin = true := (Bool.and_eq_true_iff.mp hreach).1
    have hflags : s.flags = i.seg.flags := by
      unfold nextInSeq at hnext
      split at hnext
      · cases hnext
      -- The segment may have been cut at its front.
      split at hnext
      · dsimp only at hnext
        split at hnext
        · rw [← Option.some.inj hnext]
        · cases hnext
      · dsimp only at hnext
        split at hnext
        · rw [← Option.some.inj hnext]
        · cases hnext
    rwa [hflags] at hfin

/-- The state `SYN_SENT`: the segment that acknowledges the SYN. -/
theorem processSynSent_books (h : Books o pcb) (hst : pcb.state = .SYN_SENT)
    (hp : processSynSent m pcb i = .ok pr) (hpcb : pr.pcb = some pcb') : Books o pcb' := by
  have hshaking : Shaking pcb := h.live.shaking (by rw [hst]; rfl)
  obtain ⟨-, ⟨syn, others, hqueue, hseq, hlen, hclen, hsyn, hothers⟩, hsent⟩ :=
    hshaking.state.resolve_left fun hr => by
      rw [hst] at hr
      cases hr
  unfold processSynSent at hp
  split at hp
  · split at hp
    · cases hp
    · cases hp
      cases hpcb
      exact h
  · next rseg rest hun =>
    split at hp
    · next hacc =>
      obtain ⟨_, -, hp⟩ := bind_eq_ok.mp hp
      cases hp
      cases hpcb
      simp only [Bool.and_eq_true, decide_eq_true_eq] at hacc
      rw [hun, List.cons_append] at hqueue
      obtain ⟨rfl, rfl⟩ := List.cons_eq_cons.mp hqueue
      -- The SYN comes off the queue, and `lastack` moves over it.
      have hack : i.ackno = pcb.lastack.adv 1 := by rw [hacc.2, hseq]
      have hfresh := hshaking.fresh
      have hwin := hfresh.win
      have hbuf := o.snd_buf_le
      have hroom := h.room
      unfold Room at hroom
      have hpos : 1 ≤ Serial.dist pcb.lastack pcb.snd_lbb := by
        have hin := hfresh.segs rseg (by rw [hun]; exact List.mem_cons_self)
        have hstop := hin.le_hi
        omega
      have hlbb : Serial.dist i.ackno pcb.snd_lbb = Serial.dist pcb.lastack pcb.snd_lbb - 1 := by
        rw [hack]
        exact Serial.dist_adv_left hpos
      set p : TcpPcb := { pcb with
        snd_buf := u16 (pcb.snd_buf + 1)
        rcv_nxt := i.seg.seqno.adv 1
        rcv_ann_right_edge := i.seg.seqno.adv 1
        lastack := i.ackno
        snd_wnd := i.wnd.toNat
        snd_wl1 := i.seg.seqno - 1
        mss := tcpEffSendMss m.mtu pcb.mss
        ssthresh := u16 (tcpEffSendMss m.mtu pcb.mss * 10)
        cwnd := if pcb.cwnd = 1 then u16 (tcpEffSendMss m.mtu pcb.mss * 2)
          else tcpEffSendMss m.mtu pcb.mss
        snd_queuelen := pcb.snd_queuelen - 1
        unacked := rest
        rtime := if rest = [] then -1 else 0
        nrtx := if rest = [] then pcb.nrtx else 0 } with hpdef
      have hproom : Room o p := by
        show u16 (pcb.snd_buf + 1) + Serial.dist i.ackno pcb.snd_lbb = o.TCP_SND_BUF
        rw [hlbb]
        unfold u16
        omega
      have hpfresh : FreshSnd p := by
        refine ⟨fun s hs => ?_, ?_, ?_, ?_⟩
        · have hin := hothers s hs
          have hlo := hin.lo_le
          have hhi := hin.le_hi
          have hd : Serial.dist i.ackno s.seqno = Serial.dist pcb.lastack s.seqno - 1 := by
            rw [hack]
            exact Serial.dist_adv_left hlo
          refine ⟨Nat.zero_le _, hin.pos, ?_⟩
          show Serial.dist i.ackno s.seqno + s.tcplen ≤ Serial.dist i.ackno pcb.snd_lbb
          omega
        · have hnxt := hfresh.nxt
          have hd : Serial.dist i.ackno pcb.snd_nxt = Serial.dist pcb.lastack pcb.snd_nxt - 1 := by
            rw [hack]
            exact Serial.dist_adv_left hsent
          show Serial.dist i.ackno pcb.snd_nxt ≤ Serial.dist i.ackno pcb.snd_lbb
          omega
        · show Serial.dist i.ackno pcb.snd_lbb ≤ 0xffff
          omega
        · have hlt := i.wnd.isLt
          show i.wnd.toNat ≤ 0xffff
          omega
      have hmss : tcpEffSendMss m.mtu pcb.mss ≤ 0xffff :=
        (tcpEffSendMss_le m.mtu pcb.mss).trans h.counted.mss_le
      have hpcounted : Counted o p := by
        have hc := h.counted
        have heq := hc.eq
        have hle := hc.le
        rw [hun, List.cons_append, clens_cons] at heq
        refine ⟨?_, ?_, fun s hs => hc.segs s ?_, hmss, ?_⟩
        · show pcb.snd_queuelen - 1 = clens (rest ++ pcb.unsent)
          omega
        · show pcb.snd_queuelen - 1 ≤ o.TCP_SND_QUEUELEN
          omega
        · rw [hun]
          exact List.mem_cons_of_mem _ hs
        · exact Nat.le_of_lt_succ (Nat.mod_lt _ (by decide))
      have hsnd : Snd (fun _ => True) { p with state := .ESTABLISHED } :=
        hpfresh.snd hproom hmss rfl fun _ => hshaking.fin
      have hest : Books o { p with state := .ESTABLISHED } := by
        refine .of_snd hproom ?_ hsnd fun hne => by cases hne
        exact hpcounted.moved (.of_eq rfl rfl rfl rfl rfl rfl)
      exact hest.sameSnd (tcpAckNowInput_sameSnd _) rfl id
    · cases hp
      cases hpcb
      exact h

/-- The pcb as `tcp_process` hands it to the `accept` callback. -/
def opened (pcb : TcpPcb) : TcpPcb := { pcb with state := .ESTABLISHED }

/-- The `accept` callback does not enqueue a FIN into a full buffer. It closes the connection at
most if the segment has no FIN, which would take the connection back to `CLOSE_WAIT`. -/
def AcceptFits (o : Opts) (ticks : BitVec 32) (cb : Callbacks) (pcb : TcpPcb) (i : In) : Prop :=
  pcb.state = .SYN_RCVD → i.seg.flags.rst = false → i.seg.flags.ack = true →
    Serial.between i.ackno (pcb.lastack.adv 1) pcb.snd_nxt →
    CallsFit o true ticks (opened (processNote o ticks pcb i)) cb.onAccept ∧
      (i.seg.flags.fin = true → cb.onAccept.all AppCall.leavesOpen = true)

instance (o : Opts) (ticks : BitVec 32) (cb : Callbacks) (pcb : TcpPcb) (i : In) :
    Decidable (AcceptFits o ticks cb pcb i) :=
  inferInstanceAs (Decidable (_ → _ → _ → _ → _))

/-- The state `SYN_RCVD`. -/
theorem processSynRcvd_books (hq : o.TCP_SND_QUEUELEN < 2^8) (h : Books o pcb)
    (hst : pcb.state = .SYN_RCVD)
    (hfit : i.seg.flags.ack = true → Serial.between i.ackno (pcb.lastack.adv 1) pcb.snd_nxt →
      CallsFit o true ticks (opened pcb) cb.onAccept ∧
        (i.seg.flags.fin = true → cb.onAccept.all AppCall.leavesOpen = true))
    (hp : processSynRcvd o ticks m cb pcb i = .ok pr) (hpcb : pr.pcb = some pcb') :
    Books o pcb' := by
  have hshaking : Shaking pcb := h.live.shaking (by rw [hst]; rfl)
  unfold processSynRcvd at hp
  split at hp
  · next hack =>
    split at hp
    · next hbetween =>
      obtain ⟨hcalls, hopens⟩ := hfit hack hbetween
      obtain ⟨⟨q, out⟩, happ, hp⟩ := bind_eq_ok.mp hp
      cases q with
      | none =>
        cases hp
        cases hpcb
      | some q =>
        dsimp only at hp
        split at hp
        · cases hp
          cases hpcb
        obtain ⟨rx, hr, hp⟩ := bind_eq_ok.mp hp
        cases hp
        cases hpcb
        have hopened : Books o (opened pcb) := by
          refine .of_snd ?_ ?_ ?_ fun hne => by cases hne
          · have hsame : SameRoom pcb (opened pcb) := by constructor <;> rfl
            exact hsame.room h.room
          · exact h.counted.moved (.of_eq rfl rfl rfl rfl rfl rfl)
          · exact hshaking.fresh.snd h.room h.counted.mss_le rfl fun _ => hshaking.fin
        have hq' : Books o q := hopened.appCalls hcalls happ
        have hstate : q.state = .ESTABLISHED ∨ q.state = .FIN_WAIT_1 ∨ q.state = .LAST_ACK :=
          (appCalls_follows happ).state.imp_right And.right
        have hqsnd : Snd (fun _ => True) q := by
          refine (hq'.live.snd ?_ ?_).1
          · rcases hstate with hs | hs | hs <;> rw [hs] <;> rfl
          · rcases hstate with hs | hs | hs <;> rw [hs] <;> decide
        have hrsnd : Snd (fun _ => True) rx.pcb :=
          tcpReceive_snd true_stable (fun _ _ _ _ _ _ _ _ _ => trivial) hqsnd hr
        have hrstate := tcpReceive_state hqsnd hr
        obtain ⟨base, t, hsend, -⟩ := hqsnd
        have hrx : Books o rx.pcb := by
          refine .of_snd (hsend.receive_room hq'.room hr)
            (tcpReceive_counted hq hq'.counted hr) hrsnd ?_
          rcases hrstate with hs | ⟨-, hs⟩
          · rw [hs]
            rcases hstate with hs | hs | hs <;> rw [hs] <;> decide
          · rw [hs]
            decide
        have hcwnd : ∀ n, Books o { rx.pcb with acked := rx.pcb.acked - 1, cwnd := n } := fun n =>
          hrx.sameSnd (by constructor <;> rfl) rfl id
        split
        · next hgot =>
          -- The FIN is the segment's own, so the callback left the connection open.
          have hooseq : q.ooseq = [] := (appCalls_callFrame happ).ooseq.trans hshaking.ooseq
          have hleft := hopens (tcpReceive_fin_of_ooseq hooseq hr hgot)
          obtain ⟨q', hq'', hest⟩ := appCalls_leaveOpen hleft happ
          obtain rfl := Option.some.inj hq''
          have hwritable : rx.pcb.state = .ESTABLISHED ∨ rx.pcb.state = .CLOSE_WAIT :=
            hrstate.imp (fun hs => hs.trans hest) And.right
          obtain ⟨base', t', hrsend, -⟩ := hrsnd
          have hnoFin := hrsend.writable hwritable
          refine .of_snd ?_ ?_ ?_ fun hne => by cases hne
          · have hsame : SameRoom rx.pcb { tcpAckNowInput { rx.pcb with
                acked := rx.pcb.acked - 1
                cwnd := if q.cwnd = 1 then u16 (rx.pcb.mss * 2) else rx.pcb.mss } with
                state := .CLOSE_WAIT } := by constructor <;> rfl
            exact hsame.room hrx.room
          · exact hrx.counted.moved (.of_eq rfl rfl rfl rfl rfl rfl)
          · have hnow : Snd (fun _ => True) (tcpAckNowInput { rx.pcb with
                acked := rx.pcb.acked - 1
                cwnd := if q.cwnd = 1 then u16 (rx.pcb.mss * 2) else rx.pcb.mss }) :=
              ⟨base', t', hrsend.congr (by constructor <;> rfl), trivial⟩
            exact hnow.setState rfl fun _ => hnoFin
        · exact hcwnd _
    · cases hp
      cases hpcb
      exact h
  · split at hp
    · cases hp
      cases hpcb
      exact ⟨(tcpRexmit_sameRoom pcb).room h.room, h.counted.moved (tcpRexmit_moved pcb),
        .inr (.inr (hshaking.rexmit hst))⟩
    · cases hp
      cases hpcb
      exact h

/-- In the states that wait for the acknowledgement of the FIN, `snd_nxt` is acknowledged only after
the FIN was sent. -/
def FinSentFirst (pcb : TcpPcb) (i : In) : Prop :=
  pcb.state = .FIN_WAIT_1 ∨ pcb.state = .CLOSING → i.seg.flags.rst = false →
    i.seg.flags.syn = false → i.seg.flags.ack = true → i.ackno = pcb.snd_nxt →
    pcb.snd_nxt = pcb.snd_lbb

instance (pcb : TcpPcb) (i : In) : Decidable (FinSentFirst pcb i) :=
  inferInstanceAs (Decidable (_ ∨ _ → _ → _ → _ → _ → _))

/-- `tcp_process` keeps the books. -/
theorem Books.process (hq : o.TCP_SND_QUEUELEN < 2^8) (h : Books o pcb)
    (hfin : FinSentFirst pcb i) (hacc : AcceptFits o ticks cb pcb i)
    (hp : tcpProcess o ticks m cb pcb i = .ok pr) (hpcb : pr.pcb = some pcb') : Books o pcb' := by
  have hnote : Books o (processNote o ticks pcb i) := h.note
  unfold tcpProcess at hp
  split at hp
  · -- A RST changes a flag at most.
    cases hp
    have hrst : Books o { pcb with flags := { pcb.flags with ack_delay := false } } :=
      h.sameSnd (by constructor <;> rfl) rfl id
    unfold processRst at hpcb
    dsimp only at hpcb
    split at hpcb <;> split at hpcb <;> cases hpcb
    · exact hrst
    · exact h
    · exact hrst
    · exact h
  next hrst =>
  have hrst : i.seg.flags.rst = false := by simpa using hrst
  split at hp
  · cases hp
    cases hpcb
    exact h.sameSnd (tcpAckNowInput_sameSnd pcb) rfl id
  next hsyn =>
  split at hp
  · next hst => exact processSynSent_books hnote hst hp hpcb
  · next hst => exact processSynRcvd_books hq hnote hst (hacc hst hrst) hp hpcb
  · cases hp
    cases hpcb
    exact hnote
  · cases hp
    cases hpcb
    exact hnote
  · cases hp
    cases hpcb
    exact hnote
  · next hne₁ hne₂ hne₃ hne₄ hne₅ =>
    obtain ⟨rx, hr, hp⟩ := bind_eq_ok.mp hp
    cases hp
    have hlive : pcb.state.geEstablished = true := by
      cases hs : pcb.state with
      | CLOSED => exact absurd hs hne₃
      | LISTEN => exact absurd hs hne₄
      | SYN_SENT => exact absurd hs hne₁
      | SYN_RCVD => exact absurd hs hne₂
      | _ => rfl
    have hnosyn : i.seg.flags.syn = false := by
      cases hs : i.seg.flags.syn with
      | false => rfl
      | true =>
        have h₁ : decide (pcb.state ≠ .SYN_SENT) = true := decide_eq_true hne₁
        have h₂ : decide (pcb.state ≠ .SYN_RCVD) = true := decide_eq_true hne₂
        rw [hs, h₁, h₂] at hsyn
        exact absurd rfl hsyn
    obtain ⟨hsnd, h2⟩ := hnote.live.snd hlive hne₅
    obtain ⟨base, t, hsend, -⟩ := hsnd
    have hsnd : Snd (fun _ => True) (processNote o ticks pcb i) := ⟨base, t, hsend, trivial⟩
    refine processReceived_books (hsend.receive_room hnote.room hr)
      (tcpReceive_counted hq hnote.counted hr)
      (tcpReceive_snd true_stable (fun _ _ _ _ _ _ _ _ _ => trivial) hsnd hr)
      (tcpReceive_state hsnd hr) hne₅ (fun hst hall => ?_) (fun hst => ?_) hpcb
    · have hacked := hall
      unfold ackedAll at hacked
      rw [tcpReceive_snd_nxt hsnd hr] at hacked
      simp only [Bool.and_eq_true, decide_eq_true_eq] at hacked
      exact ((hsend.ackedAll_iff hr hall).mpr (hfin hst hrst hnosyn hacked.1 hacked.2)).1
    · exact tcpReceive_done hsnd (h2 hst) hr

end Input

/-! ## The machine -/

/-- The pcb that `tcp_slowtmr` hands to the `poll` callback. -/
def polled (o : Opts) (ticks : BitVec 32) (e : TickEnv) (pcb : TcpPcb) : Option TcpPcb :=
  match slowtmrRexmit o ticks e pcb with
  | .error _ => none
  | .ok rex =>
    let pcb' := slowtmrOoseq ticks (slowtmrKeepalive ticks e rex.1).1
    if slowtmrRemoves o ticks pcb pcb' then none
    else if (pcb'.polltmr + 1) % 2^8 ≥ pcb'.pollinterval then some { pcb' with polltmr := 0 }
    else none

/-- The pcb that `tcp_input` hands to the callbacks that follow `tcp_process`. -/
def processed (o : Opts) (ticks : BitVec 32) (m : RxAlloc) (cb : Callbacks) (pcb : TcpPcb)
    (i : In) : Option TcpPcb :=
  match tcpProcess o ticks m cb pcb i with
  | .error _ => none
  | .ok pr => if pr.reset || pr.closed then none else pr.pcb

/-- The condition on an event. No `tcp_close`, of the application or of one of its callbacks,
enqueues a FIN when the buffer is full. And a segment is processed that does not take an unsent FIN
for acknowledged, and does not reopen what the `accept` callback has closed. -/
def Fits (o : Opts) : Conn → ConnEvent → Prop
  | .active pcb, .call _ c => FinFits o pcb c
  | .active pcb, .slowtmr ticks e => ∀ p ∈ polled o ticks e pcb, CallsFit o false ticks p e.poll
  | .active pcb, .input ticks m cb _ i => pcb.refused_data = none ∨ cb.takesRefused = true →
    FinSentFirst pcb i ∧ AcceptFits o ticks cb { pcb with refused_data := none } i ∧
      ∀ p ∈ processed o ticks m cb { pcb with refused_data := none } i,
      CallsFit o true ticks p cb.calls
  | _, _ => True

instance (o : Opts) : (c : Conn) → (ev : ConnEvent) → Decidable (Fits o c ev)
  | .active pcb, .call _ c => inferInstanceAs (Decidable (FinFits o pcb c))
  | .active pcb, .slowtmr ticks e => inferInstanceAs (Decidable
      (∀ p ∈ polled o ticks e pcb, CallsFit o false ticks p e.poll))
  | .active pcb, .input ticks m cb _ i => inferInstanceAs (Decidable
      (pcb.refused_data = none ∨ cb.takesRefused = true → FinSentFirst pcb i ∧
        AcceptFits o ticks cb { pcb with refused_data := none } i ∧
        ∀ p ∈ processed o ticks m cb { pcb with refused_data := none } i,
          CallsFit o true ticks p cb.calls))
  | .active _, .output .. | .active _, .fasttmr .. | .timeWait _, _ | .gone, _ => .isTrue trivial

/-- The counters of a connection that is not freed are right. -/
def Conn.Books (o : Opts) : Conn → Prop
  | .active pcb => Lwip.Tcp.Books o pcb
  | .timeWait pcb => Room o pcb ∧ Lwip.Tcp.Counted o pcb
  | .gone => True

section Machine

variable {o : Opts} {ticks : BitVec 32} {m : RxAlloc} {cb : Callbacks} {e : TickEnv} {out : Bool}
  {pcb pcb' : TcpPcb} {i : In} {conn : Conn} {sent : List Sent}

/-- The end of `tcp_input` keeps the books. -/
theorem tcpInputFinish_books {pr : Proc} (h : Books o pcb)
    (hfit : CallsFit o true ticks pcb cb.calls)
    (hf : tcpInputFinish o ticks cb out pr pcb = .ok (conn, sent)) : conn.Books o := by
  unfold tcpInputFinish at hf
  obtain ⟨⟨p, out₁⟩, happ, hf⟩ := bind_eq_ok.mp hf
  cases p with
  | none =>
    cases hf
    trivial
  | some p =>
    obtain ⟨⟨q, out₂⟩, ho, hf⟩ := bind_eq_ok.mp hf
    cases hf
    have hkeep : SameSnd p (keepRefused cb pr p) := by constructor <;> rfl
    have hq : Books o q := ((h.appCalls hfit happ).sameSnd hkeep rfl id).output ho
    dsimp only
    split
    · exact ⟨hq.room, hq.counted⟩
    · exact hq

/-- `tcp_input` keeps the books. -/
theorem tcpInput_books (hq : o.TCP_SND_QUEUELEN < 2^8) (h : Books o pcb)
    (hfit : Fits o (.active pcb) (.input ticks m cb out i))
    (hi : tcpInput o ticks m cb out pcb i = .ok (conn, sent)) : conn.Books o := by
  have hnone : Books o { pcb with refused_data := none } :=
    h.sameSnd (by constructor <;> rfl) rfl id
  unfold tcpInput at hi
  split at hi
  · cases hi
    exact h
  · next htakes =>
    have htakes : pcb.refused_data = none ∨ cb.takesRefused = true := by
      by_contra hno
      rw [not_or] at hno
      exact htakes (by simp [hno])
    obtain ⟨hfin, hacc, hcalls⟩ := hfit htakes
    obtain ⟨pr, hpr, hi⟩ := bind_eq_ok.mp hi
    split at hi
    · cases hi
      trivial
    · next p hp =>
      split at hi
      · obtain ⟨r, -, hi⟩ := bind_eq_ok.mp hi
        cases hi
        trivial
      · next hgo =>
        refine tcpInputFinish_books (hnone.process hq hfin hacc hpr hp) (hcalls p ?_) hi
        unfold processed
        rw [hpr]
        dsimp only
        rw [if_neg hgo]
        exact hp

/-- A retransmission keeps the books. -/
theorem Books.slowtmrRexmit (h : Books o pcb)
    (hr : slowtmrRexmit o ticks e pcb = .ok (pcb', sent)) : Books o pcb' := by
  have hsame := slowtmrRexmit_sameRoom hr
  refine ⟨hsame.room h.room, h.counted.moved (slowtmrRexmit_moved h.counted hr), ?_⟩
  rcases h.live with hl | ⟨hl, h2⟩ | hl
  · exact .inl ((slowtmrRexmit_state hr).trans hl)
  · refine .of_snd (slowtmrRexmit_snd true_stable hl (fun _ _ _ _ _ => trivial) hr) ?_
    rw [slowtmrRexmit_state hr, hsame.lastack, hsame.snd_lbb]
    exact h2
  · exact .inr (.inr (hl.slowtmrRexmit h.counted hr))

/-- A slow tick keeps the books. -/
theorem tcpSlowtmr_books (h : Books o pcb) (hfit : Fits o (.active pcb) (.slowtmr ticks e))
    (hs : tcpSlowtmr o ticks e pcb = .ok (conn, sent)) : conn.Books o := by
  unfold tcpSlowtmr at hs
  obtain ⟨⟨p, out₁⟩, hr, hs⟩ := bind_eq_ok.mp hs
  dsimp only at hs
  split at hs
  · cases hs
    trivial
  next hstays =>
  obtain ⟨⟨c, out₂⟩, hpoll, hs⟩ := bind_eq_ok.mp hs
  cases hs
  have hka : Books o (slowtmrKeepalive ticks e p).1 := by
    refine (h.slowtmrRexmit hr).sameSnd (slowtmrKeepalive_sameSnd ticks e p)
      (slowtmrKeepalive_moved ticks e p).queuelen fun hnil => ?_
    unfold slowtmrKeepalive tcpKeepalive
    split
    · split <;> exact hnil
    · exact hnil
  have hoo : Books o (slowtmrOoseq ticks (slowtmrKeepalive ticks e p).1) := by
    refine hka.sameSnd (slowtmrOoseq_sameSnd ticks _) rfl fun hnil => ?_
    unfold slowtmrOoseq
    dsimp only
    split
    · rfl
    · exact hnil
  have hpolled : ∀ q ∈ polled o ticks e pcb, CallsFit o false ticks q e.poll := hfit
  unfold polled at hpolled
  rw [hr] at hpolled
  dsimp only at hpolled
  rw [if_neg hstays] at hpolled
  generalize slowtmrOoseq ticks (slowtmrKeepalive ticks e p).1 = q at hoo hpoll hpolled
  have htimed : ∀ n, Books o { q with polltmr := n } := fun n =>
    hoo.sameSnd (by constructor <;> rfl) rfl id
  unfold slowtmrPoll at hpoll
  dsimp only at hpoll
  split at hpoll
  · next hdue =>
    rw [if_pos hdue] at hpolled
    obtain ⟨⟨r, out₃⟩, happ, hpoll⟩ := bind_eq_ok.mp hpoll
    cases r with
    | none =>
      cases hpoll
      trivial
    | some r =>
      have hr' : Books o r := (htimed 0).appCalls (hpolled _ rfl) happ
      dsimp only at hpoll
      split at hpoll
      · obtain ⟨⟨r', out₄⟩, ho, hpoll⟩ := bind_eq_ok.mp hpoll
        cases hpoll
        exact hr'.output ho
      · cases hpoll
        exact hr'
  · cases hpoll
    exact htimed _

/-- A fast tick keeps the books. -/
theorem tcpFasttmr_books {takesRefused : Bool} (h : Books o pcb)
    (ht : tcpFasttmr ticks takesRefused out pcb = .ok (pcb', sent)) : Books o pcb' := by
  have href : Books o { pcb with
      refused_data := if takesRefused then none else pcb.refused_data } :=
    h.sameSnd (by constructor <;> rfl) rfl id
  refine tcpFasttmr_rule (P := fun p _ => Books o p) ht href fun {p _} hack => ?_
  have hnow : Books o { pcb with
      refused_data := if takesRefused then none else pcb.refused_data
      flags := { pcb.flags with ack_now := true } } :=
    href.sameSnd (by constructor <;> rfl) rfl id
  have hp : Books o p := hnow.output hack
  exact hp.sameSnd (by constructor <;> rfl) rfl id

/-- A pcb in `TIME_WAIT` at most answers. -/
theorem tcpTimewaitInput_books (hr : Room o pcb) (hc : Counted o pcb)
    (h : tcpTimewaitInput ticks out pcb i = .ok (pcb', sent)) : Room o pcb' ∧ Counted o pcb' := by
  refine tcpTimewaitInput_rule (P := fun p _ => Room o p ∧ Counted o p) h
    (fun n => ⟨hr, hc.moved (.of_eq rfl rfl rfl rfl rfl rfl)⟩) fun {n p _} ho => ?_
  have hnow : SameSnd pcb { pcb with tmr := n, flags := { pcb.flags with ack_now := true } } := by
    constructor <;> rfl
  have hcount := hc.moved (hnow.moved rfl)
  exact ⟨(hnow.sameRoom.trans (tcpOutput_sameRoom ho)).room hr,
    hcount.moved (tcpOutput_moved hcount ho)⟩

/-- Every event that meets the condition keeps the books. -/
theorem connStep_books {c c' : Conn} {ev : ConnEvent} (hq : o.TCP_SND_QUEUELEN < 2^8)
    (h : c.Books o) (hfit : Fits o c ev) (hs : connStep o c ev = .ok c') : c'.Books o := by
  cases c with
  | gone => cases ev <;> (cases hs; trivial)
  | timeWait pcb =>
    cases ev with
    | input ticks m cb out i =>
      obtain ⟨⟨p, sent⟩, ht, hs⟩ := bind_eq_ok.mp hs
      cases hs
      exact tcpTimewaitInput_books h.1 h.2 ht
    | slowtmr ticks e =>
      cases hs
      unfold tcpSlowtmrTimeWait
      split
      · trivial
      · exact h
    | call ticks c =>
      cases hs
      exact h
    | output ticks alloc =>
      cases hs
      exact h
    | fasttmr ticks takesRefused out =>
      cases hs
      exact h
  | active pcb =>
    cases ev with
    | call ticks c =>
      obtain ⟨⟨p, out⟩, hcall, hs⟩ := bind_eq_ok.mp hs
      cases hs
      cases p with
      | none => trivial
      | some p => exact Books.appCall h hfit hcall
    | output ticks alloc =>
      obtain ⟨⟨p, out⟩, ho, hs⟩ := bind_eq_ok.mp hs
      cases hs
      exact Books.output h ho
    | slowtmr ticks e =>
      obtain ⟨⟨c', out⟩, ht, hs⟩ := bind_eq_ok.mp hs
      cases hs
      exact tcpSlowtmr_books h hfit ht
    | fasttmr ticks takesRefused out =>
      obtain ⟨⟨p, out'⟩, ht, hs⟩ := bind_eq_ok.mp hs
      cases hs
      exact tcpFasttmr_books h ht
    | input ticks m cb out i =>
      obtain ⟨⟨c', out'⟩, ht, hs⟩ := bind_eq_ok.mp hs
      cases hs
      exact tcpInput_books hq h hfit ht

end Machine

/-! ## The accounting -/

/-- The two counters of a pcb. The sum leaves no room for a `snd_buf` above `TCP_SND_BUF`. -/
structure Accounted (o : Opts) (pcb : TcpPcb) : Prop where
  snd_buf : pcb.snd_buf + Serial.dist pcb.lastack pcb.snd_lbb = o.TCP_SND_BUF
  snd_buf_le : pcb.snd_buf ≤ o.TCP_SND_BUF
  snd_queuelen : pcb.snd_queuelen = clens (pcb.unacked ++ pcb.unsent)

/-- The counters of a connection that has not been freed. -/
def Conn.Accounted (o : Opts) : Conn → Prop
  | .active pcb | .timeWait pcb => Lwip.Tcp.Accounted o pcb
  | .gone => True

/-- Room in the buffer and the right count are right books. -/
theorem accounted_of_room {o : Opts} {pcb : TcpPcb} (hr : Room o pcb) (hc : Counted o pcb) :
    Accounted o pcb := by
  refine ⟨hr, ?_, hc.eq⟩
  calc pcb.snd_buf ≤ pcb.snd_buf + Serial.dist pcb.lastack pcb.snd_lbb := Nat.le_add_right _ _
    _ = o.TCP_SND_BUF := hr

/-- The books of a connection are right when they are kept. -/
theorem Conn.Books.accounted {o : Opts} {c : Conn} (h : c.Books o) : c.Accounted o := by
  cases c with
  | active pcb => exact accounted_of_room h.room h.counted
  | timeWait pcb => exact accounted_of_room h.1 h.2
  | gone => trivial

/-- From the opening of a connection on, the counters are right in every state of every run whose
events meet the condition. The count of the pbufs of a segment is a `u8_t`, so the queue may not
hold more. -/
theorem send_buffer_accounted {o : Opts} (hq : o.TCP_SND_QUEUELEN < 2^8) (hb : 0 < o.TCP_SND_BUF)
    {pcb : TcpPcb} {es : List ConnEvent} (h0 : NewConn o pcb)
    (hfit : Along (connStep o) (Fits o) (.active pcb) es) :
    Always (connStep o) (Conn.Accounted o) (.active pcb) es := by
  obtain ⟨hr, hc, hs⟩ := h0.shaking hq hb
  have hstart : (Conn.active pcb).Books o := ⟨hr, hc, .inr (.inr hs)⟩
  rintro es' es'' c rfl hrun
  have hinv : c.Books o :=
    run_invariant (fun _ _ _ h hf hs => connStep_books hq h hf hs) hstart hfit.left hrun
  exact hinv.accounted

/-- The application closes, and no allocation fails. -/
def closing : ConnEvent := .call 1 (.close (fun _ => true) true)

/-- The peer finishes the handshake, 100 bytes are sent and acknowledged, and then the FIN. -/
def servedRun : List ConnEvent :=
  [acks 1 1 1000, writes 100, .output 1 true, acks 1 101 1000, closing, acks 1 102 1000]

/-- The books are right all through a run of a server. -/
theorem send_buffer_accounted_servedRun :
    Always (connStep .shipped) (Conn.Accounted .shipped) (.active synRcvd) servedRun :=
  send_buffer_accounted (by decide) (by decide) (.inl ⟨{}, openingSyn, _, rfl⟩) (by decide +kernel)

/-- The peer closes its window when it finishes the handshake. The application fills the buffer, an
acknowledgement number from the other side of the circle frees what is enqueued, and the application
closes. -/
def fullRun : List ConnEvent :=
  [acks 1 1 0, writes 256, .input 1 {} {} true halfwayAck, closing]

/-- The FIN finds room on the queue, and none in the buffer: `snd_buf` wraps around. -/
theorem fullRun_wraps_snd_buf :
    NewConn .shipped synRcvd ∧ ∃ pcb,
      run (connStep .shipped) (.active synRcvd) fullRun = .ok (.active pcb) ∧ pcb.snd_buf = 65535 ∧
      ¬Always (connStep .shipped) (Conn.Accounted .shipped) (.active synRcvd) fullRun := by
  have hbad : ((run (connStep .shipped) (.active synRcvd) fullRun).toOption.bind Conn.active?).any
      (fun pcb => decide (pcb.snd_buf = 65535)) = true := by decide +kernel
  obtain ⟨pcb, hrun, hpcb⟩ := exists_active_of_any hbad
  have hwrapped : pcb.snd_buf = 65535 := of_decide_eq_true hpcb
  refine ⟨.inl ⟨{}, openingSyn, _, rfl⟩, pcb, hrun, hwrapped, fun h => ?_⟩
  have hall : Accounted .shipped pcb := h fullRun [] _ (List.append_nil _).symm hrun
  have hle : pcb.snd_buf ≤ 256 := hall.snd_buf_le
  omega

-- With two segments of buffer, an application that fills the buffer and closes is enough.
example : (match run (connStep .sane) (.active saneSender) [writes 1072, closing] with
    | .ok (.active pcb) => pcb.snd_buf
    | _ => 0) = 65535 := by decide +kernel

end Lwip.Tcp
