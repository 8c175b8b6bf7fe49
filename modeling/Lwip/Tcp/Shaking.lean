import Lwip.Tcp.Fresh

/-!
# A connection that is being opened

The pcb from `tcp_connect` or the listener on, until the first acknowledgement (`Shaking`): nothing
of what is queued is acknowledged, no FIN is enqueued, and in `SYN_SENT` the SYN comes first. The
application may already write. A `tcp_close` in `SYN_RCVD` ends it, as the acknowledgement of the
SYN does, in a pcb that stands for an abstract sender.
-/

namespace Lwip.Tcp

/-- The handshake is not finished. -/
structure Shaking (pcb : TcpPcb) : Prop where
  fresh : FreshSnd pcb
  fin : pcb.flags.fin = false
  ooseq : pcb.ooseq = []
  state : pcb.state = .SYN_RCVD ∨
    pcb.state = .SYN_SENT ∧ SynFirst pcb ∧ 0 < Serial.dist pcb.lastack pcb.snd_nxt

/-! ## The SYN -/

section Syn

variable {o : Opts} {pcb : TcpPcb} {copy : Bool} {alloc : ℕ → Bool} {flags : TcpFlags}

/-- With a segment size below the length of the option the loop of `tcp_enqueue` never ends: every
round leaves more than the one before, until an allocation fails or the queue is full. -/
theorem tcpEnqueueLoop_small {mss fuel left ql : ℕ} {queue : List Seg} {ptr : List UInt8}
    {seqno : Serial} {r : List Seg × ℕ} (hq : o.TCP_SND_QUEUELEN < 2^8) (hm : mss < 4)
    (hl : left ≤ 4 * ql) :
    tcpEnqueueLoop o mss 4 flags copy true fuel alloc queue ptr left seqno ql ≠ some r := by
  induction fuel generalizing alloc queue ptr left seqno ql with
  | zero => exact fun h => by cases h
  | succ fuel ih =>
    intro h
    have hseg : (if (left : ℤ) > (mss : ℤ) - ((4 : ℕ) : ℤ) then u16sub mss 4 else left) =
        2^16 + mss - 4 := by
      rw [if_pos (by omega)]
      unfold u16sub
      omega
    unfold tcpEnqueueLoop at h
    simp only [hseg] at h
    have hclen : 1 ≤ (if (!copy && decide (left > 0)) = true then 2 else 1) := by
      split <;> omega
    generalize (if (!copy && decide (left > 0)) = true then 2 else 1) = clen at h hclen
    split at h
    · cases h
    split at h
    · cases h
    next hroom =>
    have hleft : u16sub left (2^16 + mss - 4) = left + (4 - mss) := by
      unfold u16sub
      omega
    rw [hleft, if_pos (by omega)] at h
    exact ih (by omega) h

/-- A SYN is one segment of one pbuf. -/
theorem tcpEnqueueLoop_syn {mss fuel ql : ℕ} {seqno : Serial} {res : List Seg}
    (hq : o.TCP_SND_QUEUELEN < 2^8)
    (h : tcpEnqueueLoop o mss 4 flags copy true (fuel + 1) alloc [] [] 0 seqno 0 = some (res, ql)) :
    res = [{ seqno, len := 0, flags, optMss := true }] ∧ ql = 1 ∧ 1 ≤ o.TCP_SND_QUEUELEN := by
  rcases Nat.lt_or_ge mss 4 with hm | hm
  · exact absurd h (tcpEnqueueLoop_small hq hm (Nat.le_refl 0))
  · have hseg : (if ((0 : ℕ) : ℤ) > (mss : ℤ) - ((4 : ℕ) : ℤ) then u16sub mss 4 else 0) = 0 :=
      if_neg (by omega)
    have hclen : (if (!copy && decide ((0 : ℕ) > 0)) = true then 2 else 1) = 1 := by
      rw [decide_eq_false (by omega), Bool.and_false]
      rfl
    have hnone : u16sub 0 0 = 0 := rfl
    unfold tcpEnqueueLoop at h
    simp only [hseg, hclen, hnone] at h
    split at h
    · cases h
    split at h
    · cases h
    next hroom =>
    rw [if_neg (by omega)] at h
    cases h
    exact ⟨rfl, rfl, by omega⟩

/-- What `tcp_enqueue` makes of a pcb with empty queues and a SYN. -/
theorem tcpEnqueue_syn {p : TcpPcb} (hq : o.TCP_SND_QUEUELEN < 2^8) (hu : pcb.unsent = [])
    (hn : pcb.snd_queuelen = 0) (hf : pcb.flags.fin = false) (hsyn : flags.syn = true)
    (hfin : flags.fin = false)
    (h : tcpEnqueue o alloc pcb [] flags false false true = .ok (.OK, p)) :
    1 ≤ o.TCP_SND_QUEUELEN ∧ p = { pcb with
      unsent := [{ seqno := pcb.snd_lbb, len := 0, flags, optMss := true }]
      snd_lbb := pcb.snd_lbb.adv 1
      snd_buf := u16sub pcb.snd_buf 1
      snd_queuelen := 1 } := by
  rcases tcpEnqueue_cases h with ⟨hmem, -⟩ | ⟨-, -, q, qs, ql, unsent, ql', hloop, happ, rfl⟩
  · cases hmem
  rw [if_pos rfl, hn] at hloop
  obtain ⟨hres, rfl, hlimit⟩ := tcpEnqueueLoop_syn hq hloop
  obtain ⟨rfl, rfl⟩ := List.cons_eq_cons.mp hres
  unfold tcpEnqueueAppend at happ
  rw [hu] at happ
  cases happ
  refine ⟨hlimit, ?_⟩
  have hflags : { pcb.flags with fin := pcb.flags.fin || flags.fin } = pcb.flags := by
    rw [hfin, hf, Bool.or_false, ← hf]
  unfold tcpEnqueueCommit
  rw [hflags, hsyn]
  rfl

end Syn

/-! ## What keeps it -/

section Keeps

variable {o : Opts} {ticks : BitVec 32} {input alloc : Bool} {allocs : ℕ → Bool}
  {a b pcb pcb' : TcpPcb} {out : List Sent}

/-- The handshake depends on the send fields only. -/
theorem Shaking.sameSnd (h : Shaking a) (hs : SameSnd a b) (ho : a.ooseq = [] → b.ooseq = []) :
    Shaking b where
  fresh := h.fresh.sameSnd hs
  fin := hs.fin.trans h.fin
  ooseq := ho h.ooseq
  state := by
    rw [hs.state, hs.lastack, hs.snd_nxt]
    exact h.state.imp_right fun ⟨h1, h2, h3⟩ => ⟨h1, h2.sameSnd hs, h3⟩

/-- `tcp_output`, which does not move `snd_nxt` back. -/
theorem Shaking.output (h : Shaking pcb) (hc : Counted o pcb)
    (ho : tcpOutput ticks alloc pcb = .ok (pcb', out)) : Shaking pcb' := by
  refine ⟨h.fresh.output hc ho, (tcpOutput_moved hc ho).fin.trans h.fin,
    (tcpOutput_callFrame ho).ooseq.trans h.ooseq, ?_⟩
  rw [tcpOutput_state ho]
  refine h.state.imp_right fun ⟨h1, h2, h3⟩ => ⟨h1, h2.output h.fresh ho, ?_⟩
  rw [(tcpOutput_sameRoom ho).lastack]
  rcases tcpOutput_snd_nxt ho with hn | ⟨s, hs, hn⟩
  · rw [hn]
    exact h3
  · have hin := h.fresh.segs s hs
    have hpos := hin.pos
    rw [hn, hin.dist_endSeq h.fresh.win]
    omega

/-- `tcp_output` goes on with the handshake. -/
theorem Shaking.outputUnlessInput (h : Shaking pcb) (hc : Counted o pcb)
    (ho : tcpOutputUnlessInput input ticks alloc pcb = .ok (pcb', out)) : Shaking pcb' := by
  exact tcpOutputUnlessInput_rule (P := fun p _ => Shaking p) ho h (h.output hc)

/-- `tcp_ack_now` goes on with the handshake. -/
theorem Shaking.ackNow (h : Shaking pcb) (hc : Counted o pcb)
    (ho : tcpAckNow input ticks alloc pcb = .ok (pcb', out)) : Shaking pcb' := by
  have hflag : SameSnd pcb { pcb with flags := { pcb.flags with ack_now := true } } := by
    constructor <;> rfl
  have hcount : Counted o { pcb with flags := { pcb.flags with ack_now := true } } :=
    hc.moved (hflag.moved rfl)
  exact (h.sameSnd hflag id).outputUnlessInput hcount ho

/-- `tcp_recved` goes on with the handshake. -/
theorem Shaking.recved {len : ℕ} (h : Shaking pcb) (hc : Counted o pcb)
    (hr : tcpRecved o input ticks alloc pcb len = .ok (pcb', out)) : Shaking pcb' := by
  obtain ⟨w, hr⟩ := tcpRecved_cases hr
  have hwnd : SameSnd pcb { pcb with rcv_wnd := w } := by constructor <;> rfl
  have hsame := hwnd.trans (tcpUpdateRcvAnnWnd_sameSnd o { pcb with rcv_wnd := w })
  have hooseq := (tcpUpdateRcvAnnWnd_callFrame o { pcb with rcv_wnd := w }).ooseq
  have hql := tcpUpdateRcvAnnWnd_queuelen o { pcb with rcv_wnd := w }
  have hann := h.sameSnd hsame fun hnil => hooseq.trans hnil
  obtain hr | ⟨rfl, -⟩ := hr
  · exact hann.ackNow (hc.moved (hsame.moved hql)) hr
  · exact hann

/-- The retransmission of a SYN|ACK. -/
theorem Shaking.rexmit (h : Shaking pcb) (hst : pcb.state = .SYN_RCVD) :
    Shaking (tcpRexmit pcb) := by
  have hframe : (tcpRexmit pcb).ooseq = pcb.ooseq ∧ (tcpRexmit pcb).state = pcb.state := by
    unfold tcpRexmit
    split <;> exact ⟨rfl, rfl⟩
  exact ⟨h.fresh.rexmit, (tcpRexmit_moved pcb).fin.trans h.fin, hframe.1.trans h.ooseq,
    .inl (hframe.2.trans hst)⟩

/-- The retransmission timeout, which leaves the order of all that is queued. -/
theorem Shaking.rexmitRto (h : Shaking pcb) (hc : Counted o pcb)
    (hr : tcpRexmitRto ticks alloc pcb = .ok (pcb', out)) : Shaking pcb' := by
  unfold tcpRexmitRto at hr
  split at hr
  · cases hr
    exact h
  · set p : TcpPcb := { pcb with
      unsent := pcb.unacked ++ pcb.unsent
      unacked := []
      nrtx := (pcb.nrtx + 1) % 2^8
      rttest := 0 } with hp
    have hmoved : Moved pcb p := ⟨.rfl, rfl, rfl, rfl, rfl⟩
    have hroom : SameRoom pcb p := by constructor <;> rfl
    have hshaking : Shaking p := by
      refine ⟨h.fresh.moved hmoved hroom (.inl rfl) h.fresh.snd_wnd_le, h.fin, h.ooseq, ?_⟩
      exact h.state.imp_right fun ⟨h1, h2, h3⟩ => ⟨h1, h2.congr hroom rfl, h3⟩
    exact hshaking.output (hc.moved hmoved) hr

/-- A retransmission goes on with the handshake. -/
theorem Shaking.slowtmrRexmit {e : TickEnv} (h : Shaking pcb) (hc : Counted o pcb)
    (hr : slowtmrRexmit o ticks e pcb = .ok (pcb', out)) : Shaking pcb' := by
  unfold Lwip.Tcp.slowtmrRexmit at hr
  split at hr
  · cases hr
    exact h
  split at hr
  · have hooseq : (slowtmrPersist e pcb).1.ooseq = pcb.ooseq := by
      unfold slowtmrPersist tcpZeroWindowProbe
      dsimp only
      split
      · split
        · rfl
        · split <;> rfl
      · rfl
    have hpersist := h.sameSnd (slowtmrPersist_sameSnd e pcb) fun hnil => hooseq.trans hnil
    rwa [Except.ok.inj hr] at hpersist
  · dsimp only at hr
    generalize (if pcb.rtime ≥ 0 then s16 (pcb.rtime + 1) else pcb.rtime) = rtime at hr
    have htimed : SameSnd pcb { pcb with rtime := rtime } := by constructor <;> rfl
    split at hr
    · -- The timer backs off before the segments are moved.
      unfold slowtmrRto at hr
      split at hr
      · cases hr
      dsimp only at hr
      refine Shaking.rexmitRto (h.sameSnd ?_ ?_) (hc.moved (.of_eq ?_ ?_ ?_ ?_ ?_ ?_)) hr
      · constructor <;> rfl
      · exact id
      all_goals rfl
    · cases hr
      exact h.sameSnd htimed id

end Keeps

/-! ## Enqueuing -/

section Enqueue

variable {o : Opts} {ticks : BitVec 32} {input ack : Bool} {alloc : ℕ → Bool} {copy more : Bool}
  {arg : List UInt8} {flags : TcpFlags} {pcb pcb' : TcpPcb} {e : Err} {out : List Sent}

/-- What `tcp_enqueue` does to a fresh pcb. -/
theorem FreshSnd.enqueue (h : FreshSnd pcb) (hr : Room o pcb) (hm : pcb.mss ≤ 0xffff)
    (harg : 0 < arg.length ∧ flags = {} ∨ arg = [] ∧ flags = { fin := true })
    (hfits : (if flags.syn || flags.fin then arg.length + 1 else arg.length) ≤ pcb.snd_buf)
    (he : tcpEnqueue o alloc pcb arg flags copy more false = .ok (.OK, pcb')) :
    FreshSnd pcb' ∧ (SynFirst pcb → SynFirst pcb') := by
  have hbuf := o.snd_buf_le
  have hroom := hr
  unfold Room at hroom
  have hlbb : Serial.dist pcb.lastack pcb'.snd_lbb = Serial.dist pcb.lastack pcb.snd_lbb +
      (if flags.syn || flags.fin then arg.length + 1 else arg.length) ∧
      pcb'.lastack = pcb.lastack ∧ pcb'.unacked = pcb.unacked ∧ pcb'.snd_nxt = pcb.snd_nxt ∧
      pcb'.snd_wnd = pcb.snd_wnd := by
    rcases tcpEnqueue_cases he with ⟨hmem, -⟩ | ⟨-, -, q, qs, ql, unsent, ql', -, -, rfl⟩
    · cases hmem
    · refine ⟨?_, rfl, rfl, rfl, rfl⟩
      exact Serial.dist_adv _ _ _ (by omega)
  obtain ⟨hlbb, hlast, hun, hnxt, hwnd⟩ := hlbb
  have hle : Serial.dist pcb.lastack pcb'.snd_lbb ≤ 0xffff := by omega
  have hmono : Serial.dist pcb.lastack pcb.snd_lbb ≤ Serial.dist pcb.lastack pcb'.snd_lbb := by
    omega
  have hold : ∀ s ∈ pcb.unsent, s.Within pcb.lastack 0 (Serial.dist pcb.lastack pcb.snd_lbb) :=
    fun s hs => h.segs s (List.mem_append_right _ hs)
  obtain ⟨pre, new, hpre, hgrown, hnew⟩ := tcpEnqueue_grown hm harg hlbb.symm hle hold he
  -- A segment that was there keeps its place, and may have become longer.
  have hkept : ∀ {lo : ℕ} {s s' : Seg}, s.Within pcb.lastack lo
      (Serial.dist pcb.lastack pcb.snd_lbb) →
      Grown pcb.lastack (Serial.dist pcb.lastack pcb'.snd_lbb) s s' →
      s'.Within pcb.lastack lo (Serial.dist pcb.lastack pcb'.snd_lbb) := by
    intro lo s s' hs hg
    rcases hg with rfl | ⟨-, hin⟩
    · exact hs.mono le_rfl hmono
    · exact hin lo hs.lo_le
  refine ⟨⟨?_, ?_, ?_, ?_⟩, ?_⟩
  · intro s hs
    rw [hun, hpre] at hs
    rw [hlast]
    rcases List.mem_append.mp hs with hs | hs
    · exact (h.segs s (List.mem_append_left _ hs)).mono le_rfl hmono
    rcases List.mem_append.mp hs with hs | hs
    · obtain ⟨x, hx, hg⟩ := forall₂_mem_left hgrown.flip hs
      exact hkept (hold x hx) hg
    · exact (hnew s hs).mono (Nat.zero_le _) le_rfl
  · rw [hlast, hnxt]
    exact h.nxt.trans hmono
  · rw [hlast]
    exact hle
  · rw [hwnd]
    exact h.snd_wnd_le
  · rintro ⟨syn, rest, hqueue, hseq, hlen, hclen, hsyn, hrest⟩
    have hpos : 1 ≤ Serial.dist pcb.lastack pcb.snd_lbb := by
      have hin := h.segs syn (by rw [hqueue]; exact List.mem_cons_self)
      have hstop := hin.le_hi
      omega
    have hnew' : ∀ s ∈ new, s.Within pcb.lastack 1 (Serial.dist pcb.lastack pcb'.snd_lbb) :=
      fun s hs => (hnew s hs).mono hpos le_rfl
    have hlater : ∀ {l l' : List Seg}, (∀ s ∈ l, s.Within pcb.lastack 1
        (Serial.dist pcb.lastack pcb.snd_lbb)) →
        List.Forall₂ (Grown pcb.lastack (Serial.dist pcb.lastack pcb'.snd_lbb)) l l' →
        ∀ s ∈ l', s.Within pcb.lastack 1 (Serial.dist pcb.lastack pcb'.snd_lbb) := by
      intro l l' hl hll s hs
      obtain ⟨x, hx, hg⟩ := forall₂_mem_left hll.flip hs
      exact hkept (hl x hx) hg
    unfold SynFirst
    rw [hun, hpre, hlast]
    cases hu : pcb.unacked with
    | nil =>
      -- The SYN is the first unsent segment, and nothing is glued to it.
      rw [hu, List.nil_append] at hqueue
      rw [hqueue] at hgrown
      obtain ⟨syn', rest', hg, hrest', rfl⟩ := List.forall₂_cons_left_iff.mp hgrown
      have hsame : syn' = syn := hg.resolve_right fun ⟨hno, _⟩ => by
        rw [hsyn] at hno
        cases hno
      refine ⟨syn', rest' ++ new, rfl, hsame ▸ hseq, hsame ▸ hlen, hsame ▸ hclen, hsame ▸ hsyn, ?_⟩
      intro s hs
      rcases List.mem_append.mp hs with hs | hs
      · exact hlater hrest hrest' s hs
      · exact hnew' s hs
    | cons x u =>
      rw [hu, List.cons_append] at hqueue
      obtain ⟨rfl, rfl⟩ := List.cons_eq_cons.mp hqueue
      refine ⟨x, u ++ (pre ++ new), rfl, hseq, hlen, hclen, hsyn, fun s hs => ?_⟩
      rcases List.mem_append.mp hs with hs | hs
      · exact (hrest s (List.mem_append_left _ hs)).mono le_rfl hmono
      rcases List.mem_append.mp hs with hs | hs
      · exact hlater (fun s hs => hrest s (List.mem_append_right _ hs)) hgrown s hs
      · exact hnew' s hs

/-- A `tcp_enqueue` of data, during the handshake. -/
theorem Shaking.write {data : List UInt8} (h : Shaking pcb) (hr : Room o pcb) (hc : Counted o pcb)
    (hw : tcpWrite o alloc pcb data copy more = .ok (e, pcb')) : Shaking pcb' := by
  obtain ⟨-, rfl⟩ | ⟨-, ⟨-, -, rfl⟩ | ⟨hpos, hw⟩⟩ := tcpWrite_cases hw
  · exact h
  · exact h
  have hframe := tcpEnqueue_callFrame hw
  have hstate := tcpEnqueue_state hw
  have hnoFin : pcb'.flags.fin = false ∧ pcb'.snd_nxt = pcb.snd_nxt := by
    rcases tcpEnqueue_cases hw with ⟨-, rfl⟩ | ⟨-, -, q, qs, ql, unsent, ql', -, -, rfl⟩
    · exact ⟨h.fin, rfl⟩
    · exact ⟨(Bool.or_false _).trans h.fin, rfl⟩
  rcases tcpEnqueue_cases hw with ⟨-, rfl⟩ | ⟨rfl, hbuf, -⟩
  · have hsame : SameSnd pcb (tcpMemErr pcb) := by constructor <;> rfl
    exact h.sameSnd hsame id
  · obtain ⟨hfresh, hsyn⟩ := h.fresh.enqueue hr hc.mss_le (.inl ⟨hpos, rfl⟩) hbuf hw
    refine ⟨hfresh, hnoFin.1, hframe.ooseq.trans h.ooseq, ?_⟩
    rw [hstate, hframe.lastack, hnoFin.2]
    exact h.state.imp_right fun ⟨h1, h2, h3⟩ => ⟨h1, hsyn h2, h3⟩

/-- A `tcp_close` during the handshake, after which the pcb is still there. -/
theorem Shaking.close (h : Shaking pcb) (hr : Room o pcb) (hc : Counted o pcb)
    (hfin : FinFits o pcb (.close alloc ack))
    (hcl : tcpClose o input ticks alloc ack pcb = .ok (e, some pcb', out)) :
    Shaking pcb' ∨ Snd (fun _ => True) pcb' ∧ pcb'.state = .FIN_WAIT_1 := by
  rcases h.state with hst | ⟨hst, -⟩
  · have hcl : tcpCloseWith o input ticks alloc ack .FIN_WAIT_1 pcb = .ok (e, some pcb', out) := by
      unfold tcpClose at hcl
      rw [hst] at hcl
      exact hcl
    obtain ⟨⟨err, q⟩, hq, hcl⟩ := bind_eq_ok.mp hcl
    dsimp only at hcl
    split at hcl
    · next herr =>
      subst herr
      obtain ⟨⟨q', out'⟩, hout, hcl⟩ := bind_eq_ok.mp hcl
      cases hcl
      obtain ⟨hlt, h0, h1⟩ := tcpSendCtrl_enqueues hq
      have hbuf : 0 < pcb.snd_buf := hfin (.inl hst) hlt h0 h1
      have hone : (if ({ fin := true } : TcpFlags).syn || ({ fin := true } : TcpFlags).fin then
          ([] : List UInt8).length + 1 else ([] : List UInt8).length) ≤ pcb.snd_buf := hbuf
      obtain ⟨hfresh, -⟩ := h.fresh.enqueue hr hc.mss_le (.inr ⟨rfl, rfl⟩) hone hq
      have hroom : Room o q := tcpEnqueue_room hr (fun _ => hone) hq
      have hmss : q.mss ≤ 0xffff := (tcpEnqueue_callFrame hq).mss ▸ hc.mss_le
      have hsnd : Snd (fun _ => True) { q with state := .FIN_WAIT_1 } :=
        hfresh.snd hroom hmss rfl fun hst => by rcases hst with hst | hst <;> cases hst
      have hfollows := tcpOutputUnlessInput_follows hout
      refine .inr ⟨hfollows.snd true_stable hsnd, ?_⟩
      -- `tcp_output` does not close the connection.
      rcases hfollows.state with heq | ⟨hopen, -⟩
      · exact heq
      · rcases hopen with hopen | hopen | hopen <;> cases hopen
    · next herr =>
      cases hcl
      rcases tcpEnqueue_cases hq with ⟨-, rfl⟩ | ⟨hok, -⟩
      · have hsame : SameSnd pcb (tcpMemErr pcb) := by constructor <;> rfl
        exact .inl (h.sameSnd hsame id)
      · exact absurd hok herr
  · -- In `SYN_SENT` the pcb is freed at once.
    unfold tcpClose at hcl
    rw [hst] at hcl
    obtain ⟨_, -, hcl⟩ := bind_eq_ok.mp hcl
    cases hcl

end Enqueue

/-! ## A new connection -/

section New

variable {o : Opts} {pcb : TcpPcb}

/-- `tcp_connect` of a new pcb, or the listener, opened the connection. -/
def NewConn (o : Opts) (pcb : TcpPcb) : Prop :=
  (∃ e i sent, tcpListenInput o e i = .ok (some pcb, sent)) ∨
  ∃ e ticks iss sent, tcpConnect o e (tcpAlloc o ticks iss) = .ok (some (.OK, pcb, sent))

/-- A pcb with nothing but a SYN on its queues, which it has not sent. -/
theorem shaking_of_syn {p : TcpPcb} {flags : TcpFlags} (hb : 0 < o.TCP_SND_BUF)
    (hq : 1 ≤ o.TCP_SND_QUEUELEN) (hsyn : flags.syn = true) (hfin : flags.fin = false)
    (hu : pcb.unacked = []) (hbuf : pcb.snd_buf = o.TCP_SND_BUF) (hf : pcb.flags.fin = false)
    (ho : pcb.ooseq = []) (hw : pcb.snd_wnd ≤ 0xffff) (hm : pcb.mss ≤ 0xffff)
    (hl : pcb.lastack = pcb.snd_lbb)
    (hst : pcb.state = .SYN_RCVD ∧ pcb.snd_nxt = pcb.lastack ∨
      pcb.state = .SYN_SENT ∧ pcb.snd_nxt = pcb.lastack.adv 1)
    (hp : p = { pcb with
      unsent := [{ seqno := pcb.snd_lbb, len := 0, flags, optMss := true }]
      snd_lbb := pcb.snd_lbb.adv 1
      snd_buf := u16sub pcb.snd_buf 1
      snd_queuelen := 1 }) : Room o p ∧ Counted o p ∧ Shaking p := by
  have hle := o.snd_buf_le
  have hsub : u16sub pcb.snd_buf 1 = o.TCP_SND_BUF - 1 := by
    rw [hbuf]
    exact u16sub_of_le hle hb
  have hdist : Serial.dist pcb.lastack (pcb.snd_lbb.adv 1) = 1 := by
    rw [hl]
    exact Serial.dist_self_adv (by omega)
  set syn : Seg := { seqno := pcb.snd_lbb, len := 0, flags, optMss := true } with hseg
  have hlen : syn.tcplen = 1 := by
    unfold Seg.tcplen
    rw [hseg]
    dsimp only
    rw [hsyn, Bool.or_true]
    rfl
  have hqueue : p.unacked ++ p.unsent = [syn] := by
    rw [hp]
    show pcb.unacked ++ [syn] = [syn]
    rw [hu]
    rfl
  have hroom : Room o p := by
    rw [hp]
    show u16sub pcb.snd_buf 1 + Serial.dist pcb.lastack (pcb.snd_lbb.adv 1) = o.TCP_SND_BUF
    omega
  have hcounted : Counted o p := by
    refine ⟨?_, ?_, ?_, ?_, ?_⟩
    · rw [hqueue, hp]
      rfl
    · rw [hp]
      exact hq
    · rw [hqueue]
      intro s hs
      rw [List.mem_singleton.mp hs]
      exact ⟨Nat.one_pos, by omega, fun _ => hfin⟩
    · rw [hp]
      exact hm
    · rw [hp]
      show u16sub pcb.snd_buf 1 ≤ 0xffff
      omega
  have hlast : p.lastack = pcb.lastack := by rw [hp]
  have hlbb : p.snd_lbb = pcb.snd_lbb.adv 1 := by rw [hp]
  have hnxt : p.snd_nxt = pcb.snd_nxt := by rw [hp]
  have hwithin : syn.Within pcb.lastack 0 1 := by
    have h0 : Serial.dist pcb.lastack syn.seqno = 0 := by
      rw [hl]
      exact Serial.dist_self _
    exact ⟨Nat.zero_le _, by omega, by omega⟩
  have hone : Serial.dist pcb.lastack (pcb.lastack.adv 1) = 1 := Serial.dist_self_adv (by omega)
  refine ⟨hroom, hcounted, ⟨?_, ?_, ?_, ?_⟩, ?_, ?_, ?_⟩
  · rw [hqueue, hlast, hlbb, hdist]
    intro s hs
    rw [List.mem_singleton.mp hs]
    exact hwithin
  · rw [hlast, hlbb, hnxt, hdist]
    rcases hst with ⟨-, hn⟩ | ⟨-, hn⟩
    · rw [hn, Serial.dist_self]
      omega
    · rw [hn, hone]
  · rw [hlast, hlbb, hdist]
    omega
  · rw [hp]
    exact hw
  · rw [hp]
    exact hf
  · rw [hp]
    exact ho
  · have hstate : p.state = pcb.state := by rw [hp]
    rw [hstate, hlast, hnxt]
    refine hst.imp And.left fun ⟨hs, hn⟩ => ⟨hs, ?_, ?_⟩
    · refine ⟨syn, [], hqueue, ?_, hlen, rfl, hsyn, fun s hs => by cases hs⟩
      rw [hlast, hl]
    · rw [hn, hone]
      exact Nat.one_pos

/-- What a new connection starts with. -/
theorem NewConn.shaking (hq : o.TCP_SND_QUEUELEN < 2^8) (hb : 0 < o.TCP_SND_BUF)
    (h : NewConn o pcb) : Room o pcb ∧ Counted o pcb ∧ Shaking pcb := by
  have hsend : ∀ {p : TcpPcb} {ticks : BitVec 32} {out : Bool} {sent : List Sent},
      Room o p ∧ Counted o p ∧ Shaking p →
      tcpOutput ticks out p = .ok (pcb, sent) → Room o pcb ∧ Counted o pcb ∧ Shaking pcb :=
    fun ⟨hr, hc, hs⟩ hout =>
      ⟨(tcpOutput_sameRoom hout).room hr, hc.moved (tcpOutput_moved hc hout), hs.output hc hout⟩
  rcases h with ⟨e, i, sent, h⟩ | ⟨e, ticks, iss, sent, h⟩
  · obtain ⟨p, hp, hout⟩ := tcpListenInput_eq_ok h
    have hwnd : (listenPcb o e i).snd_wnd ≤ 0xffff := by
      have hlt := i.wnd.isLt
      show i.wnd.toNat ≤ 0xffff
      omega
    have hmss : (listenPcb o e i).mss ≤ 0xffff := by
      unfold listenPcb u16
      dsimp only
      omega
    obtain ⟨hlimit, hp⟩ := tcpEnqueue_syn hq rfl rfl rfl rfl rfl hp
    exact hsend (shaking_of_syn hb hlimit rfl rfl rfl rfl rfl rfl hwnd hmss rfl
      (.inl ⟨rfl, rfl⟩) hp) hout
  · unfold tcpConnect at h
    rw [if_neg (fun hne => hne rfl)] at h
    obtain ⟨⟨err, p⟩, hp, h⟩ := bind_eq_ok.mp h
    dsimp only at h
    split at h
    · next herr =>
      subst herr
      obtain ⟨⟨q, out⟩, hout, h⟩ := bind_eq_ok.mp h
      cases h
      have hwnd : (connectPcb o e (tcpAlloc o ticks iss)).snd_wnd ≤ 0xffff := o.wnd_le
      have hmss : (connectPcb o e (tcpAlloc o ticks iss)).mss ≤ 0xffff := by
        unfold connectPcb u16
        dsimp only
        omega
      have hnxt : e.iss = (e.iss - 1).adv 1 := by
        exact (BitVec.sub_add_cancel _ _).symm
      obtain ⟨hlimit, hp⟩ := tcpEnqueue_syn hq rfl rfl rfl rfl rfl hp
      exact hsend (shaking_of_syn hb hlimit rfl rfl rfl rfl rfl rfl hwnd hmss rfl
        (.inr ⟨rfl, hnxt⟩) hp) hout
    · next herr =>
      cases h
      exact absurd rfl herr

end New

end Lwip.Tcp
