import Lwip.Tcp.Shaking
import Lwip.Tcp.Refused

/-!
# A connection in `SYN_SENT`

Once `tcp_output` has sent the SYN it is the first segment on `unacked`. The retransmission timer
puts it back on `unsent` and sends it again, as it has the window for itself. So every event of the
stack leaves it on `unacked`, or the pcb is no longer in `SYN_SENT` (`Conn.Opens.step`).
-/

namespace Lwip.Tcp

/-- The SYN is the first segment of `unacked` or of `unsent`. -/
def SynQueued (pcb : TcpPcb) : Prop :=
  (∃ syn ∈ pcb.unacked.head?, syn.flags.syn = true) ∨ ∃ syn ∈ pcb.unsent.head?, syn.flags.syn = true

/-! ## A pcb in `SYN_SENT` -/

section SynSent

variable {o : Opts} {ticks : BitVec 32} {input alloc : Bool} {e : TickEnv} {m : RxAlloc}
  {cb : Callbacks} {pcb pcb' : TcpPcb} {i : In} {out : List Sent} {c : Conn}

/-- The SYN was sent and waits for its acknowledgement. -/
structure SynSent (o : Opts) (pcb : TcpPcb) : Prop where
  state : pcb.state = .SYN_SENT
  room : Room o pcb
  counted : Counted o pcb
  shaking : Shaking pcb
  unacked : pcb.unacked ≠ []

/-- The SYN is the first segment. -/
theorem SynSent.synFirst (h : SynSent o pcb) : SynFirst pcb := by
  rcases h.shaking.state with hst | ⟨-, hfirst, -⟩
  · rw [h.state] at hst
    cases hst
  · exact hfirst

/-- The SYN is on a queue. -/
theorem SynSent.queued (h : SynSent o pcb) : SynQueued pcb := by
  obtain ⟨syn, rest, hqueue, -, -, -, hsyn, -⟩ := h.synFirst
  cases hu : pcb.unacked with
  | nil => exact absurd hu h.unacked
  | cons s u =>
    rw [hu] at hqueue
    obtain ⟨rfl, -⟩ := List.cons_eq_cons.mp hqueue
    exact .inl ⟨s, by rw [hu]; rfl, hsyn⟩

/-- A connection that has sent its SYN depends on the send fields. -/
theorem SynSent.sameSnd (h : SynSent o pcb) (hs : SameSnd pcb pcb')
    (hql : pcb'.snd_queuelen = pcb.snd_queuelen) (ho : pcb.ooseq = [] → pcb'.ooseq = []) :
    SynSent o pcb' :=
  ⟨hs.state.trans h.state, hs.sameRoom.room h.room, h.counted.moved (hs.moved hql),
    h.shaking.sameSnd hs ho, hs.unacked.symm ▸ h.unacked⟩

/-- A queue with a segment in it is not empty. -/
theorem unackedInsert_ne (unacked : List Seg) (seg : Seg) : unackedInsert unacked seg ≠ [] := by
  unfold unackedInsert
  split
  · exact List.cons_ne_nil _ _
  · split <;> simp

/-- A segment that takes up sequence numbers is on `unacked` then. -/
theorem tcpOutputOne_unacked {seg : Seg} {rest : List Seg} (h : pcb.unacked ≠ [] ∨ 0 < seg.tcplen) :
    (tcpOutputOne ticks pcb seg rest).1.unacked ≠ [] := by
  unfold tcpOutputOne
  dsimp only
  split
  · exact unackedInsert_ne _ _
  · next hno => exact h.resolve_right hno

/-- The loop of `tcp_output` takes nothing off `unacked`. -/
theorem tcpOutputLoop_unacked {wnd : ℕ} {q : List Seg} {out' : List Sent} (h : pcb.unacked ≠ [])
    (hl : tcpOutputLoop ticks wnd q pcb out = .ok (pcb', out')) : pcb'.unacked ≠ [] := by
  obtain ⟨-, hp⟩ := tcpOutputLoop_rule (P := fun _ p _ => p.unacked ≠ []) hl h
    fun _ _ _ _ hp _ => tcpOutputOne_unacked (.inl hp)
  exact hp

/-- `tcp_output` takes nothing off `unacked`, and sends a segment that has the window for itself. -/
theorem tcpOutput_unacked (h : pcb.unacked ≠ [] ∨
      ∃ seg rest, pcb.unacked = [] ∧ pcb.unsent = seg :: rest ∧ needs pcb seg = 0 ∧ 0 < seg.tcplen)
    (ho : tcpOutput ticks alloc pcb = .ok (pcb', out)) : pcb'.unacked ≠ [] := by
  unfold tcpOutput at ho
  dsimp only at ho
  rcases h with h | ⟨seg, rest, hnil, hunsent, hneeds, hlen⟩
  · split at ho
    · have hs := tcpSendEmptyAck_sameSnd alloc pcb
      rw [Except.ok.inj ho] at hs
      rw [hs.unacked]
      exact h
    · obtain ⟨⟨p, sent⟩, hl, ho⟩ := bind_eq_ok.mp ho
      cases ho
      have hp : p.unacked ≠ [] := tcpOutputLoop_unacked h hl
      exact hp
  · have hfits : noDataFits pcb (min pcb.snd_wnd pcb.cwnd) = false := by
      unfold noDataFits
      rw [hunsent]
      exact decide_eq_false (by omega)
    rw [hfits, Bool.and_false, if_neg (by decide), hunsent] at ho
    obtain ⟨⟨p, sent⟩, hl, ho⟩ := bind_eq_ok.mp ho
    cases ho
    unfold tcpOutputLoop at hl
    rw [if_pos (by omega)] at hl
    split at hl
    · cases hl
    -- Nothing is unacknowledged, so Nagle's algorithm does not hold it back.
    have hnagle : tcpDoOutputNagle pcb = true := by
      unfold tcpDoOutputNagle
      rw [hnil]
      rfl
    rw [hnagle, Bool.not_true, Bool.false_and, if_neg (by decide)] at hl
    have hp : p.unacked ≠ [] := tcpOutputLoop_unacked (tcpOutputOne_unacked (.inr hlen)) hl
    exact hp

/-- The SYN has the window for itself. -/
theorem SynFirst.needs (h : SynFirst pcb) (hnil : pcb.unacked = []) :
    ∃ seg rest, pcb.unacked = [] ∧ pcb.unsent = seg :: rest ∧ needs pcb seg = 0 ∧
    0 < seg.tcplen := by
  obtain ⟨syn, rest, hqueue, hseq, hlen, -, hsyn, -⟩ := h
  rw [hnil, List.nil_append] at hqueue
  have hzero : syn.len = 0 := by
    unfold Seg.tcplen at hlen
    rw [hsyn, Bool.or_true, if_pos rfl] at hlen
    omega
  refine ⟨syn, rest, hnil, hqueue, ?_, by omega⟩
  unfold Lwip.Tcp.needs
  rw [hzero, hseq, Serial.adv_zero, Serial.dist_self]

/-- `tcp_output` leaves the SYN queued. -/
theorem SynSent.output (h : SynSent o pcb) (ho : tcpOutput ticks alloc pcb = .ok (pcb', out)) :
    SynSent o pcb' :=
  ⟨(tcpOutput_state ho).trans h.state, (tcpOutput_sameRoom ho).room h.room,
    h.counted.moved (tcpOutput_moved h.counted ho), h.shaking.output h.counted ho,
    tcpOutput_unacked (.inl h.unacked) ho⟩

/-- `tcp_output` takes nothing off `unacked`, with the test of the first lines too. -/
theorem tcpOutputUnlessInput_unacked (h : pcb.unacked ≠ [])
    (ho : tcpOutputUnlessInput input ticks alloc pcb = .ok (pcb', out)) : pcb'.unacked ≠ [] := by
  exact tcpOutputUnlessInput_rule (P := fun p _ => p.unacked ≠ []) ho h (tcpOutput_unacked (.inl h))

/-- `tcp_write` leaves `unacked` alone. -/
theorem tcpWrite_unacked {allocs : ℕ → Bool} {data : List UInt8} {copy more : Bool} {err : Err}
    (h : tcpWrite o allocs pcb data copy more = .ok (err, pcb')) : pcb'.unacked = pcb.unacked := by
  obtain ⟨-, rfl⟩ | ⟨-, ⟨-, -, rfl⟩ | ⟨-, h⟩⟩ := tcpWrite_cases h
  · rfl
  · rfl
  · rcases tcpEnqueue_cases h with ⟨-, rfl⟩ | ⟨-, -, q, qs, ql, unsent, ql', -, -, rfl⟩ <;> rfl

/-- A call of the application on a pcb in `SYN_SENT`; `tcp_close` frees it. -/
theorem SynSent.appCall {c : AppCall} (h : SynSent o pcb)
    (hc : appCall o input ticks pcb c = .ok (some pcb', out)) : SynSent o pcb' := by
  have hno : ¬ (pcb.state = .SYN_RCVD ∨ pcb.state = .ESTABLISHED ∨ pcb.state = .CLOSE_WAIT) := by
    rw [h.state]
    decide
  have hfin : FinFits o pcb c := by
    cases c with
    | write allocs data copy more => trivial
    | recved alloc len => trivial
    | close allocs ack => exact fun hst => absurd hst hno
  have hroom := appCall_room h.room hfin hc
  have hcounted := appCall_counted h.counted hc
  have hstate : pcb'.state = .SYN_SENT := by
    rcases (appCall_follows hc).state with hst | ⟨hst, -⟩
    · exact hst.trans h.state
    · exact absurd hst hno
  cases c with
  | write allocs data copy more =>
    obtain ⟨⟨err, p⟩, hw, hc⟩ := bind_eq_ok.mp hc
    cases hc
    refine ⟨hstate, hroom, hcounted, h.shaking.write h.room h.counted hw, ?_⟩
    rw [tcpWrite_unacked hw]
    exact h.unacked
  | recved alloc len =>
    obtain ⟨⟨p, out'⟩, hr, hc⟩ := bind_eq_ok.mp hc
    cases hc
    refine ⟨hstate, hroom, hcounted, h.shaking.recved h.counted hr, ?_⟩
    obtain ⟨w, hr⟩ := tcpRecved_cases hr
    have hann : (tcpUpdateRcvAnnWnd o { pcb with rcv_wnd := w }).1.unacked ≠ [] := by
      rw [(tcpUpdateRcvAnnWnd_sameSnd o { pcb with rcv_wnd := w }).unacked]
      exact h.unacked
    obtain hr | ⟨rfl, -⟩ := hr
    · unfold tcpAckNow at hr
      exact tcpOutputUnlessInput_unacked (by exact hann) hr
    · exact hann
  | close allocs ack =>
    obtain ⟨⟨err, rest⟩, hcl, hc⟩ := bind_eq_ok.mp hc
    unfold tcpClose at hcl
    rw [h.state] at hcl
    obtain ⟨_, -, hcl⟩ := bind_eq_ok.mp hcl
    cases hcl
    cases hc

/-- The calls of a callback leave the SYN queued. -/
theorem SynSent.appCalls {cs : List AppCall} (h : SynSent o pcb)
    (hcs : appCalls o input ticks pcb cs = .ok (some pcb', out)) : SynSent o pcb' := by
  exact appCalls_rule (P := fun p _ => SynSent o p) hcs h fun p q c _ _ hp hc => hp.appCall hc

/-- The timers. When the retransmission timer expires, the SYN goes back to `unsent` and out
again. -/
theorem SynSent.slowtmrRexmit (h : SynSent o pcb)
    (hr : slowtmrRexmit o ticks e pcb = .ok (pcb', out)) : SynSent o pcb' := by
  refine ⟨(slowtmrRexmit_state hr).trans h.state, (slowtmrRexmit_sameRoom hr).room h.room,
    h.counted.moved (slowtmrRexmit_moved h.counted hr), h.shaking.slowtmrRexmit h.counted hr, ?_⟩
  unfold Lwip.Tcp.slowtmrRexmit at hr
  split at hr
  · cases hr
    exact h.unacked
  split at hr
  · have hs := slowtmrPersist_sameSnd e pcb
    rw [Except.ok.inj hr] at hs
    rw [hs.unacked]
    exact h.unacked
  · dsimp only at hr
    split at hr
    · obtain ⟨p, hp, hr⟩ := slowtmrRto_eq hr
      have hsame : SameSnd pcb p := SameSnd.trans (by constructor <;> rfl) hp
      unfold tcpRexmitRto at hr
      rw [if_neg (by rw [hsame.unacked]; exact h.unacked)] at hr
      refine tcpOutput_unacked (.inr (SynFirst.needs ?_ rfl)) hr
      refine SynFirst.congr
        (h.synFirst.congr hsame.sameRoom (by rw [hsame.unacked, hsame.unsent])) ?_ ?_
      · constructor <;> rfl
      · rfl
    · cases hr
      exact h.unacked

end SynSent

/-! ## Connections -/

section Conn

variable {o : Opts} {ticks : BitVec 32} {alloc : Bool} {e : TickEnv} {m : RxAlloc} {cb : Callbacks}
  {pcb pcb' p : TcpPcb} {i : In} {out : List Sent} {c c' : Conn} {pr : Proc}

/-- If the pcb is in `SYN_SENT`, it has sent its SYN. -/
def Opens (o : Opts) (pcb : TcpPcb) : Prop := pcb.state = .SYN_SENT → SynSent o pcb

def Conn.Opens (o : Opts) : Conn → Prop
  | .active pcb => Lwip.Tcp.Opens o pcb
  | _ => True

/-- In another state there is nothing to show. -/
theorem Opens.of_ne (h : pcb.state ≠ .SYN_SENT) : Opens o pcb := fun hst => absurd hst h

/-- Whether the SYN was sent depends on the send fields. -/
theorem Opens.sameSnd (h : Opens o pcb) (hs : SameSnd pcb pcb')
    (hql : pcb'.snd_queuelen = pcb.snd_queuelen) (ho : pcb.ooseq = [] → pcb'.ooseq = []) :
    Opens o pcb' :=
  fun hst => (h (hs.state.symm.trans hst)).sameSnd hs hql ho

/-- `tcp_output` keeps a SYN that was sent. -/
theorem Opens.output (h : Opens o pcb) (ho : tcpOutput ticks alloc pcb = .ok (pcb', out)) :
    Opens o pcb' := fun hst => (h ((tcpOutput_state ho).symm.trans hst)).output ho

/-- No call of the application brings a pcb back to `SYN_SENT`. -/
theorem Follows.synSent (h : Follows pcb pcb') (hst : pcb'.state = .SYN_SENT) :
    pcb.state = .SYN_SENT := by
  rcases h.state with hst' | ⟨-, hst' | hst'⟩
  · exact hst'.symm.trans hst
  · rw [hst] at hst'
    cases hst'
  · rw [hst] at hst'
    cases hst'

/-- The calls of a callback keep a SYN that was sent. -/
theorem Opens.appCalls {input : Bool} {cs : List AppCall} (h : Opens o pcb)
    (hcs : appCalls o input ticks pcb cs = .ok (some pcb', out)) : Opens o pcb' :=
  fun hst => (h ((appCalls_follows hcs).synSent hst)).appCalls hcs

/-- What `tcp_process` notes at first keeps a SYN that was sent. -/
theorem Opens.note (h : Opens o pcb) : Opens o (processNote o ticks pcb i) := by
  intro hst
  have hs := h hst
  have hfresh := hs.shaking.fresh
  exact ⟨hs.state, hs.room, processNote_counted hs.counted,
    ⟨⟨hfresh.segs, hfresh.nxt, hfresh.win, hfresh.snd_wnd_le⟩, hs.shaking.fin, hs.shaking.ooseq,
      hs.shaking.state⟩, hs.unacked⟩

/-- A RST keeps a SYN that was sent. -/
theorem Opens.processRst (h : Opens o pcb) (hp : (processRst pcb i).pcb = some p) : Opens o p := by
  unfold Lwip.Tcp.processRst at hp
  dsimp only at hp
  have hflag : SameSnd pcb { pcb with flags := { pcb.flags with ack_delay := false } } := by
    constructor <;> rfl
  split at hp
  · split at hp
    · cases hp
      exact h.sameSnd hflag rfl id
    · cases hp
      exact h
  · split at hp
    · cases hp
      exact h.sameSnd hflag rfl id
    · cases hp
      exact h

/-- `SYN_SENT` keeps the SYN until the SYN|ACK comes. -/
theorem Opens.processSynSent (h : Opens o pcb) (hr : processSynSent m pcb i = .ok pr)
    (hp : pr.pcb = some p) : Opens o p := by
  unfold Lwip.Tcp.processSynSent at hr
  split at hr
  · split at hr
    · cases hr
    · cases hr
      cases hp
      exact h
  · split at hr
    · obtain ⟨_, -, hr⟩ := bind_eq_ok.mp hr
      cases hr
      cases hp
      exact .of_ne fun hst => TcpState.noConfusion hst
    · cases hr
      cases hp
      exact h

/-- From `SYN_RCVD` there is no way back to `SYN_SENT`. -/
theorem processSynRcvd_opens (hst : pcb.state = .SYN_RCVD)
    (hr : processSynRcvd o ticks m cb pcb i = .ok pr)
    (hp : pr.pcb = some p) : p.state ≠ .SYN_SENT := by
  unfold processSynRcvd at hr
  split at hr
  · split at hr
    · obtain ⟨⟨q, out⟩, hacc, hr⟩ := bind_eq_ok.mp hr
      cases q with
      | none =>
        cases hr
        cases hp
      | some q =>
        dsimp only at hr
        split at hr
        · cases hr
          cases hp
        · obtain ⟨rx, hrx, hr⟩ := bind_eq_ok.mp hr
          cases hr
          cases hp
          -- The connection was established before the calls of the callback.
          intro hsyn
          have hrxst : rx.pcb.state = .SYN_SENT := by
            split at hsyn
            · cases hsyn
            · exact hsyn
          have hopen := (appCalls_follows hacc).synSent (tcpReceive_opening hrx hrxst)
          cases hopen
    · cases hr
      cases hp
      rw [hst]
      decide
  · split at hr
    · cases hr
      cases hp
      have hsame : (tcpRexmit pcb).state = pcb.state := by
        unfold tcpRexmit
        split <;> rfl
      rw [hsame, hst]
      decide
    · cases hr
      cases hp
      rw [hst]
      decide

/-- `tcp_process` keeps a SYN that was sent. -/
theorem Opens.process (h : Opens o pcb) (hr : tcpProcess o ticks m cb pcb i = .ok pr)
    (hp : pr.pcb = some p) : Opens o p := by
  have hreceived : ∀ st, st ≠ .SYN_SENT → pcb.state = st →
      (tcpReceive o ticks m (processNote o ticks pcb i) i >>= fun rx =>
      .ok (processReceived rx i st)) =
        .ok pr →
        Opens o p := by
    intro st hne hst hr
    obtain ⟨rx, hrx, hr⟩ := bind_eq_ok.mp hr
    cases hr
    refine .of_ne fun hsyn => ?_
    rcases (processReceived_handsUp rx i st).pcb p hp with hsame | ⟨htw, -⟩
    · have hnote : (processNote o ticks pcb i).state = pcb.state := rfl
      have hopen := tcpReceive_opening hrx (hsame.opening hsyn)
      rw [hnote, hst] at hopen
      exact hne hopen
    · rw [hsyn] at htw
      cases htw
  have hstay : pcb.state ≠ .SYN_SENT →
      (.ok { pcb := some (processNote o ticks pcb i) } : Except Abort Proc) = .ok pr →
      Opens o p := by
    intro hne hr
    cases hr
    cases hp
    exact .of_ne hne
  unfold tcpProcess at hr
  split at hr
  · cases hr
    exact h.processRst hp
  split at hr
  · cases hr
    cases hp
    exact h.sameSnd (by constructor <;> rfl) rfl id
  cases hst : pcb.state with
  | SYN_SENT =>
    rw [hst] at hr
    exact h.note.processSynSent hr hp
  | SYN_RCVD =>
    rw [hst] at hr
    have hnote : (processNote o ticks pcb i).state = .SYN_RCVD := hst
    exact .of_ne (processSynRcvd_opens hnote hr hp)
  | CLOSED | LISTEN | TIME_WAIT =>
    rw [hst] at hr
    exact hstay (by rw [hst]; decide) hr
  | ESTABLISHED | CLOSE_WAIT | FIN_WAIT_1 | FIN_WAIT_2 | CLOSING | LAST_ACK =>
    rw [hst] at hr
    exact hreceived _ (by decide) hst hr

/-- `tcp_input` keeps a SYN that was sent. -/
theorem Opens.input (h : Opens o pcb) (hi : tcpInput o ticks m cb alloc pcb i = .ok (c, out)) :
    c.Opens o := by
  have hnone : Opens o { pcb with refused_data := none } :=
    h.sameSnd (by constructor <;> rfl) rfl id
  unfold tcpInput at hi
  split at hi
  · cases hi
    exact h
  · obtain ⟨pr, hpr, hi⟩ := bind_eq_ok.mp hi
    split at hi
    · cases hi
      trivial
    · next p hp =>
      split at hi
      · obtain ⟨r, -, hi⟩ := bind_eq_ok.mp hi
        cases hi
        trivial
      · unfold tcpInputFinish at hi
        obtain ⟨⟨q, out₁⟩, happ, hi⟩ := bind_eq_ok.mp hi
        cases q with
        | none =>
          cases hi
          trivial
        | some q =>
          obtain ⟨⟨r, out₂⟩, ho, hi⟩ := bind_eq_ok.mp hi
          cases hi
          have hq : Opens o q := (hnone.process hpr hp).appCalls happ
          have hkeep : SameSnd q (keepRefused cb pr q) := by constructor <;> rfl
          have hr : Opens o r := (hq.sameSnd hkeep rfl id).output ho
          dsimp only
          split
          · trivial
          · exact hr

/-- A slow tick keeps a SYN that was sent. -/
theorem Opens.slowtmr (h : Opens o pcb) (hs : tcpSlowtmr o ticks e pcb = .ok (c, out)) :
    c.Opens o := by
  refine (tcpSlowtmr_rule (P := fun p _ => Opens o p) hs (fun p out₁ hr _ n => ?_)
    (fun p q _ _ hp happ => hp.appCalls happ) fun p q _ _ hp ho => hp.output ho).elim ?_ ?_
  · have hp : Opens o p := fun hst =>
      (h ((slowtmrRexmit_state hr).symm.trans hst)).slowtmrRexmit hr
    have hka : Opens o (slowtmrKeepalive ticks e p).1 := by
      refine hp.sameSnd (slowtmrKeepalive_sameSnd ticks e p)
        (slowtmrKeepalive_moved ticks e p).queuelen fun hnil => ?_
      unfold slowtmrKeepalive tcpKeepalive
      split
      · split <;> exact hnil
      · exact hnil
    have hoo : Opens o (slowtmrOoseq ticks (slowtmrKeepalive ticks e p).1) := by
      refine hka.sameSnd (slowtmrOoseq_sameSnd ticks _) rfl fun hnil => ?_
      unfold slowtmrOoseq
      dsimp only
      split
      · rfl
      · exact hnil
    exact hoo.sameSnd (by constructor <;> rfl) rfl id
  · rintro rfl
    trivial
  · rintro ⟨q, rfl, hq⟩
    exact hq

/-- A fast tick keeps a SYN that was sent. -/
theorem Opens.fasttmr {takesRefused : Bool} (h : Opens o pcb)
    (ht : tcpFasttmr ticks takesRefused alloc pcb = .ok (pcb', out)) : Opens o pcb' := by
  have href : ∀ flags : PcbFlags, flags.infr = pcb.flags.infr → flags.fin = pcb.flags.fin →
      Opens o { pcb with
        refused_data := if takesRefused then none else pcb.refused_data, flags := flags } :=
    fun flags hinfr hfin =>
      h.sameSnd ⟨rfl, rfl, rfl, rfl, rfl, hinfr, hfin, rfl, rfl, rfl, rfl⟩ rfl id
  refine tcpFasttmr_rule (P := fun p _ => Opens o p) ht (href pcb.flags rfl rfl)
    fun {p _} hack => ?_
  have hp : Opens o p := Opens.output (href { pcb.flags with ack_now := true } rfl rfl) hack
  exact hp.sameSnd (by constructor <;> rfl) rfl id

/-- Every event of a connection. -/
theorem Conn.Opens.step {ev : ConnEvent} (h : c.Opens o) (hs : connStep o c ev = .ok c') :
    c'.Opens o := by
  cases c with
  | gone => cases ev <;> (cases hs; trivial)
  | timeWait pcb =>
    cases ev with
    | input ticks m cb out i =>
      obtain ⟨⟨p, sent⟩, ht, hs⟩ := bind_eq_ok.mp hs
      cases hs
      trivial
    | slowtmr ticks e =>
      cases hs
      unfold tcpSlowtmrTimeWait
      split <;> trivial
    | call ticks c =>
      cases hs
      trivial
    | output ticks alloc =>
      cases hs
      trivial
    | fasttmr ticks takesRefused out =>
      cases hs
      trivial
  | active pcb =>
    cases ev with
    | call ticks c =>
      obtain ⟨⟨p, out⟩, hcall, hs⟩ := bind_eq_ok.mp hs
      cases hs
      cases p with
      | none => trivial
      | some p =>
        exact fun hst => (h ((appCall_follows hcall).synSent hst)).appCall hcall
    | output ticks alloc =>
      obtain ⟨⟨p, out⟩, ho, hs⟩ := bind_eq_ok.mp hs
      cases hs
      exact Lwip.Tcp.Opens.output h ho
    | slowtmr ticks e =>
      obtain ⟨⟨c', out⟩, ht, hs⟩ := bind_eq_ok.mp hs
      cases hs
      exact Lwip.Tcp.Opens.slowtmr h ht
    | fasttmr ticks takesRefused out =>
      obtain ⟨⟨p, out'⟩, ht, hs⟩ := bind_eq_ok.mp hs
      cases hs
      exact Lwip.Tcp.Opens.fasttmr h ht
    | input ticks m cb out i =>
      obtain ⟨⟨c', out'⟩, ht, hs⟩ := bind_eq_ok.mp hs
      cases hs
      exact Lwip.Tcp.Opens.input h ht

end Conn

end Lwip.Tcp
