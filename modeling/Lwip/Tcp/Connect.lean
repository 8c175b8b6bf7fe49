import Lwip.Tcp.StayOpen
import Lwip.Tcp.SynSent

/-!
# What `tcp_connect` leaves behind

`tcp_connect` changes the state of the pcb and its list before it enqueues the SYN, and takes
nothing back if there is no memory for it. If the SYN is enqueued it is on `unacked` when the call
returns, and every event leaves it there until the pcb leaves `SYN_SENT`
(`connect_leaves_no_half_open`). Otherwise the pcb waits in `SYN_SENT` with empty queues, and
`tcp_process` follows a null pointer when a SYN|ACK comes in (`half_open_connects`).
-/

namespace Lwip.Tcp

/-! ## Pcbs and their lists -/

/-- A pcb in the state `CLOSED`, on the list of the bound pcbs or on none, or one on the lists that
`Conn` is about. -/
inductive Place where
  | closed (bound : Bool) (pcb : TcpPcb)
  | conn (c : Conn)

/-- The segment size that `tcp_connect` starts with. -/
def connectMss (o : Opts) (e : ConnectEnv) : ℕ := u16 (e.effSendMss (min o.TCP_MSS 536))

/-- `tcp_connect`, with an address or with `NULL`. The result is `none` for `ERR_VAL` and for
`ERR_ISCONN`. -/
def connectAt (o : Opts) (e : ConnectEnv) (ipaddr : Bool) :
    Place → Except Abort (Option Err × Place)
  | .closed bound pcb =>
    if !ipaddr then .ok (none, .closed bound pcb)
    else do
      match ← tcpConnect o e pcb with
      | none => .ok (none, .closed bound pcb)
      -- From the bound list or none to that of the active pcbs, whatever `tcp_enqueue` returns.
      | some (err, pcb, _) => .ok (some err, .conn (.active pcb))
  | .conn c => .ok (none, .conn c)

/-- What the application and the stack do with one pcb. To a closed one come no segments and no
ticks. -/
def placeStep (o : Opts) : Place → ConnEvent → Except Abort Place
  | .conn c, ev => do
    let c ← connStep o c ev
    .ok (.conn c)
  | .closed bound pcb, .call ticks c => do
    let r ← appCall o false ticks pcb c
    .ok (r.1.elim (.conn .gone) (.closed bound))
  | .closed bound pcb, .output ticks alloc => do
    let r ← tcpOutput ticks alloc pcb
    .ok (.closed bound r.1)
  | .closed bound pcb, _ => .ok (.closed bound pcb)

/-- What happens to the pcbs of the stack. A pcb is known by its place in the order of their
making. -/
inductive PoolEvent where
  | new (ticks : BitVec 32) (iss : Serial)
  | bind (n : ℕ)
  | connect (n : ℕ) (e : ConnectEnv) (ipaddr : Bool)
  /-- A listener opens a connection. -/
  | listen (e : ListenEnv) (i : In)
  /-- `tcp_abort`, of the application or of `tcp_alloc`. -/
  | abort (n : ℕ)
  | on (n : ℕ) (ev : ConnEvent)

def poolStep (o : Opts) (pool : List Place) : PoolEvent → Except Abort (List Place)
  | .new ticks iss => .ok (pool ++ [.closed false (tcpAlloc o ticks iss)])
  | .bind n => match pool[n]? with
    | some (.closed _ pcb) => .ok (pool.set n (.closed true pcb))
    | _ => .ok pool
  | .connect n e ipaddr => match pool[n]? with
    | some p => do
      let r ← connectAt o e ipaddr p
      .ok (pool.set n r.2)
    | none => .ok pool
  | .listen e i => do
    let r ← tcpListenInput o e i
    .ok (pool ++ (r.1.map fun pcb => Place.conn (.active pcb)).toList)
  | .abort n => .ok (pool.set n (.conn .gone))
  | .on n ev => match pool[n]? with
    | some p => do
      let p' ← placeStep o p ev
      .ok (pool.set n p')
    | none => .ok pool

/-! ## What should come of a call -/

/-- The call returns `ERR_OK` with the SYN on the queues, or an error with the pcb closed and on its
list. -/
def ConnectRight (o : Opts) (e : ConnectEnv) (ipaddr bound : Bool) (pcb : TcpPcb) : Prop :=
  ∃ err p, connectAt o e ipaddr (.closed bound pcb) = .ok (err, p) ∧
    ((err = some .OK ∧ ∃ pcb', p = .conn (.active pcb') ∧ SynQueued pcb') ∨
      (err ≠ some .OK ∧ ∃ pcb', p = .closed bound pcb' ∧ pcb'.state = .CLOSED))

/-- There is memory for the SYN, and the segment size has room for its option. -/
def SynFits (o : Opts) (e : ConnectEnv) : Prop :=
  4 ≤ connectMss o e ∧ 1 ≤ o.TCP_SND_QUEUELEN ∧ e.alloc 0 = true ∧ e.alloc 1 = true

instance (o : Opts) (e : ConnectEnv) : Decidable (SynFits o e) := inferInstanceAs
    (Decidable (_ ∧ _))

def Place.isClosed : Place → Bool
  | .closed _ _ => true
  | .conn _ => false

/-- The condition on an event: the SYN of a closed pcb is enqueued. -/
def ConnectFits (o : Opts) (pool : List Place) : PoolEvent → Prop
  | .connect n e ipaddr => pool[n]?.any Place.isClosed = true → ipaddr = true → SynFits o e
  | _ => True

instance (o : Opts) (pool : List Place) : (ev : PoolEvent) → Decidable (ConnectFits o pool ev)
  | .connect n e ipaddr =>
    inferInstanceAs (Decidable (pool[n]?.any Place.isClosed = true → ipaddr = true → SynFits o e))
  | .new .. | .bind .. | .listen .. | .abort .. | .on .. => .isTrue trivial

/-- What should hold of all pcbs at all times. -/
structure NoHalfOpen (o : Opts) (pool : List Place) : Prop where
  queued : ∀ pcb, .conn (.active pcb) ∈ pool → pcb.state = .SYN_SENT → SynQueued pcb
  /-- `tcp_process` does not follow the null pointer. -/
  process : ∀ pcb, .conn (.active pcb) ∈ pool → pcb.state = .SYN_SENT → ∀ ticks m cb refused i,
    tcpProcess o ticks m cb { pcb with refused_data := refused } i ≠ .error .unackedNull
  connect : ∀ bound pcb, .closed bound pcb ∈ pool → ∀ e ipaddr, 4 ≤ connectMss o e →
    (ConnectRight o e ipaddr bound pcb ↔ (ipaddr = true → SynFits o e))

/-! ## A closed pcb -/

section Blank

variable {o : Opts} {ticks : BitVec 32} {input alloc : Bool} {pcb pcb' : TcpPcb} {out : List Sent}

/-- Nothing was done with the pcb yet. -/
structure Blank (o : Opts) (pcb : TcpPcb) : Prop where
  state : pcb.state = .CLOSED
  unsent : pcb.unsent = []
  unacked : pcb.unacked = []
  queuelen : pcb.snd_queuelen = 0
  fin : pcb.flags.fin = false
  ooseq : pcb.ooseq = []
  snd_buf : pcb.snd_buf = o.TCP_SND_BUF

/-- A blank pcb stays blank while its send fields stay. -/
theorem Blank.sameSnd (h : Blank o pcb) (hs : SameSnd pcb pcb')
    (hql : pcb'.snd_queuelen = pcb.snd_queuelen) (ho : pcb'.ooseq = pcb.ooseq) : Blank o pcb' :=
  ⟨hs.state.trans h.state, hs.unsent.trans h.unsent, hs.unacked.trans h.unacked,
    hql.trans h.queuelen, hs.fin.trans h.fin, ho.trans h.ooseq, hs.snd_buf.trans h.snd_buf⟩

/-- With nothing to send, `tcp_output` leaves the sender. -/
theorem Blank.output (h : Blank o pcb) (ho : tcpOutput ticks alloc pcb = .ok (pcb', out)) :
    Blank o pcb' := by
  have hooseq := (tcpOutput_callFrame ho).ooseq
  unfold tcpOutput at ho
  dsimp only at ho
  split at ho
  · have hs := tcpSendEmptyAck_sameSnd alloc pcb
    have hql := tcpSendEmptyAck_queuelen alloc pcb
    rw [Except.ok.inj ho] at hs hql
    exact h.sameSnd hs hql hooseq
  · rw [h.unsent] at ho
    cases ho
    exact h.sameSnd (tcpOutputPersist_sameSnd pcb) rfl hooseq

/-- A call leaves a blank pcb blank. -/
theorem Blank.call {c : AppCall} (h : Blank o pcb)
    (hc : appCall o false ticks pcb c = .ok (some pcb', out)) : Blank o pcb' := by
  refine appCall_rule (P := fun p _ => Blank o p) hc (fun hw => ?_) (fun hr => ?_) fun hcl => ?_
  · unfold tcpWrite at hw
    rw [h.state] at hw
    cases hw
    exact h
  · obtain ⟨w, hr⟩ := tcpRecved_cases hr
    have hwnd : SameSnd pcb { pcb with rcv_wnd := w } := by constructor <;> rfl
    have hann : Blank o (tcpUpdateRcvAnnWnd o { pcb with rcv_wnd := w }).1 :=
      h.sameSnd (hwnd.trans (tcpUpdateRcvAnnWnd_sameSnd o { pcb with rcv_wnd := w }))
        (tcpUpdateRcvAnnWnd_queuelen o { pcb with rcv_wnd := w })
        (tcpUpdateRcvAnnWnd_callFrame o { pcb with rcv_wnd := w }).ooseq
    obtain hr | ⟨rfl, -⟩ := hr
    · unfold tcpAckNow tcpOutputUnlessInput at hr
      rw [if_neg (by decide)] at hr
      refine Blank.output (hann.sameSnd ?_ ?_ ?_) hr
      · constructor <;> rfl
      · rfl
      · rfl
    · exact hann
  · unfold tcpClose at hcl
    rw [h.state] at hcl
    cases hcl

end Blank

/-! ## The call -/

section Call

variable {o : Opts} {e : ConnectEnv} {pcb pcb' : TcpPcb} {ipaddr bound : Bool} {alloc : ℕ → Bool}
  {sent : List Sent} {err : Err}

/-- With memory for it the SYN is enqueued. -/
theorem tcpEnqueue_syn_ok (hunsent : pcb.unsent = []) (hunacked : pcb.unacked = [])
    (hql : pcb.snd_queuelen = 0) (hfin : pcb.flags.fin = false) (hmss : 4 ≤ pcb.mss)
    (hlimit : 1 ≤ o.TCP_SND_QUEUELEN) (hseg : alloc 0 = true) (hpbuf : alloc 1 = true) :
    tcpEnqueue o alloc pcb [] { syn := true } false false true = .ok (.OK, { pcb with
      unsent := [{ seqno := pcb.snd_lbb, len := 0, flags := { syn := true }, optMss := true }]
      snd_lbb := pcb.snd_lbb.adv 1
      snd_buf := u16sub pcb.snd_buf 1
      snd_queuelen := 1 }) := by
  have hlen : (if ((0 : ℕ) : ℤ) > (pcb.mss : ℤ) - ((4 : ℕ) : ℤ) then u16sub pcb.mss 4 else 0) = 0 :=
    if_neg (by omega)
  have hno : ¬ (1 > o.TCP_SND_QUEUELEN ∨ 1 > TCP_SNDQUEUELEN_OVERFLOW) := by
    rintro (hgt | hgt)
    · omega
    · exact absurd hgt (by decide)
  have hloop : tcpEnqueueLoop o pcb.mss 4 { syn := true } false true (o.TCP_SND_QUEUELEN + 1)
        alloc [] [] 0 pcb.snd_lbb 0 =
      some ([{ seqno := pcb.snd_lbb, len := 0, flags := { syn := true }, optMss := true }], 1) := by
    unfold tcpEnqueueLoop
    simp only [hlen, hseg, hpbuf]
    exact if_neg hno
  have hroom : ¬ (pcb.snd_queuelen ≥ o.TCP_SND_QUEUELEN ∨
      pcb.snd_queuelen > TCP_SNDQUEUELEN_OVERFLOW) := by
    rw [hql]
    rintro (hge | hgt)
    · omega
    · exact absurd hgt (by decide)
  have hflags : { pcb.flags with fin := pcb.flags.fin || false } = pcb.flags := by
    rw [hfin, Bool.or_false, ← hfin]
  unfold tcpEnqueue
  rw [show lwipAssert Abort.enqueueNothing _ = .ok () from if_pos (.inr (.inl rfl)),
    show lwipAssert Abort.pbufsButQueuesEmpty _ = .ok () from if_pos (.inl hql),
    show lwipAssert Abort.noPbufsButQueueNonempty _ = .ok () from if_pos (.inr ⟨hunacked, hunsent⟩),
    show lwipAssert Abort.firstPbufTooShort _ = .ok ()
      from if_pos (fun h => Bool.false_ne_true h.1),
    if_neg hroom, hql]
  dsimp only [bind, Except.bind, List.length_nil]
  rw [if_neg (Nat.not_lt_zero _), if_pos rfl, hloop]
  dsimp only
  unfold tcpEnqueueAppend
  rw [hunsent]
  refine congrArg (fun p => Except.ok (Err.OK, p)) ?_
  unfold tcpEnqueueCommit
  rw [hflags]
  rfl

/-- The pcb of a call whose SYN is enqueued has sent it when the call returns. -/
theorem Blank.connect (h : Blank o pcb) (hb : 0 < o.TCP_SND_BUF) (hf : SynFits o e) :
    ∃ p sent, tcpConnect o e pcb = .ok (some (.OK, p, sent)) ∧ SynSent o p := by
  obtain ⟨hmss, hlimit, hseg, hpbuf⟩ := hf
  have henq := @tcpEnqueue_syn_ok o (connectPcb o e pcb) e.alloc h.unsent h.unacked h.queuelen h.fin
    hmss hlimit hseg hpbuf
  generalize hp : ({ connectPcb o e pcb with
    unsent := [
      { seqno := (connectPcb o e pcb).snd_lbb, len := 0, flags := { syn := true }, optMss := true }]
    snd_lbb := (connectPcb o e pcb).snd_lbb.adv 1
    snd_buf := u16sub (connectPcb o e pcb).snd_buf 1
    snd_queuelen := 1 } : TcpPcb) = p at henq
  have hwnd : (connectPcb o e pcb).snd_wnd ≤ 0xffff := o.wnd_le
  have hle : (connectPcb o e pcb).mss ≤ 0xffff := by
    unfold connectPcb u16
    dsimp only
    omega
  have hnxt : e.iss = (e.iss - 1).adv 1 := (BitVec.sub_add_cancel _ _).symm
  obtain ⟨hroom, hcounted, hshaking⟩ := @shaking_of_syn o (connectPcb o e pcb) p { syn := true } hb
    hlimit rfl rfl h.unacked h.snd_buf h.fin h.ooseq hwnd hle rfl (.inr ⟨rfl, hnxt⟩) hp.symm
  have hstate : p.state = .SYN_SENT := by
    rw [← hp]
    rfl
  have hunacked : p.unacked = [] := by
    rw [← hp]
    exact h.unacked
  have hfirst : SynFirst p := by
    rcases hshaking.state with hst | ⟨-, hfirst, -⟩
    · rw [hstate] at hst
      cases hst
    · exact hfirst
  have hrst : ∀ s ∈ p.unsent, s.flags.rst = false := by
    rw [← hp]
    intro s hs
    rw [List.mem_singleton.mp hs]
  obtain ⟨⟨p', sent⟩, hout⟩ : ∃ r, tcpOutputUnlessInput false e.ticks e.out p = .ok r :=
    tcpOutputUnlessInput_ok hrst
  have hout : tcpOutput e.ticks e.out p = .ok (p', sent) := hout
  refine ⟨p', sent, ?_, (tcpOutput_state hout).trans hstate, (tcpOutput_sameRoom hout).room hroom,
    hcounted.moved (tcpOutput_moved hcounted hout), hshaking.output hcounted hout,
    tcpOutput_unacked (.inr (hfirst.needs hunacked)) hout⟩
  unfold tcpConnect
  rw [if_neg (not_not_intro h.state), henq]
  change (tcpOutput e.ticks e.out p >>= fun out => _) = _
  rw [hout]
  rfl

/-- A closed pcb is opened by `tcp_connect`. -/
theorem connectAt_closed (o : Opts) (e : ConnectEnv) (bound : Bool) (pcb : TcpPcb) :
    connectAt o e true (.closed bound pcb) = (do
      match ← tcpConnect o e pcb with
      | none => .ok (none, .closed bound pcb)
      | some (err, pcb, _) => .ok (some err, .conn (.active pcb))) := rfl

/-- A call returns what is right exactly if it gets no address or its SYN is enqueued. -/
theorem Blank.connectRight_iff (h : Blank o pcb) (hb : 0 < o.TCP_SND_BUF)
    (hmss : 4 ≤ connectMss o e) :
    ConnectRight o e ipaddr bound pcb ↔ (ipaddr = true → SynFits o e) := by
  constructor
  · rintro ⟨err, p, hat, hright⟩ rfl
    rw [connectAt_closed] at hat
    obtain ⟨r, hr, hat⟩ := bind_eq_ok.mp hat
    unfold tcpConnect at hr
    rw [if_neg (not_not_intro h.state)] at hr
    obtain ⟨⟨err', q⟩, henq, hr⟩ := bind_eq_ok.mp hr
    dsimp only at hr
    split at hr
    · next hok =>
      subst hok
      obtain ⟨hlimit, hseg, hpbuf⟩ := tcpEnqueue_enqueues henq
      have hzero : (connectPcb o e pcb).snd_queuelen = 0 := h.queuelen
      exact ⟨hmss, by omega, hseg, hpbuf⟩
    · next hne =>
      -- The pcb is on the list of the active pcbs.
      cases hr
      cases hat
      rcases hright with ⟨heq, -⟩ | ⟨-, pcb', heq, -⟩
      · exact absurd (Option.some.inj heq) hne
      · cases heq
  · intro hf
    cases ipaddr with
    | false => exact ⟨none, .closed bound pcb, rfl, .inr ⟨nofun, pcb, rfl, h.state⟩⟩
    | true =>
      obtain ⟨p, sent, hconn, hsent⟩ := h.connect hb (hf rfl)
      refine ⟨some .OK, .conn (.active p), ?_, .inl ⟨rfl, p, rfl, hsent.queued⟩⟩
      rw [connectAt_closed, hconn]
      rfl

end Call

/-! ## All pcbs -/

section Pool

variable {o : Opts} {pool pool' : List Place} {p p' : Place} {ev : PoolEvent}

/-- What every pcb of the stack keeps. -/
def Place.Ok (o : Opts) : Place → Prop
  | .closed _ pcb => Blank o pcb
  | .conn c => c.Opens o

/-- Every event keeps a place right. -/
theorem Place.Ok.step {ev : ConnEvent} (h : p.Ok o) (hs : placeStep o p ev = .ok p') : p'.Ok o := by
  cases p with
  | conn c =>
    obtain ⟨c', hc, hs⟩ := bind_eq_ok.mp hs
    cases hs
    exact Conn.Opens.step h hc
  | closed bound pcb =>
    cases ev with
    | call ticks c =>
      obtain ⟨⟨r, out⟩, hc, hs⟩ := bind_eq_ok.mp hs
      cases hs
      cases r with
      | none => trivial
      | some pcb' => exact Blank.call h hc
    | output ticks alloc =>
      obtain ⟨⟨pcb', out⟩, ho, hs⟩ := bind_eq_ok.mp hs
      cases hs
      exact Blank.output h ho
    | slowtmr ticks e =>
      cases hs
      exact h
    | fasttmr ticks takesRefused out =>
      cases hs
      exact h
    | input ticks m cb out i =>
      cases hs
      exact h

/-- `tcp_alloc` gives a blank pcb. -/
theorem tcpAlloc_blank (o : Opts) (ticks : BitVec 32) (iss : Serial) :
    Blank o (tcpAlloc o ticks iss) := by
  constructor <;> rfl

/-- The pcb of a listener is in `SYN_RCVD`. -/
theorem tcpListenInput_opens {e : ListenEnv} {i : In} {pcb : TcpPcb} {sent : List Sent}
    (h : tcpListenInput o e i = .ok (some pcb, sent)) : Opens o pcb := by
  refine .of_ne ?_
  rw [(tcpListenInput_newReceiver h).state]
  decide

/-- Every event that meets the condition keeps it. -/
theorem poolStep_ok (hb : 0 < o.TCP_SND_BUF) (h : ∀ p ∈ pool, p.Ok o) (hfit : ConnectFits o pool ev)
    (hs : poolStep o pool ev = .ok pool') : ∀ p ∈ pool', p.Ok o := by
  have hset : ∀ {n : ℕ} {p : Place}, p.Ok o → ∀ q ∈ pool.set n p, q.Ok o := by
    intro n p hp q hq
    rcases List.mem_or_eq_of_mem_set hq with hq | rfl
    · exact h q hq
    · exact hp
  have hadd : ∀ {l : List Place}, (∀ p ∈ l, p.Ok o) → ∀ q ∈ pool ++ l, q.Ok o := by
    intro l hl q hq
    rcases List.mem_append.mp hq with hq | hq
    · exact h q hq
    · exact hl q hq
  cases ev with
  | new ticks iss =>
    cases hs
    refine hadd fun p hp => ?_
    rw [List.mem_singleton.mp hp]
    exact tcpAlloc_blank o ticks iss
  | bind n =>
    unfold poolStep at hs
    dsimp only at hs
    split at hs
    · next pcb hn =>
      cases hs
      have hpcb : (Place.closed _ pcb).Ok o := h _ (List.mem_of_getElem? hn)
      exact hset (show (Place.closed true pcb).Ok o from hpcb)
    · cases hs
      exact h
  | connect n e ipaddr =>
    unfold poolStep at hs
    dsimp only at hs
    split at hs
    · next p hn =>
      obtain ⟨⟨err, p'⟩, hat, hs⟩ := bind_eq_ok.mp hs
      cases hs
      have hp := h p (List.mem_of_getElem? hn)
      refine hset ?_
      cases p with
      | conn c =>
        cases hat
        exact hp
      | closed bound pcb =>
        cases ipaddr with
        | false =>
          cases hat
          exact hp
        | true =>
          have hclosed : pool[n]?.any Place.isClosed = true := by
            rw [hn]
            rfl
          obtain ⟨q, sent, hconn, hsent⟩ := Blank.connect hp hb (hfit hclosed rfl)
          rw [connectAt_closed, hconn] at hat
          cases hat
          exact fun _ => hsent
    · cases hs
      exact h
  | listen e i =>
    obtain ⟨⟨r, sent⟩, hr, hs⟩ := bind_eq_ok.mp hs
    cases hs
    refine hadd fun p hp => ?_
    cases r with
    | none => cases hp
    | some pcb =>
      rw [List.mem_singleton.mp hp]
      exact tcpListenInput_opens hr
  | abort n =>
    cases hs
    exact hset (show (Place.conn .gone).Ok o from trivial)
  | on n ev =>
    unfold poolStep at hs
    dsimp only at hs
    split at hs
    · next p hn =>
      obtain ⟨p', hp', hs⟩ := bind_eq_ok.mp hs
      cases hs
      exact hset ((h p (List.mem_of_getElem? hn)).step hp')
    · cases hs
      exact h

/-- A pcb that has sent its SYN lets `tcp_process` find it on `unacked`. -/
theorem SynSent.process {pcb : TcpPcb} (h : SynSent o pcb) (ticks : BitVec 32) (m : RxAlloc)
    (cb : Callbacks) (i : In) : tcpProcess o ticks m cb pcb i ≠ .error .unackedNull := by
  unfold tcpProcess
  rw [h.state]
  split
  · intro herr
    cases herr
  split
  · intro herr
    cases herr
  · change processSynSent m (processNote o ticks pcb i) i ≠ .error .unackedNull
    unfold processSynSent
    split
    · next hnil => exact absurd hnil h.unacked
    · split
      · intro herr
        unfold lwipAssert at herr
        split at herr <;> cases herr
      · intro herr
        cases herr

/-- Where all places are right no pcb is half open. -/
theorem noHalfOpen_of_ok (hb : 0 < o.TCP_SND_BUF) (h : ∀ p ∈ pool, p.Ok o) : NoHalfOpen o pool where
  queued pcb hmem hst := by
    have hopens : Opens o pcb := h _ hmem
    exact (hopens hst).queued
  process pcb hmem hst ticks m cb refused i := by
    have hopens : Opens o pcb := h _ hmem
    have hrefused : SynSent o { pcb with refused_data := refused } :=
      (hopens hst).sameSnd (by constructor <;> rfl) rfl id
    exact hrefused.process ticks m cb i
  connect bound pcb hmem e ipaddr hmss := Blank.connectRight_iff (h _ hmem) hb hmss

/-- In every run in which each SYN of a closed pcb is enqueued no pcb is ever half open. -/
theorem connect_leaves_no_half_open {o : Opts} (hb : 0 < o.TCP_SND_BUF) {es : List PoolEvent}
    (hfit : Along (poolStep o) (ConnectFits o) [] es) :
    Always (poolStep o) (NoHalfOpen o) [] es := by
  rintro es' es'' pool rfl hrun
  have hok : ∀ p ∈ pool, p.Ok o :=
    run_invariant (fun _ _ _ h hf hs => poolStep_ok hb h hf hs)
      (fun p hp => by cases hp) hfit.left hrun
  exact noHalfOpen_of_ok hb hok

end Pool

/-! ## Two runs -/

/-- The answer of the peer to the SYN. -/
def synAckIn (ackno : Serial) : In :=
  { seg := { seqno := 0, len := 0, flags := { syn := true, ack := true } }, ackno, wnd := 1000 }

/-- The SYN is sent, is sent once more by the timer, and is acknowledged. -/
def connectingRun : List PoolEvent :=
  [.new 1 0, .bind 0, .connect 0 { iss := 100 } true] ++ List.replicate 7 (.on 0 (.slowtmr 2 {})) ++
    [.on 0 (.input 9 {} {} true (synAckIn 100))]

/-- A run in which a connection is opened. -/
theorem connect_leaves_no_half_open_connectingRun :
    Always (poolStep .shipped) (NoHalfOpen .shipped) [] connectingRun :=
  connect_leaves_no_half_open (by decide) (by decide +kernel)

/-- There is no memory for the SYN. -/
def noMemory : ConnectEnv := { iss := 100, alloc := fun _ => false }

/-- The call returns an error and leaves the pcb in `SYN_SENT`, on the list of the active pcbs, with
nothing on its queues. The next SYN|ACK makes `tcp_process` follow the null pointer. -/
theorem half_open_connects :
    ¬ ConnectRight .shipped noMemory true false (tcpAlloc .shipped 1 0) ∧
      ∃ pool, run (poolStep .shipped) [] [.new 1 0, .connect 0 noMemory true] = .ok pool ∧
        ¬ NoHalfOpen .shipped pool ∧
        (∃ p, connectAt .shipped noMemory true (.closed false (tcpAlloc .shipped 1 0)) =
          .ok (some .MEM, p)) ∧
        poolStep .shipped pool (.on 0 (.input 1 {} {} true (synAckIn 100))) =
        .error .unackedNull := by
  refine ⟨?_, _, rfl, fun h => ?_, ⟨_, rfl⟩, rfl⟩
  · rintro ⟨err, p, hat, ⟨rfl, -⟩ | ⟨-, pcb', rfl, -⟩⟩
    · cases hat
    · cases hat
  · rcases h.queued _ List.mem_cons_self rfl with ⟨syn, hsyn, -⟩ | ⟨syn, hsyn, -⟩
    · cases hsyn
    · cases hsyn

end Lwip.Tcp
