import Lwip.Tcp.Untouched
import Lwip.Tcp.Open
import Lwip.Tcp.SendQueue

/-!
# Acknowledgements that are owed

A pcb owes an acknowledgement while `rcv_nxt` differs from the acknowledgement number of the last
segment it sent. `TF_ACK_DELAY` and `TF_ACK_NOW` are there to remember that. Every function that
clears them sends a segment, with one exception: `tcp_fasttmr` clears them after `tcp_ack_now`,
whether `tcp_output` sent something or not. It sends nothing if there is no memory for an empty
acknowledgement, and also if the first segment on `unsent` fits in the window, so that the
acknowledgement is left to that segment, and Nagle's algorithm then holds the segment back.
-/

namespace Lwip.Tcp

/-- One of the two flags is set. -/
def owesAck (pcb : TcpPcb) : Bool := pcb.flags.ack_delay || pcb.flags.ack_now

/-- The acknowledgement number of the last segment sent, which was `ackno` before `out`. -/
def lastAckno (ackno : Serial) (out : List Sent) :
    Serial := (out.getLast?.map Sent.ackno).getD ackno

/-- What is owed to the peer, which has seen `ackno`, is remembered. -/
def AckRemembered (ackno : Serial) (pcb : TcpPcb) : Prop := pcb.rcv_nxt = ackno ∨ owesAck pcb = true

instance (ackno : Serial) (pcb : TcpPcb) : Decidable (AckRemembered ackno pcb) :=
  inferInstanceAs (Decidable (_ ∨ _))

/-- The way from `a` to `b`, on which `out` is sent, forgets no acknowledgement. -/
def AckKept (a b : TcpPcb) (out : List Sent) : Prop :=
  ∀ ackno, AckRemembered ackno a → AckRemembered (lastAckno ackno out) b

section Kept

variable {a b c : TcpPcb} {out out' : List Sent}

/-- The last acknowledgement of two sequences is that of the second one, if it has one. -/
theorem lastAckno_append (ackno : Serial) (out out' : List Sent) :
    lastAckno ackno (out ++ out') = lastAckno (lastAckno ackno out) out' := by
  unfold lastAckno
  rcases List.eq_nil_or_concat out' with rfl | ⟨l, s, rfl⟩
  · simp
  · rw [List.concat_eq_append, ← List.append_assoc, List.getLast?_concat, List.getLast?_concat]
    rfl

/-- No acknowledgement is forgotten in two steps if none is in either. -/
theorem AckKept.trans (h : AckKept a b out) (h' : AckKept b c out') :
    AckKept a c (out ++ out') := by
  intro ackno ho
  rw [lastAckno_append]
  exact h' _ (h ackno ho)

/-- Nothing is sent, and a flag that was set stays set, perhaps in the other place. -/
theorem AckKept.of_silent (hrcv : b.rcv_nxt = a.rcv_nxt)
    (hkeep : owesAck a = true → owesAck b = true) : AckKept a b [] := by
  rintro ackno (ho | ho)
  · exact .inl (hrcv.trans ho)
  · exact .inr (hkeep ho)

/-- Nothing is forgotten where nothing happens. -/
theorem AckKept.refl (a : TcpPcb) : AckKept a a [] := .of_silent rfl id

/-- An acknowledgement is noted at the end. -/
theorem AckKept.of_owes (h : owesAck b = true) : AckKept a b out := fun _ _ => .inr h

/-- After a segment was sent nothing is owed. -/
theorem Stamped.answered (h : Stamped a b out) (hne : out ≠ []) (ackno : Serial) :
    b.rcv_nxt = lastAckno ackno out := by
  rcases List.eq_nil_or_concat out with rfl | ⟨l, s, rfl⟩
  · exact absurd rfl hne
  · rw [List.concat_eq_append] at h ⊢
    have hstamp : s.ackno = a.rcv_nxt := (h.stamp s (by simp)).1
    calc b.rcv_nxt = a.rcv_nxt := h.rcv_nxt
      _ = s.ackno := hstamp.symm
      _ = lastAckno ackno (l ++ [s]) := by unfold lastAckno; rw [List.getLast?_concat]; rfl

/-- Sending keeps what is owed if the flags stay when nothing is sent. -/
theorem Stamped.ackKept (h : Stamped a b out)
    (hkeep : out = [] → owesAck a = true → owesAck b = true) : AckKept a b out := by
  by_cases hne : out = []
  · subst hne
    exact .of_silent h.rcv_nxt (hkeep rfl)
  · exact fun ackno _ => .inl (h.answered hne ackno)

end Kept

/-! ## Sending and the calls -/

section Calls

variable {o : Opts} {ticks : BitVec 32} {input alloc : Bool} {pcb pcb' : TcpPcb} {out : List Sent}

/-- A loop of `tcp_output` that sends nothing changes nothing. -/
theorem tcpOutputLoop_silent {wnd : ℕ} {q : List Seg}
    (h : tcpOutputLoop ticks wnd q pcb out = .ok (pcb', out)) : pcb' = pcb := by
  unfold tcpOutputLoop at h
  split at h
  · cases h
    rfl
  · split at h
    · split at h
      · cases h
      split at h
      · cases h
        rfl
      · -- This round sends a segment, which stays.
        obtain ⟨new, hnew, -⟩ := tcpOutputLoop_stamped h
        rw [List.append_assoc] at hnew
        have hnil := List.self_eq_append_right.mp hnew
        cases hnil
    · cases h
      rfl

/-- An empty ACK pays what is owed, or it is still noted. -/
theorem tcpSendEmptyAck_ackKept (alloc : Bool) (pcb : TcpPcb) :
    AckKept pcb (tcpSendEmptyAck alloc pcb).1 (tcpSendEmptyAck alloc pcb).2 := by
  apply (tcpSendEmptyAck_stamped alloc pcb).ackKept
  unfold tcpSendEmptyAck
  split
  · intro hnil
    cases hnil
  · exact fun _ ho => ho

/-- An output that sends nothing leaves the debt as it is. -/
theorem tcpOutput_silent (h : tcpOutput ticks alloc pcb = .ok (pcb', [])) :
    owesAck pcb' = owesAck pcb := by
  unfold tcpOutput at h
  dsimp only at h
  split at h
  · have heq : tcpSendEmptyAck alloc pcb = (pcb', []) := Except.ok.inj h
    unfold tcpSendEmptyAck at heq
    split at heq
    · cases heq
    · cases heq
      rfl
  · obtain ⟨⟨p, out'⟩, hl, h⟩ := bind_eq_ok.mp h
    cases h
    have hp : p = pcb := tcpOutputLoop_silent hl
    rw [← hp]
    rfl

/-- `tcp_output` does not forget an acknowledgement. -/
theorem tcpOutput_ackKept (h : tcpOutput ticks alloc pcb = .ok (pcb', out)) :
    AckKept pcb pcb' out := by
  apply (tcpOutput_stamped h).ackKept
  rintro rfl ho
  rw [tcpOutput_silent h]
  exact ho

/-- The same with the test of the first lines. -/
theorem tcpOutputUnlessInput_ackKept
    (h : tcpOutputUnlessInput input ticks alloc pcb = .ok (pcb', out)) : AckKept pcb pcb' out := by
  exact tcpOutputUnlessInput_rule (P := fun p out => AckKept pcb p out) h (.refl _)
    tcpOutput_ackKept

/-- `tcp_ack_now` does not forget an acknowledgement. -/
theorem tcpAckNow_ackKept (h : tcpAckNow input ticks alloc pcb = .ok (pcb', out)) :
    AckKept pcb pcb' out := by
  have hnow : AckKept pcb { pcb with flags := { pcb.flags with ack_now := true } } [] := by
    apply AckKept.of_owes
    exact Bool.or_true _
  exact hnow.trans (tcpOutputUnlessInput_ackKept h)

/-- The announced window does not touch the debt. -/
theorem tcpUpdateRcvAnnWnd_ackKept (o : Opts) (pcb : TcpPcb) :
    AckKept pcb (tcpUpdateRcvAnnWnd o pcb).1 [] := by
  unfold tcpUpdateRcvAnnWnd
  dsimp only
  split
  · exact .of_silent rfl id
  · split <;> exact .of_silent rfl id

/-- `tcp_recved` does not forget an acknowledgement. -/
theorem tcpRecved_ackKept {len : ℕ} (h : tcpRecved o input ticks alloc pcb len = .ok (pcb', out)) :
    AckKept pcb pcb' out := by
  obtain ⟨w, h⟩ := tcpRecved_cases h
  have hwnd : AckKept pcb { pcb with rcv_wnd := w } [] := .of_silent rfl id
  have hann := hwnd.trans (tcpUpdateRcvAnnWnd_ackKept o _)
  obtain h | ⟨rfl, rfl⟩ := h
  · exact hann.trans (tcpAckNow_ackKept h)
  · exact hann

/-- `tcp_enqueue` does not forget an acknowledgement. -/
theorem tcpEnqueue_ackKept {allocs : ℕ → Bool} {arg : List UInt8} {flags : TcpFlags}
    {copy more optMss : Bool} {e : Err}
    (h : tcpEnqueue o allocs pcb arg flags copy more optMss = .ok (e, pcb')) :
    AckKept pcb pcb' [] := by
  rcases tcpEnqueue_cases h with ⟨-, rfl⟩ | ⟨-, -, q, qs, ql, unsent, ql', -, -, rfl⟩
  · exact .of_silent rfl id
  · exact .of_silent rfl id

/-- `tcp_write` does not forget an acknowledgement. -/
theorem tcpWrite_ackKept {allocs : ℕ → Bool} {data : List UInt8} {copy more : Bool} {e : Err}
    (h : tcpWrite o allocs pcb data copy more = .ok (e, pcb')) : AckKept pcb pcb' [] := by
  obtain ⟨-, rfl⟩ | ⟨-, ⟨-, -, rfl⟩ | ⟨-, h⟩⟩ := tcpWrite_cases h
  · exact .refl _
  · exact .refl _
  · exact tcpEnqueue_ackKept h

/-- `tcp_close` does not forget an acknowledgement. -/
theorem tcpClose_ackKept {allocs : ℕ → Bool} {e : Err}
    (h : tcpClose o input ticks allocs alloc pcb = .ok (e, some pcb', out)) :
    AckKept pcb pcb' out := by
  obtain ⟨-, rfl, rfl⟩ | ⟨next, q, -, hq, hend⟩ := tcpClose_cases h
  · exact .refl _
  have henq : AckKept pcb q [] := tcpEnqueue_ackKept hq
  obtain ⟨-, hout⟩ | ⟨-, rfl, rfl⟩ := hend
  · have hnext : AckKept q { q with state := next } [] := .of_silent rfl id
    exact (henq.trans hnext).trans (tcpOutputUnlessInput_ackKept hout)
  · exact henq

/-- No call of the application forgets an acknowledgement. -/
theorem appCall_ackKept {c : AppCall} (h : appCall o input ticks pcb c = .ok (some pcb', out)) :
    AckKept pcb pcb' out := by
  exact appCall_rule h tcpWrite_ackKept tcpRecved_ackKept tcpClose_ackKept

/-- The calls of a callback forget no acknowledgement. -/
theorem appCalls_ackKept {cs : List AppCall}
    (h : appCalls o input ticks pcb cs = .ok (some pcb', out)) : AckKept pcb pcb' out := by
  exact appCalls_rule (P := fun p out => AckKept pcb p out) h (.refl _)
    fun p q c out out' hp hc => hp.trans (appCall_ackKept hc)

/-- While a segment is processed, `tcp_output` sends nothing. -/
theorem tcpOutputUnlessInput_input
    (h : tcpOutputUnlessInput true ticks alloc pcb = .ok (pcb', out)) : out = [] := by
  cases h
  rfl

/-- A call from a callback sends nothing. -/
theorem appCall_input {c : AppCall} (h : appCall o true ticks pcb c = .ok (some pcb', out)) :
    out = [] := by
  refine appCall_rule (P := fun _ out => out = []) h (fun _ => rfl) (fun hr => ?_) fun hc => ?_
  · obtain ⟨w, hr | ⟨-, rfl⟩⟩ := tcpRecved_cases hr
    · exact tcpOutputUnlessInput_input hr
    · rfl
  · obtain ⟨-, -, rfl⟩ | ⟨next, q, -, -, ⟨-, hout⟩ | ⟨-, -, rfl⟩⟩ := tcpClose_cases hc
    · rfl
    · exact tcpOutputUnlessInput_input hout
    · rfl

/-- The calls from a callback send nothing. -/
theorem appCalls_input {cs : List AppCall}
    (h : appCalls o true ticks pcb cs = .ok (some pcb', out)) : out = [] := by
  refine appCalls_rule (P := fun _ out => out = []) h rfl fun p q c out out' hout hc => ?_
  rw [hout, appCall_input hc]
  rfl

end Calls

/-! ## A segment -/

section Input

variable {o : Opts} {ticks : BitVec 32} {m : RxAlloc} {cb : Callbacks} {pcb pcb' : TcpPcb} {i : In}
  {rx : Rx} {sent : List Sent} {out : Bool} {conn : Conn}

/-- An acknowledgement received changes neither `rcv_nxt` nor the two flags. -/
theorem tcpReceiveAck_ackKept {p : TcpPcb} (h : tcpReceiveAck ticks pcb i = .ok p) :
    AckKept pcb p [] := by
  apply AckKept.of_silent (tcpReceiveAck_sameRcv h).rcv_nxt
  intro ho
  have hupd : owesAck (updateSndWnd pcb i) = true := by
    unfold updateSndWnd
    split <;> exact ho
  have hrexmit : ∀ q : TcpPcb, owesAck (tcpRexmitFast q) = owesAck q := by
    intro q
    unfold tcpRexmitFast tcpRexmit
    split
    · split <;> rfl
    · rfl
  unfold tcpReceiveAck at h
  obtain ⟨p₁, h₁, h⟩ := bind_eq_ok.mp h
  obtain ⟨p₂, h₂, h⟩ := bind_eq_ok.mp h
  cases h
  have hp₁ : owesAck p₁ = true := by
    unfold tcpReceiveAckno at h₁
    split at h₁
    · cases h₁
      unfold tcpReceiveOldAck tcpReceiveDupAck
      split
      · split
        · exact hupd
        · split
          · exact (hrexmit _).trans hupd
          · exact hupd
      · exact hupd
    split at h₁
    · unfold tcpReceiveNewAck at h₁
      obtain ⟨cwnd, -, h₁⟩ := bind_eq_ok.mp h₁
      obtain ⟨⟨q, ql, a⟩, -, h₁⟩ := bind_eq_ok.mp h₁
      cases h₁
      exact hupd
    · cases h₁
      exact hupd
  have hp₂ : owesAck p₂ = true := by
    unfold tcpReceiveUnsent at h₂
    obtain ⟨⟨q, ql, a⟩, -, h₂⟩ := bind_eq_ok.mp h₂
    cases h₂
    exact hp₁
  unfold estimateRtt
  split <;> exact hp₂

/-- `tcp_ack` sets one of the flags. -/
theorem tcpAck_owes (pcb : TcpPcb) : owesAck (tcpAck pcb) = true := by
  unfold tcpAck owesAck
  dsimp only
  split
  · rfl
  · rfl

/-- After `tcp_ack_now` an acknowledgement is noted. -/
theorem tcpAckNowInput_owes (pcb : TcpPcb) : owesAck (tcpAckNowInput pcb) = true := Bool.or_true _

/-- Data in sequence end in `tcp_ack`; other data are answered at once. -/
theorem tcpReceiveWindow_ackKept {s : Seg} (h : tcpReceiveWindow o m pcb s = .ok rx) :
    AckKept pcb rx.pcb rx.sent := by
  unfold tcpReceiveWindow at h
  dsimp only at h
  have hack := tcpSendEmptyAck_ackKept m.ack pcb
  split at h
  · split at h
    · unfold tcpReceiveInSeq at h
      obtain ⟨⟨s₁, n₁⟩, -, h⟩ := bind_eq_ok.mp h
      obtain ⟨⟨s₂, n₂, q⟩, -, h⟩ := bind_eq_ok.mp h
      obtain ⟨_, -, h⟩ := bind_eq_ok.mp h
      obtain ⟨rx', -, h⟩ := bind_eq_ok.mp h
      cases h
      exact .of_owes (tcpAck_owes _)
    · cases h
      exact hack
  · cases h
    exact hack

/-- `tcp_receive` does not forget an acknowledgement. -/
theorem tcpReceive_ackKept (h : tcpReceive o ticks m pcb i = .ok rx) :
    AckKept pcb rx.pcb rx.sent := by
  obtain ⟨p, hp, h⟩ := tcpReceive_eq_ok h
  have hfirst : AckKept pcb p [] := by
    rcases hp with ⟨-, hp⟩ | ⟨-, rfl⟩
    · exact tcpReceiveAck_ackKept hp
    · exact .refl _
  have hnow : AckKept p (tcpAckNowInput p) [] := .of_owes (tcpAckNowInput_owes p)
  have hdata : AckKept p rx.pcb rx.sent := by
    unfold tcpReceiveData at h
    split at h
    · split at h
      · obtain ⟨s, -, h⟩ := bind_eq_ok.mp h
        exact tcpReceiveWindow_ackKept h
      · split at h
        · exact hnow.trans (tcpReceiveWindow_ackKept h)
        · exact tcpReceiveWindow_ackKept h
    · cases h
      dsimp only
      split
      · exact .refl _
      · exact hnow
  exact hfirst.trans hdata

/-- A purge does not forget an acknowledgement. -/
theorem tcpPcbPurge_ackKept (pcb : TcpPcb) : AckKept pcb (tcpPcbPurge pcb) [] := by
  unfold tcpPcbPurge
  split
  · exact .refl _
  · exact .refl _
  · exact .refl _
  · exact .of_silent rfl id

/-- The states after `tcp_receive` send nothing. -/
theorem processReceived_sent (rx : Rx) (i : In) (st : TcpState) :
    (processReceived rx i st).sent = rx.sent := by
  unfold processReceived
  split
  · rfl
  · rfl
  · split <;> (split <;> rfl)
  · split <;> rfl
  · split <;> rfl
  · rfl
  · rfl

/-- The states behind `tcp_receive` do not forget an acknowledgement. -/
theorem processReceived_ackKept {st : TcpState} (hp : (processReceived rx i st).pcb = some pcb') :
    AckKept rx.pcb pcb' [] := by
  refine processReceived_rule (P := fun p => AckKept rx.pcb p []) hp (.refl _)
    (fun _ => .of_owes (tcpAckNowInput_owes rx.pcb)) (.of_silent rfl id) fun q hq => ?_
  have hstate : AckKept (tcpPcbPurge q) { tcpPcbPurge q with state := .TIME_WAIT } [] :=
    .of_silent rfl id
  have hack : AckKept rx.pcb (tcpAckNowInput rx.pcb) [] := .of_owes (tcpAckNowInput_owes rx.pcb)
  have hpurge := (tcpPcbPurge_ackKept q).trans hstate
  rcases hq with rfl | rfl
  · exact hpurge
  · exact hack.trans hpurge

/-- A RST either resets the connection or changes nothing. -/
theorem processRst_cases (pcb : TcpPcb) (i : In) :
    (processRst pcb i).reset = true ∨ processRst pcb i = { pcb := some pcb } := by
  unfold processRst
  dsimp only
  split <;> split
  · exact .inl rfl
  · exact .inr rfl
  · exact .inl rfl
  · exact .inr rfl

/-- `tcp_process` forgets no acknowledgement, unless the pcb is about to be freed. -/
theorem tcpProcess_ackKept {pr : Proc} (h : tcpProcess o ticks m cb pcb i = .ok pr)
    (hp : pr.pcb = some pcb') (hreset : pr.reset = false) : AckKept pcb pcb' pr.sent := by
  have hnote : AckKept pcb (processNote o ticks pcb i) [] := .of_silent rfl id
  unfold tcpProcess at h
  split at h
  · cases h
    rcases processRst_cases pcb i with hr | hsame
    · rw [hr] at hreset
      cases hreset
    · rw [hsame] at hp ⊢
      cases hp
      exact .refl _
  split at h
  · cases h
    cases hp
    exact .of_owes (tcpAckNowInput_owes pcb)
  split at h
  · -- SYN_SENT: a connection that is established owes the acknowledgement of the SYN.
    unfold processSynSent at h
    split at h
    · split at h
      · cases h
      · cases h
        cases hp
        exact hnote
    · split at h
      · obtain ⟨_, -, h⟩ := bind_eq_ok.mp h
        cases h
        cases hp
        exact .of_owes (tcpAckNowInput_owes _)
      · cases h
        cases hp
        exact hnote
  · -- SYN_RCVD
    unfold processSynRcvd at h
    split at h
    · split at h
      · obtain ⟨⟨acc, out⟩, hacc, h⟩ := bind_eq_ok.mp h
        cases acc with
        | none =>
          cases h
          cases hp
        | some q =>
          dsimp only at h
          split at h
          · cases h
            cases hp
          · obtain ⟨rx, hrx, h⟩ := bind_eq_ok.mp h
            cases h
            -- The calls of the callback send nothing, since the segment is being processed.
            have hst : AckKept (processNote o ticks pcb i)
                { processNote o ticks pcb i with state := .ESTABLISHED } [] := .of_silent rfl id
            have hcalls := appCalls_ackKept hacc
            rw [appCalls_input hacc] at hcalls
            have hrx' := ((hnote.trans hst).trans hcalls).trans (tcpReceive_ackKept hrx)
            have hend : AckKept rx.pcb pcb' [] := by
              cases hp
              split
              · exact .of_owes (tcpAckNowInput_owes _)
              · exact .of_silent rfl id
            have hall := hrx'.trans hend
            rwa [List.nil_append, List.append_nil] at hall
      · cases h
        cases hp
        exact hnote
    · split at h
      · cases h
        cases hp
        have hrexmit : AckKept (processNote o ticks pcb i)
            (tcpRexmit (processNote o ticks pcb i)) [] := by
          unfold tcpRexmit
          split
          · exact .refl _
          · exact .of_silent rfl id
        exact hnote.trans hrexmit
      · cases h
        cases hp
        exact hnote
  · cases h
    cases hp
    exact hnote
  · cases h
    cases hp
    exact hnote
  · cases h
    cases hp
    exact hnote
  · obtain ⟨rx, hrx, h⟩ := bind_eq_ok.mp h
    cases h
    have hkept := processReceived_ackKept hp
    rw [processReceived_sent]
    have hrx' := (hnote.trans (tcpReceive_ackKept hrx)).trans hkept
    rwa [List.nil_append, List.append_nil] at hrx'

/-- `tcp_input` does not forget an acknowledgement. -/
theorem tcpInput_ackKept (h : tcpInput o ticks m cb out pcb i = .ok (conn, sent)) :
    ∀ p, conn = .active p ∨ conn = .timeWait p → AckKept pcb p sent := by
  intro p hconn
  unfold tcpInput at h
  split at h
  · cases h
    rcases hconn with hconn | hconn
    · cases hconn
      exact .refl _
    · cases hconn
  obtain ⟨pr, hpr, h⟩ := bind_eq_ok.mp h
  split at h
  · cases h
    rcases hconn with hconn | hconn <;> cases hconn
  next q hq =>
  split at h
  · obtain ⟨r, -, h⟩ := bind_eq_ok.mp h
    cases h
    rcases hconn with hconn | hconn <;> cases hconn
  next hreset =>
  rw [Bool.or_eq_true, not_or] at hreset
  have hoff : AckKept pcb { pcb with refused_data := none } [] := .of_silent rfl id
  have hproc : AckKept pcb q pr.sent :=
    hoff.trans (tcpProcess_ackKept hpr hq (Bool.eq_false_of_not_eq_true hreset.1))
  unfold tcpInputFinish at h
  obtain ⟨⟨r, out₁⟩, happ, h⟩ := bind_eq_ok.mp h
  cases r with
  | none =>
    cases h
    rcases hconn with hconn | hconn <;> cases hconn
  | some r =>
    obtain ⟨⟨r', out₂⟩, hout, h⟩ := bind_eq_ok.mp h
    cases h
    have hkeep : AckKept r (keepRefused cb pr r) [] := .of_silent rfl id
    have hend := hkeep.trans (tcpOutput_ackKept hout)
    have hall := (hproc.trans (appCalls_ackKept happ)).trans hend
    have hp : r' = p := by
      rcases hconn with hconn | hconn
      · split at hconn <;> cases hconn
        rfl
      · split at hconn <;> cases hconn
        rfl
    rwa [hp] at hall

/-- A segment in `TIME_WAIT` is acknowledged, or this is noted. -/
theorem tcpTimewaitInput_ackKept (h : tcpTimewaitInput ticks out pcb i = .ok (pcb', sent)) :
    AckKept pcb pcb' sent := by
  refine tcpTimewaitInput_rule (P := fun p out => AckKept pcb p out) h
    (fun _ => .of_silent rfl id) fun {n p _} ho => ?_
  have hnow : AckKept pcb { pcb with tmr := n, flags := { pcb.flags with ack_now := true } } [] :=
    .of_owes (Bool.or_true _)
  exact hnow.trans (tcpOutput_ackKept ho)

end Input

/-! ## The timers -/

section Timers

variable {o : Opts} {ticks : BitVec 32} {pcb pcb' : TcpPcb} {sent : List Sent} {out : Bool}
  {conn : Conn} {e : TickEnv}

/-- A keepalive does not forget an acknowledgement. -/
theorem tcpKeepalive_ackKept (alloc : Bool) (pcb : TcpPcb) :
    AckKept pcb (tcpKeepalive alloc pcb).1 (tcpKeepalive alloc pcb).2 := by
  apply (tcpKeepalive_stamped alloc pcb).ackKept
  unfold tcpKeepalive
  split
  · exact fun _ ho => ho
  · exact fun _ ho => ho

/-- A zero window probe does not forget an acknowledgement. -/
theorem tcpZeroWindowProbe_ackKept (alloc : Bool) (pcb : TcpPcb) :
    AckKept pcb (tcpZeroWindowProbe alloc pcb).1 (tcpZeroWindowProbe alloc pcb).2 := by
  apply (tcpZeroWindowProbe_stamped alloc pcb).ackKept
  unfold tcpZeroWindowProbe
  split
  · exact fun _ ho => ho
  · split
    · exact fun _ ho => ho
    · exact fun _ ho => ho

/-- A retransmission does not forget an acknowledgement. -/
theorem slowtmrRexmit_ackKept (h : slowtmrRexmit o ticks e pcb = .ok (pcb', sent)) :
    AckKept pcb pcb' sent := by
  unfold slowtmrRexmit at h
  split at h
  · cases h
    exact .refl _
  split at h
  · have heq : slowtmrPersist e pcb = (pcb', sent) := Except.ok.inj h
    have hpersist : AckKept pcb (slowtmrPersist e pcb).1 (slowtmrPersist e pcb).2 := by
      have hcnt : ∀ n k, AckKept pcb { pcb with persist_cnt := n, persist_backoff := k } [] :=
        fun _ _ => .of_silent rfl id
      unfold slowtmrPersist
      dsimp only
      split
      · exact (hcnt 0 _).trans (tcpZeroWindowProbe_ackKept _ _)
      · exact hcnt _ _
    rwa [heq] at hpersist
  · dsimp only at h
    generalize (if pcb.rtime ≥ 0 then s16 (pcb.rtime + 1) else pcb.rtime) = rtime at h
    split at h
    · unfold slowtmrRto tcpRexmitRto at h
      split at h
      · cases h
      dsimp only at h
      split at h
      · cases h
        exact .of_silent rfl id
      · -- The segments are moved before they are sent.
        intro ackno ho
        apply tcpOutput_ackKept h ackno
        exact ho
    · cases h
      exact .of_silent rfl id

/-- A slow tick does not forget an acknowledgement. -/
theorem tcpSlowtmr_ackKept (h : tcpSlowtmr o ticks e pcb = .ok (.active pcb', sent)) :
    AckKept pcb pcb' sent := by
  refine (tcpSlowtmr_rule (P := fun p out => AckKept pcb p out) h (fun p out₁ hr _ n => ?_)
    (fun p q _ _ hp happ => hp.trans (appCalls_ackKept happ))
    fun p q _ _ hp hout => hp.trans (tcpOutput_ackKept hout)).elim nofun ?_
  · have hka : AckKept p (slowtmrKeepalive ticks e p).1 (slowtmrKeepalive ticks e p).2 := by
      unfold slowtmrKeepalive
      split
      · have hcnt : AckKept (tcpKeepalive e.keepalive p).1 { (tcpKeepalive e.keepalive p).1 with
            keep_cnt_sent := (p.keep_cnt_sent + 1) % 2^8 } [] := .of_silent rfl id
        have hboth := (tcpKeepalive_ackKept e.keepalive p).trans hcnt
        rwa [List.append_nil] at hboth
      · exact .refl _
    have hoo : AckKept (slowtmrKeepalive ticks e p).1
        { slowtmrOoseq ticks (slowtmrKeepalive ticks e p).1 with polltmr := n } [] :=
      .of_silent rfl id
    have hbefore := ((slowtmrRexmit_ackKept hr).trans hka).trans hoo
    rwa [List.append_nil] at hbefore
  · rintro ⟨q, hq, hkept⟩
    cases hq
    exact hkept

/-- A tick takes no pcb to `TIME_WAIT`. -/
theorem tcpSlowtmr_ne_timeWait : tcpSlowtmr o ticks e pcb ≠ .ok (.timeWait pcb', sent) := by
  intro h
  obtain hgone | ⟨q, hq, -⟩ := tcpSlowtmr_rule (P := fun _ _ => True) h
    (fun _ _ _ _ _ => trivial) (fun _ _ _ _ _ _ => trivial) fun _ _ _ _ _ _ => trivial
  · cases hgone
  · cases hq

/-- The first segment on `unsent` fits in the window, and Nagle's algorithm lets it go. -/
def firstGoes (pcb : TcpPcb) : Bool :=
  !noDataFits pcb (min pcb.snd_wnd pcb.cwnd) &&
    (tcpDoOutputNagle pcb || pcb.flags.naglememerr || pcb.flags.fin)

/-- `tcp_ack_now` sends a segment: an empty one if no data fit and there is memory for it, else the
first one on `unsent` if it may go. -/
def ackGoesOut (out : Bool) (pcb : TcpPcb) : Bool :=
  firstGoes pcb || (noDataFits pcb (min pcb.snd_wnd pcb.cwnd) && out)

/-- If it can, it does. -/
theorem tcpOutput_sends (hnow : pcb.flags.ack_now = true) (hgo : ackGoesOut out pcb = true)
    (h : tcpOutput ticks out pcb = .ok (pcb', sent)) : sent ≠ [] := by
  rintro rfl
  unfold tcpOutput at h
  dsimp only at h
  rw [hnow, Bool.true_and] at h
  unfold ackGoesOut firstGoes at hgo
  split at h
  · next hno =>
    rw [hno] at hgo
    have hout : out = true := by simpa using hgo
    rw [hout] at h
    cases h
  · next hfit =>
    rw [Bool.eq_false_of_not_eq_true hfit] at hgo
    obtain ⟨⟨p, out'⟩, hl, h⟩ := bind_eq_ok.mp h
    cases h
    unfold noDataFits at hfit
    generalize pcb.unsent = q at hl hfit
    cases q with
    | nil => exact hfit rfl
    | cons seg rest =>
      -- The loop sends the first segment.
      have hneeds : needs pcb seg ≤ min pcb.snd_wnd pcb.cwnd :=
        not_lt.mp fun hgt => hfit (decide_eq_true hgt)
      unfold tcpOutputLoop at hl
      rw [if_pos hneeds] at hl
      split at hl
      · cases hl
      split at hl
      · next hstop =>
        simp only [Bool.and_eq_true, Bool.not_eq_true', Bool.or_eq_false_iff] at hstop
        obtain ⟨hn, hmem, hfin⟩ := hstop
        rw [hn, hmem, hfin] at hgo
        cases hgo
      · obtain ⟨new, hnew, -⟩ := tcpOutputLoop_stamped hl
        simp at hnew

/-- `tcp_fasttmr` forgets no acknowledgement if the one that it forces goes out, or nothing is
owed. -/
theorem tcpFasttmr_remembers {takesRefused : Bool} {ackno : Serial}
    (hgo : pcb.flags.ack_delay = true → pcb.rcv_nxt ≠ ackno → ackGoesOut out pcb = true)
    (ho : AckRemembered ackno pcb) (h : tcpFasttmr ticks takesRefused out pcb = .ok (pcb', sent)) :
    AckRemembered (lastAckno ackno sent) pcb' := by
  unfold tcpFasttmr at h
  dsimp only at h
  split at h
  · next hdelay =>
    obtain ⟨⟨p, out'⟩, hack, h⟩ := bind_eq_ok.mp h
    cases h
    have hst := tcpAckNow_stamped hack
    have hrcv : p.rcv_nxt = pcb.rcv_nxt := hst.rcv_nxt
    -- The flags are cleared, so that only a segment sent answers for the acknowledgement.
    by_cases hsent : out' = []
    · rw [hsent]
      by_cases heq : pcb.rcv_nxt = ackno
      · exact .inl (hrcv.trans heq)
      · have hsends : out' ≠ [] := by
          apply tcpOutput_sends ?_ ?_ hack
          · rfl
          · exact hgo hdelay heq
        exact absurd hsent hsends
    · exact .inl (hst.answered hsent ackno)
  · cases h
    exact ho

end Timers

/-! ## Every run -/

/-- A connection, and the acknowledgement number of the last segment that its pcb sent. -/
structure AckState where
  conn : Conn
  ackno : Serial

/-- One event, with the segments that it sends. -/
def connSend (o : Opts) : Conn → ConnEvent → Except Abort (Conn × List Sent)
  | .active pcb, .call ticks c => do
    let r ← appCall o false ticks pcb c
    .ok (r.1.elim .gone .active, r.2)
  | .active pcb, .output ticks alloc => do
    let r ← tcpOutput ticks alloc pcb
    .ok (.active r.1, r.2)
  | .active pcb, .slowtmr ticks e => tcpSlowtmr o ticks e pcb
  | .active pcb, .fasttmr ticks takesRefused out => do
    let r ← tcpFasttmr ticks takesRefused out pcb
    .ok (.active r.1, r.2)
  | .active pcb, .input ticks m cb out i => tcpInput o ticks m cb out pcb i
  | .timeWait pcb, .input ticks _ _ out i => do
    let r ← tcpTimewaitInput ticks out pcb i
    .ok (.timeWait r.1, r.2)
  | .timeWait pcb, .slowtmr ticks _ => .ok (tcpSlowtmrTimeWait ticks pcb, [])
  | c, _ => .ok (c, [])

/-- The connection goes through the same states as without the segments. -/
theorem connSend_fst (o : Opts) (c : Conn) (ev : ConnEvent) :
    (connSend o c ev).map Prod.fst = connStep o c ev := by
  cases c with
  | gone => cases ev <;> rfl
  | timeWait pcb =>
    cases ev with
    | input ticks m cb out i =>
      unfold connSend connStep
      dsimp only
      cases tcpTimewaitInput ticks out pcb i <;> rfl
    | call ticks c => rfl
    | output ticks alloc => rfl
    | slowtmr ticks e => rfl
    | fasttmr ticks takesRefused out => rfl
  | active pcb =>
    cases ev with
    | call ticks c =>
      unfold connSend connStep
      dsimp only
      cases appCall o false ticks pcb c <;> rfl
    | output ticks alloc =>
      unfold connSend connStep
      dsimp only
      cases tcpOutput ticks alloc pcb <;> rfl
    | slowtmr ticks e =>
      unfold connSend connStep
      dsimp only
      cases tcpSlowtmr o ticks e pcb <;> rfl
    | fasttmr ticks takesRefused out =>
      unfold connSend connStep
      dsimp only
      cases tcpFasttmr ticks takesRefused out pcb <;> rfl
    | input ticks m cb out i =>
      unfold connSend connStep
      dsimp only
      cases tcpInput o ticks m cb out pcb i <;> rfl

/-- One event, and the number that the peer has seen last. -/
def ackStep (o : Opts) (s : AckState) (ev : ConnEvent) : Except Abort AckState := do
  let r ← connSend o s.conn ev
  .ok { conn := r.1, ackno := lastAckno s.ackno r.2 }

/-- What is owed is remembered, as long as there is a pcb. -/
def AckState.Remembers (s : AckState) : Prop :=
  match s.conn with
  | .active pcb | .timeWait pcb => AckRemembered s.ackno pcb
  | .gone => True

/-- When the fast timer forces an acknowledgement that is owed, it goes out. -/
def ForcedAckGoesOut (s : AckState) : ConnEvent → Prop
  | .fasttmr _ _ out => match s.conn with
    | .active pcb => pcb.flags.ack_delay = true → pcb.rcv_nxt ≠ s.ackno → ackGoesOut out pcb = true
    | _ => True
  | _ => True

/-- Every event keeps what is owed. -/
theorem AckState.Remembers.step {o : Opts} {s s' : AckState} {ev : ConnEvent} (h : s.Remembers)
    (hC : ForcedAckGoesOut s ev) (hs : ackStep o s ev = .ok s') : s'.Remembers := by
  obtain ⟨⟨c, sent⟩, hsend, hs⟩ := bind_eq_ok.mp hs
  cases hs
  obtain ⟨conn, ackno⟩ := s
  cases conn with
  | gone => cases ev <;> (cases hsend; trivial)
  | timeWait pcb =>
    cases ev with
    | input ticks m cb out i =>
      obtain ⟨⟨p, out'⟩, ht, hsend⟩ := bind_eq_ok.mp hsend
      cases hsend
      exact tcpTimewaitInput_ackKept ht ackno h
    | slowtmr ticks e =>
      cases hsend
      unfold tcpSlowtmrTimeWait
      split
      · trivial
      · exact h
    | call ticks c => cases hsend; exact h
    | output ticks alloc => cases hsend; exact h
    | fasttmr ticks takesRefused out => cases hsend; exact h
  | active pcb =>
    cases ev with
    | call ticks c =>
      obtain ⟨⟨r, out⟩, hcall, hsend⟩ := bind_eq_ok.mp hsend
      cases r with
      | none => cases hsend; trivial
      | some p => cases hsend; exact appCall_ackKept hcall ackno h
    | output ticks alloc =>
      obtain ⟨⟨p, out⟩, hout, hsend⟩ := bind_eq_ok.mp hsend
      cases hsend
      exact tcpOutput_ackKept hout ackno h
    | slowtmr ticks e =>
      have ht : tcpSlowtmr o ticks e pcb = .ok (c, sent) := hsend
      cases c with
      | gone => trivial
      | active p => exact tcpSlowtmr_ackKept ht ackno h
      | timeWait p => exact absurd ht tcpSlowtmr_ne_timeWait
    | fasttmr ticks takesRefused out =>
      obtain ⟨⟨p, out'⟩, ht, hsend⟩ := bind_eq_ok.mp hsend
      cases hsend
      exact tcpFasttmr_remembers hC h ht
    | input ticks m cb out i =>
      have ht : tcpInput o ticks m cb out pcb i = .ok (c, sent) := hsend
      cases c with
      | gone => trivial
      | active p => exact tcpInput_ackKept ht p (.inl rfl) ackno h
      | timeWait p => exact tcpInput_ackKept ht p (.inr rfl) ackno h

/-- No acknowledgement is forgotten in any run in which those that the fast timer forces go out. -/
theorem acks_remembered (o : Opts) {s : AckState} {es : List ConnEvent} (h0 : s.Remembers)
    (hC : Along (ackStep o) ForcedAckGoesOut s es) :
    Always (ackStep o) AckState.Remembers s es := by
  intro es' es'' s' hsplit hr
  rw [hsplit] at hC
  exact run_invariant (fun _ _ _ h hC hs => h.step hC hs) h0 hC.left hr

instance : DecidablePred AckState.Remembers := fun s =>
  match h : s.conn with
  | .active pcb => decidable_of_iff (AckRemembered s.ackno pcb)
      (by unfold AckState.Remembers; rw [h])
  | .timeWait pcb => decidable_of_iff (AckRemembered s.ackno pcb)
      (by unfold AckState.Remembers; rw [h])
  | .gone => .isTrue (by unfold AckState.Remembers; rw [h]; trivial)

instance (s : AckState) : (ev : ConnEvent) → Decidable (ForcedAckGoesOut s ev)
  | .fasttmr _ _ out => match h : s.conn with
    | .active pcb => decidable_of_iff
        (pcb.flags.ack_delay = true → pcb.rcv_nxt ≠ s.ackno → ackGoesOut out pcb = true)
        (by unfold ForcedAckGoesOut; rw [h])
    | .timeWait _ | .gone => .isTrue (by unfold ForcedAckGoesOut; rw [h]; trivial)
  | .call _ _ | .output _ _ | .slowtmr _ _ | .input _ _ _ _ _ => .isTrue trivial

/-- A connection that owes nothing. -/
def answered (o : Opts) : AckState := ⟨.active (.established o 0 0 2000), 1⟩

/-- Ten bytes in sequence. -/
def tenBytes : ConnEvent :=
  .input 1 {} {} true
    { seg := { seqno := 1, len := 10, p := List.replicate 10 0 }, ackno := 1, wnd := 2000 }

/-- The fast timer sends the acknowledgement of ten bytes. -/
theorem acks_remembered_tenBytes :
    Always (ackStep .shipped) AckState.Remembers (answered .shipped)
    [tenBytes, .fasttmr 1 true true] :=
  acks_remembered .shipped (by decide) (by decide +kernel)

/-- Without memory for it, or with a small segment that Nagle's algorithm holds back, it forgets the
acknowledgement. -/
theorem fasttmr_forgets :
    ¬Always (ackStep .shipped) AckState.Remembers (answered .shipped)
        [tenBytes, .fasttmr 1 true false] ∧
      ¬Always (ackStep .sane) AckState.Remembers (answered .sane)
        [writes 100, .output 1 true, writes 100, tenBytes, .fasttmr 1 true true] := by
  constructor
  · decide +kernel
  · decide +kernel

end Lwip.Tcp
