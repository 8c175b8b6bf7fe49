import Lwip.Tcp.AckOwed
import Lwip.Tcp.Content

/-!
# What a step accepts

The bytes that `tcp_write` accepts in a step of a connection, wherever it is called: by the
application, from the callbacks of a segment, or from the `poll` callback of the slow timer. A step
puts just these bytes behind the stream that the queues carry (`connStep_takes`), and hands to IP
only segments that are on the queues before or after it, or the first byte of one
(`connSend_onQueue`).
-/

namespace Lwip.Tcp

/-- What `tcp_write` accepts in a call of the application. -/
def callAccepts (o : Opts) (pcb : TcpPcb) : AppCall → List UInt8
  | .write alloc data copy more =>
    match tcpWrite o alloc pcb data copy more with
    | .ok (.OK, _) => data
    | _ => []
  | .recved _ _ | .close _ _ => []

/-- What it accepts in the calls of a callback. -/
def callsAccept (o : Opts) (input : Bool) (ticks : BitVec 32) : TcpPcb → List AppCall → List UInt8
  | _, [] => []
  | pcb, c :: cs =>
    callAccepts o pcb c ++
      match appCall o input ticks pcb c with
      | .ok (some pcb, _) => callsAccept o input ticks pcb cs
      | _ => []

/-- What it accepts in the callbacks of `tcp_input`, once the connection is established. -/
def inputAccepts (o : Opts) (ticks : BitVec 32) (m : RxAlloc) (cb : Callbacks) (pcb : TcpPcb)
    (i : In) : List UInt8 :=
  if decide (pcb.refused_data ≠ none) && !cb.takesRefused then []
  else
    match tcpProcess o ticks m cb { pcb with refused_data := none } i with
    | .ok pr =>
      match pr.pcb with
      | some pcb => if pr.reset || pr.closed then [] else callsAccept o true ticks pcb cb.calls
      | none => []
    | .error _ => []

/-- What it accepts in the poll of the slow timer. -/
def pollAccepts (o : Opts) (ticks : BitVec 32) (e : TickEnv) (pcb : TcpPcb) : List UInt8 :=
  if (pcb.polltmr + 1) % 2^8 ≥ pcb.pollinterval then
    callsAccept o false ticks { pcb with polltmr := 0 } e.poll
  else []

/-- What it accepts in a tick of the slow timer. -/
def tickAccepts (o : Opts) (ticks : BitVec 32) (e : TickEnv) (pcb : TcpPcb) : List UInt8 :=
  match slowtmrRexmit o ticks e pcb with
  | .ok rex =>
    let pcb' := slowtmrOoseq ticks (slowtmrKeepalive ticks e rex.1).1
    if slowtmrRemoves o ticks pcb pcb' then [] else pollAccepts o ticks e pcb'
  | .error _ => []

/-- What it accepts in a step of a connection. -/
def connAccepts (o : Opts) : Conn → ConnEvent → List UInt8
  | .active pcb, .call _ c => callAccepts o pcb c
  | .active pcb, .slowtmr ticks e => tickAccepts o ticks e pcb
  | .active pcb, .input ticks m cb _ i => inputAccepts o ticks m cb pcb i
  | _, _ => []

/-! ## The stream of a step -/

/-- From `a` to `b` the bytes `d` are put behind the stream `S`, unless the FIN is on the queues. -/
structure Takes (r₀ : Serial) (S d : List UInt8) (a b : TcpPcb) : Prop where
  content : Content (S ++ d) r₀ b
  isOpen : d ≠ [] → a.flags.fin = false
  fin : a.flags.fin = true → b.flags.fin = true

/-- The sender is at work, or the connection is in `TIME_WAIT`. -/
def Sending (pcb : TcpPcb) : Prop := Snd (fun _ => True) pcb ∨ pcb.state = .TIME_WAIT

section Takes

variable {r₀ : Serial} {S d d' : List UInt8} {a b c pcb pcb' : TcpPcb} {o : Opts}
  {ticks : BitVec 32} {input : Bool} {out : List Sent} {m : RxAlloc} {cb : Callbacks} {i : In}

/-- Segments that are only moved accept nothing. -/
theorem Requeued.takes (h : Requeued a b) (ha : Content S r₀ a) : Takes r₀ S [] a b :=
  ⟨by rw [List.append_nil]; exact ha.requeued h, fun hd => absurd rfl hd, fun hf => h.fin.trans hf⟩

/-- What two steps accept is accepted one after the other. -/
theorem Takes.trans (h : Takes r₀ S d a b) (h' : Takes r₀ (S ++ d) d' b c) :
    Takes r₀ S (d ++ d') a c where
  content := by
    rw [← List.append_assoc]
    exact h'.content
  isOpen hd := by
    by_contra hf
    have hfin : a.flags.fin = true := Bool.eq_true_of_not_eq_false hf
    -- Once the FIN is enqueued nothing is accepted.
    have hnil : d = [] := by_contra fun hne => hf (h.isOpen hne)
    have hnil' : d' = [] := by
      refine by_contra fun hne => ?_
      have hb := h'.isOpen hne
      rw [h.fin hfin] at hb
      cases hb
    exact hd (by rw [hnil, hnil']; rfl)
  fin hf := h'.fin (h.fin hf)

/-- Fields that the sender does not read may change before and after. -/
theorem Takes.requeued (h : Takes r₀ S d a b) (hbc : Requeued b c) : Takes r₀ S d a c := by
  have h' := h.trans (hbc.takes h.content)
  rwa [List.append_nil] at h'

/-- A move of segments before a step does not change what it accepts. -/
theorem Requeued.takes_trans (hab : Requeued a b) (ha : Content S r₀ a) (h : Takes r₀ S d b c) :
    Takes r₀ S d a c := by
  refine (hab.takes ha).trans ?_
  rwa [List.append_nil]

/-- The sender goes on when the queues move. -/
theorem Sending.follows (h : Sending a) (hab : Follows a b) : Sending b := by
  rcases h with h | h
  · exact .inl (hab.snd true_stable h)
  · exact .inr (hab.timeWait h)

/-- A connection that sends is established at least. -/
theorem Sending.live (h : Sending a) : a.state.geEstablished = true := by
  rcases h with ⟨base, t, ht, -⟩ | h
  · exact ht.live
  · rw [h]
    rfl

/-- While the application may close the connection no FIN is enqueued. -/
theorem Sending.writable (h : Sending a) (hst : a.state = .ESTABLISHED ∨ a.state = .CLOSE_WAIT) :
    a.flags.fin = false := by
  rcases h with ⟨base, t, ht, -⟩ | h
  · exact ht.writable hst
  · rw [h] at hst
    rcases hst with hst | hst <;> cases hst

/-- `tcp_write` puts what it accepts behind the stream. -/
theorem tcpWrite_takes {alloc : ℕ → Bool} {copy more : Bool} {e : Err} (h : Content S r₀ pcb)
    (hs : Sending pcb) (hS : (S ++ if e = .OK then d else []).length < 2^31)
    (hw : tcpWrite o alloc pcb d copy more = .ok (e, pcb')) :
    Takes r₀ S (if e = .OK then d else []) pcb pcb' := by
  refine ⟨h.write hs hS hw, fun hd => ?_, fun hf => ?_⟩
  · refine hs.writable ?_
    obtain ⟨rfl, -⟩ | ⟨hst | hst | hst | hst, -⟩ := tcpWrite_cases hw
    · exact absurd rfl hd
    · exact .inl hst
    · exact .inr hst
    · have hlive := hs.live
      rw [hst] at hlive
      cases hlive
    · have hlive := hs.live
      rw [hst] at hlive
      cases hlive
  · obtain ⟨-, rfl⟩ | ⟨-, ⟨-, -, rfl⟩ | ⟨-, hw⟩⟩ := tcpWrite_cases hw
    · exact hf
    · exact hf
    -- `tcp_enqueue` only sets the flag.
    · rcases tcpEnqueue_cases hw with ⟨-, rfl⟩ | ⟨-, -, q, qs, ql, unsent, ql', -, -, rfl⟩
      · exact hf
      · show (pcb.flags.fin || false) = true
        rw [hf]
        rfl

/-- `tcp_close` puts the FIN behind the stream. -/
theorem tcpClose_takes {allocs : ℕ → Bool} {ack : Bool} {e : Err} (h : Content S r₀ pcb)
    (hs : Sending pcb) (hS : S.length < 2^31)
    (hc : tcpClose o input ticks allocs ack pcb = .ok (e, some pcb', out)) :
    Takes r₀ S [] pcb pcb' := by
  obtain ⟨-, rfl, -⟩ | ⟨next, p, hnext, hr, hend⟩ := tcpClose_cases hc
  · exact (Requeued.refl pcb').takes h
  have hfin : pcb.flags.fin = false := by
    rcases hnext with ⟨hst | hst, -⟩ | ⟨hst, -⟩
    · have hlive := hs.live
      rw [hst] at hlive
      cases hlive
    · exact hs.writable (.inl hst)
    · exact hs.writable (.inr hst)
  have hp : Content S r₀ p := h.fin hfin hS hr
  have hstay : ∀ {q : TcpPcb}, Content S r₀ q → Takes r₀ S [] pcb q := by
    intro q hq
    refine ⟨by rw [List.append_nil]; exact hq, fun hd => absurd rfl hd, fun hf => ?_⟩
    rw [hfin] at hf
    cases hf
  obtain ⟨-, ho⟩ | ⟨-, rfl, -⟩ := hend
  · have hset : Requeued p { p with state := next } := .of_subset (List.Subset.refl _) rfl rfl
    exact hstay (hp.requeued (hset.trans (tcpOutputUnlessInput_requeued ho)))
  · exact hstay hp

/-- A call accepts the data of its `tcp_write`, and no others. -/
theorem appCall_takes {c : AppCall} (h : Content S r₀ pcb) (hs : Sending pcb)
    (hS : (S ++ callAccepts o pcb c).length < 2^31)
    (hc : appCall o input ticks pcb c = .ok (some pcb', out)) :
    Takes r₀ S (callAccepts o pcb c) pcb pcb' := by
  cases c with
  | write allocs data copy more =>
    obtain ⟨⟨e, p⟩, hw, hc⟩ := bind_eq_ok.mp hc
    cases hc
    have hacc : callAccepts o pcb (.write allocs data copy more) = if e = .OK then data
        else [] := by
      rw [callAccepts, hw]
      cases e <;> rfl
    rw [hacc] at hS ⊢
    exact tcpWrite_takes h hs hS hw
  | recved alloc len =>
    obtain ⟨⟨p, out'⟩, hr, hc⟩ := bind_eq_ok.mp hc
    cases hc
    exact (tcpRecved_requeued hr).takes h
  | close allocs ack =>
    obtain ⟨⟨e, p⟩, hc, hr⟩ := bind_eq_ok.mp hc
    cases hr
    have hS' : S.length < 2^31 := by
      rw [List.length_append] at hS
      omega
    exact tcpClose_takes h hs hS' hc

/-- A live connection is not freed by a call. -/
theorem appCall_ne_none {c : AppCall} (hs : Sending pcb)
    (hc : appCall o input ticks pcb c = .ok (none, out)) : False := by
  have hlive := hs.live
  cases c with
  | write allocs data copy more =>
    obtain ⟨⟨e, p⟩, -, hc⟩ := bind_eq_ok.mp hc
    cases hc
  | recved alloc len =>
    obtain ⟨⟨p, out'⟩, -, hc⟩ := bind_eq_ok.mp hc
    cases hc
  | close allocs ack =>
    obtain ⟨⟨e, p⟩, hc, hr⟩ := bind_eq_ok.mp hc
    cases hr
    have hwith : ∀ {next : TcpState} {e : Err},
        tcpCloseWith o input ticks allocs ack next pcb ≠ .ok (e, none, out) := by
      intro next e h
      unfold tcpCloseWith at h
      obtain ⟨⟨e', p⟩, -, h⟩ := bind_eq_ok.mp h
      dsimp only at h
      split at h
      · obtain ⟨⟨p', out'⟩, -, h⟩ := bind_eq_ok.mp h
        cases h
      · cases h
    unfold tcpClose at hc
    split at hc
    · next hst =>
      rw [hst] at hlive
      cases hlive
    · next hst =>
      rw [hst] at hlive
      cases hlive
    · next hst =>
      rw [hst] at hlive
      cases hlive
    · exact hwith hc
    · exact hwith hc
    · exact hwith hc
    · cases hc

/-- A sequence of calls accepts the data of its calls in their order. -/
theorem appCalls_takes {cs : List AppCall} (h : Content S r₀ pcb) (hs : Sending pcb)
    (hS : (S ++ callsAccept o input ticks pcb cs).length < 2^31)
    (hc : appCalls o input ticks pcb cs = .ok (some pcb', out)) :
    Takes r₀ S (callsAccept o input ticks pcb cs) pcb pcb' := by
  induction cs generalizing pcb out S with
  | nil =>
    cases hc
    exact (Requeued.refl _).takes h
  | cons c cs ih =>
    unfold appCalls at hc
    obtain ⟨⟨p, out₁⟩, hcall, hc⟩ := bind_eq_ok.mp hc
    cases p with
    | none => exact (appCall_ne_none hs hcall).elim
    | some p =>
      obtain ⟨⟨q, out₂⟩, hcs, hc⟩ := bind_eq_ok.mp hc
      cases hc
      have hacc : callsAccept o input ticks pcb (c :: cs) =
          callAccepts o pcb c ++ callsAccept o input ticks p cs := by
        rw [callsAccept, hcall]
      rw [hacc, ← List.append_assoc] at hS
      rw [hacc]
      have hfirst : Takes r₀ S (callAccepts o pcb c) pcb p := by
        refine appCall_takes h hs ?_ hcall
        rw [List.length_append] at hS
        omega
      exact hfirst.trans (ih hfirst.content (hs.follows (appCall_follows hcall)) hS hcs)

/-- The calls of a callback do not free the pcb of a connection that sends. -/
theorem appCalls_ne_none {cs : List AppCall} (hs : Sending pcb)
    (hc : appCalls o input ticks pcb cs = .ok (none, out)) : False := by
  induction cs generalizing pcb out with
  | nil => cases hc
  | cons c cs ih =>
    unfold appCalls at hc
    obtain ⟨⟨p, out₁⟩, hcall, hc⟩ := bind_eq_ok.mp hc
    cases p with
    | none => exact appCall_ne_none hs hcall
    | some p =>
      obtain ⟨⟨q, out₂⟩, hcs, hc⟩ := bind_eq_ok.mp hc
      cases hc
      exact ih (hs.follows (appCall_follows hcall)) hcs

/-! ## The segments and the timers -/

/-- `tcp_process` on a live connection enqueues nothing. -/
theorem tcpProcess_requeued {pr : Proc} {p : TcpPcb} (hs : Sending pcb)
    (hr : tcpProcess o ticks m cb pcb i = .ok pr) (hp : pr.pcb = some p) : Requeued pcb p := by
  have hlive := hs.live
  have hnote : Requeued pcb (processNote o ticks pcb i) := .of_subset (List.Subset.refl _) rfl rfl
  unfold tcpProcess at hr
  split at hr
  · cases hr
    unfold processRst at hp
    dsimp only at hp
    split at hp
    all_goals
      split at hp
      · cases hp
        exact .of_subset (List.Subset.refl _) rfl rfl
      · cases hp
        exact .refl _
  split at hr
  · cases hr
    cases hp
    exact (tcpAckNowInput_sameSnd pcb).requeued
  split at hr
  · next hsyn =>
    rw [hsyn] at hlive
    cases hlive
  · next hsyn =>
    rw [hsyn] at hlive
    cases hlive
  · cases hr
    cases hp
    exact hnote
  · cases hr
    cases hp
    exact hnote
  · cases hr
    cases hp
    exact hnote
  · obtain ⟨rx, hrx, hr⟩ := bind_eq_ok.mp hr
    cases hr
    refine hnote.trans ((tcpReceive_requeued hrx).trans ?_)
    have hack := (tcpAckNowInput_sameSnd rx.pcb).requeued
    refine processReceived_rule (P := fun p => Requeued rx.pcb p) hp (.refl _)
      (fun _ => .of_subset (List.Subset.refl _) rfl rfl) (.of_subset (List.Subset.refl _) rfl rfl)
      fun q hq => ?_
    have hpurge : Requeued q { tcpPcbPurge q with state := .TIME_WAIT } :=
      (tcpPcbPurge_requeued q).trans (.of_subset (List.Subset.refl _) rfl rfl)
    rcases hq with rfl | rfl
    · exact hpurge
    · exact hack.trans hpurge

/-- What a step makes of the stream: the connection goes on with what was accepted behind it, or is
gone with nothing accepted. -/
def Conn.Takes (r₀ : Serial) (S d : List UInt8) (a : TcpPcb) : Conn → Prop
  | .active b | .timeWait b => Lwip.Tcp.Takes r₀ S d a b
  | .gone => d = []

/-- The end of `tcp_input`. -/
theorem tcpInputFinish_takes {pr : Proc} {alloc : Bool} {conn : Conn} (h : Content S r₀ pcb)
    (hs : Sending pcb) (hS : (S ++ callsAccept o true ticks pcb cb.calls).length < 2^31)
    (hf : tcpInputFinish o ticks cb alloc pr pcb = .ok (conn, out)) :
    conn.Takes r₀ S (callsAccept o true ticks pcb cb.calls) pcb := by
  unfold tcpInputFinish at hf
  obtain ⟨⟨p, out₁⟩, happ, hf⟩ := bind_eq_ok.mp hf
  cases p with
  | none => exact (appCalls_ne_none hs happ).elim
  | some p =>
    obtain ⟨⟨q, out₂⟩, ho, hf⟩ := bind_eq_ok.mp hf
    cases hf
    have hkeep : Requeued p (keepRefused cb pr p) := .of_subset (List.Subset.refl _) rfl rfl
    have hq : Takes r₀ S (callsAccept o true ticks pcb cb.calls) pcb q :=
      (appCalls_takes h hs hS happ).requeued (hkeep.trans (tcpOutput_requeued ho))
    dsimp only
    split <;> exact hq

/-- What `tcp_input` accepts comes from the calls of its callbacks. -/
theorem tcpInput_takes {alloc : Bool} {conn : Conn} (h : Content S r₀ pcb)
    (hs : Snd (fun _ => True) pcb) (hS : (S ++ inputAccepts o ticks m cb pcb i).length < 2^31)
    (hi : tcpInput o ticks m cb alloc pcb i = .ok (conn, out)) :
    conn.Takes r₀ S (inputAccepts o ticks m cb pcb i) pcb := by
  have href : SameSnd pcb { pcb with refused_data := none } :=
    ⟨rfl, rfl, rfl, rfl, rfl, rfl, rfl, rfl, rfl, rfl, rfl⟩
  have hs' : Snd (fun _ => True) { pcb with refused_data := none } :=
    href.follows.snd true_stable hs
  unfold inputAccepts at hS ⊢
  unfold tcpInput at hi
  split at hi
  · next hrefused =>
    cases hi
    rw [if_pos hrefused]
    exact (Requeued.refl pcb).takes h
  · next hrefused =>
    rw [if_neg hrefused] at hS ⊢
    obtain ⟨pr, hpr, hi⟩ := bind_eq_ok.mp hi
    rw [hpr] at hS ⊢
    dsimp only at hS ⊢
    split at hi
    · next hnone =>
      cases hi
      rw [hnone]
      rfl
    · next p hp =>
      rw [hp] at hS ⊢
      dsimp only at hS ⊢
      have hpr' : Requeued pcb p := href.requeued.trans (tcpProcess_requeued (.inl hs') hpr hp)
      have hsp : Sending p :=
        tcpProcess_snd true_stable hs' (fun _ _ _ _ _ _ _ _ _ => trivial) hpr hp
      split at hi
      · next hend =>
        obtain ⟨r, -, hi⟩ := bind_eq_ok.mp hi
        cases hi
        rw [if_pos hend]
        rfl
      · next hend =>
        rw [if_neg hend] at hS ⊢
        have hfin := tcpInputFinish_takes (h.requeued hpr') hsp hS hi
        cases conn with
        | active b => exact hpr'.takes_trans h hfin
        | timeWait b => exact hpr'.takes_trans h hfin
        | gone => exact hfin

/-- What the `poll` callback accepts comes from its calls. -/
theorem slowtmrPoll_takes {e : TickEnv} {conn : Conn} (h : Content S r₀ pcb) (hs : Sending pcb)
    (hS : (S ++ pollAccepts o ticks e pcb).length < 2^31)
    (hp : slowtmrPoll o ticks e pcb = .ok (conn, out)) :
    conn.Takes r₀ S (pollAccepts o ticks e pcb) pcb := by
  have hpoll : ∀ n, SameSnd pcb { pcb with polltmr := n } := fun n =>
    ⟨rfl, rfl, rfl, rfl, rfl, rfl, rfl, rfl, rfl, rfl, rfl⟩
  unfold pollAccepts at hS ⊢
  unfold slowtmrPoll at hp
  dsimp only at hp
  split at hp
  · next hdue =>
    rw [if_pos hdue] at hS ⊢
    obtain ⟨⟨p, out₁⟩, happ, hp⟩ := bind_eq_ok.mp hp
    cases p with
    | none => exact (appCalls_ne_none (hs.follows (hpoll 0).follows) happ).elim
    | some p =>
      have hcalls : Takes r₀ S (callsAccept o false ticks { pcb with polltmr := 0 } e.poll) pcb p :=
        (hpoll 0).requeued.takes_trans h
          (appCalls_takes (h.requeued (hpoll 0).requeued) (hs.follows (hpoll 0).follows) hS happ)
      dsimp only at hp
      split at hp
      · obtain ⟨⟨q, out₂⟩, ho, hp⟩ := bind_eq_ok.mp hp
        cases hp
        exact hcalls.requeued (tcpOutput_requeued ho)
      · cases hp
        exact hcalls
  · next hdue =>
    rw [if_neg hdue]
    cases hp
    exact (hpoll _).requeued.takes h

/-- What a slow tick accepts comes from the `poll` callback. -/
theorem tcpSlowtmr_takes {e : TickEnv} {conn : Conn} (h : Content S r₀ pcb)
    (hs : Snd (fun _ => True) pcb) (hS : (S ++ tickAccepts o ticks e pcb).length < 2^31)
    (ht : tcpSlowtmr o ticks e pcb = .ok (conn, out)) :
    conn.Takes r₀ S (tickAccepts o ticks e pcb) pcb := by
  unfold tickAccepts at hS ⊢
  unfold tcpSlowtmr at ht
  obtain ⟨⟨p, out₁⟩, hr, ht⟩ := bind_eq_ok.mp ht
  rw [hr] at hS ⊢
  dsimp only at hS ht ⊢
  have hka := slowtmrKeepalive_sameSnd ticks e p
  have hoo := slowtmrOoseq_sameSnd ticks (slowtmrKeepalive ticks e p).1
  split at ht
  · next hrem =>
    cases ht
    rw [if_pos hrem]
    rfl
  · next hrem =>
    rw [if_neg hrem] at hS ⊢
    obtain ⟨⟨c, out₂⟩, hpoll, ht⟩ := bind_eq_ok.mp ht
    cases ht
    have hp : Requeued pcb (slowtmrOoseq ticks (slowtmrKeepalive ticks e p).1) :=
      (slowtmrRexmit_requeued hr).trans (hka.trans hoo).requeued
    have hsp : Snd (fun _ => True) p :=
      slowtmrRexmit_snd true_stable hs (fun _ _ _ _ _ => trivial) hr
    have hgo := slowtmrPoll_takes (h.requeued hp)
      (.inl ((hka.trans hoo).follows.snd true_stable hsp)) hS hpoll
    cases c with
    | active b => exact hp.takes_trans h hgo
    | timeWait b => exact hp.takes_trans h hgo
    | gone => exact hgo

/-- A fast tick only moves segments. -/
theorem tcpFasttmr_requeued {takesRefused alloc : Bool}
    (h : tcpFasttmr ticks takesRefused alloc pcb = .ok (pcb', out)) : Requeued pcb pcb' := by
  have href : Requeued pcb { pcb with
      refused_data := if takesRefused then none else pcb.refused_data } :=
    .of_subset (List.Subset.refl _) rfl rfl
  exact tcpFasttmr_rule (P := fun p _ => Requeued pcb p) h href fun hack =>
    href.trans ((tcpAckNow_requeued hack).trans (.of_subset (List.Subset.refl _) rfl rfl))

/-- The queues of a connection carry the stream `S`. -/
def Conn.Content (S : List UInt8) (r₀ : Serial) : Conn → Prop
  | .active pcb | .timeWait pcb => Lwip.Tcp.Content S r₀ pcb
  | .gone => True

/-- A FIN is enqueued, or the connection has come to its end. -/
def Conn.finQueued : Conn → Prop
  | .active pcb => pcb.flags.fin = true
  | .timeWait _ | .gone => True

/-- Every event puts what it accepts behind the stream. Nothing is accepted any more once a FIN is
enqueued. -/
theorem connStep_takes {conn conn' : Conn} {ev : ConnEvent} (h : conn.Content S r₀)
    (hs : conn.Snd (fun _ => True)) (hS : (S ++ connAccepts o conn ev).length < 2^31)
    (hstep : connStep o conn ev = .ok conn') :
    conn'.Content (S ++ connAccepts o conn ev) r₀ ∧
      (conn.finQueued → connAccepts o conn ev = [] ∧ conn'.finQueued) := by
  -- The result for a pcb on the list of active pcbs.
  have hactive : ∀ {pcb : TcpPcb} {d : List UInt8} {c : Conn}, c.Takes r₀ S d pcb →
      c.Content (S ++ d) r₀ ∧ (pcb.flags.fin = true → d = [] ∧ c.finQueued) := by
    intro pcb d c ht
    have hnil : ∀ {b}, Lwip.Tcp.Takes r₀ S d pcb b → pcb.flags.fin = true → d = [] := by
      intro b htb hf
      refine by_contra fun hne => ?_
      have hopen := htb.isOpen hne
      rw [hf] at hopen
      cases hopen
    cases c with
    | active b => exact ⟨ht.content, fun hf => ⟨hnil ht hf, ht.fin hf⟩⟩
    | timeWait b => exact ⟨ht.content, fun hf => ⟨hnil ht hf, trivial⟩⟩
    | gone => exact ⟨trivial, fun _ => ⟨ht, trivial⟩⟩
  cases conn with
  | gone =>
    cases ev <;>
    · cases hstep
      exact ⟨trivial, fun _ => ⟨rfl, trivial⟩⟩
  | timeWait pcb =>
    have hsame : ∀ {b}, Requeued pcb b → (Conn.timeWait b).Content (S ++ []) r₀ := by
      intro b hb
      rw [List.append_nil]
      exact Content.requeued h hb
    cases ev with
    | input ticks m cb alloc i =>
      obtain ⟨⟨p, out⟩, hin, hstep⟩ := bind_eq_ok.mp hstep
      cases hstep
      refine ⟨hsame ?_, fun _ => ⟨rfl, trivial⟩⟩
      refine tcpTimewaitInput_rule (P := fun p _ => Requeued pcb p) hin
        (fun _ => .of_subset (List.Subset.refl _) rfl rfl) fun {n p _} ho => ?_
      have hnow : Requeued pcb { pcb with
          tmr := n, flags := { pcb.flags with ack_now := true } } :=
        .of_subset (List.Subset.refl _) rfl rfl
      exact hnow.trans (tcpOutput_requeued ho)
    | slowtmr ticks e =>
      cases hstep
      unfold tcpSlowtmrTimeWait
      split
      · exact ⟨trivial, fun _ => ⟨rfl, trivial⟩⟩
      · exact ⟨hsame (.refl _), fun _ => ⟨rfl, trivial⟩⟩
    | call ticks c =>
      cases hstep
      exact ⟨hsame (.refl _), fun _ => ⟨rfl, trivial⟩⟩
    | output ticks alloc =>
      cases hstep
      exact ⟨hsame (.refl _), fun _ => ⟨rfl, trivial⟩⟩
    | fasttmr ticks takesRefused out =>
      cases hstep
      exact ⟨hsame (.refl _), fun _ => ⟨rfl, trivial⟩⟩
  | active pcb =>
    cases ev with
    | call ticks c =>
      obtain ⟨⟨p, out⟩, hc, hstep⟩ := bind_eq_ok.mp hstep
      cases hstep
      cases p with
      | none => exact (appCall_ne_none (.inl hs) hc).elim
      | some p => exact hactive (c := .active p) (appCall_takes h (.inl hs) hS hc)
    | output ticks alloc =>
      obtain ⟨⟨p, out⟩, ho, hstep⟩ := bind_eq_ok.mp hstep
      cases hstep
      exact hactive (c := .active p) ((tcpOutput_requeued ho).takes h)
    | slowtmr ticks e =>
      obtain ⟨⟨c', out⟩, ht, hstep⟩ := bind_eq_ok.mp hstep
      cases hstep
      exact hactive (tcpSlowtmr_takes h hs hS ht)
    | fasttmr ticks takesRefused out =>
      obtain ⟨⟨p, out'⟩, ht, hstep⟩ := bind_eq_ok.mp hstep
      cases hstep
      exact hactive (c := .active p) ((tcpFasttmr_requeued ht).takes h)
    | input ticks m cb alloc i =>
      obtain ⟨⟨c', out⟩, hin, hstep⟩ := bind_eq_ok.mp hstep
      cases hstep
      exact hactive (tcpInput_takes h hs hS hin)

end Takes

/-! ## The segments that are handed to IP -/

/-- A segment that was handed to IP occupies no sequence numbers, or those of a queued segment, or
the first of them. -/
def OnQueue (q : List Seg) (r : Sent) : Prop :=
  r.tcplen = 0 ∨ ∃ s ∈ q, s.seqno = r.seqno ∧ (s.tcplen = r.tcplen ∨ r.tcplen = 1 ∧ 0 < s.tcplen)

section OnQueue

variable {o : Opts} {ticks : BitVec 32} {input alloc : Bool} {pcb pcb' : TcpPcb}
  {out out' : List Sent}
  {q q' : List Seg} {r : Sent} {m : RxAlloc} {cb : Callbacks} {i : In} {conn : Conn}

/-- What is on a queue is on one that has all of its keys. -/
theorem OnQueue.mono (h : OnQueue q r) (hq : ∀ s ∈ q, ∃ x ∈ q', x.key = s.key) : OnQueue q' r := by
  rcases h with h | ⟨s, hs, hseq, hlen⟩
  · exact .inl h
  · obtain ⟨x, hx, hk⟩ := hq s hs
    simp only [Seg.key, Prod.mk.injEq] at hk
    obtain ⟨hxseq, -, -, hxlen, -⟩ := hk
    exact .inr ⟨x, hx, hxseq.trans hseq, by rw [hxlen]; exact hlen⟩

/-- What is on a queue is on every larger one. -/
theorem OnQueue.subset (h : OnQueue q r) (hq : q ⊆ q') : OnQueue q' r :=
  h.mono fun s hs => ⟨s, hq hs, rfl⟩

/-- What `tcp_output` sends stays on `unacked`. -/
theorem tcpOutputLoop_onQueue {wnd : ℕ} (h : tcpOutputLoop ticks wnd q pcb out = .ok (pcb', out'))
    (hout : ∀ r ∈ out, OnQueue pcb.unacked r) :
    pcb.unacked ⊆ pcb'.unacked ∧ ∀ r ∈ out', OnQueue pcb'.unacked r := by
  obtain ⟨-, hp⟩ := tcpOutputLoop_rule
    (P := fun _ p out => pcb.unacked ⊆ p.unacked ∧ ∀ r ∈ out, OnQueue p.unacked r) h
    ⟨List.Subset.refl _, hout⟩ fun seg rest p out hp _ => by
      obtain ⟨hsub, hout⟩ := hp
      set sent : Seg := { seg with flags := { seg.flags with
        ack := seg.flags.ack || !decide (p.state = .SYN_SENT) } } with hsent
      have hun : (tcpOutputOne ticks p seg rest).1.unacked =
        if sent.tcplen > 0 then unackedInsert p.unacked sent else p.unacked := rfl
      have hgrow : p.unacked ⊆ (tcpOutputOne ticks p seg rest).1.unacked := by
        rw [hun]
        split
        · exact fun s hs => (unackedInsert_perm _ _).mem_iff.mpr (List.mem_cons_of_mem _ hs)
        · exact List.Subset.refl _
      have hone : OnQueue (tcpOutputOne ticks p seg rest).1.unacked
          (tcpOutputOne ticks p seg rest).2 := by
        rcases Nat.eq_zero_or_pos sent.tcplen with hz | hpos
        · exact .inl hz
        · rw [hun, if_pos hpos]
          exact .inr ⟨sent, (unackedInsert_perm _ _).mem_iff.mpr List.mem_cons_self, rfl, .inl rfl⟩
      refine ⟨List.Subset.trans hsub hgrow, fun r hr => ?_⟩
      rcases List.mem_append.mp hr with hr | hr
      · exact (hout r hr).subset hgrow
      · rw [List.mem_singleton.mp hr]
        exact hone
  exact hp

/-- `tcp_output` takes no segment off `unacked`, and sends only what it puts there. -/
theorem tcpOutput_onQueue (h : tcpOutput ticks alloc pcb = .ok (pcb', out)) :
    pcb.unacked ⊆ pcb'.unacked ∧ ∀ r ∈ out, OnQueue pcb'.unacked r := by
  unfold tcpOutput at h
  dsimp only at h
  split at h
  · have hs := tcpSendEmptyAck_sameSnd alloc pcb
    have hzero : ∀ r ∈ (tcpSendEmptyAck alloc pcb).2, r.tcplen = 0 := by
      unfold tcpSendEmptyAck
      split
      · intro r hr
        rw [List.mem_singleton.mp hr]
        rfl
      · exact fun r hr => absurd hr List.not_mem_nil
    rw [Except.ok.inj h] at hs hzero
    exact ⟨by rw [hs.unacked]; exact List.Subset.refl _, fun r hr => .inl (hzero r hr)⟩
  · obtain ⟨⟨p, out'⟩, hl, h⟩ := bind_eq_ok.mp h
    cases h
    have hloop := tcpOutputLoop_onQueue hl fun r hr => absurd hr List.not_mem_nil
    exact hloop

/-- The same with the test of the first lines. -/
theorem tcpOutputUnlessInput_onQueue
    (h : tcpOutputUnlessInput input ticks alloc pcb = .ok (pcb', out)) :
    pcb.unacked ⊆ pcb'.unacked ∧ ∀ r ∈ out, OnQueue pcb'.unacked r := by
  exact tcpOutputUnlessInput_rule
    (P := fun p out => pcb.unacked ⊆ p.unacked ∧ ∀ r ∈ out, OnQueue p.unacked r) h
    ⟨List.Subset.refl _, fun r hr => absurd hr List.not_mem_nil⟩ tcpOutput_onQueue

/-- `tcp_recved` sends only what is on `unacked` then. -/
theorem tcpRecved_onQueue {len : ℕ} (h : tcpRecved o input ticks alloc pcb len = .ok (pcb', out)) :
    pcb.unacked ⊆ pcb'.unacked ∧ ∀ r ∈ out, OnQueue pcb'.unacked r := by
  obtain ⟨w, h⟩ := tcpRecved_cases h
  have hs := (tcpUpdateRcvAnnWnd_sameSnd o { pcb with rcv_wnd := w }).unacked
  obtain h | ⟨rfl, rfl⟩ := h
  · have hout := tcpOutputUnlessInput_onQueue h
    refine ⟨fun s hm => hout.1 ?_, hout.2⟩
    show s ∈ (tcpUpdateRcvAnnWnd o { pcb with rcv_wnd := w }).1.unacked
    rw [hs]
    exact hm
  · exact ⟨by rw [hs]; exact List.Subset.refl _, fun r hr => absurd hr List.not_mem_nil⟩

/-- `tcp_enqueue` leaves `unacked` alone. -/
theorem tcpEnqueue_unacked {allocs : ℕ → Bool} {arg : List UInt8} {flags : TcpFlags}
    {copy more optMss : Bool} {e : Err}
    (h : tcpEnqueue o allocs pcb arg flags copy more optMss = .ok (e, pcb')) :
    pcb'.unacked = pcb.unacked := by
  rcases tcpEnqueue_cases h with ⟨-, rfl⟩ | ⟨-, -, q, qs, ql, unsent, ql', -, -, rfl⟩ <;> rfl

/-- A call sends only what is on `unacked` then. -/
theorem appCall_onQueue {c : AppCall} (h : appCall o input ticks pcb c = .ok (some pcb', out)) :
    pcb.unacked ⊆ pcb'.unacked ∧ ∀ r ∈ out, OnQueue pcb'.unacked r := by
  have hstay : ∀ {p : TcpPcb}, p.unacked = pcb.unacked →
      pcb.unacked ⊆ p.unacked ∧ ∀ r ∈ ([] : List Sent), OnQueue p.unacked r := fun hp =>
    ⟨by rw [hp]; exact List.Subset.refl _, fun r hr => absurd hr List.not_mem_nil⟩
  refine appCall_rule
    (P := fun p out => pcb.unacked ⊆ p.unacked ∧ ∀ r ∈ out, OnQueue p.unacked r) h
    (fun hw => hstay ?_) tcpRecved_onQueue fun hc => ?_
  · obtain ⟨-, rfl⟩ | ⟨-, ⟨-, -, rfl⟩ | ⟨-, hw⟩⟩ := tcpWrite_cases hw
    · rfl
    · rfl
    · exact tcpEnqueue_unacked hw
  obtain ⟨-, rfl, rfl⟩ | ⟨next, p, -, hr, hend⟩ := tcpClose_cases hc
  · exact hstay rfl
  have hp := tcpEnqueue_unacked hr
  obtain ⟨-, ho⟩ | ⟨-, rfl, rfl⟩ := hend
  · have hout := tcpOutputUnlessInput_onQueue ho
    exact ⟨fun s hm => hout.1 (show s ∈ p.unacked by rw [hp]; exact hm), hout.2⟩
  · exact hstay hp

/-- A sequence of calls sends only what is on `unacked` then. -/
theorem appCalls_onQueue {cs : List AppCall}
    (h : appCalls o input ticks pcb cs = .ok (some pcb', out)) :
    pcb.unacked ⊆ pcb'.unacked ∧ ∀ r ∈ out, OnQueue pcb'.unacked r := by
  refine appCalls_rule
    (P := fun p out => pcb.unacked ⊆ p.unacked ∧ ∀ r ∈ out, OnQueue p.unacked r) h
    ⟨List.Subset.refl _, fun r hr => absurd hr List.not_mem_nil⟩ fun p q c out out' hp hc => ?_
  obtain ⟨hsub, hout⟩ := hp
  obtain ⟨hsub', hout'⟩ := appCall_onQueue hc
  refine ⟨List.Subset.trans hsub hsub', fun r hr => ?_⟩
  rcases List.mem_append.mp hr with hr | hr
  · exact (hout r hr).subset hsub'
  · exact hout' r hr

/-- Every queued segment occupies sequence numbers. -/
theorem Snd.tcplen_pos {s : Seg} (h : Snd (fun _ => True) pcb)
    (hs : s ∈ pcb.unacked ++ pcb.unsent) : 0 < s.tcplen := by
  obtain ⟨base, t, ht, -⟩ := h
  obtain ⟨x, hx, hsx⟩ := forall₂_mem_left (List.rel_append ht.unacked ht.unsent) hs
  have hpos := ht.weak.bounds hx
  rw [hsx.tcplen]
  unfold Range.stop at hpos
  omega

/-- The retransmissions and the probes are of segments that are queued. -/
theorem slowtmrRexmit_onQueue {e : TickEnv} (hs : Snd (fun _ => True) pcb)
    (h : slowtmrRexmit o ticks e pcb = .ok (pcb', out)) :
    ∀ r ∈ out, OnQueue (pcb.unacked ++ pcb.unsent) r := by
  have hnil : ∀ r ∈ ([] : List Sent), OnQueue (pcb.unacked ++ pcb.unsent) r :=
    fun r hr => absurd hr List.not_mem_nil
  unfold slowtmrRexmit at h
  split at h
  · cases h
    exact hnil
  split at h
  · -- The probe is of the first queued segment.
    have hprobe : ∀ p : TcpPcb, p.unacked ++ p.unsent = pcb.unacked ++ pcb.unsent →
        ∀ r ∈ (tcpZeroWindowProbe e.probe p).2, OnQueue (pcb.unacked ++ pcb.unsent) r := by
      intro p hp
      unfold tcpZeroWindowProbe
      split
      · exact hnil
      · next seg rest hq =>
        rw [hp] at hq
        dsimp only
        split
        · intro r hr
          rw [List.mem_singleton.mp hr]
          have hmem : seg ∈ pcb.unacked ++ pcb.unsent := by
            rw [hq]
            exact List.mem_cons_self
          exact .inr ⟨seg, hmem, rfl, .inr ⟨rfl, hs.tcplen_pos hmem⟩⟩
        · exact hnil
    have hpers : ∀ r ∈ (slowtmrPersist e pcb).2, OnQueue (pcb.unacked ++ pcb.unsent) r := by
      unfold slowtmrPersist
      dsimp only
      split
      · exact hprobe _ rfl
      · exact hnil
    rwa [Except.ok.inj h] at hpers
  · dsimp only at h
    split at h
    · obtain ⟨p, hp, hrto⟩ := slowtmrRto_eq h
      unfold tcpRexmitRto at hrto
      split at hrto
      · cases hrto
        exact hnil
      · intro r hr
        have hmoved := tcpOutput_requeued hrto
        refine ((tcpOutput_onQueue hrto).2 r hr).mono fun s hsmem => ?_
        obtain ⟨x, hx, hk⟩ := hmoved.segs s (List.mem_append_left _ hsmem)
        refine ⟨x, ?_, hk⟩
        have hx' : x ∈ p.unacked ++ p.unsent := hx
        rw [hp.unacked, hp.unsent] at hx'
        exact hx'
    · cases h
      exact hnil

/-- A keepalive is a segment without data. -/
theorem slowtmrKeepalive_onQueue (q : List Seg) (e : TickEnv) :
    ∀ r ∈ (slowtmrKeepalive ticks e pcb).2, OnQueue q r := by
  unfold slowtmrKeepalive
  split
  · unfold tcpKeepalive
    dsimp only
    split
    · intro r hr
      rw [List.mem_singleton.mp hr]
      exact .inl rfl
    · exact fun r hr => absurd hr List.not_mem_nil
  · exact fun r hr => absurd hr List.not_mem_nil

/-- Inside `tcp_receive` only acknowledgements are sent. -/
theorem tcpReceive_sent {rx : Rx} (h : tcpReceive o ticks m pcb i = .ok rx) :
    ∀ r ∈ rx.sent, r.tcplen = 0 := by
  have hack : ∀ p : TcpPcb, ∀ r ∈ (tcpSendEmptyAck m.ack p).2, r.tcplen = 0 := by
    intro p
    unfold tcpSendEmptyAck
    split
    · intro r hr
      rw [List.mem_singleton.mp hr]
      rfl
    · exact fun r hr => absurd hr List.not_mem_nil
  have hdeq : ∀ {q : List Seg} {rx rx' : Rx}, dequeueOoseq o q rx = .ok rx' →
      rx'.sent = rx.sent := by
    intro q
    induction q with
    | nil =>
      intro rx rx' h
      cases h
      rfl
    | cons c q ih =>
      intro rx rx' h
      unfold dequeueOoseq at h
      split at h
      · obtain ⟨_, -, h⟩ := bind_eq_ok.mp h
        exact (ih h).trans rfl
      · cases h
        rfl
  have hwnd : ∀ {p : TcpPcb} {s : Seg}, tcpReceiveWindow o m p s = .ok rx → ∀ r ∈ rx.sent,
      r.tcplen = 0 := by
    intro p s h
    unfold tcpReceiveWindow at h
    dsimp only at h
    split at h
    · split at h
      · unfold tcpReceiveInSeq at h
        obtain ⟨⟨s', n⟩, -, h⟩ := bind_eq_ok.mp h
        obtain ⟨⟨s'', n', q⟩, -, h⟩ := bind_eq_ok.mp h
        obtain ⟨_, -, h⟩ := bind_eq_ok.mp h
        obtain ⟨rx', hd, h⟩ := bind_eq_ok.mp h
        cases h
        intro r hr
        rw [show rx'.sent = [] from hdeq hd] at hr
        exact absurd hr List.not_mem_nil
      · cases h
        exact hack p
    · cases h
      exact hack p
  obtain ⟨p, -, hd⟩ := tcpReceive_eq_ok h
  unfold tcpReceiveData at hd
  split at hd
  · split at hd
    · obtain ⟨s, -, hd⟩ := bind_eq_ok.mp hd
      exact hwnd hd
    · exact hwnd hd
  · cases hd
    exact fun r hr => absurd hr List.not_mem_nil

/-- What `tcp_process` sends by itself takes up no sequence number. -/
theorem tcpProcess_sent {pr : Proc} (hs : Sending pcb)
    (h : tcpProcess o ticks m cb pcb i = .ok pr) : ∀ r ∈ pr.sent, r.tcplen = 0 := by
  have hlive := hs.live
  have hnil : ∀ r ∈ ([] : List Sent), r.tcplen = 0 := fun r hr => absurd hr List.not_mem_nil
  unfold tcpProcess at h
  split at h
  · cases h
    unfold processRst
    dsimp only
    split
    all_goals
      split
      · exact hnil
      · exact hnil
  split at h
  · cases h
    exact hnil
  split at h
  · next hst =>
    rw [hst] at hlive
    cases hlive
  · next hst =>
    rw [hst] at hlive
    cases hlive
  · cases h
    exact hnil
  · cases h
    exact hnil
  · cases h
    exact hnil
  · obtain ⟨rx, hrx, h⟩ := bind_eq_ok.mp h
    cases h
    rw [processReceived_sent]
    exact tcpReceive_sent hrx

/-- The ACK that `tcp_pcb_remove` sends has no data. -/
theorem tcpPcbRemove_onQueue (q : List Seg) (h : tcpPcbRemove true ticks alloc pcb = .ok out) :
    ∀ r ∈ out, OnQueue q r := by
  unfold tcpPcbRemove at h
  dsimp only at h
  split at h
  · obtain ⟨r, hr, h⟩ := bind_eq_ok.mp h
    cases h
    cases hr
    exact fun r hr => absurd hr List.not_mem_nil
  · cases h
    exact fun r hr => absurd hr List.not_mem_nil

/-- The segments on the queues of a connection. -/
def Conn.segs : Conn → List Seg
  | .active pcb | .timeWait pcb => pcb.unacked ++ pcb.unsent
  | .gone => []

/-- What `tcp_input` sends is on the queues after it. -/
theorem tcpInput_onQueue (hs : Snd (fun _ => True) pcb)
    (h : tcpInput o ticks m cb alloc pcb i = .ok (conn, out)) : ∀ r ∈ out, OnQueue conn.segs r := by
  have href : SameSnd pcb { pcb with refused_data := none } :=
    ⟨rfl, rfl, rfl, rfl, rfl, rfl, rfl, rfl, rfl, rfl, rfl⟩
  have hs' : Snd (fun _ => True) { pcb with refused_data := none } :=
    href.follows.snd true_stable hs
  unfold tcpInput at h
  split at h
  · cases h
    exact fun r hr => absurd hr List.not_mem_nil
  · obtain ⟨pr, hpr, h⟩ := bind_eq_ok.mp h
    have hsent : ∀ r ∈ pr.sent, r.tcplen = 0 := tcpProcess_sent (.inl hs') hpr
    split at h
    · cases h
      exact fun r hr => .inl (hsent r hr)
    · next p hp =>
      split at h
      · obtain ⟨r, hrem, h⟩ := bind_eq_ok.mp h
        cases h
        intro r hr
        rcases List.mem_append.mp hr with hr | hr
        · exact .inl (hsent r hr)
        · exact tcpPcbRemove_onQueue [] hrem r hr
      · have hsp : Sending p :=
          tcpProcess_snd true_stable hs' (fun _ _ _ _ _ _ _ _ _ => trivial) hpr hp
        unfold tcpInputFinish at h
        obtain ⟨⟨p', out₁⟩, happ, h⟩ := bind_eq_ok.mp h
        cases p' with
        | none => exact (appCalls_ne_none hsp happ).elim
        | some p' =>
          obtain ⟨⟨q, out₂⟩, ho, h⟩ := bind_eq_ok.mp h
          cases h
          obtain ⟨hsub, hout⟩ := tcpOutput_onQueue ho
          have hcalls := (appCalls_onQueue happ).2
          intro r hr
          have hq : OnQueue (q.unacked ++ q.unsent) r := by
            rcases List.mem_append.mp hr with hr | hr
            · rcases List.mem_append.mp hr with hr | hr
              · exact .inl (hsent r hr)
              · exact (hcalls r hr).subset fun s hm => List.mem_append_left _ (hsub hm)
            · exact (hout r hr).subset fun s hm => List.mem_append_left _ hm
          dsimp only
          split <;> exact hq

/-- What a slow tick sends is on the queues before or after it. -/
theorem tcpSlowtmr_onQueue {e : TickEnv} (hs : Snd (fun _ => True) pcb)
    (h : tcpSlowtmr o ticks e pcb = .ok (conn, out)) :
    ∀ r ∈ out, OnQueue ((pcb.unacked ++ pcb.unsent) ++ conn.segs) r := by
  unfold tcpSlowtmr at h
  obtain ⟨⟨p, out₁⟩, hr, h⟩ := bind_eq_ok.mp h
  dsimp only at h
  have hbefore : ∀ r ∈ out₁ ++ (slowtmrKeepalive ticks e p).2,
      OnQueue (pcb.unacked ++ pcb.unsent) r := by
    intro r hmem
    rcases List.mem_append.mp hmem with hmem | hmem
    · exact slowtmrRexmit_onQueue hs hr r hmem
    · exact slowtmrKeepalive_onQueue _ e r hmem
  split at h
  · cases h
    exact fun r hmem => (hbefore r hmem).subset (List.subset_append_left _ _)
  · obtain ⟨⟨c, out₂⟩, hpoll, h⟩ := bind_eq_ok.mp h
    cases h
    have hafter : ∀ r ∈ out₂, OnQueue c.segs r := by
      unfold slowtmrPoll at hpoll
      dsimp only at hpoll
      split at hpoll
      · obtain ⟨⟨p', out₃⟩, happ, hpoll⟩ := bind_eq_ok.mp hpoll
        have hka := slowtmrKeepalive_sameSnd ticks e p
        have hoo := slowtmrOoseq_sameSnd ticks (slowtmrKeepalive ticks e p).1
        cases p' with
        | none =>
          have hsp : Snd (fun _ => True) p :=
            slowtmrRexmit_snd true_stable hs (fun _ _ _ _ _ => trivial) hr
          have hzero : SameSnd (slowtmrOoseq ticks (slowtmrKeepalive ticks e p).1)
              { slowtmrOoseq ticks (slowtmrKeepalive ticks e p).1 with polltmr := 0 } :=
            ⟨rfl, rfl, rfl, rfl, rfl, rfl, rfl, rfl, rfl, rfl, rfl⟩
          have hgo := ((hka.trans hoo).trans hzero).follows.snd true_stable hsp
          exact (appCalls_ne_none (.inl hgo) happ).elim
        | some p' =>
          have hcalls := (appCalls_onQueue happ).2
          dsimp only at hpoll
          split at hpoll
          · obtain ⟨⟨q, out₄⟩, ho, hpoll⟩ := bind_eq_ok.mp hpoll
            cases hpoll
            obtain ⟨hsub, hout⟩ := tcpOutput_onQueue ho
            intro r hmem
            rcases List.mem_append.mp hmem with hmem | hmem
            · exact (hcalls r hmem).subset fun s hm => List.mem_append_left _ (hsub hm)
            · exact (hout r hmem).subset fun s hm => List.mem_append_left _ hm
          · cases hpoll
            exact fun r hmem => (hcalls r hmem).subset fun s hm => List.mem_append_left _ hm
      · cases hpoll
        exact fun r hmem => absurd hmem List.not_mem_nil
    intro r hmem
    rcases List.mem_append.mp hmem with hmem | hmem
    · exact (hbefore r hmem).subset (List.subset_append_left _ _)
    · exact (hafter r hmem).subset (List.subset_append_right _ _)

/-- What a step hands to IP is on the queues before or after it. -/
theorem connSend_onQueue {conn conn' : Conn} {ev : ConnEvent} (hs : conn.Snd (fun _ => True))
    (h : connSend o conn ev = .ok (conn', out)) :
    ∀ r ∈ out, OnQueue (conn.segs ++ conn'.segs) r := by
  have hnil' : ∀ {q : List Seg}, ∀ r ∈ ([] : List Sent), OnQueue q r :=
    fun r hr => absurd hr List.not_mem_nil
  have hnil : ∀ r ∈ ([] : List Sent), OnQueue (conn.segs ++ conn'.segs) r := hnil'
  have hout : ∀ {a b : TcpPcb} {l : List Sent},
      (a.unacked ⊆ b.unacked ∧ ∀ r ∈ l, OnQueue b.unacked r) →
      ∀ q, ∀ r ∈ l, OnQueue (q ++ (b.unacked ++ b.unsent)) r := by
    intro a b l hab q r hr
    exact (hab.2 r hr).subset fun s hm => List.mem_append_right _ (List.mem_append_left _ hm)
  cases conn with
  | gone =>
    cases ev <;>
    · cases h
      exact hnil
  | timeWait pcb =>
    cases ev with
    | input ticks m cb alloc i =>
      obtain ⟨⟨p, out⟩, hin, h⟩ := bind_eq_ok.mp h
      cases h
      exact tcpTimewaitInput_rule
        (P := fun p out => ∀ r ∈ out,
          OnQueue (pcb.unacked ++ pcb.unsent ++ (p.unacked ++ p.unsent)) r)
        hin (fun _ => hnil') fun ho => hout (tcpOutput_onQueue ho) _
    | slowtmr ticks e =>
      cases h
      exact hnil
    | call ticks c =>
      cases h
      exact hnil
    | output ticks alloc =>
      cases h
      exact hnil
    | fasttmr ticks takesRefused out =>
      cases h
      exact hnil
  | active pcb =>
    cases ev with
    | call ticks c =>
      obtain ⟨⟨p, out⟩, hc, h⟩ := bind_eq_ok.mp h
      cases h
      cases p with
      | none => exact (appCall_ne_none (.inl hs) hc).elim
      | some p => exact hout (appCall_onQueue hc) _
    | output ticks alloc =>
      obtain ⟨⟨p, out⟩, ho, h⟩ := bind_eq_ok.mp h
      cases h
      exact hout (tcpOutput_onQueue ho) _
    | slowtmr ticks e => exact tcpSlowtmr_onQueue hs h
    | fasttmr ticks takesRefused out =>
      obtain ⟨⟨p, out'⟩, ht, h⟩ := bind_eq_ok.mp h
      cases h
      exact tcpFasttmr_rule
        (P := fun p out => ∀ r ∈ out,
          OnQueue (pcb.unacked ++ pcb.unsent ++ (p.unacked ++ p.unsent)) r)
        ht hnil' fun hack => hout (tcpOutputUnlessInput_onQueue hack) _
    | input ticks m cb alloc i =>
      exact fun r hr => (tcpInput_onQueue hs h r hr).subset (List.subset_append_right _ _)

end OnQueue

end Lwip.Tcp
