import Lwip.Lib.Condition
import Lwip.Lib.Run
import Lwip.Binding.Wrap

/-!
# Readers of a connection

The threads that call `TCP.read` on one accepted connection, with everything that can happen to its
wrapper: the stack calls `tcp_recv_cb` with data or with the end of file, threads read, wait for
`rx_cond` and go on, and the connection is closed or aborted on this side. The stack may call
`tcp_recv_cb` at any time, also after the wrapper has let go of the pcb, and `tcp_close` may fail
whenever it likes, so the machine has all the runs that the binding has on top of the real stack.

Two properties of the states are looked at. `NoLost`: no thread sleeps through data or the end of
the connection. `Drained`: the next `TCP.read` hands on exactly what is still owed to the reader.
Both hold along exactly the runs that avoid certain events (`Wakeable`, `InOrder`).
-/

namespace Lwip.Binding

open Lwip.Tcp (Err)

/-- A connection and its readers. -/
structure Reader where
  tw : TcpWrap Unit
  rx_cond : Condition ℕ := {}
  /-- The strings that `TCP.read` has returned, one after the other. -/
  returned : List UInt8 := []
  /-- The bytes of the pbufs that `tcp_recv_cb` was called with in the state `TCP_ACCEPTED`. -/
  accepted : List UInt8 := []
  deriving DecidableEq, Repr

/-- The connection that `tcp_accept_cb` and `accept_cb` set up. -/
def Reader.accept : Reader := { tw := tcpAcceptWrap () }

/-- What happens to the connection. -/
inductive ReaderEvent where
  /-- The stack has data, which is never a pbuf without bytes. -/
  | data (b : UInt8) (bs : List UInt8)
  /-- The stack has received the FIN of the peer. -/
  | eof
  /-- The thread `t` calls `TCP.read`. -/
  | read (t : ℕ)
  /-- A thread that was woken goes on. -/
  | resume (n : ℕ)
  /-- A call of `caml_tcp_close` in which `tcp_close` returns `err`. -/
  | close (err : Err)
  /-- A call of `caml_tcp_abort`. -/
  | abort
  /-- A call of `caml_tcp_accepted`. -/
  | accepted
  deriving DecidableEq, Repr

/-- A call of `tcp_recv_cb` by the stack. -/
def Reader.recv (s : Reader) (p : Option (List UInt8)) : Reader :=
  let r := tcpRecvCb s.tw.desc p .OK
  { s with
    tw := { s.tw with desc := r.desc }
    rx_cond := if r.notify then s.rx_cond.signal else s.rx_cond
    accepted := if s.tw.desc.state = .TCP_ACCEPTED then s.accepted ++ p.getD [] else s.accepted }

/-- One round of `TCP.read` by the thread `t`. A thread that gets an exception is done. -/
def Reader.round (s : Reader) (t : ℕ) : Reader :=
  match readRound s.tw with
  | .closed => s
  | .waits => { s with rx_cond := s.rx_cond.wait t }
  | .returns str tw _ => { s with tw, returned := s.returned ++ str }

/-- The `n`-th thread that was woken calls `TCP.read` again. -/
def Reader.resume (s : Reader) (n : ℕ) : Reader :=
  match s.rx_cond.resume n with
  | none => s
  | some (t, c) => { s with rx_cond := c }.round t

/-- The wrapper after a stub; the exception of a wrapper without a pcb changes nothing. -/
def Reader.after (s : Reader) : Except Exn (TcpWrap Unit) → Reader
  | .error _ => s
  | .ok tw => { s with tw }

/-- One event. The machine never stops. -/
def readerStep (s : Reader) : ReaderEvent → Except Empty Reader
  | .data b bs => .ok (s.recv (some (b :: bs)))
  | .eof => .ok (s.recv none)
  | .read t => .ok (s.round t)
  | .resume n => .ok (s.resume n)
  | .close err => .ok (s.after ((camlTcpClose err s.tw).map Prod.snd))
  | .abort => .ok (s.after (camlTcpAbort s.tw))
  | .accepted => .ok (s.after (camlTcpAccepted s.tw))

/-! ## The rounds of `TCP.read` -/

/-- The receive queue holds no empty pbuf, and a wrapper without a pcb is closing. -/
structure Wf (tw : TcpWrap Unit) : Prop where
  bytes : ∀ p ∈ tw.desc.rx, p ≠ []
  open_or_closing : tw.desc.state = .TCP_ACCEPTED ∨ tw.desc.state = .TCP_CLOSING
  closing : tw.pcb = none → tw.desc.state = .TCP_CLOSING

section Round

variable {tw : TcpWrap Unit}

/-- A queue that is not empty has bytes. -/
theorem Wf.length_pos (h : Wf tw) (hrx : tw.desc.rx ≠ []) : 0 < pbufListLength tw.desc.rx := by
  cases hq : tw.desc.rx with
  | nil => exact absurd hq hrx
  | cons p rx =>
    have hp := List.length_pos_iff.mpr (h.bytes p (by simp [hq]))
    simp only [pbufListLength, List.map_cons, List.sum_cons]
    omega

/-- Only the empty queue has no bytes. -/
theorem Wf.flatten_eq_nil (h : Wf tw) : tw.desc.rx.flatten = [] ↔ tw.desc.rx = [] := by
  constructor
  · intro hf
    by_contra hne
    obtain ⟨p, hp⟩ := List.exists_mem_of_ne_nil _ hne
    exact h.bytes p hp (List.flatten_eq_nil_iff.mp hf p hp)
  · intro hq
    simp [hq]

/-- Without a pcb `TCP.read` raises its exception. -/
theorem readRound_none (hpcb : tw.pcb = none) : readRound tw = .closed := by
  simp [readRound, camlTcpReadLen, tcpWrapOfValue, hpcb, bind, Except.bind]

/-- `TCP.read` returns all bytes that are queued. -/
theorem Wf.readRound_data (h : Wf tw) (hpcb : tw.pcb = some ()) (hrx : tw.desc.rx ≠ []) :
    readRound tw = .returns tw.desc.rx.flatten { tw with desc := { tw.desc with rx := [] } }
      (some (pbufListLength tw.desc.rx)) := by
  have hpos := h.length_pos hrx
  have hneg : (pbufListLength tw.desc.rx : ℤ) ≠ -1 := by omega
  simp [readRound, camlTcpReadLen, tcpWrapOfValue, camlTcpRead, hpcb, hrx, bind, Except.bind, hneg,
    hpos.ne']

/-- With an empty queue `TCP.read` waits, or raises its exception at the end of the data. -/
theorem readRound_empty (hpcb : tw.pcb = some ()) (hrx : tw.desc.rx = []) :
    readRound tw = if tw.desc.state = .TCP_CLOSING then .closed else .waits := by
  by_cases hst : tw.desc.state = .TCP_CLOSING
  · simp [readRound, camlTcpReadLen, tcpWrapOfValue, hpcb, hrx, hst, bind, Except.bind]
  · simp [readRound, camlTcpReadLen, tcpWrapOfValue, hpcb, hrx, hst, bind, Except.bind]

/-- All that a round can do. -/
inductive RoundCase (s : Reader) (t : ℕ) : Reader → Prop where
  | closed (h : s.tw.pcb = none ∨ s.tw.desc.rx = [] ∧ s.tw.desc.state = .TCP_CLOSING) :
      RoundCase s t s
  | waits (hpcb : s.tw.pcb = some ()) (hrx : s.tw.desc.rx = [])
      (hst : s.tw.desc.state ≠ .TCP_CLOSING) :
      RoundCase s t { s with rx_cond := s.rx_cond.wait t }
  | returns (hpcb : s.tw.pcb = some ()) (hrx : s.tw.desc.rx ≠ []) :
      RoundCase s t { s with
        tw := { s.tw with desc := { s.tw.desc with rx := [] } }
        returned := s.returned ++ s.tw.desc.rx.flatten }

/-- What a round of `TCP.read` can be. -/
theorem Wf.round_cases {s : Reader} (h : Wf s.tw) (t : ℕ) : RoundCase s t (s.round t) := by
  unfold Reader.round
  cases hpcb : s.tw.pcb with
  | none =>
    rw [readRound_none hpcb]
    exact .closed (.inl hpcb)
  | some u =>
    by_cases hrx : s.tw.desc.rx = []
    · rw [readRound_empty hpcb hrx]
      by_cases hst : s.tw.desc.state = .TCP_CLOSING
      · rw [if_pos hst]
        exact .closed (.inr ⟨hrx, hst⟩)
      · rw [if_neg hst]
        exact .waits hpcb hrx hst
    · rw [h.readRound_data hpcb hrx]
      exact .returns hpcb hrx

end Round

/-! ## The events -/

/-- All that an event can do. -/
inductive ReaderCase (s : Reader) : ReaderEvent → Reader → Prop where
  /-- The first pbuf of the queue wakes a reader. -/
  | first {b : UInt8} {bs : List UInt8} : s.tw.desc.rx = [] →
      ReaderCase s (.data b bs) { s with
        tw := { s.tw with desc := { s.tw.desc with rx := [b :: bs] } }
        rx_cond := s.rx_cond.signal
        accepted := if s.tw.desc.state = .TCP_ACCEPTED then s.accepted ++ b :: bs else s.accepted }
  /-- A pbuf behind others. -/
  | chained {b : UInt8} {bs : List UInt8} : s.tw.desc.rx ≠ [] → s.tw.desc.state = .TCP_ACCEPTED →
      ReaderCase s (.data b bs) { s with
        tw := { s.tw with desc := { s.tw.desc with rx := s.tw.desc.rx ++ [b :: bs] } }
        accepted := s.accepted ++ b :: bs }
  /-- Data for a queue of a closing connection are thrown away. -/
  | trashed {b : UInt8} {bs : List UInt8} : s.tw.desc.rx ≠ [] → s.tw.desc.state = .TCP_CLOSING →
      ReaderCase s (.data b bs) s
  | eof : ReaderCase s .eof { s with
        tw := { s.tw with desc := { s.tw.desc with state := .TCP_CLOSING } }
        rx_cond := s.rx_cond.signal }
  | read {t : ℕ} {s' : Reader} : RoundCase s t s' → ReaderCase s (.read t) s'
  | resume {n t : ℕ} {c : Condition ℕ} {s' : Reader} : c.waiting = s.rx_cond.waiting →
      RoundCase { s with rx_cond := c } t s' → ReaderCase s (.resume n) s'
  /-- Nobody goes on, `tcp_close` fails, or the wrapper has no pcb. -/
  | nothing {e : ReaderEvent} : (∀ b bs, e ≠ .data b bs) → e ≠ .eof →
      (e = .close .OK ∨ e = .abort → s.tw.pcb = none) → ReaderCase s e s
  | released {e : ReaderEvent} : s.tw.pcb = some () → e = .close .OK ∨ e = .abort →
      ReaderCase s e { s with tw := s.tw.release }
  | reaccepted : s.tw.pcb = some () → ReaderCase s .accepted { s with
        tw := { s.tw with desc := { s.tw.desc with state := .TCP_ACCEPTED } } }

section Recv

variable {s : Reader} {b : UInt8} {bs : List UInt8}

/-- The first data wake a thread. -/
theorem Reader.recv_first (hrx : s.tw.desc.rx = []) :
    ReaderCase s (.data b bs) (s.recv (some (b :: bs))) := by
  simpa [Reader.recv, tcpRecvCb, hrx] using @ReaderCase.first s b bs hrx

/-- Data behind others wake no thread. -/
theorem Reader.recv_queued (hrx : s.tw.desc.rx ≠ []) (h : Wf s.tw) :
    ReaderCase s (.data b bs) (s.recv (some (b :: bs))) := by
  rcases h.open_or_closing with hst | hst
  · simpa [Reader.recv, tcpRecvCb, hrx, hst] using
      @ReaderCase.chained s b bs hrx hst
  · simpa [Reader.recv, tcpRecvCb, hrx, hst] using
      @ReaderCase.trashed s b bs hrx hst

/-- What a thread that was woken can do. -/
theorem Reader.resume_cases (h : Wf s.tw) (n : ℕ) : ReaderCase s (.resume n) (s.resume n) := by
  unfold Reader.resume
  cases hr : s.rx_cond.resume n with
  | none => exact .nothing (by simp) (by simp) (by simp)
  | some tc =>
    have hw : Wf ({ s with rx_cond := tc.2 } : Reader).tw := h
    exact .resume (s.rx_cond.resume_waiting hr) (hw.round_cases tc.1)

end Recv

/-- Every event has a case. -/
theorem readerStep_cases {s : Reader} (h : Wf s.tw) (e : ReaderEvent) :
    ∃ s', readerStep s e = .ok s' ∧ ReaderCase s e s' := by
  cases e with
  | data b bs =>
    refine ⟨_, rfl, ?_⟩
    by_cases hrx : s.tw.desc.rx = []
    · exact Reader.recv_first hrx
    · exact Reader.recv_queued hrx h
  | eof =>
    refine ⟨_, rfl, ?_⟩
    simpa [Reader.recv, tcpRecvCb] using ReaderCase.eof (s := s)
  | read t => exact ⟨_, rfl, .read (h.round_cases t)⟩
  | resume n => exact ⟨_, rfl, Reader.resume_cases h n⟩
  | close err =>
    refine ⟨_, rfl, ?_⟩
    cases hpcb : s.tw.pcb with
    | none =>
      simpa [camlTcpClose, tcpWrapOfValue, hpcb, bind, Except.bind, Except.map, Reader.after] using
        ReaderCase.nothing (s := s) (e := .close err) (by simp) (by simp) fun _ => hpcb
    | some u =>
      by_cases herr : err = .OK
      · subst herr
        simpa [camlTcpClose, tcpWrapOfValue, hpcb, bind, Except.bind, Except.map, Reader.after]
          using ReaderCase.released (s := s) hpcb (.inl rfl)
      · simpa [camlTcpClose, tcpWrapOfValue, hpcb, herr, bind, Except.bind, Except.map,
          Reader.after] using
          ReaderCase.nothing (s := s) (e := .close err) (by simp) (by simp) (by simp [herr])
  | abort =>
    refine ⟨_, rfl, ?_⟩
    cases hpcb : s.tw.pcb with
    | none =>
      simpa [camlTcpAbort, tcpWrapOfValue, hpcb, bind, Except.bind, Reader.after] using
        ReaderCase.nothing (s := s) (e := .abort) (by simp) (by simp) fun _ => hpcb
    | some u =>
      simpa [camlTcpAbort, tcpWrapOfValue, hpcb, bind, Except.bind, Reader.after] using
        ReaderCase.released (s := s) (e := .abort) hpcb (.inr rfl)
  | accepted =>
    refine ⟨_, rfl, ?_⟩
    cases hpcb : s.tw.pcb with
    | none =>
      simpa [camlTcpAccepted, tcpWrapOfValue, hpcb, bind, Except.bind, Reader.after] using
        ReaderCase.nothing (s := s) (e := .accepted) (by simp) (by simp) (by simp)
    | some u =>
      simpa [camlTcpAccepted, tcpWrapOfValue, hpcb, bind, Except.bind, Reader.after] using
        ReaderCase.reaccepted (s := s) hpcb

/-- A round of `TCP.read` keeps the shape of the wrapper. -/
theorem RoundCase.wf {s s' : Reader} {t : ℕ} (h : RoundCase s t s') (hw : Wf s.tw) : Wf s'.tw := by
  cases h with
  | closed => exact hw
  | waits => exact hw
  | returns => exact ⟨by simp, hw.open_or_closing, hw.closing⟩

/-- Every event keeps the shape of the wrapper. -/
theorem ReaderCase.wf {s s' : Reader} {e : ReaderEvent} (h : ReaderCase s e s') (hw : Wf s.tw) :
    Wf s'.tw := by
  cases h with
  | first => exact ⟨by simp, hw.open_or_closing, hw.closing⟩
  | @chained b bs hrx hst =>
    refine ⟨fun p hp => ?_, hw.open_or_closing, hw.closing⟩
    rcases List.mem_append.mp hp with hp | hp
    · exact hw.bytes p hp
    · rw [List.mem_singleton.mp hp]
      simp
  | trashed => exact hw
  | eof => exact ⟨hw.bytes, .inr rfl, fun _ => rfl⟩
  | read hr => exact hr.wf hw
  | resume _ hr => exact hr.wf hw
  | nothing => exact hw
  | released => exact ⟨hw.bytes, .inr rfl, fun _ => rfl⟩
  | reaccepted hpcb => exact ⟨hw.bytes, .inl rfl, fun hn => by rw [hpcb] at hn; cases hn⟩

/-- The queue of a new connection is well-formed. -/
theorem Reader.accept_wf : Wf Reader.accept.tw where
  bytes := by simp [Reader.accept, tcpAcceptWrap]
  open_or_closing := .inl rfl
  closing := by simp [Reader.accept, tcpAcceptWrap]

/-! ## Wakeups -/

/-- A thread that waits without having been woken has nothing to read, and the connection is not
closing. -/
def NoLost (s : Reader) : Prop :=
  s.rx_cond.waiting ≠ [] → s.tw.desc.rx = [] ∧ s.tw.desc.state ≠ .TCP_CLOSING

/-- What `tcp_recv_cb` has to say is said while at most one thread waits, and the connection is
closed or aborted on this side while none does. -/
def Wakeable (s : Reader) : ReaderEvent → Prop
  | .data _ _ | .eof => s.rx_cond.waiting.length ≤ 1
  | .close .OK | .abort => s.tw.pcb = none ∨ s.rx_cond.waiting = []
  | _ => True

/-- A list without a tail has one element at most. -/
theorem tail_eq_nil_iff {α : Type} (l : List α) : l.tail = [] ↔ l.length ≤ 1 := by
  cases l with
  | nil => simp
  | cons x l => simp

/-- A round of `TCP.read` loses no wakeup. -/
theorem RoundCase.noLost {s s' : Reader} {t : ℕ} (h : RoundCase s t s') (hn : NoLost s) :
    NoLost s' := by
  cases h with
  | closed => exact hn
  | waits hpcb hrx hst => exact fun _ => ⟨hrx, hst⟩
  | returns hpcb hrx => exact fun hw => absurd (hn hw).1 hrx

/-- No wakeup is lost at exactly the events of `Wakeable`. -/
theorem ReaderCase.noLost_iff {s s' : Reader} {e : ReaderEvent} (h : ReaderCase s e s')
    (hn : NoLost s) : NoLost s' ↔ Wakeable s e := by
  cases h with
  | first hrx =>
    show (s.rx_cond.signal.waiting ≠ [] → _) ↔ s.rx_cond.waiting.length ≤ 1
    rw [Condition.signal_waiting, ← tail_eq_nil_iff]
    simp
  | chained hrx hst =>
    -- Nobody waits while the queue is not empty.
    have hnil : s.rx_cond.waiting = [] := by
      by_contra hw
      exact hrx (hn hw).1
    exact iff_of_true (fun hw => absurd hnil hw) (by simp [Wakeable, hnil])
  | trashed hrx hst =>
    have hnil : s.rx_cond.waiting = [] := by
      by_contra hw
      exact hrx (hn hw).1
    exact iff_of_true hn (by simp [Wakeable, hnil])
  | eof =>
    show (s.rx_cond.signal.waiting ≠ [] → _) ↔ s.rx_cond.waiting.length ≤ 1
    rw [Condition.signal_waiting, ← tail_eq_nil_iff]
    simp
  | read hr => exact iff_of_true (hr.noLost hn) trivial
  | resume hc hr =>
    refine iff_of_true (hr.noLost fun hw => hn ?_) trivial
    rw [← hc]
    exact hw
  | nothing hd he hnone =>
    refine iff_of_true hn ?_
    unfold Wakeable
    split
    · exact absurd rfl (hd _ _)
    · exact absurd rfl he
    · exact .inl (hnone (.inl rfl))
    · exact .inl (hnone (.inr rfl))
    · trivial
  | released hpcb he =>
    have hiff : Wakeable s e ↔ s.rx_cond.waiting = [] := by
      rcases he with rfl | rfl <;> simp [Wakeable, hpcb]
    rw [hiff]
    simp [NoLost, TcpWrap.release]
  | reaccepted hpcb => exact iff_of_true (fun hw => ⟨(hn hw).1, by simp⟩) trivial

/-- In a run of an accepted connection no thread is ever left asleep over data or over the end of
the connection if and only if `tcp_recv_cb` always finds at most one thread waiting, and the
connection is never closed or aborted on this side while a thread waits. -/
theorem no_lost_wakeup_iff (es : List ReaderEvent) :
    Always readerStep NoLost Reader.accept es ↔ Along readerStep Wakeable Reader.accept es := by
  refine always_iff_along (I := fun s => Wf s.tw) (fun s e hw hn => ?_) Reader.accept_wf
    (fun h => absurd rfl h)
  obtain ⟨s', hs, hc⟩ := readerStep_cases hw e
  exact ⟨s', hs, hc.wf hw, hc.noLost_iff hn⟩

instance (s : Reader) : Decidable (NoLost s) := inferInstanceAs (Decidable (_ → _))

/-- A reader waits and the connection is closed under it; two readers wait, and the end of file
wakes only one of them. -/
theorem sleeping_readers :
    (∃ s, run readerStep Reader.accept [.read 1, .close .OK] = .ok s ∧ ¬NoLost s) ∧
      ∃ s, run readerStep Reader.accept [.read 1, .read 2, .eof, .resume 0] = .ok s ∧ ¬NoLost s :=
  ⟨⟨_, rfl, by decide⟩, ⟨_, rfl, by decide⟩⟩

/-! ## Draining -/

/-- The string that `TCP.read` would return now. -/
def nextRead (tw : TcpWrap Unit) : List UInt8 :=
  match readRound tw with
  | .returns s _ _ => s
  | .closed | .waits => []

/-- Without a pcb nothing is read. -/
theorem nextRead_none {tw : TcpWrap Unit} (hpcb : tw.pcb = none) : nextRead tw = [] := by
  rw [nextRead, readRound_none hpcb]

/-- All that is queued is read. -/
theorem Wf.nextRead_some {tw : TcpWrap Unit} (h : Wf tw) (hpcb : tw.pcb = some ()) :
    nextRead tw = tw.desc.rx.flatten := by
  unfold nextRead
  by_cases hrx : tw.desc.rx = []
  · rw [readRound_empty hpcb hrx, hrx]
    by_cases hst : tw.desc.state = .TCP_CLOSING
    · rw [if_pos hst]; rfl
    · rw [if_neg hst]; rfl
  · rw [h.readRound_data hpcb hrx]

/-- The next call of `TCP.read` makes up for all that was accepted: it returns the bytes that are
owed, and if it waits or raises `Connection_closed`, none are. -/
def Drained (s : Reader) : Prop := s.returned ++ nextRead s.tw = s.accepted

/-- Data do not come for an empty queue of a connection that is closing, and the connection is
closed or aborted on this side only while the queue is empty. -/
def InOrder (s : Reader) : ReaderEvent → Prop
  | .data _ _ => s.tw.pcb = none ∨ s.tw.desc.rx ≠ [] ∨ s.tw.desc.state ≠ .TCP_CLOSING
  | .close .OK | .abort => s.tw.pcb = none ∨ s.tw.desc.rx = []
  | _ => True

/-- A wrapper whose next read returns the same. -/
theorem Drained.of_nextRead {s s' : Reader} (h : Drained s) (hr : s'.returned = s.returned)
    (ha : s'.accepted = s.accepted) (hn : nextRead s'.tw = nextRead s.tw) : Drained s' := by
  unfold Drained
  rw [hr, ha, hn]
  exact h

/-- A round of `TCP.read` returns what it owes. -/
theorem RoundCase.drained {s s' : Reader} {t : ℕ} (h : RoundCase s t s') (hw : Wf s.tw)
    (hd : Drained s) : Drained s' := by
  cases h with
  | closed => exact hd
  | waits => exact hd
  | returns hpcb hrx =>
    have hw' : Wf { s.tw with desc := { s.tw.desc with rx := [] } } :=
      ⟨by simp, hw.open_or_closing, hw.closing⟩
    unfold Drained
    rw [hw'.nextRead_some hpcb]
    calc (s.returned ++ s.tw.desc.rx.flatten) ++ [] = s.returned ++ nextRead s.tw := by
          rw [hw.nextRead_some hpcb, List.append_nil]
      _ = s.accepted := hd

/-- The queue is drained at exactly the events of `InOrder`. -/
theorem ReaderCase.drained {s s' : Reader} {e : ReaderEvent} (h : ReaderCase s e s')
    (hw : Wf s.tw) (hd : Drained s) : Drained s' ↔ InOrder s e := by
  have hw' := h.wf hw
  have hd' : s.returned ++ nextRead s.tw = s.accepted := hd
  cases h with
  | @first b bs hrx =>
    cases hpcb : s.tw.pcb with
    | none =>
      -- Nothing is read from a wrapper without a pcb, whatever stands in the queue.
      have hst := hw.closing hpcb
      have hnil := nextRead_none hpcb
      refine iff_of_true (hd.of_nextRead rfl (by simp [hst]) ?_) (.inl hpcb)
      rw [hnil]
      exact nextRead_none hpcb
    | some u =>
      rw [hw.nextRead_some hpcb, hrx, List.flatten_nil, List.append_nil] at hd'
      unfold Drained
      rw [hw'.nextRead_some hpcb]
      rcases hw.open_or_closing with hst | hst
      · exact iff_of_true (by simp [hst, hd']) (.inr (.inr (by simp [hst])))
      · refine iff_of_false (by simp [hst, hd']) ?_
        simp [InOrder, hpcb, hrx, hst]
  | @chained b bs hrx hst =>
    refine iff_of_true ?_ (.inr (.inl hrx))
    cases hpcb : s.tw.pcb with
    | none =>
      rw [hw.closing hpcb] at hst
      cases hst
    | some u =>
      rw [hw.nextRead_some hpcb] at hd'
      unfold Drained
      rw [hw'.nextRead_some hpcb]
      simp [← hd']
  | trashed hrx hst => exact iff_of_true hd (.inr (.inl hrx))
  | eof =>
    refine iff_of_true (hd.of_nextRead rfl rfl ?_) trivial
    cases hpcb : s.tw.pcb with
    | none =>
      have hnil := nextRead_none hpcb
      rw [hnil]
      exact nextRead_none hpcb
    | some u => rw [hw.nextRead_some hpcb, hw'.nextRead_some hpcb]
  | read hr => exact iff_of_true (hr.drained hw hd) trivial
  | resume hc hr => exact iff_of_true (hr.drained hw hd) trivial
  | nothing hdata he hnone =>
    refine iff_of_true hd ?_
    unfold InOrder
    split
    · exact absurd rfl (hdata _ _)
    · exact .inl (hnone (.inl rfl))
    · exact .inl (hnone (.inr rfl))
    · trivial
  | released hpcb he =>
    have hiff : InOrder s e ↔ s.tw.desc.rx = [] := by
      rcases he with rfl | rfl <;> simp [InOrder, hpcb]
    rw [hiff, ← hw.flatten_eq_nil]
    rw [hw.nextRead_some hpcb] at hd'
    unfold Drained
    rw [nextRead_none rfl, ← hd']
    simp
  | reaccepted hpcb =>
    refine iff_of_true (hd.of_nextRead rfl rfl ?_) trivial
    rw [hw.nextRead_some hpcb, hw'.nextRead_some hpcb]

/-- In a run of an accepted connection the reader always gets exactly the bytes that were accepted,
and hears of the end of the connection only after them, if and only if no data come for the empty
queue of a closing connection, and the connection is closed or aborted on this side only while its
queue is empty. -/
theorem drained_iff (es : List ReaderEvent) :
    Always readerStep Drained Reader.accept es ↔ Along readerStep InOrder Reader.accept es := by
  refine always_iff_along (I := fun s => Wf s.tw) (fun s e hw hd => ?_) Reader.accept_wf rfl
  obtain ⟨s', hs, hc⟩ := readerStep_cases hw e
  exact ⟨s', hs, hc.wf hw, hc.drained hw hd⟩

/-- The reader of a connection that is closed over pending data hears of the end, and the data are
lost; data behind the end of file are read. -/
theorem close_loses_data :
    (∃ s, run readerStep Reader.accept [.data 10 [11], .close .OK] = .ok s ∧
      readRound s.tw = .closed ∧ s.returned = [] ∧ s.accepted = [10, 11]) ∧
      ∃ s, run readerStep Reader.accept [.eof, .data 10 [], .read 1] = .ok s ∧
        s.returned = [10] ∧ s.accepted = [] :=
  ⟨⟨_, rfl, rfl, rfl, rfl⟩, ⟨_, rfl, rfl, rfl⟩⟩

end Lwip.Binding
