import Lwip.Lib.Condition
import Lwip.Lib.Run
import Lwip.Binding.Wrap

/-!
# The listener

`TCP.listen` of `lwip.ml`: the thread `listen_forever`, and the callback `accept_cb` that the stack
runs for every new connection. Connections are numbered in the order in which they are accepted. The
callback may run while the thread is suspended, and also while it is inside `connection_fn`, which
may call into the stack; between these points nothing else runs.

`connection_fn` is any function of the application: it returns a thread or raises an exception. What
it does to the connections that it was given is part of the machine too, and so is what the stack
does to connections that wait in `listen_q`.
-/

namespace Lwip.Binding

open Lwip.Tcp (Err)

/-- The listener with its connections. -/
structure Listener where
  /-- The wrappers, by the number of the connection. -/
  wraps : ℕ → TcpWrap Unit := fun _ => tcpAcceptWrap ()
  /-- The number of connections accepted so far. -/
  next : ℕ := 0
  listen_q : List ℕ := []
  /-- The thread, if it is suspended. -/
  listen_cond : Condition Unit := {}
  /-- The thread is inside `connection_fn`. -/
  serving : Bool := false
  /-- The connections that `connection_fn` was called with. -/
  served : List ℕ := []

/-- `listen`: the thread finds `listen_q` empty and waits. -/
def Listener.listen : Listener := { listen_cond := { waiting := [()] } }

/-- What can happen. -/
inductive ListenerEvent where
  /-- The stack accepts a connection and calls `accept_cb`. -/
  | accept
  /-- The thread goes on after it was woken. -/
  | resume
  /-- `connection_fn` returns a thread, or raises an exception. -/
  | ret (raises : Bool)
  /-- The peer ends the connection `n`. -/
  | eof (n : ℕ)
  /-- The peer resets the connection `n`. -/
  | reset (n : ℕ)
  /-- The application closes the connection `n`, where `tcp_close` returns `err`. -/
  | close (n : ℕ) (err : Err)
  /-- The application aborts the connection `n`. -/
  | abort (n : ℕ)
  deriving DecidableEq

/-- `accept_cb`. -/
def Listener.acceptCb (s : Listener) : Listener :=
  { s with
    listen_q := s.next :: s.listen_q
    next := s.next + 1
    listen_cond := s.listen_cond.signal }

/-- `spawn_threads`, up to the next call of `connection_fn`. When the queue is empty,
`listen_forever` calls itself, and waits. If `tcp_accepted` raises its exception, the thread
fails. -/
def Listener.spawnThreads (s : Listener) : Listener :=
  match s.listen_q with
  | [] => { s with serving := false, listen_cond := s.listen_cond.wait () }
  | hd :: tl =>
    match camlTcpAccepted (s.wraps hd) with
    | .error _ => { s with listen_q := tl, serving := false }
    | .ok tw =>
      { s with
        wraps := Function.update s.wraps hd tw
        listen_q := tl
        serving := true
        served := s.served ++ [hd] }

/-- The wrapper of the connection `n` is changed by a stub. Only a connection that was given to the
application can be used by it. -/
def Listener.stub (s : Listener) (n : ℕ)
    (f : TcpWrap Unit → Except Exn (TcpWrap Unit)) : Listener :=
  if n ∈ s.served then
    match f (s.wraps n) with
    | .error _ => s
    | .ok tw => { s with wraps := Function.update s.wraps n tw }
  else s

/-- The end of file of an accepted connection. -/
def Listener.eofCb (s : Listener) (n : ℕ) : Listener :=
  let tw := s.wraps n
  let desc := (tcpRecvCb tw.desc none .OK).desc
  if n < s.next then { s with wraps := Function.update s.wraps n { tw with desc } } else s

/-- One event. The machine never stops. -/
def listenerStep (s : Listener) : ListenerEvent → Except Empty Listener
  | .accept => .ok s.acceptCb
  | .resume =>
    match s.listen_cond.resume 0 with
    | none => .ok s
    | some (_, c) => .ok { s with listen_cond := c }.spawnThreads
  | .ret raises =>
    if s.serving then
      .ok (if raises then { s with serving := false } else s.spawnThreads)
    else .ok s
  | .eof n => .ok (s.eofCb n)
  -- No error callback is registered, so the wrapper does not learn of it.
  | .reset _ => .ok s
  | .close n err => .ok (s.stub n fun tw => (camlTcpClose err tw).map Prod.snd)
  | .abort n => .ok (s.stub n camlTcpAbort)

/-! ## What every event keeps -/

/-- Every connection was given to `connection_fn` once or is in the queue once, the thread does not
wait while one is in the queue, it is at one place at most, and the connections that the application
does not have yet are not closed. -/
structure ListenerInv (s : Listener) : Prop where
  once : (s.served ++ s.listen_q).Perm (List.range s.next)
  awake : s.listen_cond.waiting ≠ [] → s.listen_q = []
  one : s.listen_cond.waiting.length + s.listen_cond.woken.length + (if s.serving then 1 else 0) ≤ 1
  fresh : ∀ n, n ∉ s.served → (s.wraps n).pcb ≠ none

/-- The thread is gone: it failed with an exception. -/
def Listener.failed (s : Listener) : Prop :=
  s.listen_cond.waiting = [] ∧ s.listen_cond.woken = [] ∧ s.serving = false

instance (s : Listener) : Decidable s.failed := inferInstanceAs (Decidable (_ ∧ _ ∧ _))

section Inv

variable {s : Listener}

/-- The invariant holds of a new listener. -/
theorem Listener.listen_inv : ListenerInv Listener.listen where
  once := .nil
  awake _ := rfl
  one := by decide
  fresh n _ := by simp [Listener.listen, tcpAcceptWrap]

/-- A connection in the queue was not given to the application. -/
theorem ListenerInv.not_served (h : ListenerInv s) {n : ℕ} (hn : n ∈ s.listen_q) :
    n ∉ s.served := by
  have hnd : (s.served ++ s.listen_q).Nodup := h.once.nodup_iff.mpr List.nodup_range
  exact fun hs => (List.nodup_append.mp hnd).2.2 n hs n hn rfl

/-- The thread takes the first connection of the queue, whose wrapper has its pcb. -/
theorem ListenerInv.spawnThreads_cons (h : ListenerInv s) {hd : ℕ} {tl : List ℕ}
    (hq : s.listen_q = hd :: tl) :
    ∃ tw, tw.pcb ≠ none ∧ s.spawnThreads = { s with
      wraps := Function.update s.wraps hd tw
      listen_q := tl
      serving := true
      served := s.served ++ [hd] } := by
  have hpcb := h.fresh hd (h.not_served (by rw [hq]; exact List.mem_cons_self))
  obtain ⟨u, hu⟩ := Option.ne_none_iff_exists'.mp hpcb
  refine ⟨{ s.wraps hd with desc := { (s.wraps hd).desc with state := .TCP_ACCEPTED } }, hpcb, ?_⟩
  simp [Listener.spawnThreads, hq, camlTcpAccepted, tcpWrapOfValue, hu, bind, Except.bind]

/-- With an empty queue the thread waits. -/
theorem Listener.spawnThreads_nil (hq : s.listen_q = []) :
    s.spawnThreads = { s with serving := false, listen_cond := s.listen_cond.wait () } := by
  unfold Listener.spawnThreads
  rw [hq]

/-- A turn of the thread keeps the invariant. -/
theorem ListenerInv.spawnThreads (h : ListenerInv s) (hw : s.listen_cond.waiting = [])
    (hk : s.listen_cond.woken = []) : ListenerInv s.spawnThreads := by
  cases hq : s.listen_q with
  | nil =>
    rw [Listener.spawnThreads_nil hq]
    exact ⟨h.once, fun _ => hq, by simp [hw, hk], h.fresh⟩
  | cons hd tl =>
    obtain ⟨tw, hpcb, heq⟩ := h.spawnThreads_cons hq
    rw [heq]
    have honce := h.once
    rw [hq] at honce
    refine ⟨?_, fun hne => absurd hw hne, by simp [hw, hk], fun n hn => ?_⟩
    · dsimp only
      rw [List.append_assoc]
      exact honce
    · dsimp only at hn ⊢
      rw [List.mem_append, List.mem_singleton, not_or] at hn
      rw [Function.update_of_ne hn.2]
      exact h.fresh n hn.1

/-- The callback keeps the invariant. -/
theorem ListenerInv.acceptCb (h : ListenerInv s) : ListenerInv s.acceptCb := by
  refine ⟨?_, fun hw => ?_, ?_, h.fresh⟩
  · show (s.served ++ s.next :: s.listen_q).Perm (List.range (s.next + 1))
    rw [List.range_succ]
    exact List.perm_middle.trans ((List.Perm.cons s.next h.once).trans
      (List.perm_append_singleton s.next _).symm)
  · -- Only one thread can wait, and it is woken.
    have h1 := h.one
    have hlen : s.listen_cond.waiting.length ≤ 1 := by omega
    refine absurd ?_ hw
    show s.listen_cond.signal.waiting = []
    rw [Condition.signal_waiting]
    cases hq : s.listen_cond.waiting with
    | nil => rfl
    | cons t ts =>
      rw [hq] at hlen
      simpa using hlen
  · have h1 := h.one
    show s.listen_cond.signal.waiting.length + s.listen_cond.signal.woken.length +
      (if s.serving then 1 else 0) ≤ 1
    unfold Condition.signal
    cases hq : s.listen_cond.waiting with
    | nil => simpa [hq] using h1
    | cons t ts =>
      simp only [hq, List.length_cons, List.length_append, List.length_nil] at h1 ⊢
      omega

/-- A stub changes only wrappers that the application has. -/
theorem ListenerInv.stub (h : ListenerInv s) (n : ℕ)
    (f : TcpWrap Unit → Except Exn (TcpWrap Unit)) : ListenerInv (s.stub n f) := by
  unfold Listener.stub
  split
  · next hn =>
    split
    · exact h
    · refine ⟨h.once, h.awake, h.one, fun m hm => ?_⟩
      have hmn : m ≠ n := by
        rintro rfl
        exact hm hn
      dsimp only
      rw [Function.update_of_ne hmn]
      exact h.fresh m hm
  · exact h

/-- The end of a connection's data keeps the invariant. -/
theorem ListenerInv.eofCb (h : ListenerInv s) (n : ℕ) : ListenerInv (s.eofCb n) := by
  unfold Listener.eofCb
  dsimp only
  split
  · refine ⟨h.once, h.awake, h.one, fun m hm => ?_⟩
    dsimp only
    by_cases hmn : m = n
    · subst hmn
      rw [Function.update_self]
      exact h.fresh m hm
    · rw [Function.update_of_ne hmn]
      exact h.fresh m hm
  · exact h

/-- The thread after it was woken, when it goes on. -/
theorem ListenerInv.resumed (h : ListenerInv s) {u : Unit} {c : Condition Unit}
    (hr : s.listen_cond.resume 0 = some (u, c)) :
    ListenerInv { s with listen_cond := c } ∧ c.waiting = [] ∧ c.woken = [] := by
  obtain ⟨hmem, rfl⟩ := s.listen_cond.resume_eq_some hr
  have h1 := h.one
  have hpos := List.length_pos_of_mem hmem
  have hw : s.listen_cond.waiting = [] := List.length_eq_zero_iff.mp (by omega)
  have hk : s.listen_cond.woken.eraseIdx 0 = [] := by
    rw [← List.length_eq_zero_iff, List.length_eraseIdx_of_lt hpos]
    omega
  refine ⟨⟨h.once, h.awake, ?_, h.fresh⟩, hw, hk⟩
  dsimp only
  rw [hw, hk]
  simp only [List.length_nil]
  split <;> omega

/-- A thread inside `connection_fn` is not suspended. -/
theorem ListenerInv.not_suspended (h : ListenerInv s) (hs : s.serving = true) :
    s.listen_cond.waiting = [] ∧ s.listen_cond.woken = [] := by
  have h1 := h.one
  rw [if_pos hs] at h1
  exact ⟨List.length_eq_zero_iff.mp (by omega), List.length_eq_zero_iff.mp (by omega)⟩

/-! ## Nobody is left in the queue -/

/-- While a connection is in the queue, the thread is about to go on, or inside `connection_fn`. -/
def NotStranded (s : Listener) : Prop :=
  s.listen_q ≠ [] → s.listen_cond.woken ≠ [] ∨ s.serving = true

/-- `connection_fn` does not raise an exception while a connection is in the queue, and no
connection is accepted after it has raised one. -/
def Returns (s : Listener) : ListenerEvent → Prop
  | .ret true => s.serving = false ∨ s.listen_q = []
  | .accept => ¬s.failed
  | _ => True

/-- After `spawn_threads` nothing is stranded. -/
theorem ListenerInv.notStranded_spawnThreads (h : ListenerInv s) : NotStranded s.spawnThreads := by
  cases hq : s.listen_q with
  | nil =>
    rw [Listener.spawnThreads_nil hq]
    exact fun hne => absurd hq hne
  | cons hd tl =>
    obtain ⟨tw, -, heq⟩ := h.spawnThreads_cons hq
    rw [heq]
    exact fun _ => .inr rfl

/-- A connection that is accepted is stranded only if the thread has failed. -/
theorem notStranded_acceptCb : NotStranded s.acceptCb ↔ ¬s.failed := by
  have hiff : NotStranded s.acceptCb ↔ s.listen_cond.signal.woken ≠ [] ∨ s.serving = true := by
    simp [NotStranded, Listener.acceptCb]
  rw [hiff]
  unfold Listener.failed
  by_cases hw : s.listen_cond.waiting = []
  · have hsig : s.listen_cond.signal = s.listen_cond := by
      unfold Condition.signal
      rw [hw]
    rw [hsig]
    simp [hw, Classical.or_iff_not_imp_left]
  · exact iff_of_true (.inl (s.listen_cond.signal_woken_ne_nil hw)) fun hf => hw hf.1

/-- A stub leaves the queue alone. -/
theorem stub_queue (n : ℕ) (f : TcpWrap Unit → Except Exn (TcpWrap Unit)) :
    (s.stub n f).listen_q = s.listen_q ∧ (s.stub n f).listen_cond = s.listen_cond ∧
      (s.stub n f).serving = s.serving := by
  unfold Listener.stub
  split
  · split <;> exact ⟨rfl, rfl, rfl⟩
  · exact ⟨rfl, rfl, rfl⟩

/-- The end of a connection's data leaves the queue alone. -/
theorem eofCb_queue (n : ℕ) :
    (s.eofCb n).listen_q = s.listen_q ∧ (s.eofCb n).listen_cond = s.listen_cond ∧
      (s.eofCb n).serving = s.serving := by
  unfold Listener.eofCb
  dsimp only
  split <;> exact ⟨rfl, rfl, rfl⟩

/-- Nothing is stranded while the queue and the thread stay. -/
theorem NotStranded.of_same {s' : Listener} (h : NotStranded s)
    (hs : s'.listen_q = s.listen_q ∧ s'.listen_cond = s.listen_cond ∧ s'.serving = s.serving) :
    NotStranded s' := by
  unfold NotStranded
  rw [hs.1, hs.2.1, hs.2.2]
  exact h

/-- Every event keeps the invariant, and strands nobody at exactly the events of `Returns`. -/
theorem listenerStep_spec (h : ListenerInv s) (hn : NotStranded s) (e : ListenerEvent) :
    ∃ s', listenerStep s e = .ok s' ∧ ListenerInv s' ∧ (NotStranded s' ↔ Returns s e) := by
  cases e with
  | accept => exact ⟨_, rfl, h.acceptCb, notStranded_acceptCb⟩
  | resume =>
    unfold listenerStep
    cases hr : s.listen_cond.resume 0 with
    | none => exact ⟨s, by simp, h, iff_of_true hn trivial⟩
    | some uc =>
      obtain ⟨hinv, hw, hk⟩ := h.resumed hr
      exact ⟨_, rfl, hinv.spawnThreads hw hk, iff_of_true hinv.notStranded_spawnThreads trivial⟩
  | ret raises =>
    unfold listenerStep
    cases hs : s.serving with
    | false =>
      refine ⟨s, by simp, h, iff_of_true hn ?_⟩
      cases raises
      · trivial
      · exact .inl hs
    | true =>
      obtain ⟨hw, hk⟩ := h.not_suspended hs
      cases raises with
      | false =>
        exact ⟨_, rfl, h.spawnThreads hw hk, iff_of_true h.notStranded_spawnThreads trivial⟩
      | true =>
        refine ⟨{ s with serving := false }, rfl, ⟨h.once, h.awake, by simp [hw, hk], h.fresh⟩, ?_⟩
        simp [NotStranded, Returns, hs, hk]
  | eof n => exact ⟨_, rfl, h.eofCb n, iff_of_true (hn.of_same (eofCb_queue n)) trivial⟩
  | reset n => exact ⟨_, rfl, h, iff_of_true hn trivial⟩
  | close n err => exact ⟨_, rfl, h.stub n _, iff_of_true (hn.of_same (stub_queue n _)) trivial⟩
  | abort n => exact ⟨_, rfl, h.stub n _, iff_of_true (hn.of_same (stub_queue n _)) trivial⟩

/-! ## Every connection is served -/

/-- A turn of the thread in which nothing else happens and `connection_fn` does not raise. -/
def ListenerEvent.turn (e : ListenerEvent) : Prop := e = .resume ∨ e = .ret false

/-- Every connection that was accepted was given to `connection_fn` once or is in the queue once; a
thread that waits has left none there; and by its own turns alone the thread gets to all of them. -/
structure Serves (s : Listener) : Prop where
  once : (s.served ++ s.listen_q).Perm (List.range s.next)
  awake : s.listen_cond.waiting ≠ [] → s.listen_q = []
  reaches : ∃ es s', (∀ e ∈ es, ListenerEvent.turn e) ∧ run listenerStep s es = .ok s' ∧
    s'.next = s.next ∧ s'.served.Perm (List.range s.next)

/-- From inside `connection_fn` the thread serves the whole queue. -/
theorem ListenerInv.serve_all (h : ListenerInv s) (hs : s.serving = true) :
    ∃ es s', (∀ e ∈ es, ListenerEvent.turn e) ∧ run listenerStep s es = .ok s' ∧ s'.next = s.next ∧
      s'.served.Perm (List.range s.next) := by
  induction hq : s.listen_q generalizing s with
  | nil =>
    refine ⟨[], s, by simp, rfl, rfl, ?_⟩
    have honce := h.once
    rw [hq, List.append_nil] at honce
    exact honce
  | cons hd tl ih =>
    obtain ⟨hw, hk⟩ := h.not_suspended hs
    have hinv := h.spawnThreads hw hk
    obtain ⟨tw, -, heq⟩ := h.spawnThreads_cons hq
    obtain ⟨es, s', hes, hrun, hnext, hserved⟩ := ih hinv (by rw [heq]) (by rw [heq])
    have hn : s.spawnThreads.next = s.next := by rw [heq]
    refine ⟨.ret false :: es, s', ?_, ?_, hnext.trans hn, by rw [← hn]; exact hserved⟩
    · intro e he
      rcases List.mem_cons.mp he with rfl | he
      · exact .inr rfl
      · exact hes e he
    · rw [run]
      refine bind_eq_ok.mpr ⟨s.spawnThreads, ?_, hrun⟩
      simp [listenerStep, hs]

/-- A thread that is suspended without having been woken, or gone, makes no turns. -/
theorem run_turns_stay {es : List ListenerEvent} {s' : Listener} (hk : s.listen_cond.woken = [])
    (hs : s.serving = false) (hes : ∀ e ∈ es, ListenerEvent.turn e)
    (hrun : run listenerStep s es = .ok s') : s' = s := by
  induction es with
  | nil => cases hrun; rfl
  | cons e es ih =>
    have hstay : listenerStep s e = .ok s := by
      rcases hes e (by simp) with rfl | rfl
      · simp [listenerStep, Condition.resume, hk]
      · simp [listenerStep, hs]
    rw [run, hstay] at hrun
    exact ih (fun e' he' => hes e' (by simp [he'])) hrun

/-- The thread gets to every connection if and only if none is stranded. -/
theorem ListenerInv.serves_iff (h : ListenerInv s) : Serves s ↔ NotStranded s := by
  constructor
  · rintro ⟨-, -, es, s', hes, hrun, -, hserved⟩ hq
    by_contra hno
    rw [not_or, not_not, Bool.not_eq_true] at hno
    have hs' := run_turns_stay hno.1 hno.2 hes hrun
    subst hs'
    have hlen := (h.once.trans hserved.symm).length_eq
    rw [List.length_append] at hlen
    exact hq (List.length_eq_zero_iff.mp (by omega))
  · intro hn
    refine ⟨h.once, h.awake, ?_⟩
    by_cases hq : s.listen_q = []
    · have honce := h.once
      rw [hq, List.append_nil] at honce
      exact ⟨[], s, by simp, rfl, rfl, honce⟩
    rcases hn hq with hk | hs
    · obtain ⟨hd, tl, hcons⟩ := List.exists_cons_of_ne_nil hq
      obtain ⟨u, us, hus⟩ := List.exists_cons_of_ne_nil hk
      have hr : s.listen_cond.resume 0 =
          some (u, { s.listen_cond with woken := s.listen_cond.woken.eraseIdx 0 }) := by
        simp [Condition.resume, hus]
      obtain ⟨hinv, hw, hk'⟩ := h.resumed hr
      have hinv' := hinv.spawnThreads hw hk'
      obtain ⟨tw, -, heq⟩ := hinv.spawnThreads_cons hcons
      obtain ⟨es, s', hes, hrun, hnext, hserved⟩ := hinv'.serve_all (by rw [heq])
      rw [heq] at hnext hserved
      refine ⟨.resume :: es, s', ?_, ?_, hnext, hserved⟩
      · intro e he
        rcases List.mem_cons.mp he with rfl | he
        · exact .inl rfl
        · exact hes e he
      · rw [run]
        refine bind_eq_ok.mpr ⟨_, ?_, hrun⟩
        simp [listenerStep, hr]
    · exact h.serve_all hs

end Inv

/-- In a run of the listener every connection is served exactly once, as far as the thread gets its
turns, if and only if `connection_fn` never raises an exception while another connection is in the
queue, and no connection is accepted after it has raised one. Connections that are reset or closed
before their turn do no harm. -/
theorem listener_serves_iff (es : List ListenerEvent) :
    Always listenerStep Serves Listener.listen es ↔
    Along listenerStep Returns Listener.listen es := by
  refine always_iff_along (I := ListenerInv) (fun s e h hs => ?_) Listener.listen_inv ?_
  · obtain ⟨s', hstep, hinv, hiff⟩ := listenerStep_spec h (h.serves_iff.mp hs) e
    exact ⟨s', hstep, hinv, hinv.serves_iff.trans hiff⟩
  · exact Listener.listen_inv.serves_iff.mpr fun hq => absurd rfl hq

/-- Two connections are accepted before the thread gets its turn, and `connection_fn` raises an
exception for the first one that it is given: the other one stays in the queue for good. -/
theorem raising_connection_fn_strands :
    ∃ s, run listenerStep Listener.listen [.accept, .accept, .resume, .ret true] = .ok s ∧
      s.served = [1] ∧ s.listen_q = [0] ∧ ¬Serves s := by
  refine ⟨_, rfl, rfl, rfl, ?_⟩
  rintro ⟨-, -, es, s', hes, hrun, hnext, hserved⟩
  rw [run_turns_stay rfl rfl hes hrun] at hserved
  exact absurd hserved.length_eq (by decide)

end Lwip.Binding
