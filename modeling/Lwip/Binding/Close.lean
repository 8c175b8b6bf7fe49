import Lwip.Binding.Writer
import Lwip.Tcp.InUse

/-!
# Closing a connection

`TCP.close` of the OCaml binding, on top of the stack. It calls `tcp_close` up to three times, with
a `Lwt.pause` after each failure, and then aborts the connection. Between its rounds the connection
does whatever the stack can do to it.

In this build one pbuf may be queued. A FIN can then only be enqueued once everything that was
written is acknowledged, so `TCP.close` ends in a FIN behind all data or, if at none of its attempts
everything is acknowledged, in an abort.
-/

namespace Lwip.Binding

open Lwip.Tcp

/-! ## The machine -/

/-- How far `TCP.close` has come. -/
inductive ClosePhase where
  /-- `fn n` is called next. -/
  | fn (n : ℕ)
  /-- It has returned after a `tcp_close` that succeeded. -/
  | closed
  /-- It has returned after `tcp_abort`, which freed these segments. -/
  | aborted (freed : List Seg)
  /-- It has raised an exception. -/
  | raised (e : Exn)
  deriving DecidableEq

/-- The bytes that `tcp_abort` freed. -/
def ClosePhase.freedBytes : ClosePhase → Option (List UInt8)
  | .aborted freed => some (segBytes freed)
  | .fn _ | .closed | .raised _ => none

/-- A connection, its wrapper, and the thread that closes it. -/
structure Closer where
  conn : Conn
  tw : TcpWrap Unit := tcpAcceptWrap ()
  phase : ClosePhase := .fn 3
  /-- The pcb that each call of `tcp_close` found, and the connection that it left. -/
  attempts : List (TcpPcb × Conn) := []

/-- What happens to the connection. -/
inductive CloseEvent where
  /-- The stack, or another call of the application. -/
  | stack (e : ConnEvent)
  /-- `TCP.close` is called or goes on, with the outcomes of the allocations of the FIN and of the
  ACK that `tcp_output` may send. -/
  | resume (ticks : BitVec 32) (alloc : ℕ → Bool) (ack : Bool)

/-- The function `fn` of `TCP.close` up to the point where it pauses or ends. -/
def Closer.fn (o : Opts) (ticks : BitVec 32) (alloc : ℕ → Bool) (ack : Bool) (s : Closer) (n : ℕ) :
    Except Stop Closer :=
  match tcpWrapOfValue s.tw, connPcb s.conn with
  | .error e, _ => .ok { s with phase := .raised e }
  | .ok _, none => .error .freed
  | .ok _, some pcb =>
    match n with
    | 0 => do
      let _ ← (tcpAbort ticks ack pcb).mapError .aborts
      match camlTcpAbort s.tw with
      | .error e => .ok { s with phase := .raised e }
      | .ok tw => .ok { s with conn := .gone, tw, phase := .aborted (pcb.unacked ++ pcb.unsent) }
    | n + 1 => do
      let r ← (tcpClose o false ticks alloc ack pcb).mapError .aborts
      let conn := r.2.1.elim .gone fun pcb => connWith pcb s.conn
      let s := { s with conn, attempts := s.attempts ++ [(pcb, conn)] }
      match camlTcpClose r.1 s.tw with
      | .error e => .ok { s with phase := .raised e }
      | .ok (true, tw) => .ok { s with tw, phase := .closed }
      | .ok (false, tw) => .ok { s with tw, phase := .fn n }

/-- One event. -/
def closeStep (o : Opts) (s : Closer) : CloseEvent → Except Stop Closer
  | .stack e => do
    let conn ← (connStep o s.conn e).mapError .aborts
    .ok { s with conn }
  | .resume ticks alloc ack =>
    match s.phase with
    | .fn n => s.fn o ticks alloc ack n
    | .closed | .aborted _ | .raised _ => .ok s

/-- `TCP.close` has not ended. -/
def Closer.pending (s : Closer) : Bool :=
  match s.phase with
  | .fn _ => true
  | .closed | .aborted _ | .raised _ => false

/-- Until `TCP.close` has ended, the peer answers, and acknowledges what it was sent, and there is
memory for a FIN. -/
def PeerAcks (o : Opts) (s : Closer) : CloseEvent → Prop
  | .stack e => s.pending = true → LeavesOpen o s.conn e ∧ NotStray s.conn e
  | .resume _ alloc _ => alloc 0 = true ∧ alloc 1 = true

instance (o : Opts) (s : Closer) : (ev : CloseEvent) → Decidable (PeerAcks o s ev)
  | .stack e =>
    inferInstanceAs (Decidable (s.pending = true → LeavesOpen o s.conn e ∧ NotStray s.conn e))
  | .resume _ alloc _ => inferInstanceAs (Decidable (alloc 0 = true ∧ alloc 1 = true))

/-! ## What every run keeps -/

/-- Something that was written is not acknowledged. -/
def Outstanding (pcb : TcpPcb) : Prop := pcb.lastack ≠ pcb.snd_lbb

/-- Everything that was written is acknowledged, and nothing is queued. -/
structure AllAcked (pcb : TcpPcb) : Prop where
  lastack : pcb.lastack = pcb.snd_lbb
  unacked : pcb.unacked = []
  unsent : pcb.unsent = []

/-- How `TCP.close` goes on and ends. -/
def CloseOk (s : Closer) : Prop :=
  match s.phase with
  | .fn n =>
    -- All attempts so far came too early, and no byte has left the queues unacknowledged.
    s.attempts.length + n = 3 ∧ (∀ a ∈ s.attempts, Outstanding a.1) ∧
      ∃ pcb, s.conn = .active pcb ∧ Writable pcb.state ∧ SendInv pcb
  | .closed =>
    -- The last attempt did not, and has put a FIN behind all data.
    ∃ early pcb p, s.attempts = early ++ [(pcb, .active p)] ∧ early.length < 3 ∧
      (∀ a ∈ early, Outstanding a.1) ∧ AllAcked pcb ∧ FinBehind pcb p
  | .aborted _ => s.attempts.length = 3 ∧ ∀ a ∈ s.attempts, Outstanding a.1
  | .raised _ => False

/-- While `TCP.close` is at work the connection is in use. -/
def CloseInv (s : Closer) : Prop :=
  CloseOk s ∧ (s.pending = true → s.tw.pcb = some () ∧ ∃ pcb, s.conn = .active pcb ∧ InUse pcb)

section Run

variable {s s' : Closer} {pcb : TcpPcb}

/-- The queues are full unless everything is acknowledged. -/
theorem full_or_allAcked (h : InUse pcb) :
    (pcb.snd_queuelen ≥ Opts.shipped.TCP_SND_QUEUELEN ∧ Outstanding pcb) ∨ AllAcked pcb := by
  have hone : Opts.shipped.TCP_SND_QUEUELEN = 1 := rfl
  have hiff := h.sendInv.empty_iff
  rcases Nat.eq_zero_or_pos pcb.snd_queuelen with hz | hpos
  · obtain ⟨hu, hs⟩ := h.counted.queues_empty_iff.mp hz
    exact .inr ⟨hiff.mp ⟨hu, hs⟩, hu, hs⟩
  · refine .inl ⟨by omega, fun hlast => ?_⟩
    have hz := h.counted.queues_empty_iff.mpr (hiff.mpr hlast)
    omega

/-- A round of `TCP.close` always gets to its end, and keeps the invariant. -/
theorem CloseInv.fn {n : ℕ} {alloc : ℕ → Bool} (h : CloseInv s) (ticks : BitVec 32) (ack : Bool)
    (hphase : s.phase = .fn n) (hseg : alloc 0 = true) (hpbuf : alloc 1 = true) :
    ∃ s', s.fn .shipped ticks alloc ack n = .ok s' ∧ CloseInv s' := by
  obtain ⟨hok, hopen⟩ := h
  have hpending : s.pending = true := by
    unfold Closer.pending
    rw [hphase]
  obtain ⟨htw, pcb, hconn, huse⟩ := hopen hpending
  unfold CloseOk at hok
  rw [hphase] at hok
  obtain ⟨hcount, hearly, -⟩ := hok
  have hwrap : tcpWrapOfValue s.tw = .ok () := by
    unfold tcpWrapOfValue
    rw [htw]
  unfold Closer.fn
  rw [hwrap, hconn]
  cases n with
  | zero =>
    obtain ⟨r, hr⟩ := huse.abort_ok ticks ack
    have habort : camlTcpAbort s.tw = .ok s.tw.release := by
      unfold camlTcpAbort
      rw [hwrap]
      rfl
    refine ⟨_, bind_eq_ok.mpr ⟨r, mapError_eq_ok.mpr hr, by rw [habort]⟩, ?_, ?_⟩
    · exact ⟨hcount, hearly⟩
    · intro hp
      cases hp
  | succ n =>
    rcases full_or_allAcked huse with ⟨hfull, hout⟩ | hall
    · -- Too early: the connection stays as it is.
      have hclose : tcpClose .shipped false ticks alloc ack pcb =
          .ok (.MEM, some (tcpMemErr pcb), []) := tcpClose_full huse.writable hfull
      have hstub : camlTcpClose .MEM s.tw = .ok (false, s.tw) := by
        unfold camlTcpClose
        rw [hwrap]
        rfl
      refine ⟨_, bind_eq_ok.mpr ⟨_, mapError_eq_ok.mpr hclose, by dsimp only; rw [hstub]⟩, ?_, ?_⟩
      · refine ⟨?_, ?_, _, rfl, huse.memErr.writable, huse.memErr.sendInv⟩
        · rw [List.length_append, List.length_singleton]
          omega
        · intro a ha
          rcases List.mem_append.mp ha with ha | ha
          · exact hearly a ha
          · rw [List.mem_singleton.mp ha]
            exact hout
      · exact fun _ => ⟨htw, _, rfl, huse.memErr⟩
    · -- Everything is acknowledged: the FIN is the only segment.
      obtain ⟨p, sent, hclose, hfin⟩ : ∃ p sent,
          tcpClose .shipped false ticks alloc ack pcb = .ok (.OK, some p, sent) ∧ FinBehind pcb p :=
        tcpClose_empty (by decide) huse.counted huse.writable hall.unacked hall.unsent hseg hpbuf
      have hstub : camlTcpClose .OK s.tw = .ok (true, s.tw.release) := by
        unfold camlTcpClose
        rw [hwrap]
        rfl
      refine ⟨_, bind_eq_ok.mpr ⟨_, mapError_eq_ok.mpr hclose, by dsimp only; rw [hstub]⟩, ?_, ?_⟩
      · exact ⟨s.attempts, pcb, p, rfl, by omega, hearly, hall, hfin⟩
      · intro hp
        cases hp

/-- Every event keeps the invariant. -/
theorem CloseInv.step {ev : CloseEvent} (h : CloseInv s) (hC : PeerAcks .shipped s ev)
    (hs : closeStep .shipped s ev = .ok s') : CloseInv s' := by
  cases ev with
  | stack e =>
    obtain ⟨c, hc, hs⟩ := bind_eq_ok.mp hs
    cases hs
    obtain ⟨hok, hopen⟩ := h
    cases hphase : s.phase with
    | fn n =>
      have hpending : s.pending = true := by
        unfold Closer.pending
        rw [hphase]
      obtain ⟨htw, pcb, hconn, huse⟩ := hopen hpending
      obtain ⟨hleaves, hstray⟩ := hC hpending
      rw [hconn] at hc hleaves hstray
      obtain ⟨p, rfl, hp⟩ := huse.connStep hleaves hstray (mapError_eq_ok.mp hc)
      unfold CloseOk at hok
      rw [hphase] at hok
      obtain ⟨hcount, hearly, -⟩ := hok
      exact ⟨⟨hcount, hearly, p, rfl, hp.writable, hp.sendInv⟩, fun _ => ⟨htw, p, rfl, hp⟩⟩
    | closed =>
      unfold CloseOk at hok
      rw [hphase] at hok
      exact ⟨hok, fun hp => by cases hp⟩
    | aborted freed =>
      unfold CloseOk at hok
      rw [hphase] at hok
      exact ⟨hok, fun hp => by cases hp⟩
    | raised e =>
      unfold CloseOk at hok
      rw [hphase] at hok
      exact hok.elim
  | resume ticks alloc ack =>
    unfold closeStep at hs
    dsimp only at hs
    split at hs
    · next n hphase =>
      obtain ⟨s₁, hs₁, hinv⟩ := h.fn ticks ack hphase hC.1 hC.2
      obtain rfl : s₁ = s' := Except.ok.inj (hs₁.symm.trans hs)
      exact hinv
    · cases hs
      exact h
    · cases hs
      exact h
    · cases hs
      exact h

end Run

/-- A connection right after it was established. -/
structure NewlyOpen (pcb : TcpPcb) : Prop extends FreshSender pcb where
  queuelen : pcb.snd_queuelen = 0

/-- A connection that was just opened is in use. -/
theorem NewlyOpen.inUse {pcb : TcpPcb} (h : NewlyOpen pcb) : InUse pcb where
  writable := .inl h.state
  snd := h.toFreshSender.snd
  counted := by
    refine ⟨?_, ?_, ?_, h.mss_le, h.snd_buf_le⟩
    · rw [h.queuelen, h.unacked, h.unsent]
      rfl
    · rw [h.queuelen]
      exact Nat.zero_le _
    · rw [h.unacked, h.unsent]
      intro s hs
      cases hs

/-- `TCP.close`, called at any moment after a connection was established, never gets stuck. Until it
ends, no byte leaves the queues unacknowledged. It ends in a FIN behind all data if at one of its
three attempts everything is acknowledged, and otherwise aborts the connection. -/
theorem close_flushes_or_aborts {pcb : TcpPcb} {es : List CloseEvent} {c : Closer}
    (h0 : NewlyOpen pcb)
    (hpeer : Along (closeStep .shipped) (PeerAcks .shipped) { conn := .active pcb } es)
    (hrun : run (closeStep .shipped) { conn := .active pcb } es = .ok c) :
    CloseOk c ∧ ∀ ticks alloc ack, PeerAcks .shipped c (.resume ticks alloc ack) →
      ∃ c', closeStep .shipped c (.resume ticks alloc ack) = .ok c' := by
  have hstart : CloseInv { conn := .active pcb } := by
    refine ⟨⟨rfl, ?_, pcb, rfl, h0.inUse.writable, h0.inUse.sendInv⟩,
      fun _ => ⟨rfl, pcb, rfl, h0.inUse⟩⟩
    intro a ha
    cases ha
  have hinv : CloseInv c :=
    run_invariant (fun _ _ _ h hC hs => h.step hC hs) hstart hpeer hrun
  refine ⟨hinv.1, fun ticks alloc ack hmem => ?_⟩
  unfold closeStep
  dsimp only
  split
  · next n hphase =>
    obtain ⟨c', hc', -⟩ := hinv.fn ticks ack hphase hmem.1 hmem.2
    exact ⟨c', hc'⟩
  · exact ⟨c, rfl⟩
  · exact ⟨c, rfl⟩
  · exact ⟨c, rfl⟩

/-- A connection of this build. -/
def shippedConn : TcpPcb := .established .shipped 0 0 2000

/-- The connection of the examples was just opened. -/
theorem shippedConn_newlyOpen : NewlyOpen shippedConn :=
  ⟨⟨rfl, rfl, rfl, rfl, rfl, rfl, by decide, by decide, by decide⟩, rfl⟩

/-- `TCP.close` goes on, with enough memory. -/
def closeGoesOn : CloseEvent := .resume 1 (fun _ => true) true

/-- The acknowledgement of four bytes comes after the first attempt. -/
def lateAckRun : List CloseEvent :=
  [.stack (writes 4), .stack (.output 1 true), closeGoesOn, .stack (acks 1 5 2000), closeGoesOn]

/-- An ACK that comes late: the FIN goes out behind all data. -/
theorem close_flushes_or_aborts_lateAckRun :
    ∃ c, run (closeStep .shipped) { conn := .active shippedConn } lateAckRun = .ok c ∧
      c.phase = .closed ∧ CloseOk c := by
  obtain ⟨c, hrun, hphase⟩ :
      ∃ c, run (closeStep .shipped) { conn := .active shippedConn } lateAckRun = .ok c ∧
        c.phase = .closed := exists_of_any (by decide +kernel)
  exact ⟨c, hrun, hphase,
    (close_flushes_or_aborts shippedConn_newlyOpen (by decide +kernel) hrun).1⟩

/-- The peer acknowledges four bytes, but four more are on their way when `TCP.close` makes its
three attempts. -/
def slowPeerRun : List CloseEvent :=
  [.stack (writes 4), .stack (.output 1 true), .stack (acks 1 5 2000), .stack (writes 4),
    .stack (.output 1 true), closeGoesOn, closeGoesOn, closeGoesOn, closeGoesOn]

/-- The connection is aborted, and the four bytes are freed. -/
theorem close_aborts_unacked :
    NewlyOpen shippedConn ∧
      Along (closeStep .shipped) (PeerAcks .shipped) { conn := .active shippedConn } slowPeerRun ∧
      ∃ c freed, run (closeStep .shipped) { conn := .active shippedConn } slowPeerRun = .ok c ∧
        c.phase = .aborted freed ∧ segBytes freed = [0, 0, 0, 0] := by
  refine ⟨shippedConn_newlyOpen, by decide +kernel, ?_⟩
  obtain ⟨c, hrun, hbytes⟩ :
      ∃ c, run (closeStep .shipped) { conn := .active shippedConn } slowPeerRun = .ok c ∧
        c.phase.freedBytes = some [0, 0, 0, 0] := exists_of_any (by decide +kernel)
  cases hphase : c.phase with
  | aborted freed =>
    rw [hphase] at hbytes
    exact ⟨c, freed, hrun, hphase, Option.some.inj hbytes⟩
  | fn _ | closed | raised _ =>
    rw [hphase] at hbytes
    cases hbytes

end Lwip.Binding
