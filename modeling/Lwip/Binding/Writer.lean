import Lwip.Lib.Condition
import Lwip.Binding.Wrap
import Lwip.Tcp.Connection
import Lwip.Tcp.Queued

/-!
# A writer of a connection

`TCP.write` of the OCaml binding, on top of the stack. One round of `internal_write` hands a part of
the buffer to `tcp_write` and then returns or waits for `tx_cond`; the next round starts from the
arguments that the thread kept.

The machine has one writer. Between its rounds the connection does whatever the stack can do to it,
the condition is signalled at any time, and the wrapper may be closed. Every round may find any
allocation to fail. The bytes that `tcp_write` puts on the queues of the pcb are recorded, and they
are in every state of every run the part of the buffer that comes before the offset of the thread.
-/

namespace Lwip.Binding

open Lwip.Tcp

/-! ## `internal_write` -/

/-- `caml_tcp_sndbuf`, for a wrapper with a pcb. The field is a `u16_t`. -/
def camlTcpSndbuf (pcb : TcpPcb) : ℕ := u16 pcb.snd_buf

/-- `caml_tcp_write`, for a wrapper with a pcb; `none` is `-1`. The data are copied. The length is a
`u16_t` of `tcp_write`; nothing checks that it stays in the string. -/
def camlTcpWrite (o : Opts) (alloc : ℕ → Bool) (pcb : TcpPcb) (buf : List UInt8) (off len : ℕ) :
    Except Abort (Option ℕ × TcpPcb) := do
  let r ← tcpWrite o alloc pcb ((buf.drop off).take (u16 len)) true false
  .ok (if r.1 = .OK then some len else none, r.2)

/-- The arguments of `internal_write`, besides the wrapper. -/
structure Write where
  buf : List UInt8
  off : ℕ
  len : ℕ
  acc : ℕ
  deriving DecidableEq, Repr

/-- The arguments with which `TCP.write` starts. -/
def Write.start (buf : List UInt8) : Write := { buf, off := 0, len := buf.length, acc := 0 }

/-- The arguments after `n` bytes more were written. -/
def Write.advance (w : Write) (n : ℕ) : Write :=
  { w with off := w.off + n, len := w.len - n, acc := w.acc + n }

/-- How one round of `internal_write` ends. -/
inductive WriteRound where
  /-- The thread waits for `tx_cond` and then goes on with `w`. -/
  | waits (w : Write)
  | returns (v : ℕ)
  deriving DecidableEq, Repr

/-- `internal_write` up to the point where it returns or waits. -/
def internalWrite (o : Opts) (alloc : ℕ → Bool) (pcb : TcpPcb) (w : Write) :
    Except Abort (WriteRound × TcpPcb) :=
  let sndbuf := camlTcpSndbuf pcb
  if w.len > sndbuf then do
    let r ← camlTcpWrite o alloc pcb w.buf w.off sndbuf
    match r.1 with
    | none => .ok (.waits w, r.2)
    -- wait for a write ack, then continue writing
    | some written => .ok (.waits (w.advance written), r.2)
  else do
    let r ← camlTcpWrite o alloc pcb w.buf w.off w.len
    match r.1 with
    | none => .ok (.waits w, r.2)
    | some written => .ok (.returns (w.acc + written), r.2)

/-- All that a round can do: fail and change nothing, write what fits in the send buffer, or write
the rest. -/
inductive WriteCase (pcb : TcpPcb) (w : Write) (pcb' : TcpPcb) : WriteRound → Prop where
  | failed : queued pcb' = queued pcb → WriteCase pcb w pcb' (.waits w)
  | part (n : ℕ) : n < w.len → queued pcb' = queued pcb ++ (w.buf.drop w.off).take n →
      WriteCase pcb w pcb' (.waits (w.advance n))
  | rest : queued pcb' = queued pcb ++ (w.buf.drop w.off).take w.len →
      WriteCase pcb w pcb' (.returns (w.acc + w.len))

section Round

variable {o : Opts} {alloc : ℕ → Bool} {pcb pcb' : TcpPcb} {w : Write}

/-- `caml_tcp_write` of at most the send buffer: all of it is enqueued, or none. -/
theorem camlTcpWrite_cases {buf : List UInt8} {off len : ℕ} {r : Option ℕ}
    (hlen : len ≤ camlTcpSndbuf pcb)
    (h : camlTcpWrite o alloc pcb buf off len = .ok (r, pcb')) :
    (r = none ∧ queued pcb' = queued pcb) ∨
      (r = some len ∧ queued pcb' = queued pcb ++ (buf.drop off).take len) := by
  obtain ⟨⟨e, p⟩, hw, h⟩ := bind_eq_ok.mp h
  have hu16 : u16 len = len := by
    unfold camlTcpSndbuf u16 at hlen
    unfold u16
    omega
  have hle : ((buf.drop off).take (u16 len)).length ≤ 0xffff := by
    unfold camlTcpSndbuf u16 at hlen
    rw [hu16, List.length_take]
    omega
  have hq := tcpWrite_queued hle hw
  rw [hu16] at hq
  cases h
  by_cases he : e = .OK
  · rw [if_pos he] at hq
    exact .inr ⟨by simp [he], hq⟩
  · rw [if_neg he] at hq
    exact .inl ⟨by simp [he], hq⟩

/-- What a round of `internal_write` can be. -/
theorem internalWrite_cases {r : WriteRound} (h : internalWrite o alloc pcb w = .ok (r, pcb')) :
    WriteCase pcb w pcb' r := by
  unfold internalWrite at h
  dsimp only at h
  split at h
  · next hlen =>
    obtain ⟨⟨r', p⟩, hw, h⟩ := bind_eq_ok.mp h
    rcases camlTcpWrite_cases (le_refl _) hw with ⟨rfl, hq⟩ | ⟨rfl, hq⟩
    · cases h
      exact .failed hq
    · cases h
      exact .part _ hlen hq
  · next hlen =>
    obtain ⟨⟨r', p⟩, hw, h⟩ := bind_eq_ok.mp h
    rcases camlTcpWrite_cases (by omega) hw with ⟨rfl, hq⟩ | ⟨rfl, hq⟩
    · cases h
      exact .failed hq
    · cases h
      exact .rest hq

end Round

/-! ## The machine -/

/-- A connection and the thread that writes to it. -/
structure Writer where
  conn : Conn
  /-- `tw->pcb` is not `NULL`. -/
  isOpen : Bool := true
  tx_cond : Condition Write
  /-- The value that `TCP.write` returned. -/
  returned : Option ℕ := none
  /-- The bytes that the calls of `tcp_write` have put on the queues of the pcb. -/
  enqueued : List UInt8 := []

/-- `TCP.write` is called with `buf`; the thread is about to run. -/
def Writer.start (conn : Conn) (buf : List UInt8) : Writer :=
  { conn, tx_cond := { woken := [.start buf] } }

/-- What happens to the connection. -/
inductive WriterEvent where
  /-- The stack, or another call of the application. -/
  | stack (e : ConnEvent)
  /-- `tx_cond` is signalled. -/
  | signal
  /-- The thread goes on, with the outcomes of the allocations of `tcp_enqueue`. -/
  | resume (n : ℕ) (alloc : ℕ → Bool)
  /-- The wrapper lets go of the pcb. -/
  | release

/-- The pcb that the wrapper names, unless it was freed. -/
def connPcb : Conn → Option TcpPcb
  | .active pcb | .timeWait pcb => some pcb
  | .gone => none

/-- The connection with a new value of its pcb. -/
def connWith (pcb : TcpPcb) : Conn → Conn
  | .active _ => .active pcb
  | .timeWait _ => .timeWait pcb
  | .gone => .gone

/-- The thread after a round that left the pcb `pcb'`. -/
def Writer.after (s : Writer) (pcb pcb' : TcpPcb) (r : WriteRound) : Writer :=
  let s := { s with
    conn := connWith pcb' s.conn
    enqueued := s.enqueued ++ (queued pcb').drop (queued pcb).length }
  match r with
  | .waits w => { s with tx_cond := s.tx_cond.wait w }
  | .returns v => { s with returned := some v }

/-- One round of the thread. A thread that gets the exception of a closed wrapper is done. -/
def Writer.round (o : Opts) (alloc : ℕ → Bool) (s : Writer) (w : Write) :
    Except Stop Writer :=
  if s.isOpen then
    match connPcb s.conn with
    | none => .error .freed
    | some pcb => do
      let r ← (internalWrite o alloc pcb w).mapError .aborts
      .ok (s.after pcb r.2 r.1)
  else .ok s

/-- One event. -/
def writerStep (o : Opts) (s : Writer) : WriterEvent → Except Stop Writer
  | .stack e => do
    let conn ← (connStep o s.conn e).mapError .aborts
    .ok { s with conn }
  | .signal => .ok { s with tx_cond := s.tx_cond.signal }
  | .resume n alloc =>
    match s.tx_cond.resume n with
    | none => .ok s
    | some (w, c) => { s with tx_cond := c }.round o alloc w
  | .release => .ok { s with isOpen := false }

/-! ## What every run keeps -/

/-- The bytes enqueued are a prefix of the buffer, and all of it once `TCP.write` has returned, with
the length of the buffer. -/
structure ExactlyOnce (buf : List UInt8) (s : Writer) : Prop where
  enqueued : s.enqueued <+: buf
  returned : ∀ v, s.returned = some v → v = buf.length ∧ s.enqueued = buf

/-- The thread stands where the bytes enqueued end. -/
structure WriteAt (buf enqueued : List UInt8) (w : Write) : Prop where
  buf_eq : w.buf = buf
  enqueued_eq : enqueued = buf.take w.off
  acc : w.acc = w.off
  len : w.off + w.len = buf.length

/-- There is at most one thread, it stands where the bytes enqueued end, and it has not returned. -/
structure WriterInv (buf : List UInt8) (s : Writer) : Prop where
  once : ExactlyOnce buf s
  thread : s.tx_cond.threads = [] ∨
    s.returned = none ∧ ∃ w, s.tx_cond.threads = [w] ∧ WriteAt buf s.enqueued w

section Run

variable {o : Opts} {buf : List UInt8} {s s' : Writer}

/-- After a part was enqueued the arguments point behind it. -/
theorem WriteAt.advance {enqueued : List UInt8} {w : Write} (h : WriteAt buf enqueued w) {n : ℕ}
    (hn : n ≤ w.len) : WriteAt buf (enqueued ++ (w.buf.drop w.off).take n) (w.advance n) where
  buf_eq := h.buf_eq
  enqueued_eq := by
    rw [h.buf_eq, h.enqueued_eq]
    exact (List.take_add ..).symm
  acc := congrArg (· + n) h.acc
  len := by
    have hlen := h.len
    show w.off + n + (w.len - n) = buf.length
    omega

/-- A round that was started from the end of the bytes enqueued leaves the thread there again, or
returns with everything enqueued. -/
theorem WriteCase.writerInv {pcb pcb' : TcpPcb} {w : Write} {r : WriteRound}
    (hc : WriteCase pcb w pcb' r) (hw : WriteAt buf s.enqueued w) (ht : s.tx_cond.threads = [])
    (hret : s.returned = none) : WriterInv buf (s.after pcb pcb' r) := by
  have hpre : ∀ {e w'}, WriteAt buf e w' → e <+: buf := fun hw' =>
    hw'.enqueued_eq ▸ List.take_prefix _ _
  have hwait : ∀ w', (s.tx_cond.wait w').threads = [w'] := by
    intro w'
    obtain ⟨hwaiting, hwoken⟩ := List.append_eq_nil_iff.mp ht
    simp [Condition.threads, hwaiting, hwoken]
  cases hc with
  | failed hq =>
    have he : s.enqueued ++ (queued pcb').drop (queued pcb).length = s.enqueued := by simp [hq]
    refine ⟨⟨?_, fun v hv => ?_⟩, .inr ⟨hret, w, hwait w, ?_⟩⟩
    · show s.enqueued ++ _ <+: buf
      rw [he]
      exact hpre hw
    · exact absurd (hret.symm.trans hv) (by simp)
    · show WriteAt buf (s.enqueued ++ _) w
      rw [he]
      exact hw
  | part n hn hq =>
    have hadv := hw.advance hn.le
    have he : (queued pcb').drop (queued pcb).length = (w.buf.drop w.off).take n := by simp [hq]
    rw [← he] at hadv
    refine ⟨⟨hpre hadv, fun v hv => ?_⟩, .inr ⟨hret, _, hwait _, hadv⟩⟩
    exact absurd (hret.symm.trans hv) (by simp)
  | rest hq =>
    have hadv := hw.advance (le_refl w.len)
    have he : (queued pcb').drop (queued pcb).length = (w.buf.drop w.off).take w.len := by simp [hq]
    rw [← he] at hadv
    -- The offset has reached the end of the buffer.
    have hall := hadv.enqueued_eq
    rw [show (w.advance w.len).off = buf.length from hw.len, List.take_length] at hall
    refine ⟨⟨hpre hadv, fun v hv => ?_⟩, .inl ht⟩
    have hv' : w.acc + w.len = v := Option.some.inj hv
    rw [hw.acc, hw.len] at hv'
    exact ⟨hv'.symm, hall⟩

/-- Every event keeps the invariant. -/
theorem WriterInv.step {e : WriterEvent} (h : WriterInv buf s) (hs : writerStep o s e = .ok s') :
    WriterInv buf s' := by
  cases e with
  | stack e =>
    obtain ⟨c, -, hs⟩ := bind_eq_ok.mp hs
    cases hs
    exact ⟨⟨h.once.enqueued, h.once.returned⟩, h.thread⟩
  | signal =>
    cases hs
    refine ⟨⟨h.once.enqueued, h.once.returned⟩, h.thread.imp (fun ht => ?_) ?_⟩
    · exact List.perm_nil.mp (ht ▸ s.tx_cond.signal_threads)
    · rintro ⟨hret, w, ht, hw⟩
      exact ⟨hret, w, List.perm_singleton.mp (ht ▸ s.tx_cond.signal_threads), hw⟩
  | resume n alloc =>
    unfold writerStep at hs
    dsimp only at hs
    split at hs
    · cases hs
      exact h
    next w c hres =>
    have hperm := s.tx_cond.resume_threads hres
    rcases h.thread with ht | ⟨hret, w', ht, hw⟩
    · rw [ht] at hperm
      exact absurd hperm.nil_eq (by simp)
    rw [ht] at hperm
    obtain ⟨rfl, hc⟩ := List.cons_eq_cons.mp (List.singleton_perm.mp hperm)
    unfold Writer.round at hs
    dsimp only at hs
    split at hs
    · split at hs
      · cases hs
      · obtain ⟨⟨r, pcb'⟩, hr, hs⟩ := bind_eq_ok.mp hs
        cases hs
        have hcase := internalWrite_cases (mapError_eq_ok.mp hr)
        exact hcase.writerInv (s := { s with tx_cond := c }) hw hc.symm hret
    · cases hs
      exact ⟨⟨h.once.enqueued, h.once.returned⟩, .inl hc.symm⟩
  | release =>
    cases hs
    exact ⟨⟨h.once.enqueued, h.once.returned⟩, h.thread⟩

/-- At first nothing was enqueued. -/
theorem Writer.start_inv (conn : Conn) (buf : List UInt8) : WriterInv buf (.start conn buf) where
  once := ⟨List.nil_prefix, fun v hv => by cases hv⟩
  thread := .inr ⟨rfl, _, rfl, ⟨rfl, rfl, rfl, Nat.zero_add _⟩⟩

/-- In every state of every run the bytes enqueued are a prefix of the buffer, and `TCP.write`
returns its length after all of it was enqueued. -/
theorem write_exactly_once (o : Opts) (conn : Conn) (buf : List UInt8) (es : List WriterEvent) :
    Always (writerStep o) (ExactlyOnce buf) (.start conn buf) es := by
  intro es' es'' s hes hr
  have hC : Along (writerStep o) (fun _ _ => True) (.start conn buf) es' :=
    .of_forall _ fun _ _ => trivial
  have hinv : WriterInv buf s :=
    run_invariant (fun _ _ _ hi _ hs => WriterInv.step hi hs) (Writer.start_inv conn buf) hC hr
  exact hinv.once

/-- Three hundred octets. -/
def splitBuf : List UInt8 := (List.range 300).map UInt8.ofNat

/-- The send buffer holds the first 256 of them. They are sent and acknowledged; the next call of
`tcp_write` finds no memory, and the one after it enqueues the rest. -/
def splitRun : List WriterEvent :=
  [.resume 0 fun _ => true, .stack (.output 1 true),
    .stack (.input 2 {} {} true
      { seg := { seqno := 1, len := 0, flags := { ack := true } }, ackno := 257, wnd := 1000 }),
    .signal, .resume 0 fun _ => false, .signal, .resume 0 fun _ => true]

/-- A run in which `TCP.write` splits its buffer, is refused once, and returns. -/
theorem write_exactly_once_splitRun :
    ∃ s, run (writerStep .shipped) (.start (.active (.established .shipped 0 0 1000)) splitBuf)
    splitRun = .ok s ∧
      s.returned = some 300 ∧ s.enqueued = splitBuf := by
  obtain ⟨s, hrun, hret⟩ : ∃ s, run (writerStep .shipped)
      (.start (.active (.established .shipped 0 0 1000)) splitBuf) splitRun = .ok s ∧
        s.returned = some 300 := exists_of_any (by decide +kernel)
  have honce := write_exactly_once .shipped _ splitBuf splitRun splitRun [] s
    (List.append_nil _).symm hrun
  exact ⟨s, hrun, hret, (honce.returned 300 hret).2⟩

end Run

end Lwip.Binding
