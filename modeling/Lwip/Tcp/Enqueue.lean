import Lwip.Tcp.Output
import Lwip.Lib.Run
import Mathlib.Data.List.Perm.Basic

/-!
# `tcp_enqueue` with its memory

`tcp_enqueue` once more, with the segments and pbufs that a call takes and gives back, and with all
options of a segment. A cell of memory is known by the number of its request; `Ledger` notes the
cells handed out and those freed. Over the pcb this is the `tcpEnqueue` of `Output`
(`enqueue_refines`). A call that fails has given back each cell it took once, and leaves the pcb as
it was (`enqueue_atomic`).
-/

namespace Lwip.Tcp.Enqueue

/-- `seg->flags`, the options to include. -/
structure OptFlags where
  /-- `TF_SEG_OPTS_MSS`. -/
  mss : Bool := false
  /-- `TF_SEG_OPTS_TS`, if timestamps are compiled in. -/
  ts : Bool := false
  deriving DecidableEq, Repr

/-- `LWIP_TCP_OPT_LENGTH`. -/
def OptFlags.length (f : OptFlags) : ℕ := (if f.mss then 4 else 0) + if f.ts then 12 else 0

/-- `struct tcp_seg`, with the cells of memory that it and its pbufs are in. -/
structure TcpSeg where
  seqno : Serial
  len : ℕ
  /-- `TCPH_FLAGS(tcphdr)`. -/
  flags : TcpFlags := {}
  /-- The data in the pbufs. -/
  data : List UInt8 := []
  /-- `seg->flags`. -/
  optflags : OptFlags := {}
  cell : ℕ
  /-- The pbufs of the chain `seg->p`, none if it is `NULL`. -/
  p : List ℕ
  deriving DecidableEq, Repr

/-- `TCP_TCPLEN(seg)`. -/
def TcpSeg.tcplen (s : TcpSeg) : ℕ := s.len + if s.flags.fin || s.flags.syn then 1 else 0

/-- The fields of a `struct tcp_pcb` that `tcp_enqueue` reads or writes, with `TF_NAGLEMEMERR` and
`TF_FIN` by their names. -/
structure Pcb where
  mss : ℕ
  snd_buf : ℕ
  snd_queuelen : ℕ
  snd_lbb : Serial
  unsent : List TcpSeg
  unacked : List TcpSeg
  naglememerr : Bool := false
  fin : Bool := false
  deriving DecidableEq, Repr

/-- The cells of memory handed out and freed in a call, the latest first. -/
structure Ledger where
  given : List ℕ := []
  freed : List ℕ := []
  deriving DecidableEq, Repr

namespace Ledger

def give (m : Ledger) (c : ℕ) : Ledger := { m with given := c :: m.given }

def free (m : Ledger) (c : ℕ) : Ledger := { m with freed := c :: m.freed }

/-- `pbuf_free` of a chain that nothing else refers to. -/
def pbufFree (m : Ledger) (p : List ℕ) : Ledger := p.foldl free m

/-- `tcp_segs_free`. -/
def tcpSegsFree (m : Ledger) (segs : List TcpSeg) : Ledger :=
  segs.foldl (fun m s => (m.pbufFree s.p).free s.cell) m

end Ledger

/-- How the loop of `tcp_enqueue` ends: with the local `queue` as far as it is built, or complete
and with the number of pbufs. -/
inductive LoopEnd where
  | memerr (queue : List TcpSeg) (m : Ledger)
  | done (queue : List TcpSeg) (queuelen : ℕ) (m : Ledger)
  deriving DecidableEq, Repr

/-- Why a call does not return: an assertion fails, or the rounds of its loop run out. -/
inductive Stop where
  | abort (a : Abort)
  | rounds
  deriving DecidableEq, Repr

section Code

variable (o : Opts) (alloc : ℕ → Bool)

/-- The pbufs of a new segment, `none` if there is no memory for them: one for the headers and the
copied data, or one for the headers and, if there are data, one that refers to them. -/
def newPbufs (copy : Bool) (left base : ℕ) (m : Ledger) : Option (List ℕ) × Ledger :=
  if alloc base then
    let m := m.give base
    if copy then (some [base], m)
    else if left > 0 then
      if alloc (base + 1) then (some [base, base + 1], m.give (base + 1))
      -- deallocate the header pbuf as well
      else (none, m.free base)
    else (some [base], m)
  else (none, m)

/-- The length of the next segment: with its options it should be at most the MSS. -/
def segLen (mss optlen left : ℕ) : ℕ :=
  if (left : ℤ) > (mss : ℤ) - optlen then u16sub mss optlen else left

/-- The loop of `tcp_enqueue`. A round makes up to three requests, which the numbers from `base` on
are for. The room that `pbuf_header` asks for is always there: `PBUF_TRANSPORT` has reserved it. -/
def loop (mss : ℕ) (flags : TcpFlags) (copy : Bool) (optflags : OptFlags) :
    (rounds : ℕ) → (base : ℕ) → (queue : List TcpSeg) → (ptr : List UInt8) → (left : ℕ) →
    (seqno : Serial) → (queuelen : ℕ) → Ledger → Except Stop LoopEnd
  | 0, _, _, _, _, _, _, _ => .error .rounds
  | rounds + 1, base, queue, ptr, left, seqno, queuelen, m =>
    let optlen := optflags.length
    let seglen := segLen mss optlen left
    if alloc base then
      let seg : TcpSeg :=
        { seqno, len := seglen, flags, data := ptr.take seglen, optflags, cell := base, p := [] }
      match newPbufs alloc copy left (base + 1) (m.give base) with
      | (none, m) => .ok (.memerr (queue ++ [seg]) m)
      | (some p, m) => do
        -- The length that `pbuf_alloc` was given has 16 bits.
        lwipAssert (Stop.abort .firstPbufTooShort)
          (copy = false ∨ u16 (seglen + optlen) ≥ seglen + optlen)
        let queue := queue ++ [{ seg with p }]
        let queuelen := queuelen + p.length
        if queuelen > o.TCP_SND_QUEUELEN ∨ queuelen > TCP_SNDQUEUELEN_OVERFLOW then
          .ok (.memerr queue m)
        else
          let left := u16sub left seglen
          if left > 0 then
            loop mss flags copy optflags rounds (base + 3) queue (ptr.drop seglen) left
              (seqno.adv seglen) queuelen m
          else .ok (.done queue queuelen m)
    else .ok (.memerr queue m)

/-- May the first new segment be glued to `useg`, the last one that waits? -/
def glues (pcb : Pcb) (flags : TcpFlags) (useg queue : TcpSeg) : Bool :=
  decide (useg.tcplen ≠ 0) &&
    !(useg.flags.syn || useg.flags.fin) &&
    (!(flags.syn || flags.fin) || decide (flags = { fin := true })) &&
    -- fit within max seg size
    decide (useg.len + queue.len ≤ pcb.mss) &&
    decide (useg.optflags = queue.optflags) &&
    decide (useg.seqno.adv useg.len = queue.seqno)

/-- The new segments go to the end of `unsent`: the first one is glued to the last that waits, and
its own cells are freed, or all go behind it. Returns `unsent` and the number of pbufs. -/
def append (pcb : Pcb) (flags : TcpFlags) (copy : Bool) (q : TcpSeg) (qs : List TcpSeg)
    (queuelen : ℕ) (m : Ledger) : Except Stop (List TcpSeg × ℕ × Ledger) :=
  match pcb.unsent.getLast? with
  | none => .ok (q :: qs, queuelen, m)
  | some useg =>
    if glues pcb flags useg q then do
      -- free the first (header-only) pbuf if it is now empty
      let headerOnly := !copy || decide (q.len = 0)
      let p := if headerOnly then q.p.tail else q.p
      let m := if headerOnly then m.pbufFree (q.p.take 1) else m
      let queuelen := if headerOnly then queuelen - 1 else queuelen
      if flags.fin then
        lwipAssert (Stop.abort .finWithData) (p = [] ∧ q.len = 0)
        .ok (modifyLast (fun u => { u with flags := { u.flags with fin := true } }) pcb.unsent,
          queuelen, m.free q.cell)
      else
        lwipAssert (Stop.abort .zeroLengthPbuf) (p ≠ [] ∧ 0 < q.len)
        .ok (modifyLast (fun u =>
            { u with len := u.len + q.len, data := u.data ++ q.data, p := u.p ++ p }) pcb.unsent ++
            qs,
          queuelen, m.free q.cell)
    else .ok (pcb.unsent ++ q :: qs, queuelen, m)

/-- The end of `tcp_enqueue`. -/
def commit (pcb : Pcb) (len : ℕ) (flags : TcpFlags) (more : Bool) (unsent : List TcpSeg)
    (queuelen : ℕ) : Pcb :=
  let len := if flags.syn || flags.fin then len + 1 else len
  { pcb with
    unsent := modifyLast (fun s => if decide (s.len > 0) && !more then
      { s with flags := { s.flags with psh := true } } else s) unsent
    fin := pcb.fin || flags.fin
    snd_lbb := pcb.snd_lbb.adv len
    snd_buf := u16sub pcb.snd_buf len
    snd_queuelen := queuelen }

/-- `tcp_enqueue`, with the cells that it took and freed. -/
def tcpEnqueue (pcb : Pcb) (arg : List UInt8) (flags : TcpFlags) (copy more : Bool)
    (optflags : OptFlags) : Except Stop (Err × Pcb × Ledger) := do
  lwipAssert (.abort .enqueueNothing) (arg.length ≠ 0 ∨ optflags ≠ {} ∨ flags.syn ∨ flags.fin)
  let memerr := { pcb with naglememerr := true }
  -- fail on too much data
  if arg.length > pcb.snd_buf then .ok (.MEM, memerr, {})
  else if pcb.snd_queuelen ≥ o.TCP_SND_QUEUELEN ∨ pcb.snd_queuelen > TCP_SNDQUEUELEN_OVERFLOW then
    .ok (.MEM, memerr, {})
  else
    lwipAssert (.abort .pbufsButQueuesEmpty)
      (pcb.snd_queuelen = 0 ∨ pcb.unacked ≠ [] ∨ pcb.unsent ≠ [])
    lwipAssert (.abort .noPbufsButQueueNonempty)
      (pcb.snd_queuelen ≠ 0 ∨ pcb.unacked = [] ∧ pcb.unsent = [])
    match ← loop o alloc pcb.mss flags copy optflags (o.TCP_SND_QUEUELEN + 1) 0 [] arg arg.length
        pcb.snd_lbb pcb.snd_queuelen {} with
    | .memerr queue m | .done queue@([]) _ m =>
      lwipAssert (.abort .invalidQueueLength) (pcb.snd_queuelen = 0 ∨ pcb.unacked ≠ [] ∨
        pcb.unsent ≠ [])
      .ok (.MEM, memerr, m.tcpSegsFree queue)
    | .done (q :: qs) queuelen m =>
      let (unsent, queuelen, m) ← append pcb flags copy q qs queuelen m
      .ok (.OK, commit pcb arg.length flags more unsent queuelen, m)

end Code

/-! ## The cells of a call -/

/-- The cells of a segment. -/
def TcpSeg.cells (s : TcpSeg) : List ℕ := s.p ++ [s.cell]

section Cells

variable {m : Ledger} {cells : List ℕ} {base c : ℕ} {segs : List TcpSeg}

def cellsOf (segs : List TcpSeg) : List ℕ := segs.flatMap TcpSeg.cells

/-- The cells of two lists of segments. -/
theorem cellsOf_append (segs segs' : List TcpSeg) :
    cellsOf (segs ++ segs') = cellsOf segs ++ cellsOf segs' := List.flatMap_append

/-- The cells of a list with one segment more. -/
theorem cellsOf_concat (segs : List TcpSeg) (s : TcpSeg) :
    cellsOf (segs ++ [s]) = cellsOf segs ++ s.cells := by
  rw [cellsOf_append]
  simp [cellsOf]

/-- Each cell that was handed out, all of them different and below `base`, is freed, once, or is one
of `cells`. -/
structure Held (m : Ledger) (base : ℕ) (cells : List ℕ) : Prop where
  perm : m.given.Perm (m.freed ++ cells)
  nodup : m.given.Nodup
  lt : ∀ c ∈ m.given, c < base

/-- At first no cell is held. -/
theorem Held.init (base : ℕ) : Held {} base [] := ⟨.nil, .nil, nofun⟩

/-- Requests that come later do not matter. -/
theorem Held.mono {base' : ℕ} (h : Held m base cells) (hle : base ≤ base') : Held m base' cells :=
  ⟨h.perm, h.nodup, fun c hc => (h.lt c hc).trans_le hle⟩

/-- The order of the cells does not matter. -/
theorem Held.congr {cells' : List ℕ} (h : Held m base cells) (hperm : cells.Perm cells') :
    Held m base cells' := ⟨h.perm.trans (hperm.append_left _), h.nodup, h.lt⟩

/-- A cell that is handed out is held. -/
theorem Held.give (h : Held m base cells) (hc : base ≤ c) :
    Held (m.give c) (c + 1) (cells ++ [c]) where
  perm := by
    rw [← List.append_assoc]
    exact (h.perm.cons c).trans (List.perm_append_singleton c _).symm
  nodup := List.nodup_cons.mpr ⟨fun hmem => Nat.lt_irrefl c ((h.lt c hmem).trans_le hc), h.nodup⟩
  lt d hd := by
    rcases List.mem_cons.mp hd with rfl | hd
    · exact Nat.lt_succ_self d
    · have := h.lt d hd
      omega

/-- A cell that is freed is no longer held. -/
theorem Held.free (h : Held m base (c :: cells)) : Held (m.free c) base cells :=
  ⟨h.perm.trans List.perm_middle, h.nodup, h.lt⟩

/-- A pbuf chain that is freed is no longer held. -/
theorem Held.pbufFree {p : List ℕ} (h : Held m base (p ++ cells)) :
    Held (m.pbufFree p) base cells := by
  induction p generalizing m with
  | nil => exact h
  | cons c p ih => exact ih h.free

/-- Segments that are freed are no longer held. -/
theorem Held.tcpSegsFree (h : Held m base (cellsOf segs)) : Held (m.tcpSegsFree segs) base [] := by
  induction segs generalizing m with
  | nil => exact h
  | cons s segs ih =>
    have hs : Held m base (s.p ++ (s.cell :: cellsOf segs)) := by
      rw [List.append_cons, List.append_assoc]
      simpa [cellsOf, TcpSeg.cells] using h
    exact ih hs.pbufFree.free

end Cells

section Loop

variable {o : Opts} {alloc : ℕ → Bool} {mss base : ℕ} {flags : TcpFlags} {copy : Bool}
  {optflags : OptFlags} {cells : List ℕ} {m : Ledger}

/-- The pbufs that a segment gets are new; without memory for all of them none is kept. -/
theorem newPbufs_held {left : ℕ} {p : Option (List ℕ)} {m' : Ledger} (h : Held m base cells)
    (hnew : newPbufs alloc copy left base m = (p, m')) :
    Held m' (base + 2) (cells ++ p.getD []) := by
  have hheader := h.give (Nat.le_refl base)
  unfold newPbufs at hnew
  split at hnew
  · split at hnew
    · cases hnew
      exact hheader.mono (Nat.le_succ _)
    · split at hnew
      · split at hnew
        · cases hnew
          have hboth := hheader.give (Nat.le_refl (base + 1))
          rw [List.append_assoc] at hboth
          exact hboth
        · cases hnew
          rw [Option.getD_none, List.append_nil]
          exact (hheader.congr (List.perm_append_singleton base cells)).free.mono (Nat.le_succ _)
      · cases hnew
        exact hheader.mono (Nat.le_succ _)
  · cases hnew
    rw [Option.getD_none, List.append_nil]
    exact h.mono (Nat.le_add_right base 2)

/-- The cells behind the end of the loop. -/
def LoopEnd.Held : LoopEnd → Prop
  | .memerr queue m => ∃ base, Enqueue.Held m base (cellsOf queue)
  | .done queue _ m => ∃ base, Enqueue.Held m base (cellsOf queue)

/-- The loop keeps the cells it takes in its queue. -/
theorem loop_held (rounds : ℕ) {queue : List TcpSeg} {ptr : List UInt8} {left queuelen : ℕ}
    {seqno : Serial} {e : LoopEnd} (h : Held m base (cellsOf queue))
    (hloop : loop o alloc mss flags copy optflags rounds base queue ptr left seqno queuelen m =
    .ok e) : e.Held := by
  induction rounds generalizing base queue ptr left seqno queuelen m with
  | zero => cases hloop
  | succ rounds ih =>
    unfold loop at hloop
    dsimp only at hloop
    split at hloop
    · have hseg := h.give (Nat.le_refl base)
      split at hloop
      · next hnew =>
        have hpbufs := newPbufs_held hseg hnew
        rw [Option.getD_none, List.append_nil] at hpbufs
        cases hloop
        refine ⟨base + 1 + 2, ?_⟩
        rw [cellsOf_concat]
        exact hpbufs
      · next p m' hnew =>
        have hpbufs := newPbufs_held hseg hnew
        obtain ⟨_, -, hloop⟩ := bind_eq_ok.mp hloop
        have hqueue : ∀ (s : TcpSeg), s.p = p → s.cell = base → Held m' (base + 3)
          (cellsOf (queue ++ [s])) := by
          intro s hp hcell
          rw [cellsOf_concat, TcpSeg.cells, hp, hcell]
          refine hpbufs.congr ?_
          rw [List.append_assoc]
          exact (List.perm_append_comm : ([base] ++ p).Perm (p ++ [base])).append_left
            (cellsOf queue)
        split at hloop
        · cases hloop
          exact ⟨base + 3, hqueue _ rfl rfl⟩
        · split at hloop
          · exact ih (hqueue _ rfl rfl) hloop
          · cases hloop
            exact ⟨base + 3, hqueue _ rfl rfl⟩
    · cases hloop
      exact ⟨base, h⟩

end Loop

section Atomic

variable {o : Opts} {alloc : ℕ → Bool} {pcb pcb' : Pcb} {arg : List UInt8} {flags : TcpFlags}
  {copy more : Bool} {optflags : OptFlags} {e : Err} {m : Ledger}

/-- How a call ends: with the memory error noted and all its cells freed, or with the new segments
enqueued. -/
theorem tcpEnqueue_cases
    (h : tcpEnqueue o alloc pcb arg flags copy more optflags = .ok (e, pcb', m)) :
    (e = .MEM ∧ pcb' = { pcb with naglememerr := true } ∧ ∃ base, Held m base []) ∨
      (e = .OK ∧ arg.length ≤ pcb.snd_buf ∧
        ∃ q qs queuelen m₁ unsent queuelen',
          loop o alloc pcb.mss flags copy optflags (o.TCP_SND_QUEUELEN + 1) 0 [] arg arg.length
            pcb.snd_lbb pcb.snd_queuelen {} = .ok (.done (q :: qs) queuelen m₁) ∧
          append pcb flags copy q qs queuelen m₁ = .ok (unsent, queuelen', m) ∧
          pcb' = commit pcb arg.length flags more unsent queuelen') := by
  unfold tcpEnqueue at h
  obtain ⟨_, -, h⟩ := bind_eq_ok.mp h
  dsimp only at h
  split at h
  · cases h
    exact .inl ⟨rfl, rfl, 0, .init 0⟩
  next hbuf =>
  split at h
  · cases h
    exact .inl ⟨rfl, rfl, 0, .init 0⟩
  obtain ⟨_, -, h⟩ := bind_eq_ok.mp h
  obtain ⟨_, -, h⟩ := bind_eq_ok.mp h
  obtain ⟨e', hloop, h⟩ := bind_eq_ok.mp h
  have hheld := loop_held _ (Held.init 0) hloop
  split at h
  · obtain ⟨_, -, h⟩ := bind_eq_ok.mp h
    cases h
    obtain ⟨base, hheld⟩ := hheld
    exact .inl ⟨rfl, rfl, base, hheld.tcpSegsFree⟩
  · obtain ⟨_, -, h⟩ := bind_eq_ok.mp h
    cases h
    obtain ⟨base, hheld⟩ := hheld
    exact .inl ⟨rfl, rfl, base, hheld⟩
  · next q qs queuelen m₁ =>
    obtain ⟨⟨unsent, queuelen', m₂⟩, happ, h⟩ := bind_eq_ok.mp h
    cases h
    exact .inr ⟨rfl, by omega, q, qs, queuelen, m₁, unsent, queuelen', hloop, happ, rfl⟩

/-- A call that returns an error leaves the pcb as it was, but for `TF_NAGLEMEMERR`, and has freed
every segment and pbuf that it took exactly once. -/
theorem enqueue_atomic
    (h : tcpEnqueue o alloc pcb arg flags copy more optflags = .ok (e, pcb', m)) (he : e ≠ .OK) :
    pcb' = { pcb with naglememerr := true } ∧ m.given.Nodup ∧ m.freed.Perm m.given := by
  rcases tcpEnqueue_cases h with ⟨-, hpcb, base, hheld⟩ | ⟨hok, -⟩
  · have hperm := hheld.perm
    rw [List.append_nil] at hperm
    exact ⟨hpcb, hheld.nodup, hperm.symm⟩
  · exact absurd hok he

/-- A pcb whose peer takes segments of four bytes. -/
def fourBytes : Pcb :=
  { mss := 4, snd_buf := 16, snd_queuelen := 0, snd_lbb := 0, unsent := [], unacked := [] }

/-- There is no memory for the copy of the second segment. -/
theorem enqueue_fails_second :
    tcpEnqueue .sane (fun n => n ≠ 4) fourBytes [1, 2, 3, 4, 5, 6] {} true false {} =
        .ok (.MEM, { fourBytes with naglememerr := true }, ⟨[3, 1, 0], [3, 0, 1]⟩) ∧
      [3, 0, 1].Perm [3, 1, 0] := by
  have hrun : tcpEnqueue .sane (fun n => n ≠ 4) fourBytes [1, 2, 3, 4, 5, 6] {} true false {} =
      .ok (.MEM, { fourBytes with naglememerr := true }, ⟨[3, 1, 0], [3, 0, 1]⟩) := rfl
  exact ⟨hrun, (enqueue_atomic hrun nofun).2.2⟩

end Atomic

/-! ## The function over the pcb alone -/

/-- The segment without its cells and its timestamp option. -/
def TcpSeg.erase (s : TcpSeg) : Seg :=
  { seqno := s.seqno, len := s.len, flags := s.flags, p := s.data, optMss := s.optflags.mss,
    clen := s.p.length }

/-- The pcb has the fields of `e`, whose segments have no timestamp option. -/
structure Stands (e : Pcb) (pcb : TcpPcb) : Prop where
  mss : pcb.mss = e.mss
  snd_buf : pcb.snd_buf = e.snd_buf
  snd_queuelen : pcb.snd_queuelen = e.snd_queuelen
  snd_lbb : pcb.snd_lbb = e.snd_lbb
  unsent : pcb.unsent = e.unsent.map TcpSeg.erase
  unacked : pcb.unacked = e.unacked.map TcpSeg.erase
  naglememerr : pcb.flags.naglememerr = e.naglememerr
  fin : pcb.flags.fin = e.fin
  ts : ∀ s ∈ e.unsent, s.optflags.ts = false

/-- Both calls stop at one assertion, or return the same error and pcbs that stand for each
other. -/
def SameEnd : Except Stop (Err × Pcb × Ledger) → Except Abort (Err × TcpPcb) → Prop
  | .error (.abort a), .error b => a = b
  | .ok (err, e, _), .ok (err', pcb) => err = err' ∧ Stands e pcb
  | _, _ => False

section Refines

variable {o : Opts} {alloc : ℕ → Bool} {flags : TcpFlags} {copy more optMss : Bool}

variable (alloc copy) in
/-- The pbufs of a new segment are there if each request for one succeeds. -/
theorem newPbufs_fst (left base : ℕ) (m : Ledger) :
    ((newPbufs alloc copy left base m).1 = none ∧
        (!alloc base || (!copy && decide (left > 0) && !alloc (base + 1))) = true) ∨
      ∃ p, (newPbufs alloc copy left base m).1 = some p ∧
        (!alloc base || (!copy && decide (left > 0) && !alloc (base + 1))) = false ∧
        p.length = if !copy && decide (left > 0) then 2 else 1 := by
  unfold newPbufs
  by_cases hheader : alloc base = true
  · cases copy with
    | true => exact .inr ⟨[base], by simp [hheader]⟩
    | false =>
      by_cases hleft : left > 0
      · by_cases hdata : alloc (base + 1) = true
        · exact .inr ⟨[base, base + 1], by simp [hheader, hleft, hdata]⟩
        · exact .inl (by simp [hheader, hleft, hdata])
      · exact .inr ⟨[base], by simp [hheader, hleft]⟩
  · exact .inl (by simp [hheader])

/-- The assertion on the first pbuf holds if the options fit in the segment size. -/
theorem segLen_fits {mss optlen left : ℕ} (hopt : optlen ≤ mss) (hmss : mss ≤ 0xffff) :
    segLen mss optlen left + optlen ≤ mss ∧
      u16 (segLen mss optlen left + optlen) ≥ segLen mss optlen left + optlen := by
  have hle : segLen mss optlen left + optlen ≤ mss := by
    unfold segLen u16sub
    split <;> omega
  refine ⟨hle, ?_⟩
  unfold u16
  rw [Nat.mod_eq_of_lt (by omega)]

/-- What the two loops end with. -/
def LoopSame : Except Stop LoopEnd → Option (List Seg × ℕ) → Prop
  | .ok (.done q queuelen _), r => r = some (q.map TcpSeg.erase, queuelen)
  | .ok (.memerr _ _), r => r = none
  | .error _, _ => False

variable (o alloc flags copy) in
/-- The rounds are enough, and the assertion holds if the options fit in the segment size; else it
is not come to without memory. -/
theorem loop_refines {mss : ℕ} (optflags : OptFlags) (hmss : mss ≤ 0xffff) (rounds : ℕ) :
    ∀ (base : ℕ) (queue : List TcpSeg) (ptr : List UInt8) (left : ℕ) (seqno : Serial) (queuelen : ℕ)
      (m : Ledger), o.TCP_SND_QUEUELEN < queuelen + rounds → queuelen ≤ o.TCP_SND_QUEUELEN →
      (alloc base = true → alloc (base + 1) = true → copy = false ∨ optflags.length ≤ mss) →
      LoopSame (loop o alloc mss flags copy optflags rounds base queue ptr left seqno queuelen m)
        (tcpEnqueueLoop o mss optflags.length flags copy optflags.mss rounds
          (fun n => alloc (base + n)) (queue.map TcpSeg.erase) ptr left seqno queuelen) := by
  induction rounds with
  | zero =>
    intro base queue ptr left seqno queuelen m hrounds hle
    omega
  | succ rounds ih =>
    intro base queue ptr left seqno queuelen m hrounds hle hopt
    unfold loop tcpEnqueueLoop
    change LoopSame _ (if (!alloc base || !alloc (base + 1) ||
      (!copy && decide (left > 0) && !alloc (base + 1 + 1))) = true then _ else _)
    dsimp only
    by_cases hseg : alloc base = true
    · rw [if_pos hseg]
      have hfst := newPbufs_fst alloc copy left (base + 1) (m.give base)
      generalize newPbufs alloc copy left (base + 1) (m.give base) = r at hfst
      obtain ⟨p?, m'⟩ := r
      simp only [hseg, Bool.not_true, Bool.false_or]
      rcases hfst with ⟨hnone, hfail⟩ | ⟨p, hsome, hok, hlen⟩
      · obtain rfl : p? = none := hnone
        rw [if_pos hfail]
        exact rfl
      · obtain rfl : p? = some p := hsome
        have hopt : copy = false ∨ optflags.length ≤ mss := by
          refine hopt hseg ?_
          cases hheader : alloc (base + 1) with
          | true => rfl
          | false =>
            rw [hheader] at hok
            cases hok
        have hassert : lwipAssert (Stop.abort .firstPbufTooShort) (copy = false ∨
            u16 (segLen mss optflags.length left + optflags.length) ≥
              segLen mss optflags.length left + optflags.length) = .ok () :=
          if_pos (hopt.imp_right fun h => (segLen_fits h hmss).2)
        have hclen : 1 ≤ p.length := by
          rw [hlen]
          split <;> omega
        rw [hok, if_neg (by decide)]
        dsimp only
        rw [hassert, ← hlen]
        change LoopSame (if _ then _ else _) _
        by_cases hlimit : queuelen + p.length > o.TCP_SND_QUEUELEN ∨
            queuelen + p.length > TCP_SNDQUEUELEN_OVERFLOW
        · rw [if_pos hlimit, if_pos hlimit]
          exact rfl
        · rw [if_neg hlimit, if_neg hlimit, show (if (left : ℤ) > (mss : ℤ) - optflags.length then
            u16sub mss optflags.length else left) = segLen mss optflags.length left from rfl]
          have hmap : ∀ s : TcpSeg, (queue ++ [s]).map TcpSeg.erase =
              queue.map TcpSeg.erase ++ [s.erase] :=
            fun s => List.map_append
          by_cases hmore : u16sub left (segLen mss optflags.length left) > 0
          · rw [if_pos hmore, if_pos hmore]
            have hnext := ih (base + 3) (queue ++ [⟨seqno, segLen mss optflags.length left, flags,
              ptr.take (segLen mss optflags.length left), optflags, base, p⟩])
              (ptr.drop (segLen mss optflags.length left))
              (u16sub left (segLen mss optflags.length left))
              (seqno.adv (segLen mss optflags.length left)) (queuelen + p.length) m'
              (by omega) (by omega) (fun _ _ => hopt)
            rw [hmap] at hnext
            have halloc : (fun n => alloc (base + (n + 3))) = fun n => alloc (base + 3 + n) := by
              funext n
              congr 1
              omega
            rw [← halloc] at hnext
            exact hnext
          · rw [if_neg hmore, if_neg hmore]
            exact congrArg some (Prod.ext (hmap ⟨seqno, segLen mss optflags.length left, flags,
              ptr.take (segLen mss optflags.length left), optflags, base, p⟩).symm rfl)
    · rw [if_neg hseg, if_pos (by simp [hseg])]
      exact rfl

/-- The test for gluing is that of `Output`. -/
theorem Stands.glues_eq {e : Pcb} {pcb : TcpPcb} (h : Stands e pcb) {useg q : TcpSeg}
    (hu : useg ∈ e.unsent) (hq : q.optflags.ts = false) :
    glues e flags useg q = canGlue pcb flags useg.erase q.erase := by
  have hopt : decide (useg.optflags = q.optflags) =
      decide (useg.erase.optMss = q.erase.optMss) := by
    refine decide_eq_decide.mpr ⟨fun heq => congrArg OptFlags.mss heq, fun heq => ?_⟩
    have hts := h.ts useg hu
    cases hx : useg.optflags
    cases hy : q.optflags
    rw [TcpSeg.erase, TcpSeg.erase, hx, hy] at heq
    rw [hx] at hts
    rw [hy] at hq
    dsimp only at heq hts hq
    rw [heq, hts, hq]
  unfold glues canGlue
  rw [hopt, h.mss]
  rfl

/-- A change of the last element goes through a map. -/
theorem map_modifyLast {α β : Type} (f : α → β) {g : α → α} {g' : β → β}
    (hg : ∀ a, f (g a) = g' (f a)) (l : List α) :
    (modifyLast g l).map f = modifyLast g' (l.map f) := by
  fun_induction modifyLast g l with
  | case1 => rfl
  | case2 x => exact congrArg (fun y => [y]) (hg x)
  | case3 x y l ih =>
    rw [List.map_cons, ih]
    rfl

/-- An element of the changed list is an old one, or an old one changed. -/
theorem mem_modifyLast {α : Type} {f : α → α} {l : List α} {x : α} (hx : x ∈ modifyLast f l) :
    x ∈ l ∨ ∃ y ∈ l, x = f y := by
  fun_induction modifyLast f l with
  | case1 => cases hx
  | case2 y => exact .inr ⟨y, List.mem_singleton_self y, List.mem_singleton.mp hx⟩
  | case3 y z l ih =>
    rcases List.mem_cons.mp hx with rfl | hx
    · exact .inl List.mem_cons_self
    · rcases ih hx with hx | ⟨w, hw, rfl⟩
      · exact .inl (List.mem_cons_of_mem y hx)
      · exact .inr ⟨w, List.mem_cons_of_mem y hw, rfl⟩

variable (flags copy) in

/-- What is appended is what `Output` appends. -/
theorem append_refines {e : Pcb} {pcb : TcpPcb} (h : Stands e pcb) {q : TcpSeg} {qs : List TcpSeg}
    (hq : ∀ s ∈ q :: qs, s.optflags.ts = false) (queuelen : ℕ) (m : Ledger) :
    match append e flags copy q qs queuelen m with
    | .ok (unsent, queuelen', _) =>
      tcpEnqueueAppend pcb flags copy q.erase (qs.map TcpSeg.erase) queuelen =
        .ok (unsent.map TcpSeg.erase, queuelen') ∧ ∀ s ∈ unsent, s.optflags.ts = false
    | .error stop => ∃ a, stop = .abort a ∧
      tcpEnqueueAppend pcb flags copy q.erase (qs.map TcpSeg.erase) queuelen = .error a := by
  have hlast : pcb.unsent.getLast? = e.unsent.getLast?.map TcpSeg.erase := by
    rw [h.unsent, List.getLast?_map]
  have hall : ∀ s ∈ e.unsent ++ q :: qs, s.optflags.ts = false := by
    intro s hs
    rcases List.mem_append.mp hs with hs | hs
    · exact h.ts s hs
    · exact hq s hs
  unfold append tcpEnqueueAppend
  rw [hlast]
  cases hu : e.unsent.getLast? with
  | none => exact ⟨rfl, hq⟩
  | some useg =>
    have hmem : useg ∈ e.unsent := List.mem_of_getLast? hu
    rw [Option.map_some]
    dsimp only
    rw [← h.glues_eq hmem (hq q List.mem_cons_self)]
    by_cases hg : glues e flags useg q = true
    · rw [if_pos hg, if_pos hg]
      -- The chain of pbufs is as long as the count says.
      have hclen : (if (!copy || decide (q.erase.len = 0)) = true then q.erase.clen - 1
          else q.erase.clen) =
          (if (!copy || decide (q.len = 0)) = true then q.p.tail else q.p).length := by
        change (if (!copy || decide (q.len = 0)) = true then q.p.length - 1 else q.p.length) = _
        split
        · rw [List.length_tail]
        · rfl
      rw [hclen]
      generalize (if (!copy || decide (q.len = 0)) = true then q.p.tail else q.p) = p
      by_cases hfin : flags.fin = true
      · rw [if_pos hfin, if_pos hfin]
        by_cases hnone : p = [] ∧ q.len = 0
        · have hlen : p.length = 0 ∧ q.erase.len = 0 := ⟨by rw [hnone.1]; rfl, hnone.2⟩
          rw [show lwipAssert (Stop.abort .finWithData) (p = [] ∧ q.len = 0) = .ok ()
            from if_pos hnone,
            show lwipAssert Abort.finWithData (p.length = 0 ∧ q.erase.len = 0) = .ok ()
              from if_pos hlen]
          refine ⟨?_, fun s hs => ?_⟩
          · rw [h.unsent]
            exact congrArg Except.ok (Prod.ext
              (map_modifyLast TcpSeg.erase (fun _ => rfl) e.unsent).symm rfl)
          · rcases mem_modifyLast hs with hs | ⟨u, hu, rfl⟩
            · exact h.ts s hs
            · exact h.ts u hu
        · have hlen : ¬ (p.length = 0 ∧ q.erase.len = 0) := fun hlen =>
            hnone ⟨List.length_eq_zero_iff.mp hlen.1, hlen.2⟩
          rw [show lwipAssert (Stop.abort .finWithData) (p = [] ∧ q.len = 0) =
            .error (.abort .finWithData)
            from if_neg hnone,
            show lwipAssert Abort.finWithData (p.length = 0 ∧ q.erase.len = 0) =
              .error .finWithData from
              if_neg hlen]
          exact ⟨.finWithData, rfl, rfl⟩
      · rw [if_neg hfin, if_neg hfin]
        by_cases hsome : p ≠ [] ∧ 0 < q.len
        · have hlen : p.length ≠ 0 ∧ 0 < q.erase.len :=
            ⟨fun hlen => hsome.1 (List.length_eq_zero_iff.mp hlen), hsome.2⟩
          rw [show lwipAssert (Stop.abort .zeroLengthPbuf) (p ≠ [] ∧ 0 < q.len) = .ok ()
            from if_pos hsome,
            show lwipAssert Abort.zeroLengthPbuf (p.length ≠ 0 ∧ 0 < q.erase.len) = .ok ()
              from if_pos hlen]
          refine ⟨?_, fun s hs => ?_⟩
          · rw [h.unsent]
            have hmap : (modifyLast (fun u : TcpSeg => { u with
                  len := u.len + q.len, data := u.data ++ q.data, p := u.p ++ p }) e.unsent).map
                  TcpSeg.erase =
                modifyLast (fun u : Seg => { u with
                  len := u.len + q.len, p := u.p ++ q.data, clen := u.clen + p.length })
                  (e.unsent.map TcpSeg.erase) := by
              apply map_modifyLast
              intro u
              simp [TcpSeg.erase]
            refine congrArg Except.ok (Prod.ext ?_ rfl)
            rw [List.map_append, hmap]
            rfl
          · rcases List.mem_append.mp hs with hs | hs
            · rcases mem_modifyLast hs with hs | ⟨u, hu, rfl⟩
              · exact h.ts s hs
              · exact h.ts u hu
            · exact hq s (List.mem_cons_of_mem q hs)
        · have hlen : ¬ (p.length ≠ 0 ∧ 0 < q.erase.len) := fun hlen =>
            hsome ⟨fun hp => hlen.1 (by rw [hp]; rfl), hlen.2⟩
          rw [show lwipAssert (Stop.abort .zeroLengthPbuf) (p ≠ [] ∧ 0 < q.len) = .error
            (.abort .zeroLengthPbuf) from
              if_neg hsome,
            show lwipAssert Abort.zeroLengthPbuf (p.length ≠ 0 ∧ 0 < q.erase.len) =
              .error .zeroLengthPbuf from if_neg hlen]
          exact ⟨.zeroLengthPbuf, rfl, rfl⟩
    · rw [if_neg hg, if_neg hg]
      refine ⟨?_, hall⟩
      rw [h.unsent, List.map_append, List.map_cons]

/-- A segment of the result was there before, or has the options of the call. -/
theorem loop_mem {mss : ℕ} {optflags : OptFlags} (rounds : ℕ) {base left queuelen queuelen' : ℕ}
    {queue queue' : List TcpSeg} {ptr : List UInt8} {seqno : Serial} {m m' : Ledger}
    (h : loop o alloc mss flags copy optflags rounds base queue ptr left seqno queuelen m =
      .ok (.done queue' queuelen' m')) :
    ∀ s ∈ queue', s ∈ queue ∨ s.optflags = optflags := by
  induction rounds generalizing base queue ptr left seqno queuelen m with
  | zero => cases h
  | succ rounds ih =>
    have hconcat : ∀ {new s : TcpSeg}, new.optflags = optflags → s ∈ queue ++ [new] →
        s ∈ queue ∨ s.optflags = optflags := by
      intro new s hnew hs
      rcases List.mem_append.mp hs with hs | hs
      · exact .inl hs
      · rw [List.mem_singleton.mp hs]
        exact .inr hnew
    unfold loop at h
    dsimp only at h
    split at h
    · split at h
      · cases h
      · obtain ⟨_, -, h⟩ := bind_eq_ok.mp h
        split at h
        · cases h
        · split at h
          · intro s hs
            rcases ih h s hs with hs | hs
            · exact hconcat rfl hs
            · exact .inr hs
          · cases h
            exact fun s hs => hconcat rfl hs
    · cases h

/-- The end of a call leaves the pcb of `Output`. -/
theorem Stands.commit {e : Pcb} {pcb : TcpPcb} (h : Stands e pcb) {unsent : List TcpSeg}
    (hts : ∀ s ∈ unsent, s.optflags.ts = false) (len : ℕ) (more : Bool) (queuelen : ℕ) :
    Stands (commit e len flags more unsent queuelen)
      (tcpEnqueueCommit pcb len flags more (unsent.map TcpSeg.erase) queuelen) where
  mss := h.mss
  snd_buf := by
    unfold Enqueue.commit tcpEnqueueCommit
    dsimp only
    rw [h.snd_buf]
  snd_queuelen := rfl
  snd_lbb := by
    unfold Enqueue.commit tcpEnqueueCommit
    dsimp only
    rw [h.snd_lbb]
  unsent := by
    refine (map_modifyLast TcpSeg.erase (fun s => ?_) unsent).symm
    by_cases hpsh : (decide (s.len > 0) && !more) = true
    · rw [if_pos hpsh]
      exact (if_pos hpsh).symm
    · rw [if_neg hpsh]
      exact (if_neg hpsh).symm
  unacked := h.unacked
  naglememerr := h.naglememerr
  fin := by
    unfold Enqueue.commit tcpEnqueueCommit
    dsimp only
    rw [h.fin]
  ts s hs := by
    rcases mem_modifyLast hs with hs | ⟨u, hu, rfl⟩
    · exact hts s hs
    · split
      · exact hts u hu
      · exact hts u hu

/-- Where the options exceed the segment size, the first copy is aborted. -/
theorem loop_too_short {mss rounds base left queuelen : ℕ} {optflags : OptFlags}
    {queue : List TcpSeg}
    {ptr : List UInt8} {seqno : Serial} {m : Ledger} (hopt : mss < optflags.length)
    (hseg : alloc base = true) (hheader : alloc (base + 1) = true) :
    loop o alloc mss flags true optflags (rounds + 1) base queue ptr left seqno queuelen m =
      .error (.abort .firstPbufTooShort) := by
  have hle : optflags.length ≤ 16 := by
    unfold OptFlags.length
    split <;> split <;> decide
  have hlong : ¬ (true = false ∨ u16 (segLen mss optflags.length left + optflags.length) ≥
      segLen mss optflags.length left + optflags.length) := by
    rintro (hcopy | hfits)
    · cases hcopy
    · unfold segLen u16sub u16 at hfits
      rw [if_pos (by omega)] at hfits
      omega
  have hnew : newPbufs alloc true left (base + 1) (m.give base) =
      (some [base + 1], (m.give base).give (base + 1)) := by
    simp [newPbufs, hheader]
  unfold loop
  rw [if_pos hseg, hnew]
  dsimp only
  rw [show lwipAssert (Stop.abort .firstPbufTooShort) _ =
    .error (Stop.abort .firstPbufTooShort) from if_neg hlong]
  rfl

/-- Two calls that make the same assertion go on alike. -/
theorem SameEnd.assert {a : Abort} {p p' : Prop} [Decidable p] [Decidable p'] (hp : p ↔ p')
    {k : Unit → Except Stop (Err × Pcb × Ledger)} {k' : Unit → Except Abort (Err × TcpPcb)}
    (h : p → SameEnd (k ()) (k' ())) :
    SameEnd (lwipAssert (Stop.abort a) p >>= k) (lwipAssert a p' >>= k') := by
  by_cases hyes : p
  · rw [show lwipAssert (Stop.abort a) p = .ok () from if_pos hyes,
      show lwipAssert a p' = .ok () from if_pos (hp.mp hyes)]
    exact h hyes
  · rw [show lwipAssert (Stop.abort a) p = .error (.abort a) from if_neg hyes,
      show lwipAssert a p' = .error a from if_neg fun h => hyes (hp.mpr h)]
    exact rfl

/-- `tcp_enqueue` with its memory does to the pcb what `tcpEnqueue` does. -/
theorem enqueue_refines {e : Pcb} {pcb : TcpPcb} (h : Stands e pcb) (hmss : pcb.mss ≤ 0xffff)
    (arg : List UInt8) :
    SameEnd (tcpEnqueue o alloc e arg flags copy more { mss := optMss })
      (Tcp.tcpEnqueue o alloc pcb arg flags copy more optMss) := by
  have hmem : Stands { e with naglememerr := true } (tcpMemErr pcb) :=
    ⟨h.mss, h.snd_buf, h.snd_queuelen, h.snd_lbb, h.unsent, h.unacked, rfl, h.fin, h.ts⟩
  have hnil : ∀ {l : List TcpSeg} {l' : List Seg}, l' = l.map TcpSeg.erase →
      (l' = [] ↔ l = []) := by
    rintro l _ rfl
    exact List.map_eq_nil_iff
  have hlen : ({ mss := optMss } : OptFlags).length = if optMss then 4 else 0 := rfl
  unfold tcpEnqueue Tcp.tcpEnqueue
  have hmss' : e.mss ≤ 0xffff := h.mss ▸ hmss
  rw [h.snd_buf, h.snd_queuelen, h.mss, h.snd_lbb]
  refine .assert ?_ fun _ => ?_
  · have hopt : ({ mss := optMss } : OptFlags) ≠ {} ↔ optMss = true := by
      cases optMss <;> decide
    rw [hopt]
  split
  · exact ⟨rfl, hmem⟩
  split
  · exact ⟨rfl, hmem⟩
  next hlimit =>
  refine .assert (by rw [Ne, Ne, Ne, Ne, hnil h.unacked, hnil h.unsent]) fun hqueued => ?_
  refine .assert (by rw [hnil h.unacked, hnil h.unsent]) fun _ => ?_
  by_cases hshort : copy = true ∧ e.mss < (if optMss = true then 4 else 0) ∧ alloc 0 = true ∧
      alloc 1 = true
  · obtain ⟨rfl, hopt, hseg, hheader⟩ := hshort
    rw [loop_too_short hopt hseg hheader, show lwipAssert Abort.firstPbufTooShort _ =
      .error Abort.firstPbufTooShort from if_neg (not_not_intro ⟨rfl, hopt, hseg, hheader⟩)]
    exact rfl
  rw [show lwipAssert Abort.firstPbufTooShort _ = .ok () from if_pos hshort]
  have hloop := loop_refines o alloc flags copy { mss := optMss } hmss' (o.TCP_SND_QUEUELEN + 1) 0
    [] arg arg.length e.snd_lbb e.snd_queuelen
    {} (by omega) (by omega) fun hseg hheader => by
      by_contra hno
      push Not at hno
      exact hshort ⟨by simpa using hno.1, hno.2, hseg, hheader⟩
  have halloc : (fun n => alloc (0 + n)) = alloc := by
    funext n
    rw [Nat.zero_add]
  rw [halloc] at hloop
  have hmemerr : ∀ m, SameEnd (do
        lwipAssert (.abort .invalidQueueLength) (e.snd_queuelen = 0 ∨ e.unacked ≠ [] ∨
          e.unsent ≠ [])
        .ok (.MEM, { e with naglememerr := true }, m))
      (do
        lwipAssert .invalidQueueLength (e.snd_queuelen = 0 ∨ pcb.unacked ≠ [] ∨ pcb.unsent ≠ [])
        .ok (.MEM, tcpMemErr pcb)) := fun m =>
    .assert (by rw [Ne, Ne, Ne, Ne, hnil h.unacked, hnil h.unsent]) fun _ => ⟨rfl, hmem⟩
  cases hl : loop o alloc e.mss flags copy { mss := optMss } (o.TCP_SND_QUEUELEN + 1) 0
    [] arg arg.length
      e.snd_lbb e.snd_queuelen {} with
  | error stop =>
    rw [hl] at hloop
    cases hloop
  | ok r =>
    rw [hl] at hloop
    cases r with
    | memerr queue m =>
      have hnone : tcpEnqueueLoop o e.mss (if optMss = true then 4 else 0) flags copy optMss
        (o.TCP_SND_QUEUELEN + 1) alloc [] arg arg.length e.snd_lbb e.snd_queuelen = none := hloop
      rw [hnone]
      exact hmemerr _
    | done queue queuelen m =>
      have hsome : tcpEnqueueLoop o e.mss (if optMss = true then 4 else 0) flags copy optMss
        (o.TCP_SND_QUEUELEN + 1) alloc [] arg arg.length e.snd_lbb e.snd_queuelen =
          some (queue.map TcpSeg.erase, queuelen) := hloop
      rw [hsome]
      cases queue with
      | nil => exact hmemerr _
      | cons q qs =>
        have hts : ∀ s ∈ q :: qs, s.optflags.ts = false := by
          intro s hs
          rcases loop_mem _ hl s hs with hs | hopt
          · cases hs
          · rw [hopt]
        have happend := append_refines flags copy h hts queuelen m
        change SameEnd (append e flags copy q qs queuelen m >>= fun r => _)
          (tcpEnqueueAppend pcb flags copy q.erase (qs.map TcpSeg.erase) queuelen >>= fun r => _)
        cases ha : append e flags copy q qs queuelen m with
        | error stop =>
          rw [ha] at happend
          obtain ⟨a, rfl, hold⟩ := happend
          rw [hold]
          exact rfl
        | ok r =>
          obtain ⟨unsent, queuelen', m'⟩ := r
          rw [ha] at happend
          obtain ⟨hold, hts'⟩ := happend
          rw [hold]
          exact ⟨rfl, h.commit hts' arg.length more queuelen'⟩

end Refines

end Lwip.Tcp.Enqueue
