import Mathlib.Algebra.Order.BigOperators.Group.List
import Mathlib.Algebra.Order.Group.Nat
import Lwip.Tcp.Closing
import Lwip.Tcp.Refused
import Lwip.Tcp.Queued

/-!
# The count of queued pbufs

`snd_queuelen` is the number of pbufs of the segments on the two send queues. `tcp_enqueue` keeps it
within `TCP_SND_QUEUELEN`, the retransmissions only move segments between the queues (`Moved`), and
an acknowledgement takes off the count what it frees. The count is kept in a `u8_t` where a segment
is freed, so this takes a limit below 256.
-/

namespace Lwip.Tcp

/-- The number of pbufs of a queue. -/
def clens (q : List Seg) : ℕ := (q.map Seg.clen).sum

/-- No segment has no pbufs. -/
@[simp] theorem clens_nil : clens [] = 0 := rfl

/-- The pbufs of the first segment and of the rest. -/
@[simp] theorem clens_cons (s : Seg) (q : List Seg) : clens (s :: q) = s.clen + clens q := rfl

/-- The pbufs of two queues. -/
@[simp] theorem clens_append (q q' : List Seg) : clens (q ++ q') = clens q + clens q' := by
  simp [clens]

/-- A segment has not more pbufs than its queue. -/
theorem clen_le_clens {s : Seg} {q : List Seg} (h : s ∈ q) : s.clen ≤ clens q :=
  List.le_sum_of_mem (List.mem_map_of_mem h)

/-- What counts of a queued segment: it has a pbuf, occupies a sequence number, and has a FIN only
if one was enqueued. -/
structure SegCounts (fin : Bool) (s : Seg) : Prop where
  clen_pos : 0 < s.clen
  tcplen_pos : 0 < s.tcplen
  fin : fin = false → s.flags.fin = false

/-- The counter is right and within its limit. Two more fields fit in their types. -/
structure Counted (o : Opts) (pcb : TcpPcb) : Prop where
  eq : pcb.snd_queuelen = clens (pcb.unacked ++ pcb.unsent)
  le : pcb.snd_queuelen ≤ o.TCP_SND_QUEUELEN
  segs : ∀ s ∈ pcb.unacked ++ pcb.unsent, SegCounts pcb.flags.fin s
  mss_le : pcb.mss ≤ 0xffff
  snd_buf_le : pcb.snd_buf ≤ 0xffff

/-! ## Moving segments -/

/-- What does not change of a segment when it is sent or moved. -/
def Seg.key (s : Seg) : Serial × List UInt8 × ℕ × ℕ × Bool :=
  (s.seqno, s.p, s.clen, s.tcplen, s.flags.fin)

/-- The queues of `b` hold the segments of those of `a`, perhaps in other places. -/
structure Moved (a b : TcpPcb) : Prop where
  segs : ((b.unacked ++ b.unsent).map Seg.key).Perm ((a.unacked ++ a.unsent).map Seg.key)
  queuelen : b.snd_queuelen = a.snd_queuelen
  fin : b.flags.fin = a.flags.fin
  mss : b.mss = a.mss
  snd_buf : b.snd_buf = a.snd_buf

section Moved

variable {o : Opts} {a b c : TcpPcb}

/-- Nothing moved. -/
theorem Moved.refl (a : TcpPcb) : Moved a a := ⟨.refl _, rfl, rfl, rfl, rfl⟩

/-- Segments can be moved twice. -/
theorem Moved.trans (h : Moved a b) (h' : Moved b c) : Moved a c :=
  ⟨h'.segs.trans h.segs, h'.queuelen.trans h.queuelen, h'.fin.trans h.fin, h'.mss.trans h.mss,
    h'.snd_buf.trans h.snd_buf⟩

/-- The same queues. -/
theorem Moved.of_eq (hu : b.unacked = a.unacked) (hs : b.unsent = a.unsent)
    (hn : b.snd_queuelen = a.snd_queuelen) (hf : b.flags.fin = a.flags.fin) (hm : b.mss = a.mss)
    (hb : b.snd_buf = a.snd_buf) : Moved a b :=
  ⟨by rw [hu, hs], hn, hf, hm, hb⟩

/-- A segment after the move is the image of one before. -/
theorem Moved.exists_mem (h : Moved a b) {s : Seg} (hs : s ∈ b.unacked ++ b.unsent) :
    ∃ x ∈ a.unacked ++ a.unsent, x.key = s.key :=
  List.mem_map.mp (h.segs.mem_iff.mp (List.mem_map_of_mem hs))

/-- What is counted of a segment depends on its key. -/
theorem SegCounts.of_key {fin : Bool} {s x : Seg} (h : SegCounts fin x) (hk : x.key = s.key) :
    SegCounts fin s := by
  simp only [Seg.key, Prod.mk.injEq] at hk
  obtain ⟨-, -, hclen, htcplen, hfin⟩ := hk
  exact ⟨hclen ▸ h.clen_pos, htcplen ▸ h.tcplen_pos, hfin ▸ h.fin⟩

/-- Queues with the same keys have as many pbufs. -/
theorem clens_eq_of_key {q q' : List Seg} (h : (q'.map Seg.key).Perm (q.map Seg.key)) :
    clens q' = clens q := by
  have hclen : ∀ l : List Seg, clens l = ((l.map Seg.key).map fun k => k.2.2.1).sum := by
    intro l
    simp [clens, Seg.key, Function.comp_def]
  rw [hclen, hclen]
  exact (h.map _).sum_eq

/-- Moving segments does not change the count. -/
theorem Counted.moved (h : Counted o a) (hm : Moved a b) : Counted o b where
  eq := by
    rw [hm.queuelen, h.eq]
    exact (clens_eq_of_key hm.segs).symm
  le := by
    rw [hm.queuelen]
    exact h.le
  segs s hs := by
    obtain ⟨x, hx, hk⟩ := hm.exists_mem hs
    rw [hm.fin]
    exact (h.segs x hx).of_key hk
  mss_le := by
    rw [hm.mss]
    exact h.mss_le
  snd_buf_le := by
    rw [hm.snd_buf]
    exact h.snd_buf_le

end Moved

section Output

variable {o : Opts} {ticks : BitVec 32} {input alloc : Bool} {pcb pcb' : TcpPcb} {out : List Sent}

/-- The place in `unacked` does not matter for the count. -/
theorem unackedInsert_perm (q : List Seg) (seg : Seg) : (unackedInsert q seg).Perm (seg :: q) := by
  unfold unackedInsert
  split
  · next hq =>
    rw [List.getLast?_eq_none_iff.mp hq]
  · split
    · refine List.perm_middle.trans (List.Perm.cons _ ?_)
      rw [List.takeWhile_append_dropWhile]
    · exact List.perm_append_singleton _ _

/-- Sending the first unsent segment moves it to `unacked`. -/
theorem tcpOutputOne_moved {seg : Seg} {rest : List Seg} (hpos : 0 < seg.tcplen)
    (hq : pcb.unsent = seg :: rest) : Moved pcb (tcpOutputOne ticks pcb seg rest).1 := by
  set sent : Seg := { seg with flags := { seg.flags with
    ack := seg.flags.ack || !decide (pcb.state = .SYN_SENT) } } with hsent
  have hkey : sent.key = seg.key := rfl
  have hpos' : sent.tcplen > 0 := hpos
  have hun : (tcpOutputOne ticks pcb seg rest).1.unacked = unackedInsert pcb.unacked sent := by
    have hif : (tcpOutputOne ticks pcb seg rest).1.unacked =
      if sent.tcplen > 0 then unackedInsert pcb.unacked sent else pcb.unacked := rfl
    rw [hif, if_pos hpos']
  have hrest : (tcpOutputOne ticks pcb seg rest).1.unsent = rest := rfl
  refine ⟨?_, rfl, ?_, rfl, rfl⟩
  · rw [hun, hrest, hq, List.map_append, List.map_append]
    have hins : ((unackedInsert pcb.unacked sent).map Seg.key).Perm
        (seg.key :: pcb.unacked.map Seg.key) := (unackedInsert_perm _ _).map _
    refine (hins.append_right _).trans ?_
    rw [List.map_cons]
    exact List.perm_middle.symm
  · show (tcpOutputOne ticks pcb seg rest).1.flags.fin = pcb.flags.fin
    unfold tcpOutputOne tcpOutputSegment
    dsimp only
    split <;> rfl

/-- The loop of `tcp_output` moves segments. -/
theorem tcpOutputLoop_moved {wnd : ℕ} {q : List Seg} {out' : List Sent} (hq : pcb.unsent = q)
    (hpos : ∀ s ∈ q, 0 < s.tcplen) (h : tcpOutputLoop ticks wnd q pcb out = .ok (pcb', out')) :
    Moved pcb pcb' := by
  obtain ⟨rest, -, -, hp⟩ := tcpOutputLoop_rule
    (P := fun q p _ => p.unsent = q ∧ (∀ s ∈ q, 0 < s.tcplen) ∧ Moved pcb p) h
    ⟨hq, hpos, .refl _⟩ fun seg rest p _ hp _ =>
      ⟨rfl, fun s hs => hp.2.1 s (List.mem_cons_of_mem _ hs),
        hp.2.2.trans (tcpOutputOne_moved (hp.2.1 seg List.mem_cons_self) hp.1)⟩
  exact hp

/-- `tcp_output` moves segments from `unsent` to `unacked`. -/
theorem tcpOutput_moved (hc : Counted o pcb) (h : tcpOutput ticks alloc pcb = .ok (pcb', out)) :
    Moved pcb pcb' := by
  have hpos : ∀ s ∈ pcb.unsent, 0 < s.tcplen := fun s hs =>
    (hc.segs s (List.mem_append_right _ hs)).tcplen_pos
  refine tcpOutput_rule (P := fun p _ => Moved pcb p) h ?_
    fun hl => (tcpOutputLoop_moved rfl hpos hl).trans (.of_eq rfl rfl rfl rfl rfl rfl)
  unfold tcpSendEmptyAck
  split <;> exact .of_eq rfl rfl rfl rfl rfl rfl

/-- `tcp_output` moves segments. -/
theorem tcpOutputUnlessInput_moved (hc : Counted o pcb)
    (h : tcpOutputUnlessInput input ticks alloc pcb = .ok (pcb', out)) : Moved pcb pcb' := by
  exact tcpOutputUnlessInput_rule (P := fun p _ => Moved pcb p) h (.refl _) (tcpOutput_moved hc)

/-- `tcp_recved` moves segments. -/
theorem tcpRecved_moved {len : ℕ} (hc : Counted o pcb)
    (h : tcpRecved o input ticks alloc pcb len = .ok (pcb', out)) : Moved pcb pcb' := by
  obtain ⟨w, h⟩ := tcpRecved_cases h
  have hann : Moved pcb (tcpUpdateRcvAnnWnd o { pcb with rcv_wnd := w }).1 := by
    unfold tcpUpdateRcvAnnWnd
    dsimp only
    split
    · exact .of_eq rfl rfl rfl rfl rfl rfl
    · split <;> exact .of_eq rfl rfl rfl rfl rfl rfl
  obtain h | ⟨rfl, -⟩ := h
  · have hflag : Moved pcb { (tcpUpdateRcvAnnWnd o { pcb with rcv_wnd := w }).1 with
        flags := { (tcpUpdateRcvAnnWnd o { pcb with rcv_wnd := w }).1.flags with
          ack_now := true } } := hann.trans (.of_eq rfl rfl rfl rfl rfl rfl)
    exact hflag.trans (tcpOutputUnlessInput_moved (hc.moved hflag) h)
  · exact hann

/-! ## Retransmission -/

/-- `tcp_rexmit` moves a segment. -/
theorem tcpRexmit_moved (pcb : TcpPcb) : Moved pcb (tcpRexmit pcb) := by
  unfold tcpRexmit
  split
  · exact .refl _
  · next seg rest hq =>
    refine ⟨List.Perm.map _ ?_, rfl, rfl, rfl, rfl⟩
    dsimp only
    rw [hq]
    -- The segment goes to its place in `unsent`.
    have hins : (pcb.unsent.takeWhile (fun s => decide (Serial.lt s.seqno seg.seqno)) ++
        seg :: pcb.unsent.dropWhile (fun s => decide (Serial.lt s.seqno seg.seqno))).Perm
          (seg :: pcb.unsent) := by
      refine List.perm_middle.trans (List.Perm.cons _ ?_)
      rw [List.takeWhile_append_dropWhile]
    exact (hins.append_left rest).trans List.perm_middle

/-- A fast retransmission moves a segment. -/
theorem tcpRexmitFast_moved (pcb : TcpPcb) : Moved pcb (tcpRexmitFast pcb) := by
  unfold tcpRexmitFast
  split
  · exact (tcpRexmit_moved pcb).trans (.of_eq rfl rfl rfl rfl rfl rfl)
  · exact .refl _

/-- `tcp_rexmit_rto` moves segments. -/
theorem tcpRexmitRto_moved (hc : Counted o pcb)
    (h : tcpRexmitRto ticks alloc pcb = .ok (pcb', out)) : Moved pcb pcb' := by
  unfold tcpRexmitRto at h
  split at h
  · cases h
    exact .refl _
  · have hall : Moved pcb { pcb with
        unsent := pcb.unacked ++ pcb.unsent
        unacked := []
        nrtx := (pcb.nrtx + 1) % 2^8
        rttest := 0 } := ⟨.refl _, rfl, rfl, rfl, rfl⟩
    exact hall.trans (tcpOutput_moved (hc.moved hall) h)

/-! ## Enqueueing -/

/-- The new segments of `tcp_enqueue` are counted. -/
theorem tcpEnqueueLoop_counted {flags : TcpFlags} {copy : Bool} {alloc : ℕ → Bool}
    {mss fuel left ql ql' : ℕ} {queue res : List Seg} {ptr : List UInt8} {seqno : Serial}
    (hmss : mss ≤ 0xffff) (hleft : left ≤ 0xffff) (hpos : 0 < left ∨ flags.fin = true)
    (h : tcpEnqueueLoop o mss 0 flags copy false fuel alloc queue ptr left seqno ql =
      some (res, ql')) :
    ∃ segs, res = queue ++ segs ∧ ql' = ql + clens segs ∧ ql' ≤ o.TCP_SND_QUEUELEN ∧
      ∀ s ∈ segs, 0 < s.clen ∧ 0 < s.tcplen ∧ s.flags = flags := by
  have hmss0 : 0 < left → 0 < mss := by
    intro hl
    refine Nat.pos_of_ne_zero fun h0 => ?_
    rw [h0] at h
    exact tcpEnqueueLoop_mss_zero hl hleft h
  induction fuel generalizing alloc queue ptr left seqno ql with
  | zero => cases h
  | succ fuel ih =>
    have hseg : (if (left : ℤ) > (mss : ℤ) - ((0 : ℕ) : ℤ) then u16sub mss 0 else left) =
        min left mss := by
      rw [u16sub_of_le hmss (Nat.zero_le _)]
      split <;> omega
    have hrest : u16sub left (min left mss) = left - min left mss := u16sub_of_le hleft (by omega)
    unfold tcpEnqueueLoop at h
    simp only [hseg, hrest] at h
    have hclen : 0 < (if (!copy && decide (left > 0)) = true then 2 else 1) := by
      split <;> omega
    generalize (if (!copy && decide (left > 0)) = true then 2 else 1) = clen at h hclen
    have htcplen : ∀ p : List UInt8,
        0 < Seg.tcplen { seqno, len := min left mss, flags, p, clen } := by
      intro p
      unfold Seg.tcplen
      rcases hpos with hl | hf
      · have := hmss0 hl
        dsimp only
        omega
      · simp [hf]
    split at h
    · cases h
    split at h
    · cases h
    next hlimit =>
    split at h
    · next hmore =>
      obtain ⟨segs, rfl, hql, hle, hsegs⟩ :=
        ih (by omega) (.inl hmore) h fun _ => hmss0 (by omega)
      refine ⟨_ :: segs, List.append_assoc _ _ _, ?_, hle, ?_⟩
      · rw [clens_cons, hql]
        exact Nat.add_assoc _ _ _
      · intro s hs
        rcases List.mem_cons.mp hs with rfl | hs
        · exact ⟨hclen, htcplen _, rfl⟩
        · exact hsegs s hs
    · cases h
      refine ⟨[_], rfl, by simp [clens], by omega, ?_⟩
      intro s hs
      rw [List.mem_singleton.mp hs]
      exact ⟨hclen, htcplen _, rfl⟩

/-- A last segment with as many pbufs leaves the count. -/
theorem clens_modifyLast {f : Seg → Seg} (hf : ∀ s, (f s).clen = s.clen) (q : List Seg) :
    clens (modifyLast f q) = clens q := by
  rcases List.eq_nil_or_concat q with rfl | ⟨init, s, rfl⟩
  · rfl
  · rw [List.concat_eq_append, modifyLast_concat]
    simp [hf]

/-- A segment of the changed queue is an old one, or an old one changed. -/
theorem mem_modifyLast {f : Seg → Seg} {q : List Seg} {s : Seg} (h : s ∈ modifyLast f q) :
    ∃ x ∈ q, s = x ∨ s = f x := by
  rcases List.eq_nil_or_concat q with rfl | ⟨init, x, rfl⟩
  · cases h
  · rw [List.concat_eq_append, modifyLast_concat] at h
    rcases List.mem_append.mp h with h | h
    · exact ⟨s, by simp [h], .inl rfl⟩
    · exact ⟨x, by simp, .inr (List.mem_singleton.mp h)⟩

/-- The new segments, glued to the last unsent one or not, are counted. -/
theorem tcpEnqueueAppend_counted {flags : TcpFlags} {copy : Bool} {q : Seg} {qs unsent : List Seg}
    {ql ql' : ℕ} (hc : Counted o pcb) (hql : ql = pcb.snd_queuelen + clens (q :: qs))
    (hsegs : ∀ s ∈ q :: qs, 0 < s.clen ∧ 0 < s.tcplen ∧ s.flags = flags)
    (hfin : flags.fin = true → qs = [])
    (h : tcpEnqueueAppend pcb flags copy q qs ql = .ok (unsent, ql')) :
    ql' ≤ ql ∧ ql' = clens (pcb.unacked ++ unsent) ∧
      ∀ s ∈ pcb.unacked ++ unsent, SegCounts (pcb.flags.fin || flags.fin) s := by
  have heq := hc.eq
  rw [clens_append] at heq
  rw [clens_cons] at hql
  have hq := hsegs q List.mem_cons_self
  -- The segments that were there, and the new ones.
  have hold : ∀ s ∈ pcb.unacked ++ pcb.unsent, SegCounts (pcb.flags.fin || flags.fin) s := by
    intro s hs
    obtain ⟨h1, h2, h3⟩ := hc.segs s hs
    exact ⟨h1, h2, fun hf => h3 (Bool.or_eq_false_iff.mp hf).1⟩
  have hnew : ∀ s ∈ q :: qs, SegCounts (pcb.flags.fin || flags.fin) s := by
    intro s hs
    obtain ⟨h1, h2, h3⟩ := hsegs s hs
    exact ⟨h1, h2, fun hf => by rw [h3]; exact (Bool.or_eq_false_iff.mp hf).2⟩
  have hmem : ∀ {l : List Seg}, (∀ s ∈ l, SegCounts (pcb.flags.fin || flags.fin) s) →
      ∀ s ∈ pcb.unacked ++ l, SegCounts (pcb.flags.fin || flags.fin) s := by
    intro l hl s hs
    rcases List.mem_append.mp hs with hs | hs
    · exact hold s (List.mem_append_left _ hs)
    · exact hl s hs
  unfold tcpEnqueueAppend at h
  split at h
  · next hlast =>
    cases h
    rw [List.getLast?_eq_none_iff.mp hlast] at heq
    refine ⟨le_rfl, ?_, hmem hnew⟩
    rw [clens_append, clens_cons, hql, heq, clens_nil]
    rfl
  · next useg hlast =>
    obtain ⟨init, hinit⟩ := List.getLast?_eq_some_iff.mp hlast
    split at h
    · dsimp only at h
      split at h
      · next hf =>
        -- A FIN is glued to the last segment, and its pbuf is dropped.
        obtain ⟨_, hassert, h⟩ := bind_eq_ok.mp h
        cases h
        obtain ⟨hclen, hlen⟩ := lwipAssert_eq_ok.mp hassert
        have hhead : (!copy || decide (q.len = 0)) = true := by simp [hlen]
        rw [if_pos hhead] at hclen ⊢
        rw [hfin hf, clens_nil] at hql
        refine ⟨Nat.sub_le _ _, ?_, hmem fun s hs => ?_⟩
        · rw [clens_append, clens_modifyLast (f := Seg.setFin) fun _ => rfl]
          omega
        · obtain ⟨x, hx, rfl | rfl⟩ := mem_modifyLast hs
          · exact hold _ (List.mem_append_right _ hx)
          · obtain ⟨h1, h2, h3⟩ := hold x (List.mem_append_right _ hx)
            refine ⟨h1, ?_, fun hno => absurd hf (by rw [(Bool.or_eq_false_iff.mp hno).2]; simp)⟩
            unfold Seg.tcplen Seg.setFin
            simp
      · next hf =>
        obtain ⟨_, hassert, h⟩ := bind_eq_ok.mp h
        cases h
        have hclen : (if (!copy || decide (q.len = 0)) = true then q.clen - 1
          else q.clen) ≤ q.clen ∧
            (if (!copy || decide (q.len = 0)) = true then ql - 1 else ql) + q.clen =
              ql + (if (!copy || decide (q.len = 0)) = true then q.clen - 1 else q.clen) := by
          split <;> omega
        generalize (if (!copy || decide (q.len = 0)) = true then q.clen - 1 else q.clen) = clen
          at hclen ⊢
        generalize (if (!copy || decide (q.len = 0)) = true then ql - 1 else ql) = ql' at hclen ⊢
        rw [hinit, clens_append, clens_cons, clens_nil] at heq
        rw [hinit, modifyLast_concat]
        refine ⟨by omega, ?_, hmem fun s hs => ?_⟩
        · simp only [clens_append, clens_cons, clens_nil]
          omega
        · rcases List.mem_append.mp hs with hs | hs
          · rcases List.mem_append.mp hs with hs | hs
            · exact hold s (by simp [hinit, hs])
            · rw [List.mem_singleton.mp hs]
              obtain ⟨h1, h2, h3⟩ := hold useg (by simp [hinit])
              refine ⟨Nat.lt_of_lt_of_le h1 (Nat.le_add_right _ _), ?_, h3⟩
              unfold Seg.tcplen at h2 ⊢
              dsimp only
              omega
          · exact hnew s (List.mem_cons_of_mem _ hs)
    · cases h
      refine ⟨le_rfl, ?_, hmem fun s hs => ?_⟩
      · rw [clens_append, clens_append, clens_cons]
        omega
      · rcases List.mem_append.mp hs with hs | hs
        · exact hold s (List.mem_append_right _ hs)
        · exact hnew s hs

/-- `tcp_enqueue` of data, or of a FIN alone, counts what it enqueues. -/
theorem tcpEnqueue_counted {allocs : ℕ → Bool} {arg : List UInt8} {flags : TcpFlags}
    {copy more : Bool} {e : Err} (hc : Counted o pcb)
    (harg : 0 < arg.length ∧ flags = {} ∨ arg = [] ∧ flags = { fin := true })
    (h : tcpEnqueue o allocs pcb arg flags copy more false = .ok (e, pcb')) : Counted o pcb' := by
  rcases tcpEnqueue_cases h with ⟨-, rfl⟩ | ⟨-, hbuf, q, qs, ql, unsent, ql', hloop, happ, rfl⟩
  · exact hc.moved (.of_eq rfl rfl rfl rfl rfl rfl)
  · have hpos : 0 < arg.length ∨ flags.fin = true := by
      rcases harg with ⟨hl, -⟩ | ⟨-, hf⟩
      · exact .inl hl
      · exact .inr (by rw [hf])
    have hle : arg.length ≤ 0xffff := hbuf.trans hc.snd_buf_le
    obtain ⟨segs, hres, hql, hlimit, hsegs⟩ :=
      tcpEnqueueLoop_counted hc.mss_le hle hpos hloop
    rw [List.nil_append] at hres
    subst hres
    have hfin : flags.fin = true → qs = [] := by
      intro hf
      rcases harg with ⟨-, hno⟩ | ⟨hnil, hflags⟩
      · rw [hno] at hf
        cases hf
      · rw [hnil, hflags] at hloop
        exact (tcpEnqueueLoop_fin hloop).1
    obtain ⟨hmono, heq, hcounts⟩ := tcpEnqueueAppend_counted hc hql hsegs hfin happ
    have hpsh : ∀ s : Seg, (if decide (s.len > 0) && !more then s.setPsh else s).key = s.key := by
      intro s
      split <;> rfl
    refine ⟨?_, hmono.trans hlimit, fun s hs => ?_, hc.mss_le, ?_⟩
    · show ql' = clens (pcb.unacked ++ modifyLast _ unsent)
      rw [heq, clens_append, clens_append, clens_modifyLast]
      intro s
      split <;> rfl
    · rcases List.mem_append.mp hs with hs | hs
      · exact hcounts s (List.mem_append_left _ hs)
      · obtain ⟨x, hx, rfl | rfl⟩ := mem_modifyLast hs
        · exact hcounts _ (List.mem_append_right _ hx)
        · exact (hcounts x (List.mem_append_right _ hx)).of_key (hpsh x).symm
    · show u16sub pcb.snd_buf _ ≤ 0xffff
      unfold u16sub
      omega

/-- `tcp_write` keeps the count. -/
theorem tcpWrite_counted {allocs : ℕ → Bool} {data : List UInt8} {copy more : Bool} {e : Err}
    (hc : Counted o pcb) (h : tcpWrite o allocs pcb data copy more = .ok (e, pcb')) :
    Counted o pcb' := by
  obtain ⟨-, rfl⟩ | ⟨-, ⟨-, -, rfl⟩ | ⟨hl, h⟩⟩ := tcpWrite_cases h
  · exact hc
  · exact hc
  · exact tcpEnqueue_counted hc (.inl ⟨hl, rfl⟩) h

/-- A `tcp_close` after which the pcb is still there. -/
theorem tcpClose_counted {allocs : ℕ → Bool} {e : Err} (hc : Counted o pcb)
    (h : tcpClose o input ticks allocs alloc pcb = .ok (e, some pcb', out)) : Counted o pcb' := by
  obtain ⟨-, rfl, -⟩ | ⟨next, q, -, hq, hend⟩ := tcpClose_cases h
  · exact hc
  have hq' : Counted o q := tcpEnqueue_counted hc (.inr ⟨rfl, rfl⟩) hq
  obtain ⟨-, hout⟩ | ⟨-, rfl, -⟩ := hend
  · have hstate : Moved q { q with state := next } := .of_eq rfl rfl rfl rfl rfl rfl
    exact (hq'.moved hstate).moved (tcpOutputUnlessInput_moved (hq'.moved hstate) hout)
  · exact hq'

/-- A call of the application keeps the count. -/
theorem appCall_counted {c : AppCall} (hc : Counted o pcb)
    (h : appCall o input ticks pcb c = .ok (some pcb', out)) : Counted o pcb' := by
  exact appCall_rule (P := fun p _ => Counted o p) h (tcpWrite_counted hc)
    (fun hr => hc.moved (tcpRecved_moved hc hr)) (tcpClose_counted hc)

/-- The calls of a callback keep the count. -/
theorem appCalls_counted {cs : List AppCall} (hc : Counted o pcb)
    (h : appCalls o input ticks pcb cs = .ok (some pcb', out)) : Counted o pcb' := by
  exact appCalls_rule (P := fun p _ => Counted o p) h hc
    fun p q c _ _ hp hcall => appCall_counted hp hcall

end Output

end Lwip.Tcp
