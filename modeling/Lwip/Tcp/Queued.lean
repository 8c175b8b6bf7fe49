import Lwip.Tcp.Sender

/-!
# The bytes on the send queues

What `tcp_write` and `tcp_close` do to the bytes that wait on `unacked` and `unsent`. An
enqueueing that succeeds puts its data behind everything that is there, glued to the last segment or
not. One that fails, at whatever allocation, leaves the queues as they were.
-/

namespace Lwip.Tcp

/-- The bytes of a queue. -/
def segBytes (q : List Seg) : List UInt8 := q.flatMap Seg.p

/-- The bytes on the two send queues. -/
def queued (pcb : TcpPcb) : List UInt8 := segBytes (pcb.unacked ++ pcb.unsent)

/-- An empty queue has no bytes. -/
@[simp] theorem segBytes_nil : segBytes [] = [] := rfl

/-- The bytes of the first segment and of the rest. -/
@[simp] theorem segBytes_cons (s : Seg) (q : List Seg) : segBytes (s :: q) = s.p ++ segBytes q :=
  rfl

/-- The bytes of two queues. -/
@[simp] theorem segBytes_append (q q' : List Seg) :
    segBytes (q ++ q') = segBytes q ++ segBytes q' :=
  List.flatMap_append

/-- A change of the last segment that keeps its bytes keeps those of the queue. -/
theorem segBytes_modifyLast {f : Seg → Seg} (hf : ∀ s, (f s).p = s.p) (q : List Seg) :
    segBytes (modifyLast f q) = segBytes q := by
  rcases List.eq_nil_or_concat q with rfl | ⟨init, s, rfl⟩
  · rfl
  · rw [List.concat_eq_append, modifyLast_concat]
    simp [hf]

section Enqueue

variable {o : Opts} {pcb pcb' : TcpPcb} {copy more : Bool} {alloc : ℕ → Bool} {flags : TcpFlags}

/-- The new segments of `tcp_enqueue` carry the data, in order. -/
theorem tcpEnqueueLoop_bytes {mss fuel left ql ql' : ℕ} {queue res : List Seg} {ptr : List UInt8}
    {seqno : Serial} (hleft : left ≤ 0xffff) (hptr : ptr.length = left)
    (h : tcpEnqueueLoop o mss 0 flags copy false fuel alloc queue ptr left seqno ql =
      some (res, ql')) :
    segBytes res = segBytes queue ++ ptr := by
  induction fuel generalizing alloc queue ptr left seqno ql with
  | zero => cases h
  | succ fuel ih =>
    generalize hn : (if (left : ℤ) > (mss : ℤ) - ((0 : ℕ) : ℤ) then u16sub mss 0 else left) = n
    have hle : n ≤ left := by
      rw [← hn]
      unfold u16sub
      split <;> omega
    have hrest : u16sub left n = left - n := u16sub_of_le hleft hle
    obtain ⟨clen, ⟨-, h⟩ | ⟨hdone, h⟩⟩ := tcpEnqueueLoop_cases hn h
    · rw [hrest] at h
      have hdrop : (ptr.drop n).length = left - n := by rw [List.length_drop, hptr]
      calc segBytes res = _ := ih (by omega) hdrop h
        _ = segBytes queue ++ (ptr.take n ++ ptr.drop n) := by simp
        _ = segBytes queue ++ ptr := by rw [List.take_append_drop]
    · -- The last round takes all that is left.
      have hall : ptr.take n = ptr := List.take_of_length_le (by omega)
      have hres : res = _ := congrArg Prod.fst h
      rw [hres]
      simp [hall]

/-- The new segments go behind `unsent`, or into its last segment. A FIN brings no data. -/
theorem tcpEnqueueAppend_bytes {q : Seg} {qs unsent : List Seg} {ql ql' : ℕ}
    (hfin : flags.fin = true → segBytes (q :: qs) = [])
    (h : tcpEnqueueAppend pcb flags copy q qs ql = .ok (unsent, ql')) :
    segBytes unsent = segBytes pcb.unsent ++ segBytes (q :: qs) := by
  unfold tcpEnqueueAppend at h
  split at h
  · next hlast =>
    cases h
    rw [List.getLast?_eq_none_iff.mp hlast]
    rfl
  · next useg hlast =>
    split at h
    · obtain ⟨init, hinit⟩ := List.getLast?_eq_some_iff.mp hlast
      split at h
      · next hf =>
        obtain ⟨_, -, h⟩ := bind_eq_ok.mp h
        cases h
        rw [segBytes_modifyLast (f := Seg.setFin) (fun _ => rfl), hfin hf, List.append_nil]
      · obtain ⟨_, -, h⟩ := bind_eq_ok.mp h
        cases h
        rw [hinit, modifyLast_concat]
        simp
    · cases h
      simp

/-- `tcp_enqueue` puts the data at the end of the queues, or changes nothing of them. -/
theorem tcpEnqueue_queued {arg : List UInt8} {e : Err} (harg : arg.length ≤ 0xffff)
    (hfin : flags.fin = true → arg = [])
    (h : tcpEnqueue o alloc pcb arg flags copy more false = .ok (e, pcb')) :
    queued pcb' = if e = .OK then queued pcb ++ arg else queued pcb := by
  rcases tcpEnqueue_cases h with ⟨rfl, rfl⟩ | ⟨rfl, -, q, qs, ql, unsent, ql', hloop, happ, rfl⟩
  · rfl
  · have hbytes : segBytes (q :: qs) = arg := by
      rw [tcpEnqueueLoop_bytes harg rfl hloop]
      rfl
    have hunsent : segBytes unsent = segBytes pcb.unsent ++ arg := by
      rw [tcpEnqueueAppend_bytes (fun hf => hbytes.trans (hfin hf)) happ, hbytes]
    have hpsh : ∀ s : Seg, (if decide (s.len > 0) && !more then s.setPsh else s).p = s.p := by
      intro s
      split <;> rfl
    rw [if_pos rfl]
    unfold queued tcpEnqueueCommit
    rw [segBytes_append, segBytes_append, segBytes_modifyLast hpsh, hunsent, List.append_assoc]

/-- `tcp_write` puts the data at the end of the queues, or changes nothing of them. -/
theorem tcpWrite_queued {data : List UInt8} {e : Err} (hdata : data.length ≤ 0xffff)
    (h : tcpWrite o alloc pcb data copy more = .ok (e, pcb')) :
    queued pcb' = if e = .OK then queued pcb ++ data else queued pcb := by
  obtain ⟨rfl, rfl⟩ | ⟨-, ⟨rfl, rfl, rfl⟩ | ⟨-, h⟩⟩ := tcpWrite_cases h
  · rfl
  · simp
  · exact tcpEnqueue_queued hdata (by simp) h

end Enqueue

end Lwip.Tcp
