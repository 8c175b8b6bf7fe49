import Lwip.Tcp.Room
import Lwip.Tcp.Open

/-!
# The sender during the handshake

Before the first acknowledgement every queued segment lies between `lastack` and `snd_lbb`
(`FreshSnd`). This does not depend on the order of the queues, so that the timeouts, and the copies
of the SYN that make `tcp_process` retransmit in `SYN_RCVD`, keep it whatever they do to the order.
When the connection is established, it gives the abstract sender. In `SYN_SENT` the first queued
segment is the SYN (`SynFirst`), which the counters rely on when it is acknowledged.
-/

namespace Lwip.Tcp

/-- The segment lies between the offsets `lo` and `hi` from `r`. -/
structure Seg.Within (r : Serial) (lo hi : ℕ) (s : Seg) : Prop where
  lo_le : lo ≤ Serial.dist r s.seqno
  pos : 0 < s.tcplen
  le_hi : Serial.dist r s.seqno + s.tcplen ≤ hi

/-- A segment within bounds is within wider ones. -/
theorem Seg.Within.mono {r : Serial} {lo lo' hi hi' : ℕ} {s : Seg} (h : s.Within r lo hi)
    (hl : lo' ≤ lo) (hh : hi ≤ hi') : s.Within r lo' hi' :=
  ⟨hl.trans h.lo_le, h.pos, h.le_hi.trans hh⟩

/-- The place of a segment is in its key. -/
theorem Seg.Within.of_key {r : Serial} {lo hi : ℕ} {s x : Seg} (h : x.Within r lo hi)
    (hk : x.key = s.key) : s.Within r lo hi := by
  simp only [Seg.key, Prod.mk.injEq] at hk
  obtain ⟨hseq, -, -, hlen, -⟩ := hk
  exact ⟨hseq ▸ h.lo_le, hlen ▸ h.pos, by rw [← hseq, ← hlen]; exact h.le_hi⟩

/-- The end of a short segment is at its start and its length. -/
theorem Seg.Within.dist_endSeq {r : Serial} {lo hi : ℕ} {s : Seg} (h : s.Within r lo hi)
    (hhi : hi ≤ 0xffff) : Serial.dist r s.endSeq = Serial.dist r s.seqno + s.tcplen := by
  have hle := h.le_hi
  exact Serial.dist_adv _ _ _ (by omega)

/-- Nothing of what is queued was acknowledged. -/
structure FreshSnd (pcb : TcpPcb) : Prop where
  segs : ∀ s ∈ pcb.unacked ++ pcb.unsent,
    s.Within pcb.lastack 0 (Serial.dist pcb.lastack pcb.snd_lbb)
  nxt : Serial.dist pcb.lastack pcb.snd_nxt ≤ Serial.dist pcb.lastack pcb.snd_lbb
  win : Serial.dist pcb.lastack pcb.snd_lbb ≤ 0xffff
  snd_wnd_le : pcb.snd_wnd ≤ 0xffff

/-- The first queued segment is the SYN, at `lastack`, and the others lie behind it. -/
def SynFirst (pcb : TcpPcb) : Prop :=
  ∃ syn rest, pcb.unacked ++ pcb.unsent = syn :: rest ∧ syn.seqno = pcb.lastack ∧
    syn.tcplen = 1 ∧ syn.clen = 1 ∧ syn.flags.syn = true ∧
    ∀ s ∈ rest, s.Within pcb.lastack 1 (Serial.dist pcb.lastack pcb.snd_lbb)

/-! ## The abstract sender -/

section Sender

variable {o : Opts} {pcb : TcpPcb}

/-- Segments stand for their ranges. -/
theorem forall₂_range (r : Serial) (l : List Seg) :
    List.Forall₂ (SegAt r) l (l.map (Seg.range r)) := by
  rw [List.forall₂_map_right_iff]
  refine List.forall₂_same.mpr fun s _ => ⟨?_, rfl⟩
  exact (Serial.adv_dist r s.seqno).symm

/-- The abstract sender of a fresh pcb, on the line that starts at `lastack`. -/
def freshTx (pcb : TcpPcb) : Tx where
  lastack := 0
  nxt := Serial.dist pcb.lastack pcb.snd_nxt
  lbb := Serial.dist pcb.lastack pcb.snd_lbb
  unacked := pcb.unacked.map (Seg.range pcb.lastack)
  unsent := pcb.unsent.map (Seg.range pcb.lastack)
  infr := pcb.flags.infr

/-- The sender of a new connection is one. -/
theorem FreshSnd.weak (h : FreshSnd pcb) : (freshTx pcb).Weak := by
  have hmem : ∀ r ∈ (freshTx pcb).unacked ++ (freshTx pcb).unsent,
      0 < r.len ∧ r.stop ≤ (freshTx pcb).lbb := by
    intro r hr
    unfold freshTx at hr
    dsimp only at hr
    rw [← List.map_append] at hr
    obtain ⟨s, hs, rfl⟩ := List.mem_map.mp hr
    exact ⟨(h.segs s hs).pos, (h.segs s hs).le_hi⟩
  have hwin : (freshTx pcb).lbb ≤ 0xffff := h.win
  have hzero : (freshTx pcb).lastack = 0 := rfl
  constructor
  · exact Nat.zero_le _
  · exact h.nxt
  · omega
  · intro r hr
    obtain ⟨hpos, hstop⟩ := hmem r hr
    unfold Range.stop at hstop
    exact ⟨hpos, by omega⟩
  · exact fun r hr => (hmem r hr).2
  · intro r _
    rw [hzero]
    exact Nat.zero_le _
  · refine List.pairwise_of_forall_mem_list fun g hg x _ => ?_
    obtain ⟨-, hstop⟩ := hmem g hg
    unfold Range.stop at hstop
    omega
  · intro _ r _
    rw [hzero]
    exact Nat.zero_le _
  · -- A queued segment would make `snd_lbb` different from `lastack`.
    intro hdone
    have hnil : (freshTx pcb).unacked ++ (freshTx pcb).unsent = [] := by
      refine List.eq_nil_iff_forall_not_mem.mpr fun r hr => ?_
      obtain ⟨hpos, hstop⟩ := hmem r hr
      unfold Range.stop at hstop
      omega
    exact List.append_eq_nil_iff.mp hnil

/-- A fresh pcb stands for an abstract sender as soon as its state says so. -/
theorem FreshSnd.snd {st : TcpState} (h : FreshSnd pcb) (hr : Room o pcb) (hm : pcb.mss ≤ 0xffff)
    (hlive : st.geEstablished = true)
    (hwr : st = .ESTABLISHED ∨ st = .CLOSE_WAIT → pcb.flags.fin = false) :
    Snd (fun _ => True) { pcb with state := st } := by
  refine ⟨pcb.lastack, freshTx pcb, ?_, trivial⟩
  refine ⟨(Serial.adv_zero _).symm, (Serial.adv_dist _ _).symm, (Serial.adv_dist _ _).symm,
    forall₂_range _ _, forall₂_range _ _, rfl, h.snd_wnd_le, hm, fun _ => ?_, hlive, hwr, h.weak⟩
  have hbuf := o.snd_buf_le
  unfold Room at hr
  show pcb.snd_buf + (Serial.dist pcb.lastack pcb.snd_lbb - 0) ≤ 0xffff
  omega

end Sender

/-! ## Moving segments -/

section Moves

variable {o : Opts} {ticks : BitVec 32} {alloc : Bool} {a b pcb pcb' : TcpPcb}
  {out out' : List Sent}

/-- Moving segments between the queues keeps a pcb fresh, if `snd_nxt` goes at most to the end of
one of them. -/
theorem FreshSnd.moved (h : FreshSnd a) (hm : Moved a b) (hs : SameRoom a b)
    (hn : b.snd_nxt = a.snd_nxt ∨ ∃ s ∈ a.unacked ++ a.unsent, b.snd_nxt = s.endSeq)
    (hw : b.snd_wnd ≤ 0xffff) : FreshSnd b := by
  have hwin := h.win
  constructor
  · intro s hs'
    obtain ⟨x, hx, hk⟩ := hm.exists_mem hs'
    rw [hs.lastack, hs.snd_lbb]
    exact (h.segs x hx).of_key hk
  · rw [hs.lastack, hs.snd_lbb]
    rcases hn with hn | ⟨s, hmem, hn⟩
    · rw [hn]
      exact h.nxt
    · rw [hn, (h.segs s hmem).dist_endSeq hwin]
      exact (h.segs s hmem).le_hi
  · rw [hs.lastack, hs.snd_lbb]
    exact hwin
  · exact hw

/-- `tcp_output` sets `snd_nxt` to the end of a segment, or leaves it. -/
theorem tcpOutputLoop_snd_nxt {wnd : ℕ} {q : List Seg}
    (h : tcpOutputLoop ticks wnd q pcb out = .ok (pcb', out')) :
    pcb'.snd_nxt = pcb.snd_nxt ∨ ∃ s ∈ q, pcb'.snd_nxt = s.endSeq := by
  induction q generalizing pcb out with
  | nil =>
    cases h
    exact .inl rfl
  | cons seg rest ih =>
    unfold tcpOutputLoop at h
    split at h
    · split at h
      · cases h
      split at h
      · cases h
        exact .inl rfl
      · have hone : (tcpOutputOne ticks pcb seg rest).1.snd_nxt =
            if Serial.lt pcb.snd_nxt seg.endSeq then seg.endSeq else pcb.snd_nxt := rfl
        rcases ih h with heq | ⟨s, hs, heq⟩
        · rw [heq, hone]
          split
          · exact .inr ⟨seg, List.mem_cons_self, rfl⟩
          · exact .inl rfl
        · exact .inr ⟨s, List.mem_cons_of_mem _ hs, heq⟩
    · cases h
      exact .inl rfl

/-- `tcp_output` moves `snd_nxt` to the end of a segment at most. -/
theorem tcpOutput_snd_nxt (h : tcpOutput ticks alloc pcb = .ok (pcb', out)) :
    pcb'.snd_nxt = pcb.snd_nxt ∨ ∃ s ∈ pcb.unacked ++ pcb.unsent, pcb'.snd_nxt = s.endSeq := by
  refine tcpOutput_rule (P := fun p _ => p.snd_nxt = pcb.snd_nxt ∨
    ∃ s ∈ pcb.unacked ++ pcb.unsent, p.snd_nxt = s.endSeq) h
    (.inl (tcpSendEmptyAck_sameSnd alloc pcb).snd_nxt) fun hl => ?_
  rcases tcpOutputLoop_snd_nxt hl with heq | ⟨s, hs, heq⟩
  · exact .inl heq
  · exact .inr ⟨s, List.mem_append_right _ hs, heq⟩

/-- `tcp_output` keeps the queues of a new connection. -/
theorem FreshSnd.output (h : FreshSnd pcb) (hc : Counted o pcb)
    (ho : tcpOutput ticks alloc pcb = .ok (pcb', out)) : FreshSnd pcb' := by
  refine h.moved (tcpOutput_moved hc ho) (tcpOutput_sameRoom ho) (tcpOutput_snd_nxt ho) ?_
  rw [(tcpOutput_callFrame ho).snd_wnd]
  exact h.snd_wnd_le

/-- The head of a queue stays in front when a segment that starts behind it is placed. -/
theorem unackedInsert_cons {syn seg : Seg} {u : List Seg} (h : Serial.lt syn.seqno seg.seqno) :
    ∃ u', unackedInsert (syn :: u) seg = syn :: u' := by
  unfold unackedInsert
  split
  · next hnil =>
    rw [List.getLast?_eq_none_iff] at hnil
    cases hnil
  · split
    · have hcut : (syn :: u).takeWhile (fun s => decide (Serial.lt s.seqno seg.seqno)) =
          syn :: u.takeWhile (fun s => decide (Serial.lt s.seqno seg.seqno)) :=
        List.takeWhile_cons_of_pos (decide_eq_true h)
      rw [hcut]
      exact ⟨_, rfl⟩
    · exact ⟨_, rfl⟩

/-- One round of `tcp_output` leaves the SYN in front. -/
theorem SynFirst.outputOne {seg : Seg} {rest : List Seg} (h : SynFirst pcb) (hf : FreshSnd pcb)
    (hq : pcb.unsent = seg :: rest) : SynFirst (tcpOutputOne ticks pcb seg rest).1 := by
  obtain ⟨syn, others, hqueue, hseq, hlen, hclen, hsyn, hothers⟩ := h
  have hwin := hf.win
  set sent : Seg := { seg with flags := { seg.flags with
    ack := seg.flags.ack || !decide (pcb.state = .SYN_SENT) } } with hsent
  have hpos : 0 < seg.tcplen := (hf.segs seg (by rw [hq]; simp)).pos
  have hpos' : sent.tcplen > 0 := hpos
  have hun : (tcpOutputOne ticks pcb seg rest).1.unacked = unackedInsert pcb.unacked sent := by
    have hif : (tcpOutputOne ticks pcb seg rest).1.unacked =
      if sent.tcplen > 0 then unackedInsert pcb.unacked sent else pcb.unacked := rfl
    rw [hif, if_pos hpos']
  have hrest : (tcpOutputOne ticks pcb seg rest).1.unsent = rest := rfl
  show ∃ s r, (tcpOutputOne ticks pcb seg rest).1.unacked ++
    (tcpOutputOne ticks pcb seg rest).1.unsent = s :: r ∧ s.seqno = pcb.lastack ∧ _ ∧ _ ∧ _ ∧
      ∀ x ∈ r, x.Within pcb.lastack 1 (Serial.dist pcb.lastack pcb.snd_lbb)
  rw [hun, hrest]
  cases hu : pcb.unacked with
  | nil =>
    -- The segment sent is the SYN.
    rw [hu, hq, List.nil_append] at hqueue
    obtain ⟨rfl, rfl⟩ := List.cons_eq_cons.mp hqueue
    exact ⟨sent, rest, rfl, hseq, hlen, hclen, hsyn, hothers⟩
  | cons s u =>
    rw [hu, hq, List.cons_append] at hqueue
    obtain ⟨rfl, rfl⟩ := List.cons_eq_cons.mp hqueue
    have hseg : seg.Within pcb.lastack 1 (Serial.dist pcb.lastack pcb.snd_lbb) :=
      hothers seg (by simp)
    have hsent' : sent.Within pcb.lastack 1 (Serial.dist pcb.lastack pcb.snd_lbb) :=
      hseg.of_key rfl
    have hbehind : Serial.lt s.seqno sent.seqno := by
      have hle := hseg.le_hi
      have hlo := hseg.lo_le
      rw [hseq, Serial.lt_iff]
      have hd : Serial.dist sent.seqno pcb.lastack = 2^32 - Serial.dist pcb.lastack seg.seqno := by
        have := Serial.dist_eq_sub_wrap (r := pcb.lastack) (a := seg.seqno) (b := pcb.lastack)
          (by rw [Serial.dist_self]; omega)
        rwa [Serial.dist_self, Nat.sub_zero] at this
      omega
    obtain ⟨u', hu'⟩ := unackedInsert_cons (u := u) hbehind
    have hperm : (s :: u').Perm (sent :: s :: u) := hu' ▸ unackedInsert_perm (s :: u) sent
    refine ⟨s, u' ++ rest, by rw [hu']; rfl, hseq, hlen, hclen, hsyn, fun x hx => ?_⟩
    have hperm' : u'.Perm (sent :: u) :=
      List.Perm.cons_inv (hperm.trans (List.Perm.swap _ _ _))
    rcases List.mem_append.mp hx with hx | hx
    · rcases List.mem_cons.mp (hperm'.mem_iff.mp hx) with rfl | hx
      · exact hsent'
      · exact hothers x (List.mem_append_left _ hx)
    · exact hothers x (List.mem_append_right _ (List.mem_cons_of_mem _ hx))

/-- The SYN stays the first segment in the loop of `tcp_output`. -/
theorem SynFirst.outputLoop {wnd : ℕ} {q : List Seg} (h : SynFirst pcb) (hf : FreshSnd pcb)
    (hq : pcb.unsent = q) (hl : tcpOutputLoop ticks wnd q pcb out = .ok (pcb', out')) :
    SynFirst pcb' := by
  obtain ⟨rest, -, -, hp⟩ := tcpOutputLoop_rule
    (P := fun q p _ => p.unsent = q ∧ FreshSnd p ∧ SynFirst p) hl ⟨hq, hf, h⟩
    fun seg rest p _ hp _ => by
      obtain ⟨hq, hf, h⟩ := hp
      have hpos : 0 < seg.tcplen := (hf.segs seg (by rw [hq]; simp)).pos
      have hnxt : (tcpOutputOne ticks p seg rest).1.snd_nxt =
        if Serial.lt p.snd_nxt seg.endSeq then seg.endSeq else p.snd_nxt := rfl
      have hone : FreshSnd (tcpOutputOne ticks p seg rest).1 := by
        refine hf.moved (tcpOutputOne_moved hpos hq) (by constructor <;> rfl) ?_ hf.snd_wnd_le
        rw [hnxt]
        split
        · exact .inr ⟨seg, by rw [hq]; simp, rfl⟩
        · exact .inl rfl
      exact ⟨rfl, hone, h.outputOne hf hq⟩
  exact hp

/-- What leaves the queues and `lastack` leaves the SYN in front. -/
theorem SynFirst.congr (h : SynFirst a) (hs : SameRoom a b)
    (hq : b.unacked ++ b.unsent = a.unacked ++ a.unsent) : SynFirst b := by
  unfold SynFirst
  rw [hq, hs.lastack, hs.snd_lbb]
  exact h

/-- The SYN stays the first segment in `tcp_output`. -/
theorem SynFirst.output (h : SynFirst pcb) (hf : FreshSnd pcb)
    (ho : tcpOutput ticks alloc pcb = .ok (pcb', out)) : SynFirst pcb' := by
  have hack := tcpSendEmptyAck_sameSnd alloc pcb
  refine tcpOutput_rule (P := fun p _ => SynFirst p) ho
    (h.congr hack.sameRoom (by rw [hack.unacked, hack.unsent])) fun {p _} hl => ?_
  have hp : SynFirst p := h.outputLoop hf rfl hl
  exact hp.congr (tcpOutputPersist_sameSnd p).sameRoom rfl

/-- A retransmission keeps the queues of a new connection. -/
theorem FreshSnd.rexmit (h : FreshSnd pcb) : FreshSnd (tcpRexmit pcb) := by
  have hnxt : (tcpRexmit pcb).snd_nxt = pcb.snd_nxt ∧ (tcpRexmit pcb).snd_wnd = pcb.snd_wnd := by
    unfold tcpRexmit
    split <;> exact ⟨rfl, rfl⟩
  refine h.moved (tcpRexmit_moved pcb) (tcpRexmit_sameRoom pcb) (.inl hnxt.1) ?_
  rw [hnxt.2]
  exact h.snd_wnd_le

/-- What leaves the sender alone leaves it fresh. -/
theorem FreshSnd.sameSnd (h : FreshSnd a) (hs : SameSnd a b) : FreshSnd b := by
  constructor
  · rw [hs.unacked, hs.unsent, hs.lastack, hs.snd_lbb]
    exact h.segs
  · rw [hs.lastack, hs.snd_lbb, hs.snd_nxt]
    exact h.nxt
  · rw [hs.lastack, hs.snd_lbb]
    exact h.win
  · rw [hs.snd_wnd]
    exact h.snd_wnd_le

/-- The first segment is a send field. -/
theorem SynFirst.sameSnd (h : SynFirst a) (hs : SameSnd a b) : SynFirst b :=
  h.congr hs.sameRoom (by rw [hs.unacked, hs.unsent])

end Moves

/-! ## Enqueuing -/

section Enqueue

variable {o : Opts} {pcb pcb' : TcpPcb} {alloc : ℕ → Bool} {copy more : Bool} {arg : List UInt8}
  {flags : TcpFlags}

/-- The part of a queue that was there before `tcp_enqueue`: only the last segment may have changed,
by what was glued to it, and that is no SYN. -/
def Grown (r : Serial) (hi : ℕ) (s s' : Seg) : Prop :=
  s' = s ∨ s.flags.syn = false ∧ ∀ lo, lo ≤ Serial.dist r s.seqno → s'.Within r lo hi

/-- The segments that the loop of `tcp_enqueue` makes of data, or of a FIN alone, follow each other
from `snd_lbb` on. -/
theorem tcpEnqueueLoop_within {r : Serial} {fuel ql ql' hi : ℕ} {q : Seg} {qs : List Seg}
    (hmss : pcb.mss ≤ 0xffff)
    (harg : 0 < arg.length ∧ flags = {} ∨ arg = [] ∧ flags = { fin := true })
    (hhi : Serial.dist r pcb.snd_lbb +
      (if flags.syn || flags.fin then arg.length + 1 else arg.length) = hi) (hle : hi ≤ 0xffff)
    (h : tcpEnqueueLoop o pcb.mss 0 flags copy false fuel alloc [] arg arg.length pcb.snd_lbb ql =
      some (q :: qs, ql')) :
    q.seqno = pcb.snd_lbb ∧ (flags.fin = true → qs = []) ∧ (flags = {} → q.flags = {}) ∧
      ∀ s ∈ q :: qs, s.Within r (Serial.dist r pcb.snd_lbb) hi := by
  rcases harg with ⟨hpos, rfl⟩ | ⟨rfl, rfl⟩
  · have hdata : Serial.dist r pcb.snd_lbb + arg.length = hi := hhi
    obtain ⟨segs, rs, hsegs, hflags, hrs, ht⟩ :=
      tcpEnqueueLoop_data hmss hpos (by omega) (Serial.adv_dist r pcb.snd_lbb).symm h
    rw [List.nil_append] at hsegs
    subst hsegs
    have hwithin : ∀ s ∈ q :: qs, s.Within r (Serial.dist r pcb.snd_lbb) hi := by
      intro s hs
      obtain ⟨x, hx, hat⟩ := forall₂_mem_left hrs hs
      obtain ⟨h1, h2, h3⟩ := ht.mem hx
      unfold Range.stop at h3
      have hd : Serial.dist r s.seqno = x.start := by
        rw [hat.seqno, Serial.dist_self_adv (by omega)]
      exact ⟨hd ▸ h1, hat.tcplen ▸ h2, by rw [hd, hat.tcplen]; omega⟩
    obtain ⟨x, xs, hx, -, rfl⟩ := List.forall₂_cons_left_iff.mp hrs
    refine ⟨?_, fun hf => (by cases hf), fun _ => hflags q List.mem_cons_self, hwithin⟩
    rw [hx.seqno, ht.1, Serial.adv_dist]
  · have hfin : Serial.dist r pcb.snd_lbb + 1 = hi := hhi
    obtain ⟨rfl, hseq, hlen⟩ := tcpEnqueueLoop_fin h
    refine ⟨hseq, fun _ => rfl, fun hf => (by cases hf), fun s hs => ?_⟩
    rw [List.mem_singleton.mp hs]
    exact ⟨by rw [hseq], by omega, by rw [hseq, hlen, hfin]⟩

/-- The last element of two lists is that of the second one. -/
theorem modifyLast_append {α : Type} (f : α → α) (l : List α) {l' : List α} (h : l' ≠ []) :
    modifyLast f (l ++ l') = l ++ modifyLast f l' := by
  rcases List.eq_nil_or_concat l' with rfl | ⟨init, x, rfl⟩
  · exact absurd rfl h
  · rw [List.concat_eq_append, ← List.append_assoc, modifyLast_concat, modifyLast_concat,
      List.append_assoc]

/-- The first new segment is glued to the last of `unsent`, which it follows, or all are
appended. -/
theorem tcpEnqueueAppend_within {r : Serial} {hi ql ql' : ℕ} {q : Seg} {qs unsent : List Seg}
    (harg : flags = {} ∧ q.flags = {} ∨ flags.fin = true ∧ qs = []) (hle : hi ≤ 0xffff)
    (hold : ∀ s ∈ pcb.unsent, s.Within r 0 hi) (hq : q.Within r 0 hi)
    (h : tcpEnqueueAppend pcb flags copy q qs ql = .ok (unsent, ql')) :
    unsent = pcb.unsent ++ q :: qs ∨
      ∃ init useg u, pcb.unsent = init ++ [useg] ∧ unsent = init ++ [u] ++ qs ∧ Grown r hi useg u ∧
        useg.flags.syn = false := by
  unfold tcpEnqueueAppend at h
  rcases List.eq_nil_or_concat pcb.unsent with hnil | ⟨init, useg, hu⟩
  · rw [hnil] at h
    cases h
    exact .inl (by rw [hnil, List.nil_append])
  rw [List.concat_eq_append] at hu
  rw [hu, List.getLast?_concat] at h
  dsimp only at h
  split at h
  · next hg =>
    right
    unfold canGlue at hg
    simp only [Bool.and_eq_true, decide_eq_true_eq] at hg
    obtain ⟨⟨⟨⟨⟨-, hno⟩, -⟩, -⟩, -⟩, hend⟩ := hg
    have hflags : useg.flags.syn = false ∧ useg.flags.fin = false := by
      simpa using hno
    have huseg := hold useg (by rw [hu]; simp)
    have hulen : useg.tcplen = useg.len := by
      unfold Seg.tcplen
      rw [hflags.1, hflags.2]
      rfl
    have hplace : Serial.dist r useg.seqno + useg.len = Serial.dist r q.seqno := by
      have hle' := huseg.le_hi
      rw [← hend, Serial.dist_adv _ _ _ (by omega)]
    have hgrown : ∀ u : Seg, u.seqno = useg.seqno → u.tcplen = useg.len + q.tcplen →
        Grown r hi useg u := by
      intro u hus hut
      have hqle := hq.le_hi
      have hqpos := hq.pos
      exact .inr ⟨hflags.1, fun lo hlo => ⟨hus ▸ hlo, by omega, by rw [hus, hut]; omega⟩⟩
    split at h
    · next hf =>
      obtain ⟨_, hassert, h⟩ := bind_eq_ok.mp h
      cases h
      obtain ⟨-, hlen⟩ := lwipAssert_eq_ok.mp hassert
      obtain ⟨rfl, -⟩ | ⟨-, rfl⟩ := harg
      · cases hf
      have hone : q.tcplen = 1 := by
        have hpos := hq.pos
        unfold Seg.tcplen at hpos ⊢
        rw [hlen] at hpos ⊢
        split at hpos
        · next hflag => rw [if_pos hflag]
        · cases hpos
      have hset : useg.setFin.tcplen = useg.len + q.tcplen := by
        rw [hone]
        rfl
      exact ⟨init, useg, useg.setFin, hu, by rw [modifyLast_concat, List.append_nil],
        hgrown _ rfl hset, hflags.1⟩
    · next hf =>
      obtain ⟨_, -, h⟩ := bind_eq_ok.mp h
      cases h
      have hqlen : q.tcplen = q.len := by
        obtain ⟨-, hd⟩ | ⟨hfin, -⟩ := harg
        · unfold Seg.tcplen
          rw [hd]
          rfl
        · exact absurd hfin hf
      rw [modifyLast_concat]
      refine ⟨init, useg, _, hu, rfl, hgrown _ rfl ?_, hflags.1⟩
      rw [hqlen]
      unfold Seg.tcplen
      dsimp only
      rw [hflags.1, hflags.2]
      rfl
  · cases h
    exact .inl (by rw [hu])

/-- What `tcp_enqueue` of data, or of a FIN alone, leaves on `unsent`. -/
theorem tcpEnqueue_grown {r : Serial} {hi : ℕ} (hmss : pcb.mss ≤ 0xffff)
    (harg : 0 < arg.length ∧ flags = {} ∨ arg = [] ∧ flags = { fin := true })
    (hhi : Serial.dist r pcb.snd_lbb +
      (if flags.syn || flags.fin then arg.length + 1 else arg.length) = hi) (hle : hi ≤ 0xffff)
    (hold : ∀ s ∈ pcb.unsent, s.Within r 0 (Serial.dist r pcb.snd_lbb))
    (h : tcpEnqueue o alloc pcb arg flags copy more false = .ok (.OK, pcb')) :
    ∃ pre new, pcb'.unsent = pre ++ new ∧ List.Forall₂ (Grown r hi) pcb.unsent pre ∧
      ∀ s ∈ new, s.Within r (Serial.dist r pcb.snd_lbb) hi := by
  rcases tcpEnqueue_cases h with ⟨hmem, -⟩ | ⟨-, -, q, qs, ql, unsent, ql', hloop, happ, rfl⟩
  · cases hmem
  obtain ⟨-, hqs, hqf, hnew⟩ := tcpEnqueueLoop_within hmss harg hhi hle hloop
  -- The push flag of the last segment is no part of its place.
  set psh : Seg → Seg := fun s => if decide (s.len > 0) && !more then s.setPsh else s with hpsh
  have hkey : ∀ s : Seg, s.key = (psh s).key := by
    intro s
    rw [hpsh]
    dsimp only
    split <;> rfl
  have hpush : ∀ {l : List Seg}, (∀ s ∈ l, s.Within r (Serial.dist r pcb.snd_lbb) hi) →
      ∀ s ∈ modifyLast psh l, s.Within r (Serial.dist r pcb.snd_lbb) hi := by
    intro l hl s hs
    obtain ⟨x, hx, rfl | rfl⟩ := mem_modifyLast hs
    · exact hl _ hx
    · exact (hl x hx).of_key (hkey x)
  have hrefl : ∀ l : List Seg, List.Forall₂ (Grown r hi) l l := fun l =>
    List.forall₂_same.mpr fun s _ => .inl rfl
  have harg' : flags = {} ∧ q.flags = {} ∨ flags.fin = true ∧ qs = [] := by
    rcases harg with ⟨-, hd⟩ | ⟨-, hf⟩
    · exact .inl ⟨hd, hqf hd⟩
    · exact .inr ⟨by rw [hf], hqs (by rw [hf])⟩
  have hold' : ∀ s ∈ pcb.unsent, s.Within r 0 hi := fun s hs =>
    (hold s hs).mono le_rfl (by omega)
  have hq : q.Within r 0 hi := (hnew q List.mem_cons_self).mono (Nat.zero_le _) le_rfl
  show ∃ pre new, modifyLast psh unsent = pre ++ new ∧ _ ∧ _
  obtain rfl | ⟨init, useg, u, hu, rfl, hgrown, hsyn⟩ :=
    tcpEnqueueAppend_within harg' hle hold' hq happ
  · exact ⟨pcb.unsent, modifyLast psh (q :: qs), modifyLast_append psh _ (List.cons_ne_nil _ _),
      hrefl _, hpush hnew⟩
  · have hpre : ∀ v, Grown r hi useg v → List.Forall₂ (Grown r hi) pcb.unsent (init ++ [v]) := by
      intro v hv
      rw [hu]
      exact List.rel_append (hrefl init) (.cons hv .nil)
    rcases List.eq_nil_or_concat qs with rfl | ⟨l, x, rfl⟩
    · have hpushed : Grown r hi useg (psh u) := by
        refine .inr ⟨hsyn, fun lo hlo => ?_⟩
        rcases hgrown with rfl | ⟨-, hin⟩
        · have hin := hold' u (by rw [hu]; simp)
          exact Seg.Within.of_key ⟨hlo, hin.pos, hin.le_hi⟩ (hkey u)
        · exact (hin lo hlo).of_key (hkey u)
      rw [List.append_nil, modifyLast_concat]
      exact ⟨init ++ [psh u], [], (List.append_nil _).symm, hpre _ hpushed, fun s hs => by cases hs⟩
    · refine ⟨init ++ [u], modifyLast psh (l.concat x), ?_, hpre u hgrown, ?_⟩
      · exact modifyLast_append psh _ (by simp)
      · exact hpush fun s hs => hnew s (List.mem_cons_of_mem _ hs)

end Enqueue

end Lwip.Tcp
