import Lwip.Tcp.Receiver
import Lwip.Tcp.Connection

/-!
# What the window lets in

A byte of a segment is handed to the application only if it lies in the receive window, and a
segment is put on `ooseq` only if it starts there (`Acceptance`): this is what the window tests of
`tcp_receive` are for. They are comparisons of signed differences, and at two places of the circle
they say yes to a segment that lies opposite to the window (`Slips`); everywhere else they are right
(`window_right_iff`). The queue of the pcb may be any list here, and the segment may carry any
flags.
-/

namespace Lwip.Tcp

/-- Nothing of the segment is taken. -/
structure Untaken (pcb : TcpPcb) (rx : Rx) : Prop where
  rcv_nxt : rx.pcb.rcv_nxt = pcb.rcv_nxt
  rcv_wnd : rx.pcb.rcv_wnd = pcb.rcv_wnd
  ooseq : rx.pcb.ooseq = pcb.ooseq
  recv_data : rx.recv_data = []
  got_fin : rx.got_fin = false

/-- What `tcp_receive` may do with a segment: leave everything as it is, queue a segment that starts
in the window, or hand up bytes of the window, and queued segments after them, if the segment
reaches over `rcv_nxt`. The bytes are those at the positions from `a` on, `n` of them. -/
inductive Acceptance (pcb : TcpPcb) (s : Seg) (rx : Rx) : Prop where
  | untaken : Untaken pcb rx → Acceptance pcb s rx
  | queued : Serial.dist pcb.rcv_nxt s.seqno < pcb.rcv_wnd → rx.pcb.rcv_nxt = pcb.rcv_nxt →
      rx.pcb.rcv_wnd = pcb.rcv_wnd → rx.recv_data = [] → rx.got_fin = false → Acceptance pcb s rx
  | delivered (a n : ℕ) (taken : List Seg) : Serial.dist s.seqno pcb.rcv_nxt < s.tcplen →
      0 < pcb.rcv_wnd →
      rx.recv_data = (s.p.drop a).take n ++ taken.flatMap (·.p) →
        taken ++ rx.pcb.ooseq <:+ pcb.ooseq →
      (∀ k, a ≤ k → k < a + n → Serial.dist pcb.rcv_nxt (s.seqno.adv k) < pcb.rcv_wnd) →
      Acceptance pcb s rx

/-- Every call with this `rcv_nxt` and this `rcv_wnd`, on a segment of `n` bytes with this sequence
number and these flags, takes only what lies in the window. -/
def WindowRight (rcv_nxt : Serial) (rcv_wnd : ℕ) (seqno : Serial) (n : ℕ) (fin syn : Bool) : Prop :=
  ∀ (o : Opts) (ticks : BitVec 32) (m : RxAlloc) (pcb : TcpPcb) (i : In) (rx : Rx),
    pcb.rcv_nxt = rcv_nxt → pcb.rcv_wnd = rcv_wnd → i.seg.seqno = seqno → i.seg.len = n →
    i.seg.p.length = n → i.seg.flags.fin = fin → i.seg.flags.syn = syn →
    tcpReceive o ticks m pcb i = .ok rx → Acceptance pcb i.seg rx

/-- The segment lies where the window tests go wrong: a single byte, or a bare flag, at the opposite
point of the circle passes as the next in sequence, and a segment one before that point passes the
test of a closed window. -/
def Slips (rcv_nxt : Serial) (rcv_wnd : ℕ) (seqno : Serial) (tcplen : ℕ) : Prop :=
  0 < rcv_wnd ∧ Serial.dist rcv_nxt seqno = 2^31 ∧ tcplen = 1 ∨
    rcv_wnd = 0 ∧ Serial.dist rcv_nxt seqno = 2^31 - 1 ∧ 0 < tcplen

instance (rcv_nxt : Serial) (rcv_wnd : ℕ) (seqno : Serial) (tcplen : ℕ) :
    Decidable (Slips rcv_nxt rcv_wnd seqno tcplen) := inferInstanceAs (Decidable (_ ∨ _))

/-! ## The segment in sequence -/

section InSeq

variable {o : Opts} {m : RxAlloc} {pcb : TcpPcb} {s s' : Seg} {q q' : List Seg} {rx rx' : Rx}

/-- The trimming to the window leaves a front part that fits. -/
theorem trimToWnd_prefix {tcplen : ℕ} (hlen : s.len = s.p.length) (htl : s.tcplen < 2^16)
    (h0 : 0 < pcb.rcv_wnd) (h : trimToWnd pcb s = .ok (s', tcplen)) :
    ∃ n ≤ pcb.rcv_wnd, s'.p = s.p.take n := by
  unfold trimToWnd at h
  rw [u16_eq htl] at h
  split at h
  · obtain ⟨_, -, h⟩ := bind_eq_ok.mp h
    cases h
    refine ⟨_, ?_, rfl⟩
    split
    · unfold u16sub
      omega
    · exact le_rfl
  · next hfits =>
    cases h
    have hle := s.len_le_tcplen
    refine ⟨s.len, by omega, ?_⟩
    rw [hlen, List.take_length]

/-- The queue is a suffix of what it was, and no byte of the segment goes. -/
theorem absorbOoseq_prefix (s : Seg) (tcplen : ℕ) (q : List Seg) :
    (absorbOoseq s tcplen q).1.p = s.p ∧ (absorbOoseq s tcplen q).2.2 <:+ q := by
  induction q generalizing s tcplen with
  | nil => exact ⟨rfl, List.suffix_rfl⟩
  | cons next rest ih =>
    unfold absorbOoseq
    split
    · split
      · exact ⟨(ih s.setFin _).1, (ih s.setFin _).2.trans (List.suffix_cons next rest)⟩
      · exact ⟨(ih s tcplen).1, (ih s tcplen).2.trans (List.suffix_cons next rest)⟩
    · exact ⟨rfl, List.suffix_rfl⟩

/-- What is left of the segment is a prefix of it, and what is left of the queue is its end. -/
theorem mergeOoseq_prefix {tcplen tcplen' : ℕ} (h : mergeOoseq q s tcplen = .ok (s', tcplen', q')) :
    (∃ n, s'.p = s.p.take n) ∧ q' <:+ q := by
  have hwhole : s.p = s.p.take s.p.length := (List.take_length).symm
  unfold mergeOoseq at h
  split at h
  · cases h
    exact ⟨⟨_, hwhole⟩, List.suffix_rfl⟩
  · next head rest =>
    split at h
    · cases h
      exact ⟨⟨_, hwhole⟩, List.nil_suffix⟩
    · obtain ⟨hp, hsuf⟩ := absorbOoseq_prefix s tcplen (head :: rest)
      split at h
      · next heq =>
        cases h
        rw [heq] at hp
        exact ⟨⟨_, hp.trans hwhole⟩, List.nil_suffix⟩
      · next heq =>
        rw [heq] at hp hsuf
        dsimp only at hp hsuf
        split at h
        · -- The segment is cut against the queue.
          obtain ⟨_, -, h⟩ := bind_eq_ok.mp h
          cases h
          exact ⟨⟨_, congrArg (List.take _) hp⟩, hsuf⟩
        · cases h
          exact ⟨⟨_, hp.trans hwhole⟩, hsuf⟩

/-- The loop hands up a front part of the queue. -/
theorem dequeueOoseq_taken (h : dequeueOoseq o q rx = .ok rx') (hq : rx.pcb.ooseq = q) :
    ∃ taken, taken ++ rx'.pcb.ooseq = q ∧ rx'.recv_data = rx.recv_data ++ taken.flatMap (·.p) := by
  let I : List Seg → Rx → Prop := fun q' r => r.pcb.ooseq = q' ∧
    ∃ taken, taken ++ q' = q ∧ r.recv_data = rx.recv_data ++ taken.flatMap (·.p)
  have hstart : I q rx := ⟨hq, [], rfl, by simp⟩
  have hstep : ∀ c rest r, I (c :: rest) r → c.seqno = r.pcb.rcv_nxt → c.tcplen ≤ r.pcb.rcv_wnd →
      I rest (dequeueOne o c rest r) := by
    rintro c rest r ⟨-, taken, happ, hdata⟩ - -
    refine ⟨rfl, taken ++ [c], ?_, ?_⟩
    · rw [List.append_assoc]
      exact happ
    · rw [dequeueOne_recv_data, hdata, List.flatMap_append, List.append_assoc]
      simp
  obtain ⟨q', ⟨hooseq, taken, happ, hdata⟩, -⟩ := dequeueOoseq_induction h I hstep hstart
  exact ⟨taken, hooseq ▸ happ, hdata⟩

/-- A segment in sequence hands up its front, as far as the window reaches, and then a part of the
queue. -/
theorem tcpReceiveInSeq_taken (hlen : s.len = s.p.length) (htl : s.tcplen < 2^16)
    (h0 : 0 < pcb.rcv_wnd) (h : tcpReceiveInSeq o pcb s = .ok rx) :
    ∃ n ≤ pcb.rcv_wnd, ∃ taken, rx.recv_data = s.p.take n ++ taken.flatMap (·.p) ∧
      taken ++ rx.pcb.ooseq <:+ pcb.ooseq := by
  unfold tcpReceiveInSeq at h
  obtain ⟨⟨t, tcplen⟩, htrim, h⟩ := bind_eq_ok.mp h
  obtain ⟨⟨t', tcplen', q⟩, hmerge, h⟩ := bind_eq_ok.mp h
  obtain ⟨_, -, h⟩ := bind_eq_ok.mp h
  obtain ⟨rx', hdeq, h⟩ := bind_eq_ok.mp h
  cases h
  obtain ⟨n, hn, ht⟩ := trimToWnd_prefix hlen htl h0 htrim
  obtain ⟨⟨k, hk⟩, hsuf⟩ := mergeOoseq_prefix hmerge
  obtain ⟨taken, happ, hdata⟩ := dequeueOoseq_taken hdeq (tcpUpdateRcvAnnWnd_ooseq o _)
  refine ⟨min k n, (min_le_right k n).trans hn, taken, ?_, ?_⟩
  · rw [← List.take_take, ← ht, ← hk]
    exact hdata
  · show taken ++ (tcpAck rx'.pcb).ooseq <:+ pcb.ooseq
    rw [(tcpAck_sameRcv rx'.pcb).ooseq, happ]
    exact hsuf

end InSeq

/-! ## Where the tests are right -/

section Right

variable {o : Opts} {ticks : BitVec 32} {m : RxAlloc} {pcb pcb' : TcpPcb} {s s' : Seg} {rx : Rx}

/-- The bytes of the segment that a front of what is left of it covers. -/
theorem Front.delivered (hf : Front pcb.rcv_nxt s s') (h0 : 0 < s.tcplen)
    (hslip : ¬ (Serial.dist pcb.rcv_nxt s.seqno = 2^31 ∧ s.tcplen = 1)) :
    Serial.dist s.seqno pcb.rcv_nxt < s.tcplen ∧
    s'.p = s.p.drop (Serial.dist s.seqno pcb.rcv_nxt) := by
  cases hf with
  | whole heq =>
    rw [heq, Serial.dist_self]
    exact ⟨h0, List.drop_zero.symm⟩
  | cut hd hd' => exact ⟨hd', rfl⟩
  | antipode hd hone =>
    -- The opposite point is the same from both sides.
    refine absurd ⟨?_, hone⟩ hslip
    have h := Serial.dist_eq_sub_wrap (r := s.seqno) (a := pcb.rcv_nxt) (b := s.seqno)
      (by rw [Serial.dist_self]; omega)
    rw [hd, Serial.dist_self] at h
    omega

/-- The bytes from `rcv_nxt` on, as many as the window is wide. -/
theorem dist_position {r seqno : Serial} {n w k : ℕ} (hn : n ≤ w) (hw : w < 2^16)
    (hfront : Serial.dist seqno r < 2^16) (hk : Serial.dist seqno r ≤ k)
    (hk' : k < Serial.dist seqno r + n) : Serial.dist r (seqno.adv k) < w := by
  have hdist : Serial.dist seqno (seqno.adv k) = k := Serial.dist_self_adv (by omega)
  rw [Serial.dist_eq_sub (r := seqno) (by omega), hdist]
  omega

/-- A segment in sequence delivers bytes of the window. -/
theorem Front.acceptance (hf : Front pcb.rcv_nxt s s') (hsame : SameRcv pcb pcb')
    (hlen' : s'.len = s'.p.length) (htl' : s'.tcplen < 2^16) (hlt : s.tcplen < 2^16)
    (h0 : 0 < s.tcplen) (hpos : 0 < pcb.rcv_wnd) (hw : pcb.rcv_wnd < 2^16)
    (hslip : ¬ Slips pcb.rcv_nxt pcb.rcv_wnd s.seqno s.tcplen)
    (h : tcpReceiveInSeq o pcb' s' = .ok rx) : Acceptance pcb s rx := by
  have hwnd := hsame.rcv_wnd
  obtain ⟨n, hn, taken, hdata, hsuf⟩ := tcpReceiveInSeq_taken hlen' htl' (by omega) h
  obtain ⟨hover, hp⟩ := hf.delivered h0 fun hc => hslip (.inl ⟨hpos, hc.1, hc.2⟩)
  rw [hp] at hdata
  rw [hsame.ooseq] at hsuf
  refine .delivered (Serial.dist s.seqno pcb.rcv_nxt) n taken hover hpos hdata hsuf ?_
  intro k hk hk'
  exact dist_position (hn.trans hwnd.le) hw (by omega) hk hk'

/-- What is left of a segment has the length of its payload. -/
theorem Front.len_eq (hf : Front pcb.rcv_nxt s s') (hlen : s.len = s.p.length)
    (hle : s.len + 40 ≤ 0xffff) : s'.len = s'.p.length ∧ s'.tcplen < 2^16 := by
  have htl' := s'.tcplen_le
  cases hf with
  | whole => exact ⟨hlen, by omega⟩
  | cut hd hd' =>
    dsimp only at htl'
    exact ⟨by rw [List.length_drop, hlen], by omega⟩
  | antipode =>
    dsimp only at htl'
    exact ⟨hlen, by omega⟩

/-- The window of a segment that was not trimmed at the front. -/
theorem tcpReceiveWindow_acceptance (hlen : s.len = s.p.length) (hle : s.len + 40 ≤ 0xffff)
    (h0 : 0 < s.tcplen) (hw : pcb.rcv_wnd < 2^16) (hsame : SameRcv pcb pcb')
    (hslip : ¬ Slips pcb.rcv_nxt pcb.rcv_wnd s.seqno s.tcplen)
    (h : tcpReceiveWindow o m pcb' s = .ok rx) : Acceptance pcb s rx := by
  have htl := s.tcplen_le
  have hst : Stamped pcb (tcpSendEmptyAck m.ack pcb').1 (tcpSendEmptyAck m.ack pcb').2 := by
    simpa using hsame.stamped.trans (tcpSendEmptyAck_stamped m.ack pcb')
  unfold tcpReceiveWindow at h
  dsimp only at h
  rw [hsame.rcv_nxt, hsame.rcv_wnd] at h
  split at h
  · next hin =>
    split at h
    · next heq =>
      have hpos : 0 < pcb.rcv_wnd := rcv_wnd_pos (heq ▸ hin)
      exact Front.acceptance (.whole heq.symm) hsame hlen (by omega) (by omega) h0 hpos hw hslip h
    · cases h
      rcases between_window hw hin with hd | ⟨hzero, hd⟩
      · exact .queued hd hst.rcv_nxt hst.rcv_wnd rfl rfl
      · exact absurd (.inr ⟨hzero, hd, h0⟩) hslip
  · cases h
    exact .untaken ⟨hst.rcv_nxt, hst.rcv_wnd, hst.ooseq, rfl, rfl⟩

/-- Outside of the two slips, the data half lets in what it should. -/
theorem tcpReceiveData_acceptance (hlen : s.len = s.p.length) (hle : s.len + 40 ≤ 0xffff)
    (hw : pcb.rcv_wnd < 2^16) (hslip : ¬ Slips pcb.rcv_nxt pcb.rcv_wnd s.seqno s.tcplen)
    (h : tcpReceiveData o m pcb s = .ok rx) : Acceptance pcb s rx := by
  have htl := s.tcplen_le
  have hu : u16 s.tcplen = s.tcplen := u16_eq (by omega)
  have hacked : SameRcv pcb (tcpAckNowInput pcb) := ⟨rfl, rfl, rfl, rfl, rfl, rfl⟩
  unfold tcpReceiveData at h
  rw [hu] at h
  split at h
  · next h0 =>
    split at h
    · next hfront =>
      rcases trimFront_spec hlen hle h0 hfront with herr | ⟨s', hs', hf⟩
      · rw [herr] at h
        cases h
      · rw [hs'] at h
        change tcpReceiveWindow o m pcb s' = .ok rx at h
        obtain ⟨hlen', htl'⟩ := hf.len_eq hlen hle
        have hst := tcpSendEmptyAck_stamped m.ack pcb
        unfold tcpReceiveWindow at h
        dsimp only at h
        rw [hf.seqno] at h
        split at h
        · next hin =>
          rw [if_pos rfl] at h
          exact hf.acceptance (.refl pcb) hlen' htl' (by omega) h0 (rcv_wnd_pos hin) hw hslip h
        · cases h
          exact .untaken ⟨hst.rcv_nxt, hst.rcv_wnd, hst.ooseq, rfl, rfl⟩
    · split at h
      · exact tcpReceiveWindow_acceptance hlen hle h0 hw hacked hslip h
      · exact tcpReceiveWindow_acceptance hlen hle h0 hw (.refl pcb) hslip h
  · -- The segment is empty.
    cases h
    refine .untaken ⟨?_, ?_, ?_, rfl, rfl⟩ <;> (dsimp only; split <;> rfl)

end Right

/-! ## Where they slip -/

section Slip

variable {o : Opts} {m : RxAlloc} {pcb : TcpPcb} {s : Seg} {rx : Rx}

/-- A segment that does not reach over `rcv_nxt` must not move it. -/
theorem Acceptance.rcv_nxt_eq (h : Acceptance pcb s rx)
    (hover : ¬ Serial.dist s.seqno pcb.rcv_nxt < s.tcplen) : rx.pcb.rcv_nxt = pcb.rcv_nxt := by
  cases h with
  | untaken hu => exact hu.rcv_nxt
  | queued _ hnxt => exact hnxt
  | delivered a n taken hd => exact absurd hd hover

/-- A segment that neither reaches over `rcv_nxt` nor starts in the window must not change the
queue. -/
theorem Acceptance.ooseq_eq (h : Acceptance pcb s rx)
    (hover : ¬ Serial.dist s.seqno pcb.rcv_nxt < s.tcplen)
    (hout : ¬ Serial.dist pcb.rcv_nxt s.seqno < pcb.rcv_wnd) : rx.pcb.ooseq = pcb.ooseq := by
  cases h with
  | untaken hu => exact hu.ooseq
  | queued hd => exact absurd hd hout
  | delivered a n taken hd => exact absurd hd hover

/-- One before the opposite point passes the test of a closed window, whose last number is before
its first. -/
theorem between_closed {r x : Serial} (hd : Serial.dist r x = 2^31 - 1) :
    Serial.between x r (r.adv 0 - 1) := by
  constructor
  · rw [Serial.geq_iff]
    omega
  · rw [Serial.adv_zero, Serial.leq_iff, Serial.dist_sub_one_left (by omega)]
    omega

/-- A single sequence number in sequence is taken. -/
theorem tcpReceiveInSeq_one (hq : pcb.ooseq = []) (hseq : s.seqno = pcb.rcv_nxt)
    (hone : s.tcplen = 1) (h0 : 0 < pcb.rcv_wnd) :
    ∃ rx, tcpReceiveInSeq o pcb s = .ok rx ∧ rx.pcb.rcv_nxt = pcb.rcv_nxt.adv 1 := by
  have htrim : trimToWnd pcb s = .ok (s, 1) := by
    unfold trimToWnd
    rw [hone, if_neg (show ¬ u16 1 > pcb.rcv_wnd from by unfold u16; omega)]
    rfl
  have hmerge : mergeOoseq pcb.ooseq s 1 = .ok (s, 1, []) := by
    rw [hq]
    rfl
  have hroom : lwipAssert Abort.tcplenGtRcvWnd (pcb.rcv_wnd ≥ 1) = .ok () := lwipAssert_eq_ok.mpr h0
  unfold tcpReceiveInSeq
  simp only [htrim, hmerge, hroom, bind, Except.bind, dequeueOoseq, pure, Except.pure]
  refine ⟨_, rfl, ?_⟩
  rw [(tcpAck_sameRcv _).rcv_nxt, tcpUpdateRcvAnnWnd_rcv_nxt, hseq]

/-- A single sequence number from the opposite point of the circle is taken as the next. -/
theorem tcpReceiveData_antipode (hq : pcb.ooseq = []) (hle : s.len + 40 ≤ 0xffff)
    (hd : Serial.dist pcb.rcv_nxt s.seqno = 2^31) (hone : s.tcplen = 1) (h0 : 0 < pcb.rcv_wnd)
    (hw : pcb.rcv_wnd < 2^16) :
    ∃ rx, tcpReceiveData o m pcb s = .ok rx ∧ rx.pcb.rcv_nxt = pcb.rcv_nxt.adv 1 := by
  have hback : Serial.dist s.seqno pcb.rcv_nxt = 2^31 := by
    have h := Serial.dist_eq_sub_wrap (r := pcb.rcv_nxt) (a := s.seqno) (b := pcb.rcv_nxt)
      (by rw [Serial.dist_self]; omega)
    rw [hd, Serial.dist_self] at h
    omega
  have hfront : Serial.between pcb.rcv_nxt (s.seqno.adv 1) (s.seqno.adv 1 - 1) := by
    have hnext : Serial.dist s.seqno (s.seqno.adv 1) = 1 := Serial.dist_self_adv (by omega)
    have hsame : s.seqno.adv 1 - 1 = s.seqno := by
      unfold Serial.adv
      exact BitVec.add_sub_cancel _ _
    constructor
    · rw [Serial.geq_iff, Serial.dist_eq_sub (r := s.seqno) (by omega), hnext]
      omega
    · rw [hsame, Serial.leq_iff]
      omega
  have hin := between_start (r := pcb.rcv_nxt) h0 hw
  unfold tcpReceiveData
  rw [hone, if_pos (show u16 1 > 0 from by decide), show u16 1 = 1 from rfl, if_pos hfront,
    trimFront_antipode hback hle]
  change ∃ rx, tcpReceiveWindow o m pcb { s with seqno := pcb.rcv_nxt } = .ok rx ∧ _
  unfold tcpReceiveWindow
  dsimp only
  rw [if_pos hin, if_pos rfl]
  exact tcpReceiveInSeq_one hq rfl hone h0

/-- A closed window queues the segment one before the opposite point. -/
theorem tcpReceiveData_closed (hq : pcb.ooseq = []) (hle : s.len + 40 ≤ 0xffff)
    (hd : Serial.dist pcb.rcv_nxt s.seqno = 2^31 - 1) (h0 : 0 < s.tcplen) (hw : pcb.rcv_wnd = 0)
    (hm : m.seg = true) : ∃ rx, tcpReceiveData o m pcb s = .ok rx ∧ rx.pcb.ooseq = [s] := by
  have htl := s.tcplen_le
  have hu : u16 s.tcplen = s.tcplen := u16_eq (by omega)
  have hback : Serial.dist s.seqno pcb.rcv_nxt = 2^31 + 1 := by
    have h := Serial.dist_eq_sub_wrap (r := pcb.rcv_nxt) (a := s.seqno) (b := pcb.rcv_nxt)
      (by rw [Serial.dist_self]; omega)
    rw [hd, Serial.dist_self] at h
    omega
  have hfront : ¬ Serial.between pcb.rcv_nxt (s.seqno.adv 1) (s.seqno.adv s.tcplen - 1) := by
    intro hb
    rcases between_front h0 (by omega) hb with hc | hc <;> omega
  have hne : pcb.rcv_nxt ≠ s.seqno := by
    intro heq
    rw [heq, Serial.dist_self] at hd
    omega
  unfold tcpReceiveData
  rw [hu, if_pos h0, if_neg hfront]
  generalize hp : (if Serial.lt s.seqno pcb.rcv_nxt then tcpAckNowInput pcb else pcb) = p
  have hsame : SameRcv pcb p := by
    rw [← hp]
    split <;> exact ⟨rfl, rfl, rfl, rfl, rfl, rfl⟩
  have hst := tcpSendEmptyAck_stamped m.ack p
  unfold tcpReceiveWindow
  dsimp only
  rw [hsame.rcv_nxt, hsame.rcv_wnd, hw, if_pos (between_closed hd), if_neg hne]
  refine ⟨_, rfl, ?_⟩
  dsimp only
  rw [hst.ooseq, hsame.ooseq, hq, hm]
  rfl

end Slip

/-! ## The condition -/

/-- The acknowledgement half of `tcp_receive` leaves what the acceptance is about. -/
theorem Acceptance.of_sameRcv {pcb p : TcpPcb} {s : Seg} {rx : Rx} (h : SameRcv pcb p)
    (hacc : Acceptance p s rx) : Acceptance pcb s rx := by
  cases hacc with
  | untaken hu =>
    exact .untaken ⟨hu.rcv_nxt.trans h.rcv_nxt, hu.rcv_wnd.trans h.rcv_wnd, hu.ooseq.trans h.ooseq,
      hu.recv_data, hu.got_fin⟩
  | queued hd hnxt hwnd hdata hfin =>
    rw [h.rcv_nxt, h.rcv_wnd] at hd
    exact .queued hd (hnxt.trans h.rcv_nxt) (hwnd.trans h.rcv_wnd) hdata hfin
  | delivered a n taken hover h0 hdata hsuf hbytes =>
    rw [h.rcv_nxt] at hover
    rw [h.rcv_wnd] at h0
    rw [h.ooseq] at hsuf
    rw [h.rcv_nxt, h.rcv_wnd] at hbytes
    exact .delivered a n taken hover h0 hdata hsuf hbytes

/-- The pcb and the segment with which the tests slip, if they can. -/
def slipPcb (rcv_nxt : Serial) (rcv_wnd : ℕ) : TcpPcb :=
  { TcpPcb.established .shipped 0 0 1000 with rcv_nxt, rcv_wnd }

def slipSeg (seqno : Serial) (n : ℕ) (fin syn : Bool) : Seg :=
  { seqno, len := n, p := List.replicate n 0, flags := { fin, syn } }

section Slips

variable {rcv_nxt seqno : Serial} {rcv_wnd n : ℕ} {fin syn : Bool}

/-- What the claim of the tests comes to for this pcb and this segment. -/
theorem WindowRight.slip (h : WindowRight rcv_nxt rcv_wnd seqno n fin syn) {rx : Rx}
    (hrx : tcpReceiveData .shipped {} (slipPcb rcv_nxt rcv_wnd) (slipSeg seqno n fin syn) =
    .ok rx) : Acceptance (slipPcb rcv_nxt rcv_wnd) (slipSeg seqno n fin syn) rx :=
  h .shipped 0 {} _ { seg := slipSeg seqno n fin syn, ackno := 0, wnd := 0 } rx rfl rfl rfl rfl
    List.length_replicate rfl rfl hrx

/-- A segment that starts about half the circle after `rcv_nxt` does not reach over it. -/
theorem not_over {r x : Serial} {tcplen : ℕ} (h0 : 0 < Serial.dist r x)
    (hd : Serial.dist r x ≤ 2^31) (htl : tcplen < 2^16) : ¬ Serial.dist x r < tcplen := by
  rw [Serial.dist_eq_sub_wrap (r := r) (by rw [Serial.dist_self]; exact h0), Serial.dist_self]
  omega

/-- At the antipode a segment that takes one place is let in wrongly. -/
theorem not_right_antipode (h0 : 0 < rcv_wnd) (hw : rcv_wnd < 2^16) (hn : n ≤ 65495)
    (hd : Serial.dist rcv_nxt seqno = 2^31) (hone : (slipSeg seqno n fin syn).tcplen = 1) :
    ¬ WindowRight rcv_nxt rcv_wnd seqno n fin syn := by
  intro hright
  have hlen : (slipSeg seqno n fin syn).len = n := rfl
  obtain ⟨rx, hrx, hnxt⟩ : ∃ rx, tcpReceiveData .shipped {} (slipPcb rcv_nxt rcv_wnd)
      (slipSeg seqno n fin syn) = .ok rx ∧ rx.pcb.rcv_nxt = rcv_nxt.adv 1 :=
    tcpReceiveData_antipode rfl (by omega) hd hone h0 hw
  have hover : ¬ Serial.dist seqno rcv_nxt < (slipSeg seqno n fin syn).tcplen :=
    not_over (by omega) (by omega) (by omega)
  have hstays : rx.pcb.rcv_nxt = rcv_nxt := (hright.slip hrx).rcv_nxt_eq hover
  -- But it moved by one.
  have hmoved : Serial.dist rcv_nxt (rcv_nxt.adv 1) = 1 := Serial.dist_self_adv (by omega)
  rw [← hnxt, hstays, Serial.dist_self] at hmoved
  omega

/-- A closed window lets in a segment from just before the antipode. -/
theorem not_right_closed (hn : n ≤ 65495) (hd : Serial.dist rcv_nxt seqno = 2^31 - 1)
    (hpos : 0 < (slipSeg seqno n fin syn).tcplen) : ¬ WindowRight rcv_nxt 0 seqno n fin syn := by
  intro hright
  have htl := (slipSeg seqno n fin syn).tcplen_le
  have hlen : (slipSeg seqno n fin syn).len = n := rfl
  obtain ⟨rx, hrx, hqueue⟩ : ∃ rx, tcpReceiveData .shipped {} (slipPcb rcv_nxt 0)
      (slipSeg seqno n fin syn) = .ok rx ∧ rx.pcb.ooseq = [slipSeg seqno n fin syn] :=
    tcpReceiveData_closed rfl (by omega) hd hpos rfl rfl
  have hover : ¬ Serial.dist seqno rcv_nxt < (slipSeg seqno n fin syn).tcplen :=
    not_over (by omega) (by omega) (by omega)
  have hstays : rx.pcb.ooseq = [] := (hright.slip hrx).ooseq_eq hover (Nat.not_lt_zero _)
  rw [hqueue] at hstays
  cases hstays

/-- For every `rcv_nxt` and `rcv_wnd`, and every sequence number, payload length and flags of a
segment: `tcp_receive` takes only what lies in the window, whatever is queued and however the
allocations go, if and only if the segment is not one at which the tests slip. -/
theorem window_right_iff (hw : rcv_wnd < 2^16) (hn : n ≤ 65495) :
    WindowRight rcv_nxt rcv_wnd seqno n fin syn ↔
      ¬ Slips rcv_nxt rcv_wnd seqno (n + if fin || syn then 1 else 0) := by
  constructor
  · rintro hright (⟨h0, hd, hone⟩ | ⟨rfl, hd, hpos⟩)
    · exact not_right_antipode h0 hw hn hd hone hright
    · exact not_right_closed hn hd hpos hright
  · rintro hslip o ticks m pcb i rx rfl rfl rfl hlen hp hfin hsyn hrx
    have htcp : i.seg.tcplen = n + if fin || syn then 1 else 0 := by
      unfold Seg.tcplen
      rw [hlen, hfin, hsyn]
    rw [← htcp] at hslip
    obtain ⟨p, hack, hdata⟩ := tcpReceive_eq_ok hrx
    have hsame : SameRcv pcb p := by
      rcases hack with ⟨-, hack⟩ | ⟨-, rfl⟩
      · exact tcpReceiveAck_sameRcv hack
      · exact .refl p
    refine Acceptance.of_sameRcv hsame
      (tcpReceiveData_acceptance (hlen.trans hp.symm) (by omega) (hsame.rcv_wnd ▸ hw) ?_ hdata)
    rw [hsame.rcv_nxt, hsame.rcv_wnd]
    exact hslip

/-- Ten octets that start inside the window of this build, and the last byte before it. -/
theorem window_right_iff_tenOctets : WindowRight 0 2144 5 10 false false ∧
    WindowRight 0 2144 (-1) 1 false false :=
  ⟨(window_right_iff (by decide) (by decide)).mpr (by decide),
    (window_right_iff (by decide) (by decide)).mpr (by decide)⟩

/-- One byte from the opposite point of the circle is handed to the application; ten bytes from one
before it are queued although the window is closed. -/
theorem opposite_byte_delivered : ¬ WindowRight 1 2144 0x80000001 1 false false ∧
    ¬ WindowRight 1 0 0x80000000 10 false false :=
  ⟨not_right_antipode (by decide) (by decide) (by decide) (by decide) rfl,
    not_right_closed (by decide) (by decide) (by decide)⟩

end Slips

end Lwip.Tcp
