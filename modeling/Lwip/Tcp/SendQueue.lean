import Lwip.Tcp.Connection

/-!
# The send queues in order

The queues `unacked` and `unsent` are meant to be sorted, and together to hold every byte from
`lastack` to `snd_lbb` once (`SendInv`). They are, as long as the retransmission timer fires only
while no unsent segment lies before an unacknowledged one: `tcp_rexmit_rto` puts all of `unacked` in
front of `unsent`, where the fast retransmission has put a segment that belongs before them.

The same order decides whether an acknowledgement frees only what it acknowledges. There the second
loop of `tcp_receive` has to be kept from taking a stray acknowledgement number for a new one.
-/

namespace Lwip.Tcp

open Relation (ReflTransGen)

/-- The segments follow each other without a gap or an overlap, from `a` to `e`. -/
def Contiguous : Serial → List Seg → Serial → Prop
  | a, [], e => a = e
  | a, s :: l, e => s.seqno = a ∧ 0 < s.tcplen ∧ Contiguous s.endSeq l e

/-- The list is strictly sorted by sequence number. -/
def SortedBySeqno (l : List Seg) : Prop := l.Pairwise (fun x y => Serial.lt x.seqno y.seqno)

/-- The invariant of the send queues. -/
structure SendInv (pcb : TcpPcb) : Prop where
  sorted_unacked : SortedBySeqno pcb.unacked
  sorted_unsent : SortedBySeqno pcb.unsent
  /-- Merged by sequence number, the queues cover a contiguous range that ends at `snd_lbb`, and
  the first segment contains `lastack`. -/
  merged : ∃ m b, m.Perm (pcb.unacked ++ pcb.unsent) ∧ SortedBySeqno m ∧
    Contiguous b m pcb.snd_lbb ∧
    ∀ s ∈ m.head?, Serial.leq s.seqno pcb.lastack ∧ Serial.lt pcb.lastack s.endSeq
  empty_iff : (pcb.unacked = [] ∧ pcb.unsent = []) ↔ pcb.lastack = pcb.snd_lbb
  /-- Every segment on `unacked` ends at or below `snd_nxt`. -/
  unacked_le : ∀ s ∈ pcb.unacked, Serial.leq s.endSeq pcb.snd_nxt
  lastack_le : Serial.leq pcb.lastack pcb.snd_nxt
  snd_nxt_le : Serial.leq pcb.snd_nxt pcb.snd_lbb

/-! ## The invariant of the abstract sender is that of the pcb -/

section Pcb

variable {base : Serial} {pcb : TcpPcb} {t : Tx}

/-- A tiling is a contiguous queue. -/
theorem Tiles.contiguous {l : List Seg} {m : List Range} {b e : ℕ}
    (h : List.Forall₂ (SegAt base) l m) (ht : Tiles b m e) :
    Contiguous (base.adv b) l (base.adv e) := by
  induction h generalizing b with
  | nil => cases ht; rfl
  | @cons s r l m hs _ ih =>
    refine ⟨by rw [hs.seqno, ht.1], by rw [hs.tcplen]; exact ht.2.1, ?_⟩
    rw [hs.endSeq]
    exact ih ht.2.2

/-- A list of queued segments is sorted by sequence number if their places are sorted. -/
theorem Tx.Weak.sortedBySeqno (hw : t.Weak) {l : List Seg} {m : List Range}
    (h : List.Forall₂ (SegAt base) l m) (hm : ∀ r ∈ m, r ∈ t.unacked ++ t.unsent)
    (hs : SortedByStart m) : SortedBySeqno l := by
  induction h with
  | nil => exact .nil
  | @cons s r l m hsr hl ih =>
    obtain ⟨h1, h2⟩ := List.pairwise_cons.mp hs
    refine List.pairwise_cons.mpr ⟨fun x hx => ?_, ih (fun r hr => hm r (by simp [hr])) h2⟩
    obtain ⟨y, hy, hxy⟩ := forall₂_mem_left hl hx
    exact (hw.seqno_lt hsr hxy (hm r (by simp)) (hm y (by simp [hy]))).mpr (h1 y hy)

/-- The places of queued segments are sorted if the segments are sorted by sequence number. -/
theorem Sender.start_lt (h : Sender base pcb t)
    (ho : ∀ x ∈ pcb.unacked, ∀ y ∈ pcb.unsent, Serial.lt x.seqno y.seqno) :
    ∀ x ∈ t.unacked, ∀ y ∈ t.unsent, x.start < y.start := by
  intro x hx y hy
  obtain ⟨s, hs, hsx⟩ := forall₂_mem_left h.unacked.flip hx
  obtain ⟨s', hs', hsy⟩ := forall₂_mem_left h.unsent.flip hy
  exact (h.weak.seqno_lt hsx hsy (by simp [hx]) (by simp [hy])).mp (ho s hs s' hs')

/-- The sender that is in order has the queues that it should have. -/
theorem Sender.sendInv (h : Sender base pcb t) (hs : t.Strong) : SendInv pcb := by
  have hw1 := h.weak.nxt_ge
  have hw2 := h.weak.nxt_le
  have hw3 := h.weak.win
  obtain ⟨m, b, hm, hb, ht⟩ := hs.tiles
  obtain ⟨l, hl, hlm⟩ := List.perm_comp_forall₂ hm (List.rel_append h.unacked h.unsent).flip
  refine ⟨h.weak.sortedBySeqno h.unacked (fun r hr => by simp [hr]) hs.sorted_unacked,
    h.weak.sortedBySeqno h.unsent (fun r hr => by simp [hr]) hs.sorted_unsent,
    ⟨l, base.adv b, hlm, ?_, ?_, ?_⟩, ?_, fun s hs' => ?_, ?_, ?_⟩
  · refine h.weak.sortedBySeqno hl.flip (fun r hr => hm.mem_iff.mp hr) ?_
    refine ht.pairwise.imp_of_mem fun {x y} hx _ hxy => ?_
    have := (ht.mem hx).2.1
    unfold Range.stop at hxy
    omega
  · rw [h.snd_lbb]
    exact Tiles.contiguous hl.flip ht
  · intro s hs'
    cases hl with
    | nil => cases hs'
    | @cons r s' m l hat hl =>
      cases hs'
      have hmem : r ∈ t.unacked ++ t.unsent := hm.mem_iff.mp (by simp)
      obtain ⟨h1, h2, h3, -⟩ := h.weak.bounds hmem
      have hstart := ht.1
      have hat' : SegAt base s r := hat
      rw [hat'.endSeq, hat'.seqno, h.lastack, Serial.leq_adv_iff (by omega) (by omega),
        Serial.lt_adv_iff (by omega) (by omega)]
      exact ⟨by omega, hs.lt_stop r hmem⟩
  · rw [h.lastack, h.snd_lbb, Serial.adv_eq_iff (by omega) (by omega)]
    constructor
    · rintro ⟨h1, h2⟩
      have hu := h.unacked
      have hu' := h.unsent
      rw [h1, List.forall₂_nil_left_iff] at hu
      rw [h2, List.forall₂_nil_left_iff] at hu'
      rw [hu, hu'] at hm
      rw [hm.eq_nil] at ht
      have hbe : b = t.lbb := ht
      omega
    · intro hd
      obtain ⟨h1, h2⟩ := h.weak.done hd
      have hu := h.unacked
      have hu' := h.unsent
      rw [h1, List.forall₂_nil_right_iff] at hu
      rw [h2, List.forall₂_nil_right_iff] at hu'
      exact ⟨hu, hu'⟩
  · obtain ⟨r, hr, hat⟩ := forall₂_mem_left h.unacked hs'
    obtain ⟨h1, h2, h3, -⟩ := h.weak.bounds (r := r) (by simp [hr])
    rw [hat.endSeq, h.snd_nxt, Serial.leq_adv_iff (by omega) (by omega)]
    exact hs.stop_le_nxt r hr
  · rw [h.lastack, h.snd_nxt, Serial.leq_adv_iff (by omega) (by omega)]
    exact hw1
  · rw [h.snd_nxt, h.snd_lbb, Serial.leq_adv_iff (by omega) (by omega)]
    exact hw2

end Pcb

/-! ## Runs -/

/-- A pcb of a connection that has sent nothing yet, or whose data are all acknowledged. The bounds
are those of the `u16_t` fields. -/
structure FreshSender (pcb : TcpPcb) : Prop where
  state : pcb.state = .ESTABLISHED
  unacked : pcb.unacked = []
  unsent : pcb.unsent = []
  snd_nxt : pcb.snd_nxt = pcb.lastack
  snd_lbb : pcb.snd_lbb = pcb.lastack
  fin : pcb.flags.fin = false
  snd_wnd_le : pcb.snd_wnd ≤ 0xffff
  mss_le : pcb.mss ≤ 0xffff
  snd_buf_le : pcb.snd_buf ≤ 0xffff

/-- A fresh sender has its queues in order. -/
theorem FreshSender.snd {pcb : TcpPcb} (h : FreshSender pcb) : Snd Tx.Strong pcb := by
  refine ⟨pcb.lastack, ⟨0, 0, 0, [], [], pcb.flags.infr⟩, ⟨?_, ?_, ?_, ?_, ?_, rfl, h.snd_wnd_le,
    h.mss_le, fun _ => ?_, ?_, fun _ => h.fin, ?_⟩, ?_⟩
  · exact (Serial.adv_zero _).symm
  · rw [h.snd_nxt, Serial.adv_zero]
  · rw [h.snd_lbb, Serial.adv_zero]
  · rw [h.unacked]; exact .nil
  · rw [h.unsent]; exact .nil
  · have := h.snd_buf_le
    dsimp only
    omega
  · rw [h.state]; rfl
  · exact ⟨Nat.le_refl _, Nat.le_refl _, Nat.zero_le _, by simp, by simp, by simp, by simp, by simp,
      by simp⟩
  · exact ⟨.nil, .nil, ⟨[], 0, .nil, Nat.le_refl _, rfl⟩, by simp, by simp⟩

/-- When the retransmission timer fires, no unsent segment lies before an unacknowledged one. -/
def RtoInOrder (o : Opts) : Conn → ConnEvent → Prop
  | .active pcb, .slowtmr _ _ =>
    rtoFires o pcb = true → ∀ x ∈ pcb.unacked, ∀ y ∈ pcb.unsent, Serial.lt x.seqno y.seqno
  | _, _ => True

/-- The acknowledgement number of a segment that comes in is not stray. -/
def NotStray : Conn → ConnEvent → Prop
  | .active pcb, .input _ _ _ _ i => i.seg.flags.ack = true → ¬StrayAck pcb i.ackno
  | _, _ => True

/-- The order of the queues is stable. -/
theorem strong_stable : Stable Tx.Strong := ⟨fun hw h hs => h.step hw hs⟩

/-- A timer that fires in order keeps the queues in order. -/
theorem RtoInOrder.keeps {o : Opts} {c : Conn} {ev : ConnEvent} (h : RtoInOrder o c ev)
    (h' : NotStray c ev) : Keeps o Tx.Strong c ev := by
  cases c with
  | gone => cases ev <;> trivial
  | timeWait pcb => cases ev <;> trivial
  | active pcb =>
    cases ev with
    | slowtmr ticks e => exact fun hf base t ht hst => hst.timeout (ht.start_lt (h hf))
    | input ticks m cb out i =>
      intro hack base p t t' k hn ht hst
      obtain ⟨rfl, -⟩ := hn.kept hst (h' hack)
      exact strong_stable.steps ht.weak hst hn.steps
    | call ticks c => trivial
    | output ticks alloc => trivial
    | fasttmr ticks takesRefused out => trivial

/-- The queues stay in order along every run whose timeouts come in order and whose acknowledgement
numbers are not stray. -/
theorem strong_reachable {o : Opts} {pcb : TcpPcb} {es : List ConnEvent} {c : Conn}
    (h0 : FreshSender pcb) (hrto : Along (connStep o) (RtoInOrder o) (.active pcb) es)
    (hack : Along (connStep o) NotStray (.active pcb) es)
    (hrun : run (connStep o) (.active pcb) es = .ok c) : c.Snd Tx.Strong :=
  run_invariant (I := Conn.Snd Tx.Strong) (s := .active pcb)
    (fun _ _ _ h he hs => connStep_snd strong_stable h (he.1.keeps he.2) hs) h0.snd
    (hrto.and hack) hrun

/-! ## Runs with segments without data -/

/-- The segment has no data, and its acknowledgement number is near `lastack`. -/
structure PureAck (pcb : TcpPcb) (i : In) : Prop where
  tcplen : i.seg.tcplen = 0
  near : -2^30 ≤ (i.ackno - pcb.lastack).toInt ∧ (i.ackno - pcb.lastack).toInt ≤ 2^30

/-- The events of a sender that receives no data: every segment that comes in is a pure
acknowledgement. -/
def PureAckEvent : Conn → ConnEvent → Prop
  | .active pcb, .input _ _ _ _ i => PureAck pcb i
  | _, _ => True

instance (pcb : TcpPcb) (i : In) : Decidable (PureAck pcb i) :=
  decidable_of_iff (i.seg.tcplen = 0 ∧ -2^30 ≤ (i.ackno - pcb.lastack).toInt ∧
    (i.ackno - pcb.lastack).toInt ≤ 2^30) ⟨fun h => ⟨h.1, h.2⟩, fun h => ⟨h.tcplen, h.near⟩⟩

instance : (c : Conn) → (ev : ConnEvent) → Decidable (PureAckEvent c ev)
  | .active pcb, .input _ _ _ _ i => inferInstanceAs (Decidable (PureAck pcb i))
  | .active _, .call .. | .active _, .output .. | .active _, .slowtmr .. | .active _, .fasttmr ..
  | .timeWait _, _ | .gone, _ => .isTrue trivial

instance (pcb : TcpPcb) (ackno : Serial) : Decidable (StrayAck pcb ackno) :=
  inferInstanceAs (Decidable (∃ s ∈ pcb.unsent.head?, Serial.lt pcb.snd_nxt s.endSeq ∧
    Serial.lt ackno pcb.snd_nxt ∧ Serial.geq ackno s.endSeq))

instance : (c : Conn) → (ev : ConnEvent) → Decidable (NotStray c ev)
  | .active pcb, .input _ _ _ _ i =>
    inferInstanceAs (Decidable (i.seg.flags.ack = true → ¬StrayAck pcb i.ackno))
  | .active _, .call .. | .active _, .output .. | .active _, .slowtmr .. | .active _, .fasttmr ..
  | .timeWait _, _ | .gone, _ => .isTrue trivial

instance (o : Opts) : (c : Conn) → (ev : ConnEvent) → Decidable (RtoInOrder o c ev)
  | .active pcb, .slowtmr _ _ => inferInstanceAs (Decidable (rtoFires o pcb = true →
      ∀ x ∈ pcb.unacked, ∀ y ∈ pcb.unsent, Serial.lt x.seqno y.seqno))
  | .active _, .call .. | .active _, .output .. | .active _, .input .. | .active _, .fasttmr ..
  | .timeWait _, _ | .gone, _ => .isTrue trivial

/-- An acknowledgement number near `lastack` is not stray. -/
theorem Sender.not_strayAck {base : Serial} {pcb : TcpPcb} {t : Tx} (h : Sender base pcb t)
    {ackno : Serial}
    (hn : -2^30 ≤ (ackno - pcb.lastack).toInt ∧ (ackno - pcb.lastack).toInt ≤ 2^30) :
    ¬StrayAck pcb ackno := by
  rintro ⟨s, hs, h1, h2, h3⟩
  obtain ⟨r, hr, hat⟩ := forall₂_mem_left h.unsent (List.mem_of_mem_head? hs)
  obtain ⟨hb1, hb2, hb3, -⟩ := h.weak.bounds (r := r) (by simp [hr])
  have hw1 := h.weak.nxt_ge
  have hw2 := h.weak.nxt_le
  have hw3 := h.weak.win
  have hd := (Serial.toInt_sub_le_iff (n := 2^30) (by decide)).mp hn
  obtain ⟨d, hdd⟩ : ∃ d, Serial.dist pcb.lastack ackno = d := ⟨_, rfl⟩
  have hd32 : d < 2^32 := by rw [← hdd]; exact Serial.dist_lt _ _
  have hack : ackno = base.adv (t.lastack + d) := by
    rw [← Serial.adv_adv, ← h.lastack, ← hdd, Serial.adv_dist]
  rw [hdd] at hd
  rw [hat.endSeq, h.snd_nxt, Serial.lt_adv_iff (by omega) (by omega)] at h1
  rcases hd with hd | hd
  · rw [hack, h.snd_nxt, Serial.lt_adv_iff (by omega) (by omega)] at h2
    rw [hack, hat.endSeq, Serial.geq_adv_iff (by omega) (by omega)] at h3
    omega
  · rw [hack, hat.endSeq, Serial.geq_iff, Serial.dist_adv_adv (by omega) (by omega)] at h3
    omega

/-- The peer has not closed: the states that need its FIN are not reached. -/
def Quiet (st : TcpState) : Prop := st ≠ .CLOSING ∧ st ≠ .TIME_WAIT

/-- What follows a quiet connection is quiet. -/
theorem Follows.quiet {a b : TcpPcb} (h : Follows a b) (hq : Quiet a.state) : Quiet b.state := by
  rcases h.state with h | ⟨-, h | h⟩
  · rw [h]; exact hq
  · rw [h]; exact ⟨by decide, by decide⟩
  · rw [h]; exact ⟨by decide, by decide⟩

/-- The connection is not, and will not soon be, in `TIME_WAIT`. -/
def Conn.Quiet : Conn → Prop
  | .active pcb => Lwip.Tcp.Quiet pcb.state
  | .timeWait _ => False
  | .gone => True

section Quiet

variable {I : Tx → Prop} {o : Opts} {ticks : BitVec 32} {m : RxAlloc} {cb : Callbacks}
  {pcb pcb' : TcpPcb} {i : In} {sent : List Sent} {out : Bool} {conn : Conn}

/-- A segment without data brings no FIN. -/
theorem tcpReceive_no_data {rx : Rx} (hs : Snd I pcb) (hi : i.seg.tcplen = 0)
    (hr : tcpReceive o ticks m pcb i = .ok rx) : rx.got_fin = false ∧ rx.pcb.state = pcb.state := by
  obtain ⟨p, hp, hd⟩ := tcpReceive_eq_ok hr
  unfold tcpReceiveData at hd
  rw [hi, if_neg (by decide)] at hd
  cases hd
  refine ⟨rfl, Eq.trans ?_ (hs.ack_state hp)⟩
  dsimp only
  split <;> rfl

/-- Behind `tcp_receive` without a FIN the connection stays quiet. -/
theorem processReceived_quiet {rx : Rx} {st : TcpState} (hf : rx.got_fin = false)
    (hst : rx.pcb.state = st) (hq : Quiet st)
    (hp : (processReceived rx i st).pcb = some pcb') : Quiet pcb'.state := by
  rw [← hst] at hq
  have hsame : (rx.toProc rx.pcb).pcb = some pcb' → Quiet pcb'.state := by
    intro h
    cases h
    exact hq
  unfold processReceived at hp
  rw [hf] at hp
  simp only [Bool.false_eq_true, if_false] at hp
  split at hp
  · exact hsame hp
  · exact hsame hp
  · split at hp
    · cases hp; exact (⟨by decide, by decide⟩ : Quiet .FIN_WAIT_2)
    · exact hsame hp
  · exact hsame hp
  · exact absurd hst hq.1
  · exact hsame hp
  · exact hsame hp

/-- A segment without data keeps the connection quiet. -/
theorem tcpProcess_quiet {pr : Proc} (h : Snd I pcb) (hq : Quiet pcb.state)
    (hi : i.seg.tcplen = 0) (hp : tcpProcess o ticks m cb pcb i = .ok pr)
    (hpcb : pr.pcb = some pcb') : Quiet pcb'.state := by
  have hn : Snd I (processNote o ticks pcb i) := h.processNote
  have hlive : pcb.state.geEstablished = true := by
    obtain ⟨base, t, ht, -⟩ := h
    exact ht.live
  unfold tcpProcess at hp
  split at hp
  · cases hp
    obtain ⟨p, hp, hs⟩ := processRst_sameSnd pcb i
    rw [hp] at hpcb
    cases hpcb
    rw [hs.state]
    exact hq
  · split at hp
    · cases hp; cases hpcb; exact hq
    · split at hp
      · next hs => rw [hs] at hlive; cases hlive
      · next hs => rw [hs] at hlive; cases hlive
      · cases hp; cases hpcb; exact hq
      · cases hp; cases hpcb; exact hq
      · cases hp; cases hpcb; exact hq
      · obtain ⟨rx, hr, hp⟩ := bind_eq_ok.mp hp
        cases hp
        obtain ⟨hf, hst⟩ := tcpReceive_no_data hn hi hr
        exact processReceived_quiet hf hst hq hpcb

/-- `tcp_input` of a segment without data keeps the connection quiet. -/
theorem tcpInput_quiet (hI : Stable I) (h : Snd I pcb) (hq : Quiet pcb.state)
    (hi : i.seg.tcplen = 0) (ht : tcpInput o ticks m cb out pcb i = .ok (conn, sent)) :
    conn.Quiet := by
  have hs : SameSnd pcb { pcb with refused_data := none } :=
    ⟨rfl, rfl, rfl, rfl, rfl, rfl, rfl, rfl, rfl, rfl, rfl⟩
  unfold tcpInput at ht
  split at ht
  · cases ht; exact hq
  · obtain ⟨pr, hpr, ht⟩ := bind_eq_ok.mp ht
    split at ht
    · cases ht; trivial
    · next p hp =>
      have hp' := tcpProcess_quiet (hs.follows.snd hI h) hq hi hpr hp
      split at ht
      · obtain ⟨r, -, ht⟩ := bind_eq_ok.mp ht
        cases ht
        trivial
      · unfold tcpInputFinish at ht
        obtain ⟨⟨q, out₁⟩, happ, ht⟩ := bind_eq_ok.mp ht
        cases q with
        | none => cases ht; trivial
        | some q =>
          obtain ⟨⟨q', out₂⟩, ho, ht⟩ := bind_eq_ok.mp ht
          cases ht
          have hq' : Quiet q'.state := by
            rw [tcpOutput_state ho]
            exact (appCalls_follows happ).quiet hp'
          rw [if_neg hq'.2]
          exact hq'

/-- A slow tick keeps the connection quiet. -/
theorem tcpSlowtmr_quiet {e : TickEnv} (hq : Quiet pcb.state)
    (hs : tcpSlowtmr o ticks e pcb = .ok (conn, sent)) : conn.Quiet := by
  refine (tcpSlowtmr_rule (P := fun p _ => Quiet p.state) hs (fun p out₁ hr _ n => ?_)
    (fun p q _ _ hp happ => (appCalls_follows happ).quiet hp)
    fun p q _ _ hp ho => (tcpOutput_follows ho).quiet hp).elim ?_ ?_
  · show Quiet (slowtmrKeepalive ticks e p).1.state
    rw [(slowtmrKeepalive_sameSnd ticks e p).state, slowtmrRexmit_state hr]
    exact hq
  · rintro rfl
    trivial
  · rintro ⟨q, rfl, hq'⟩
    exact hq'

/-- Without data from the peer the connection does not come to `TIME_WAIT`. -/
theorem connStep_quiet {c c' : Conn} {ev : ConnEvent} (hI : Stable I) (h : c.Snd I) (hq : c.Quiet)
    (he : PureAckEvent c ev) (hs : connStep o c ev = .ok c') : c'.Quiet := by
  cases c with
  | gone => cases ev <;> (cases hs; trivial)
  | timeWait pcb => exact hq.elim
  | active pcb =>
    cases ev with
    | call ticks c =>
      obtain ⟨⟨p, out⟩, hc, hs⟩ := bind_eq_ok.mp hs
      cases hs
      cases p with
      | none => trivial
      | some p => exact (appCall_follows hc).quiet hq
    | output ticks alloc =>
      obtain ⟨⟨p, out⟩, ho, hs⟩ := bind_eq_ok.mp hs
      cases hs
      exact (tcpOutput_follows ho).quiet hq
    | slowtmr ticks e =>
      obtain ⟨⟨c', out⟩, ht, hs⟩ := bind_eq_ok.mp hs
      cases hs
      exact tcpSlowtmr_quiet hq ht
    | fasttmr ticks takesRefused out =>
      obtain ⟨⟨p, out'⟩, ht, hs⟩ := bind_eq_ok.mp hs
      cases hs
      exact (tcpFasttmr_follows ht).quiet hq
    | input ticks m cb out i =>
      obtain ⟨⟨c', out'⟩, ht, hs⟩ := bind_eq_ok.mp hs
      cases hs
      exact tcpInput_quiet hI h hq he.tcplen ht

end Quiet

/-- An ACK without data that is not stray is none of the strays. -/
theorem PureAckEvent.notStray {c : Conn} {ev : ConnEvent} (h : c.Snd Tx.Strong)
    (he : PureAckEvent c ev) : NotStray c ev := by
  cases c with
  | gone => cases ev <;> trivial
  | timeWait pcb => cases ev <;> trivial
  | active pcb =>
    cases ev with
    | input ticks m cb out i =>
      obtain ⟨base, t, ht, -⟩ := h
      exact fun _ => ht.not_strayAck he.near
    | slowtmr ticks e => trivial
    | call ticks c => trivial
    | output ticks alloc => trivial
    | fasttmr ticks takesRefused out => trivial

/-- The invariant of the send queues, for a connection that has not been freed. -/
def Conn.SendInv : Conn → Prop
  | .active pcb => Lwip.Tcp.SendInv pcb
  | .timeWait pcb => Lwip.Tcp.SendInv pcb
  | .gone => True

/-- From an established connection whose data are all acknowledged, the send queues keep their
invariant along every run in which the retransmission timer fires only while no unsent segment lies
before an unacknowledged one. -/
theorem send_queue_inv (o : Opts) {pcb : TcpPcb} {es : List ConnEvent} {c : Conn}
    (h0 : FreshSender pcb) (hack : Along (connStep o) PureAckEvent (.active pcb) es)
    (hrto : Along (connStep o) (RtoInOrder o) (.active pcb) es)
    (hrun : run (connStep o) (.active pcb) es = .ok c) : c.SendInv := by
  have hinv : c.Snd Tx.Strong ∧ c.Quiet := by
    refine run_invariant (I := fun c : Conn => c.Snd Tx.Strong ∧ c.Quiet) (s := Conn.active pcb)
      (fun c ev c' h he hs => ⟨?_, ?_⟩) ⟨h0.snd, ?_⟩ (hrto.and hack) hrun
    · exact connStep_snd strong_stable h.1 (he.1.keeps (he.2.notStray h.1)) hs
    · exact connStep_quiet strong_stable h.1 h.2 he.2 hs
    · show Quiet pcb.state
      rw [h0.state]
      exact ⟨by decide, by decide⟩
  obtain ⟨hsnd, hq⟩ := hinv
  cases c with
  | active pcb =>
    obtain ⟨base, t, ht, hst⟩ := hsnd
    exact ht.sendInv hst
  | timeWait pcb => exact hq.elim
  | gone => trivial

/-- A connection of which the peer announced a window of 2000 bytes. -/
def saneSender : TcpPcb := .established .sane 0 0 2000

/-- A call of `tcp_write` with `n` bytes that are copied. -/
def writes (n : ℕ) : ConnEvent := .call 1 (.write (fun _ => true) (List.replicate n 0) true false)

/-- An acknowledgement without data. -/
def acks (seqno ackno : Serial) (wnd : BitVec 16) : ConnEvent :=
  .input 1 {} {} true { seg := { seqno, len := 0, flags := { ack := true } }, ackno, wnd }

/-- The sender of the examples is fresh. -/
theorem saneSender_fresh : FreshSender saneSender :=
  ⟨rfl, rfl, rfl, rfl, rfl, rfl, by decide, by decide, by decide⟩

/-- Two segments are sent, the peer acknowledges the half of the first and closes its window, and
the retransmission timer fires. -/
def timeoutRun : List ConnEvent :=
  [writes 536, writes 536, .output 1 true, acks 1 269 0] ++ List.replicate 6 (.slowtmr 1 {})

/-- The queues are in order after a timeout. -/
theorem send_queue_inv_timeoutRun :
    ∃ c, run (connStep .sane) (.active saneSender) timeoutRun = .ok c ∧ c.SendInv := by
  have hok : (run (connStep .sane) (.active saneSender) timeoutRun).isOk = true := by
    decide +kernel
  obtain ⟨c, hc⟩ := exists_of_isOk hok
  exact ⟨c, hc, send_queue_inv .sane saneSender_fresh (by decide +kernel) (by decide +kernel) hc⟩

instance (l : List Seg) : Decidable (SortedBySeqno l) :=
  inferInstanceAs (Decidable (l.Pairwise (fun x y : Seg => Serial.lt x.seqno y.seqno)))

/-- Two segments are sent, the peer closes its window, and right before the retransmission timer
fires three duplicate acknowledgements retransmit the first segment, which the window has no room
for. -/
def misorderedRun : List ConnEvent :=
  [writes 536, writes 536, .output 1 true, acks 1 1 0] ++ List.replicate 5 (.slowtmr 1 {}) ++
    [acks 0 1 0, acks 0 1 0, acks 0 1 0, .slowtmr 1 {}]

/-- The timeout puts the second segment in front of the first. -/
theorem misorderedRun_breaks_queues :
    FreshSender saneSender ∧
      Along (connStep .sane) PureAckEvent (.active saneSender) misorderedRun ∧
      ∃ c, run (connStep .sane) (.active saneSender) misorderedRun = .ok c ∧ ¬c.SendInv := by
  refine ⟨saneSender_fresh, by decide +kernel, ?_⟩
  have hbad : ((run (connStep .sane) (.active saneSender) misorderedRun).toOption.bind
      Conn.active?).any (fun pcb => !decide (SortedBySeqno pcb.unsent)) = true := by decide +kernel
  obtain ⟨pcb, hrun, hpcb⟩ := exists_active_of_any hbad
  exact ⟨_, hrun, fun h => by simp [h.sorted_unsent] at hpcb⟩

/-! ## What an acknowledgement frees -/

/-- `lastack < end ≤ ackno ≤ snd_nxt` for the end of a segment that was sent. The places are
measured from `lastack` on, since the comparisons of the source by themselves can go around the
circle. -/
structure Acknowledged (pcb : TcpPcb) (ackno : Serial) (s : Seg) : Prop where
  lastack_lt : 0 < Serial.dist pcb.lastack s.endSeq
  end_le : Serial.dist pcb.lastack s.endSeq ≤ Serial.dist pcb.lastack ackno
  ackno_le : Serial.dist pcb.lastack ackno ≤ Serial.dist pcb.lastack pcb.snd_nxt
  sent : Serial.lt s.seqno pcb.snd_nxt

/-- The acknowledgement half of `tcp_receive` on queues in order: a segment that it takes off is
acknowledged, and was sent. -/
theorem Sender.acknowledged {base : Serial} {pcb p : TcpPcb} {t : Tx} {ticks : BitVec 32} {i : In}
    (h : Sender base pcb t) (hst : t.Strong) (hstray : ¬StrayAck pcb i.ackno)
    (ha : Lwip.Tcp.tcpReceiveAck ticks pcb i = .ok p) {s : Seg}
    (hs : s ∈ pcb.unacked ++ pcb.unsent) (hs' : s ∉ p.unacked ++ p.unsent) :
    Acknowledged pcb i.ackno s := by
  rcases h.tcpReceiveAck ha with ⟨a, hack⟩ | ⟨t', k, hn⟩
  · obtain ⟨r, hr, hat⟩ := forall₂_mem_left (List.rel_append h.unacked h.unsent) hs
    obtain ⟨hb1, hb2, hb3, -⟩ := h.weak.bounds hr
    have hlt := hst.lt_stop r hr
    have hw2 := h.weak.nxt_le
    have hw3 := h.weak.win
    have hal := hack.lt
    have hae := hack.le
    -- The segment stood in the part of a queue that the loop took.
    have hend : r.stop ≤ a := by
      rw [hack.unacked, hack.unsent, List.mem_append, not_or] at hs'
      rcases List.mem_append.mp hs with hs | hs
      · rw [← List.takeWhile_append_dropWhile (l := pcb.unacked)
          (p := fun s => decide (Serial.leq s.endSeq i.ackno)), List.mem_append] at hs
        have hle := List.mem_takeWhile_imp (hs.resolve_right hs'.1)
        rw [decide_eq_true_eq, hat.endSeq, hack.ackno] at hle
        exact (Serial.leq_adv_iff (by omega) (by omega)).mp hle
      · rw [← List.takeWhile_append_dropWhile (l := pcb.unsent)
          (p := fun s => decide (Serial.between i.ackno s.endSeq pcb.snd_nxt)),
          List.mem_append] at hs
        have hb := List.mem_takeWhile_imp (hs.resolve_right hs'.2)
        rw [decide_eq_true_eq, hat.endSeq, hack.ackno] at hb
        exact (Serial.geq_adv_iff (by omega) (by omega)).mp hb.1
    have hde : Serial.dist pcb.lastack s.endSeq = r.stop - t.lastack := by
      rw [h.lastack, hat.endSeq, Serial.dist_adv_adv (by omega) (by omega)]
    have hda : Serial.dist pcb.lastack i.ackno = a - t.lastack := by
      rw [h.lastack, hack.ackno, Serial.dist_adv_adv (by omega) (by omega)]
    have hdn : Serial.dist pcb.lastack pcb.snd_nxt = t.nxt - t.lastack := by
      rw [h.lastack, h.snd_nxt, Serial.dist_adv_adv (by omega) (by omega)]
    refine ⟨by omega, by omega, by omega, ?_⟩
    rw [hat.seqno, h.snd_nxt, Serial.lt_adv_iff (by omega) (by omega)]
    omega
  · exact absurd ((hn.kept hst hstray).2.mem_iff.mpr hs) hs'

/-- In a state that is reached with timeouts in order and without stray acknowledgements,
`tcp_receive` takes a segment off the queues only if the segment that came in, not a stray
acknowledgement either, acknowledges it and it was sent. -/
theorem tcp_receive_frees_only_acked (o : Opts) {pcb₀ pcb : TcpPcb} {es : List ConnEvent}
    (h0 : FreshSender pcb₀) (hrto : Along (connStep o) (RtoInOrder o) (.active pcb₀) es)
    (hack : Along (connStep o) NotStray (.active pcb₀) es)
    (hrun : run (connStep o) (.active pcb₀) es = .ok (.active pcb))
    {ticks : BitVec 32} {m : RxAlloc} {i : In} {rx : Rx}
    (hi : i.seg.flags.ack = true → ¬StrayAck pcb i.ackno)
    (hrx : tcpReceive o ticks m (noted o ticks pcb i) i = .ok rx) {s : Seg}
    (hs : s ∈ pcb.unacked ++ pcb.unsent) (hs' : s ∉ rx.pcb.unacked ++ rx.pcb.unsent) :
    Acknowledged pcb i.ackno s := by
  obtain ⟨base, t, ht, hst⟩ := strong_reachable h0 hrto hack hrun
  have hnone : SameSnd pcb { pcb with refused_data := none } :=
    ⟨rfl, rfl, rfl, rfl, rfl, rfl, rfl, rfl, rfl, rfl, rfl⟩
  have hn : Sender base (noted o ticks pcb i) t := (ht.congr hnone).processNote
  obtain ⟨p, hp, hd⟩ := tcpReceive_eq_ok hrx
  have hsame := (tcpReceiveData_finMoved hd).same
  rw [hsame.unacked, hsame.unsent] at hs'
  rcases hp with ⟨hf, hp⟩ | ⟨-, rfl⟩
  · have ha := hn.acknowledged hst (hi hf) hp hs hs'
    exact ⟨ha.lastack_lt, ha.end_le, ha.ackno_le, ha.sent⟩
  · exact absurd hs hs'

/-- The segment that acknowledges four bytes. -/
def ackOfFour : In :=
  { seg := { seqno := 1, len := 0, flags := { ack := true } }, ackno := 5, wnd := 2000 }

/-- The segment of `n` bytes at `1`. -/
def firstSeg (n : ℕ) (ack : Bool) : Seg :=
  { seqno := 1, len := n, flags := { psh := true, ack }, p := List.replicate n 0 }

/-- An acknowledgement of four bytes frees one segment. -/
theorem tcp_receive_frees_only_acked_ackOfFour :
    ∃ pcb rx, run (connStep .sane) (.active saneSender) [writes 4, .output 1 true] =
        .ok (.active pcb) ∧ tcpReceive .sane 1 {} (noted .sane 1 pcb ackOfFour) ackOfFour = .ok rx ∧
      firstSeg 4 true ∈ pcb.unacked ++ pcb.unsent ∧
      firstSeg 4 true ∉ rx.pcb.unacked ++ rx.pcb.unsent ∧
      Acknowledged pcb ackOfFour.ackno (firstSeg 4 true) := by
  refine ⟨_, _, rfl, rfl, by decide +kernel, by decide +kernel, ?_⟩
  have hrun : run (connStep .sane) (.active saneSender) [writes 4, .output 1 true] =
      .ok (.active _) := rfl
  refine tcp_receive_frees_only_acked .sane saneSender_fresh (by decide +kernel)
    (by decide +kernel) hrun (by decide +kernel) (rfl : tcpReceive .sane 1 {} _ ackOfFour = .ok _)
    ?_ ?_
  · decide +kernel
  · decide +kernel

/-- A segment whose acknowledgement number is half the sequence space away. -/
def halfwayAck : In :=
  { seg := { seqno := 1, len := 0, flags := { ack := true } }, ackno := 2147483699, wnd := 0 }

/-- The peer's window is closed, so that 100 bytes wait to be sent; the stray acknowledgement makes
`tcp_receive` free them. -/
theorem halfwayAck_frees_unsent :
    FreshSender (.established .shipped 0 0 0) ∧
      ∃ pcb rx, run (connStep .shipped) (.active (.established .shipped 0 0 0)) [writes 100] =
          .ok (.active pcb) ∧
        tcpReceive .shipped 1 {} (noted .shipped 1 pcb halfwayAck) halfwayAck = .ok rx ∧
        firstSeg 100 false ∈ pcb.unacked ++ pcb.unsent ∧
        firstSeg 100 false ∉ rx.pcb.unacked ++ rx.pcb.unsent ∧
        (firstSeg 100 false).seqno = pcb.snd_nxt ∧
        ¬Acknowledged pcb halfwayAck.ackno (firstSeg 100 false) := by
  refine ⟨⟨rfl, rfl, rfl, rfl, rfl, rfl, by decide, by decide, by decide⟩, _, _,
    rfl, rfl, by decide +kernel, by decide +kernel, by decide +kernel, fun h => ?_⟩
  exact absurd h.sent (by decide +kernel)

end Lwip.Tcp
