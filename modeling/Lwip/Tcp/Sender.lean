import Lwip.Tcp.Rules
import Lwip.Tcp.Frame
import Lwip.Tcp.SendModel

/-!
# The sender follows its abstract model

`Sender base pcb t` says that the send queues and the sequence numbers of `pcb` are those of the
abstract sender `t`, on a line that starts at `base`, and that `t` keeps its queues close to
`lastack`. Each function of the sender is then a few moves of `t`: `tcp_enqueue` appends or glues,
`tcp_output` sends, an acknowledgement removes and may retransmit. The comparisons of the source
agree with those on the line because the queues stay close.
-/

namespace Lwip.Tcp

open Relation (ReflTransGen)

/-- The segment stands at the place `r` of the line. -/
structure SegAt (base : Serial) (s : Seg) (r : Range) : Prop where
  seqno : s.seqno = base.adv r.start
  tcplen : s.tcplen = r.len

/-- The end of a segment is at the end of its range. -/
theorem SegAt.endSeq {base : Serial} {s : Seg} {r : Range} (h : SegAt base s r) :
    s.endSeq = base.adv r.stop := by
  unfold Seg.endSeq Range.stop
  rw [h.seqno, h.tcplen, Serial.adv_adv]

/-- The pcb of a connection stands for the abstract sender. While no FIN is enqueued, `snd_buf`
counts what the application may still write; a FIN is enqueued only on the way out of the states in
which it may write. -/
structure Sender (base : Serial) (pcb : TcpPcb) (t : Tx) : Prop where
  lastack : pcb.lastack = base.adv t.lastack
  snd_nxt : pcb.snd_nxt = base.adv t.nxt
  snd_lbb : pcb.snd_lbb = base.adv t.lbb
  unacked : List.Forall₂ (SegAt base) pcb.unacked t.unacked
  unsent : List.Forall₂ (SegAt base) pcb.unsent t.unsent
  infr : pcb.flags.infr = t.infr
  snd_wnd_le : pcb.snd_wnd ≤ 0xffff
  mss_le : pcb.mss ≤ 0xffff
  room : pcb.flags.fin = false → pcb.snd_buf + (t.lbb - t.lastack) ≤ 0xffff
  live : pcb.state.geEstablished = true
  writable : pcb.state = .ESTABLISHED ∨ pcb.state = .CLOSE_WAIT → pcb.flags.fin = false
  weak : t.Weak

/-- The fields of the sender, which everything else leaves alone. -/
structure SameSnd (a b : TcpPcb) : Prop where
  lastack : b.lastack = a.lastack
  snd_nxt : b.snd_nxt = a.snd_nxt
  snd_lbb : b.snd_lbb = a.snd_lbb
  unacked : b.unacked = a.unacked
  unsent : b.unsent = a.unsent
  infr : b.flags.infr = a.flags.infr
  fin : b.flags.fin = a.flags.fin
  snd_wnd : b.snd_wnd = a.snd_wnd
  mss : b.mss = a.mss
  snd_buf : b.snd_buf = a.snd_buf
  state : b.state = a.state

/-- The send fields of a pcb are its own. -/
theorem SameSnd.refl (a : TcpPcb) : SameSnd a a :=
  ⟨rfl, rfl, rfl, rfl, rfl, rfl, rfl, rfl, rfl, rfl, rfl⟩

/-- The same send fields in two steps. -/
theorem SameSnd.trans {a b c : TcpPcb} (h : SameSnd a b) (h' : SameSnd b c) : SameSnd a c :=
  ⟨h'.lastack.trans h.lastack, h'.snd_nxt.trans h.snd_nxt, h'.snd_lbb.trans h.snd_lbb,
    h'.unacked.trans h.unacked, h'.unsent.trans h.unsent, h'.infr.trans h.infr, h'.fin.trans h.fin,
    h'.snd_wnd.trans h.snd_wnd, h'.mss.trans h.mss, h'.snd_buf.trans h.snd_buf,
    h'.state.trans h.state⟩

/-- The sender depends on the send fields only. -/
theorem Sender.congr {base : Serial} {a b : TcpPcb} {t : Tx} (h : Sender base a t)
    (hab : SameSnd a b) : Sender base b t where
  lastack := hab.lastack.trans h.lastack
  snd_nxt := hab.snd_nxt.trans h.snd_nxt
  snd_lbb := hab.snd_lbb.trans h.snd_lbb
  unacked := by rw [hab.unacked]; exact h.unacked
  unsent := by rw [hab.unsent]; exact h.unsent
  infr := hab.infr.trans h.infr
  snd_wnd_le := by rw [hab.snd_wnd]; exact h.snd_wnd_le
  mss_le := by rw [hab.mss]; exact h.mss_le
  room hf := by rw [hab.snd_buf]; exact h.room (by rw [← hab.fin]; exact hf)
  live := by rw [hab.state]; exact h.live
  writable := by rw [hab.state, hab.fin]; exact h.writable
  weak := h.weak

/-- The state moves on, and does not come back to one in which the application may write. -/
theorem Sender.setState {base : Serial} {pcb : TcpPcb} {t : Tx} (h : Sender base pcb t)
    {st : TcpState} (hlive : st.geEstablished = true)
    (hwr : st = .ESTABLISHED ∨ st = .CLOSE_WAIT → pcb.flags.fin = false) :
    Sender base { pcb with state := st } t :=
  ⟨h.lastack, h.snd_nxt, h.snd_lbb, h.unacked, h.unsent, h.infr, h.snd_wnd_le, h.mss_le, h.room,
    hlive, hwr, h.weak⟩

/-! ## The comparisons -/

section Compare

variable {base : Serial} {pcb : TcpPcb} {t : Tx} {r r' : Range}

/-- The place of a queued segment, in the bounds of the line that the comparisons need. -/
theorem Tx.Weak.bounds (h : t.Weak) (hr : r ∈ t.unacked ++ t.unsent) :
    t.lastack ≤ r.start + 2^18 ∧ r.start < r.stop ∧ r.stop ≤ t.lastack + 2^16 ∧
      r.start + r.len = r.stop := by
  have h1 := h.near r hr
  have h2 := h.len r hr
  have h3 := h.stop_le r hr
  have h4 := h.win
  unfold Range.stop at *
  omega

/-- `seqno`s of queued segments compare as their places do. -/
theorem Tx.Weak.seqno_lt (h : t.Weak) {s s' : Seg} (hs : SegAt base s r) (hs' : SegAt base s' r')
    (hr : r ∈ t.unacked ++ t.unsent) (hr' : r' ∈ t.unacked ++ t.unsent) :
    Serial.lt s.seqno s'.seqno ↔ r.start < r'.start := by
  obtain ⟨h1, h2, h3, -⟩ := h.bounds hr
  obtain ⟨h1', h2', h3', -⟩ := h.bounds hr'
  rw [hs.seqno, hs'.seqno]
  exact Serial.lt_adv_iff (by omega) (by omega)

/-- A segment that the window has room for does not end before `lastack`. -/
theorem Sender.le_stop_of_needs (h : Sender base pcb t) {s : Seg} (hs : SegAt base s r)
    (hr : r ∈ t.unacked ++ t.unsent) {wnd : ℕ} (hw : wnd ≤ 0xffff) (hn : needs pcb s ≤ wnd) :
    t.lastack ≤ r.stop := by
  obtain ⟨h1, h2, h3, h4⟩ := h.weak.bounds hr
  have hlen : s.len ≤ r.len := by
    rw [← hs.tcplen]
    exact Nat.le_add_right _ _
  unfold needs at hn
  rw [h.lastack, hs.seqno, Serial.adv_adv] at hn
  by_contra hlt
  rw [Serial.dist_adv_adv_wrap (by omega) (by omega)] at hn
  omega

end Compare

/-! ## `tcp_output` -/

section Output

variable {base : Serial} {pcb pcb' : TcpPcb} {t : Tx} {ticks : BitVec 32} {alloc : Bool}
  {out out' : List Sent}

/-- The place of a sent segment in `unacked`. -/
theorem unackedInsert_forall₂ (hw : t.Weak) {unacked : List Seg} {seg : Seg} {r : Range}
    (hu : List.Forall₂ (SegAt base) unacked t.unacked) (hs : SegAt base seg r)
    (hr : r ∈ t.unacked ++ t.unsent) :
    List.Forall₂ (SegAt base) (unackedInsert unacked seg) (placeSent r t.unacked) := by
  have hlt : ∀ x, ∀ y ∈ t.unacked, SegAt base x y →
      decide (Serial.lt x.seqno seg.seqno) = decide (y.start < r.start) := by
    intro x y hy hxy
    rw [decide_eq_decide]
    exact hw.seqno_lt hxy hs (by simp [hy]) hr
  rcases List.eq_nil_or_concat unacked with rfl | ⟨init, last, rfl⟩
  · cases hu' : t.unacked with
    | nil => exact .cons hs .nil
    | cons x l => rw [hu'] at hu; cases hu
  · rw [List.concat_eq_append] at hu ⊢
    obtain ⟨m, y, hm, hinit, hlast⟩ := forall₂_concat_left hu
    unfold unackedInsert placeSent
    rw [hm, List.getLast?_concat, List.getLast?_concat]
    dsimp only
    have hy : y ∈ t.unacked := by rw [hm]; simp
    by_cases hc : r.start < y.start
    · rw [if_pos ((hw.seqno_lt hs hlast hr (by simp [hy])).mpr hc), if_pos hc, ← hm]
      unfold insertByStart
      exact List.rel_append (forall₂_takeWhile hu hlt) (.cons hs (forall₂_dropWhile hu hlt))
    · rw [if_neg fun hc' => hc ((hw.seqno_lt hs hlast hr (by simp [hy])).mp hc'), if_neg hc, ← hm]
      exact List.rel_append hu (.cons hs .nil)

/-- One round of the loop sends the first segment of `unsent`. -/
theorem Sender.tcpOutputOne (ticks : BitVec 32) (h : Sender base pcb t) {seg : Seg}
    {rest : List Seg}
    (hu : pcb.unsent = seg :: rest) {wnd : ℕ} (hwnd : wnd ≤ 0xffff) (hn : needs pcb seg ≤ wnd) :
    ∃ t', TxStep t t' ∧ Sender base (tcpOutputOne ticks pcb seg rest).1 t' := by
  have hun := h.unsent
  rw [hu] at hun
  obtain ⟨r, rs, hr, hrs, hrt⟩ := List.forall₂_cons_left_iff.mp hun
  have hmem : r ∈ t.unacked ++ t.unsent := by rw [hrt]; simp
  obtain ⟨hb1, hb2, hb3, hb4⟩ := h.weak.bounds hmem
  have hs := h.le_stop_of_needs hr hmem hwnd hn
  have hstep := TxStep.send hrt hs
  refine ⟨_, hstep, ?_⟩
  set seg' : Seg := { seg with
    flags := { seg.flags with ack := seg.flags.ack || !decide (pcb.state = .SYN_SENT) } } with hseg'
  have hr' : SegAt base seg' r := ⟨hr.seqno, hr.tcplen⟩
  have h1 := h.weak.nxt_ge
  have h2 := h.weak.nxt_le
  have h3 := h.weak.win
  have hflags : ((Lwip.Tcp.tcpOutputOne ticks pcb seg rest).1.flags.infr = pcb.flags.infr) ∧
      (Lwip.Tcp.tcpOutputOne ticks pcb seg rest).1.flags.fin = pcb.flags.fin := by
    unfold Lwip.Tcp.tcpOutputOne tcpOutputSegment
    dsimp only
    split <;> exact ⟨rfl, rfl⟩
  refine ⟨h.lastack, ?_, h.snd_lbb, ?_, hrs, hflags.1.trans h.infr, h.snd_wnd_le, h.mss_le,
    fun hf => h.room (hflags.2 ▸ hf), h.live, fun hst => hflags.2.trans (h.writable hst),
    h.weak.step hstep⟩
  · show (if Serial.lt pcb.snd_nxt seg'.endSeq then seg'.endSeq else pcb.snd_nxt) =
      base.adv (max t.nxt r.stop)
    rw [hr'.endSeq, h.snd_nxt]
    by_cases hc : t.nxt < r.stop
    · rw [if_pos ((Serial.lt_adv_iff (by omega) (by omega)).mpr hc), max_eq_right hc.le]
    · rw [if_neg fun hc' => hc ((Serial.lt_adv_iff (by omega) (by omega)).mp hc'),
        max_eq_left (by omega)]
  · show List.Forall₂ (SegAt base)
      (if seg'.tcplen > 0 then unackedInsert pcb.unacked seg' else pcb.unacked) _
    rw [if_pos (by rw [hr'.tcplen]; omega)]
    exact unackedInsert_forall₂ h.weak h.unacked hr' hmem

/-- The loop of `tcp_output` sends segments of `unsent`. -/
theorem Sender.tcpOutputLoop {wnd : ℕ} {q : List Seg} (h : Sender base pcb t)
    (hq : pcb.unsent = q) (hwnd : wnd ≤ 0xffff)
    (hl : tcpOutputLoop ticks wnd q pcb out = .ok (pcb', out')) :
    ∃ t', ReflTransGen TxStep t t' ∧ Sender base pcb' t' := by
  obtain ⟨rest, t', -, hs, h'⟩ := tcpOutputLoop_rule
    (P := fun q p _ => ∃ t', p.unsent = q ∧ ReflTransGen TxStep t t' ∧ Sender base p t') hl
    ⟨t, hq, .refl, h⟩ fun seg rest p _ hp hn => by
      obtain ⟨t₁, hq₁, hs₁, h₁⟩ := hp
      obtain ⟨t₂, hs₂, h₂⟩ := h₁.tcpOutputOne ticks hq₁ hwnd hn
      exact ⟨t₂, rfl, hs₁.tail hs₂, h₂⟩
  exact ⟨t', hs, h'⟩

/-- An empty ACK changes no send field. -/
theorem tcpSendEmptyAck_sameSnd (alloc : Bool) (pcb : TcpPcb) :
    SameSnd pcb (tcpSendEmptyAck alloc pcb).1 := by
  unfold tcpSendEmptyAck
  cases alloc <;> exact ⟨rfl, rfl, rfl, rfl, rfl, rfl, rfl, rfl, rfl, rfl, rfl⟩

/-- The persist timer changes no send field. -/
theorem tcpOutputPersist_sameSnd (pcb : TcpPcb) : SameSnd pcb (tcpOutputPersist pcb) :=
  ⟨rfl, rfl, rfl, rfl, rfl, rfl, rfl, rfl, rfl, rfl, rfl⟩

/-- `tcp_output` sends segments of `unsent`. -/
theorem Sender.tcpOutput (h : Sender base pcb t)
    (ho : tcpOutput ticks alloc pcb = .ok (pcb', out)) :
    ∃ t', ReflTransGen TxStep t t' ∧ Sender base pcb' t' := by
  unfold Lwip.Tcp.tcpOutput at ho
  dsimp only at ho
  split at ho
  · have heq : tcpSendEmptyAck alloc pcb = (pcb', out) := Except.ok.inj ho
    have hs := tcpSendEmptyAck_sameSnd alloc pcb
    rw [heq] at hs
    exact ⟨t, .refl, h.congr hs⟩
  · obtain ⟨⟨p, out'⟩, hl, ho⟩ := bind_eq_ok.mp ho
    cases ho
    have hwnd : min pcb.snd_wnd pcb.cwnd ≤ 0xffff := le_trans (min_le_left _ _) h.snd_wnd_le
    obtain ⟨t', hs, h'⟩ := h.tcpOutputLoop rfl hwnd hl
    exact ⟨t', hs, h'.congr (tcpOutputPersist_sameSnd p)⟩

end Output

/-! ## `tcp_enqueue` -/

section Enqueue

variable {o : Opts} {base : Serial} {pcb pcb' : TcpPcb} {t : Tx} {copy more : Bool}
  {alloc : ℕ → Bool}

/-- A round of the loop of `tcp_enqueue` that does not fail: the new segment is of `n` bytes, and
the loop goes on if bytes are left. -/
theorem tcpEnqueueLoop_cases {mss optlen fuel left ql n : ℕ} {flags : TcpFlags} {optMss : Bool}
    {queue : List Seg} {ptr : List UInt8} {seqno : Serial} {r : List Seg × ℕ}
    (hn : (if (left : ℤ) > (mss : ℤ) - optlen then u16sub mss optlen else left) = n)
    (h : tcpEnqueueLoop o mss optlen flags copy optMss (fuel + 1) alloc queue ptr left seqno ql =
      some r) :
    ∃ clen, (0 < u16sub left n ∧
        tcpEnqueueLoop o mss optlen flags copy optMss fuel (fun n => alloc (n + 3))
          (queue ++ [{ seqno, len := n, flags, p := ptr.take n, optMss, clen }]) (ptr.drop n)
          (u16sub left n) (seqno.adv n) (ql + clen) = some r) ∨
      (u16sub left n = 0 ∧
        r = (queue ++ [{ seqno, len := n, flags, p := ptr.take n, optMss, clen }], ql + clen)) := by
  unfold tcpEnqueueLoop at h
  simp only [hn] at h
  generalize (if (!copy && decide (left > 0)) = true then 2 else 1) = clen at h
  split at h
  · cases h
  split at h
  · cases h
  split at h
  · next hpos => exact ⟨clen, .inl ⟨hpos, h⟩⟩
  · next hz => exact ⟨clen, .inr ⟨by omega, (Option.some.inj h).symm⟩⟩

/-- With a segment size of zero the loop never gets anywhere, and runs out of pbufs. -/
theorem tcpEnqueueLoop_mss_zero {flags : TcpFlags} {fuel left ql : ℕ} {queue : List Seg}
    {ptr : List UInt8} {seqno : Serial} {r : List Seg × ℕ} (hl : 0 < left) (hl' : left ≤ 0xffff) :
    tcpEnqueueLoop o 0 0 flags copy false fuel alloc queue ptr left seqno ql ≠ some r := by
  induction fuel generalizing alloc queue ptr seqno ql with
  | zero => exact fun h => by cases h
  | succ fuel ih =>
    intro h
    have hseg : (if (left : ℤ) > ((0 : ℕ) : ℤ) - ((0 : ℕ) : ℤ) then u16sub 0 0 else left) = 0 :=
      (if_pos (by omega)).trans rfl
    have hrest : u16sub left 0 = left := u16sub_of_le hl' (Nat.zero_le _)
    obtain ⟨clen, ⟨-, h⟩ | ⟨h0, -⟩⟩ := tcpEnqueueLoop_cases hseg h
    · rw [hrest] at h
      exact ih h
    · omega

/-- The loop of `tcp_enqueue` breaks the data into segments that follow each other from `p` on. -/
theorem tcpEnqueueLoop_data {mss fuel left ql ql' p : ℕ} {queue res : List Seg} {ptr : List UInt8}
    {seqno : Serial} (hmss : mss ≤ 0xffff) (hl : 0 < left) (hl' : left ≤ 0xffff)
    (hseq : seqno = base.adv p)
    (h : tcpEnqueueLoop o mss 0 {} copy false fuel alloc queue ptr left seqno ql =
      some (res, ql')) :
    ∃ segs rs, res = queue ++ segs ∧ (∀ s ∈ segs, s.flags = {}) ∧
      List.Forall₂ (SegAt base) segs rs ∧ Tiles p rs (p + left) := by
  rcases Nat.eq_zero_or_pos mss with rfl | hpos
  · exact absurd h (tcpEnqueueLoop_mss_zero hl hl')
  induction fuel generalizing alloc queue ptr left seqno ql p with
  | zero => cases h
  | succ fuel ih =>
    have hseg : (if (left : ℤ) > (mss : ℤ) - ((0 : ℕ) : ℤ) then u16sub mss 0 else left) =
        min left mss := by
      rw [u16sub_of_le hmss (Nat.zero_le _)]
      split <;> omega
    have hrest : u16sub left (min left mss) = left - min left mss := u16sub_of_le hl' (by omega)
    have hpos' : 0 < (Range.mk p (min left mss)).len := by dsimp only; omega
    obtain ⟨clen, ⟨hmore, h⟩ | ⟨hdone, h⟩⟩ := tcpEnqueueLoop_cases hseg h
    · rw [hrest] at h hmore
      obtain ⟨segs, rs, rfl, hflags, hrs, ht⟩ := ih (p := p + min left mss) hmore (by omega)
        (by rw [hseq, Serial.adv_adv]) h
      refine ⟨_ :: segs, ⟨p, min left mss⟩ :: rs, List.append_assoc _ _ _, ?_,
        .cons ⟨hseq, rfl⟩ hrs, rfl, hpos', ?_⟩
      · intro s hs
        rcases List.mem_cons.mp hs with rfl | hs
        · rfl
        · exact hflags s hs
      · rw [show p + left = p + min left mss + (left - min left mss) by omega]
        exact ht
    · rw [hrest] at hdone
      have hres : res = _ := congrArg Prod.fst h
      refine ⟨_, [⟨p, min left mss⟩], hres, by simp, .cons ⟨hseq, rfl⟩ .nil, rfl, hpos', ?_⟩
      unfold Range.stop Tiles
      dsimp only
      omega

/-- A FIN alone is one segment without data. -/
theorem tcpEnqueueLoop_fin {mss fuel ql ql' : ℕ} {q : Seg} {qs : List Seg} {seqno : Serial}
    (h : tcpEnqueueLoop o mss 0 { fin := true } copy false fuel alloc [] [] 0 seqno ql =
      some (q :: qs, ql')) :
    qs = [] ∧ q.seqno = seqno ∧ q.tcplen = 1 := by
  cases fuel with
  | zero => cases h
  | succ fuel =>
    obtain ⟨clen, ⟨hmore, -⟩ | ⟨-, h⟩⟩ :=
      tcpEnqueueLoop_cases (n := 0) (by rw [if_neg (by omega)]) h
    · cases hmore
    · cases h
      exact ⟨rfl, rfl, rfl⟩

/-- A change of the last segment that keeps its place. -/
theorem modifyLast_forall₂ {f : Seg → Seg} (hf : ∀ s r, SegAt base s r → SegAt base (f s) r)
    {l : List Seg} {l' : List Range} (h : List.Forall₂ (SegAt base) l l') :
    List.Forall₂ (SegAt base) (modifyLast f l) l' := by
  induction h with
  | nil => exact .nil
  | @cons x y l l' hxy hl ih =>
    cases hl with
    | nil => exact .cons (hf x y hxy) .nil
    | cons hzw hl' => exact .cons hxy ih

/-- The last element is the one at the end. -/
theorem modifyLast_concat {α : Type} (f : α → α) (l : List α) (x : α) :
    modifyLast f (l ++ [x]) = l ++ [f x] := by
  induction l with
  | nil => rfl
  | cons y l ih =>
    cases l with
    | nil => rfl
    | cons z l => exact congrArg (y :: ·) ih

/-- A segment that new data or a FIN are glued to is the last before `lbb`, and carries no flag that
counts. -/
theorem Sender.glue_spec (h : Sender base pcb t) {init : List Seg} {useg q : Seg} {flags : TcpFlags}
    (hu : pcb.unsent = init ++ [useg]) (hg : canGlue pcb flags useg q = true)
    (hq : q.seqno = pcb.snd_lbb) :
    useg.len + q.len ≤ 0xffff ∧ (useg.flags.syn || useg.flags.fin) = false ∧
      ∃ rs r, t.unsent = rs ++ [r] ∧ List.Forall₂ (SegAt base) init rs ∧ SegAt base useg r ∧
        r.stop = t.lbb ∧ r.len = useg.len := by
  unfold canGlue at hg
  simp only [Bool.and_eq_true, decide_eq_true_eq] at hg
  obtain ⟨⟨⟨⟨⟨-, hf⟩, -⟩, hm⟩, -⟩, hs⟩ := hg
  have hun := h.unsent
  rw [hu] at hun
  obtain ⟨rs, r, hrs, hinit, hr⟩ := forall₂_concat_left hun
  have hflags : (useg.flags.syn || useg.flags.fin) = false := by simpa using hf
  have hlen : r.len = useg.len := by
    rw [← hr.tcplen]
    unfold Seg.tcplen
    rw [Bool.or_comm, hflags]
    rfl
  refine ⟨hm.trans h.mss_le, hflags, rs, r, hrs, hinit, hr, ?_, hlen⟩
  obtain ⟨h1, h2, h3, h4⟩ := h.weak.bounds (r := r) (by rw [hrs]; simp)
  have h5 := h.weak.nxt_ge
  have h6 := h.weak.nxt_le
  have h7 := h.weak.win
  rw [hq, h.snd_lbb, hr.seqno, ← hlen, Serial.adv_adv, h4,
    Serial.adv_eq_iff (by omega) (by omega)] at hs
  exact hs

/-- What the new segments do to the abstract sender: they are appended, or the first is glued to the
last of `unsent` and the others are appended. -/
theorem Sender.tcpEnqueueAppend_data (h : Sender base pcb t) {q : Seg} {qs unsent : List Seg}
    {rs : List Range} {e ql ql' : ℕ} (hflags : ∀ s ∈ q :: qs, s.flags = {})
    (hq : List.Forall₂ (SegAt base) (q :: qs) rs) (ht : Tiles t.lbb rs e)
    (he : e ≤ t.lastack + 2^16)
    (ha : tcpEnqueueAppend pcb {} copy q qs ql = .ok (unsent, ql')) :
    ∃ u, ReflTransGen TxStep t { t with unsent := u, lbb := e } ∧
      List.Forall₂ (SegAt base) unsent u := by
  have happend : ∃ u, ReflTransGen TxStep t { t with unsent := u, lbb := e } ∧
      List.Forall₂ (SegAt base) (pcb.unsent ++ q :: qs) u :=
    ⟨t.unsent ++ rs, .single (.append ht he), List.rel_append h.unsent hq⟩
  obtain ⟨r₀, rs₀, hr₀, hrs₀, rfl⟩ := List.forall₂_cons_left_iff.mp hq
  unfold tcpEnqueueAppend at ha
  rcases List.eq_nil_or_concat pcb.unsent with hnil | ⟨init, useg, hu⟩
  · rw [hnil] at ha happend
    cases ha
    exact happend
  rw [List.concat_eq_append] at hu
  rw [hu, List.getLast?_concat] at ha
  dsimp only at ha
  split at ha
  · next hg =>
    obtain ⟨_, -, ha⟩ := bind_eq_ok.mp ha
    cases ha
    have hseq : q.seqno = pcb.snd_lbb := by rw [hr₀.seqno, ht.1, h.snd_lbb]
    obtain ⟨hm, hf, us, r, hus, hinit, hr, hstop, hlen⟩ := h.glue_spec hu hg hseq
    have hq0 : r₀.len = q.len := by
      rw [← hr₀.tcplen]
      unfold Seg.tcplen
      rw [hflags q (by simp)]
      rfl
    have hle := ht.2.2.le
    have hstart := ht.1
    unfold Range.stop at hle
    have hglue := TxStep.glue hus hstop (k := q.len) (by omega) (by omega)
    have hrest : Tiles (t.lbb + q.len) rs₀ e := by
      have := ht.2.2
      unfold Range.stop at this
      rwa [hstart, hq0] at this
    have happ := TxStep.append (t := { t with
      unsent := us ++ [{ r with len := r.len + q.len }], lbb := t.lbb + q.len }) hrest he
    refine ⟨_, .tail (.single hglue) happ, ?_⟩
    rw [modifyLast_concat]
    refine List.rel_append (List.rel_append hinit (.cons ?_ .nil)) hrs₀
    refine ⟨hr.seqno, ?_⟩
    unfold Seg.tcplen
    dsimp only
    rw [hlen, Bool.or_comm, hf]
    rfl
  · cases ha
    rw [hu] at happend
    exact happend

/-- A FIN is put behind `snd_lbb`. -/
theorem Sender.tcpEnqueueAppend_fin (h : Sender base pcb t) {q : Seg} {unsent : List Seg}
    {ql ql' : ℕ} (hseq : q.seqno = pcb.snd_lbb) (hq : q.tcplen = 1)
    (he : t.lbb + 1 ≤ t.lastack + 2^16)
    (ha : tcpEnqueueAppend pcb { fin := true } copy q [] ql = .ok (unsent, ql')) :
    ∃ u, ReflTransGen TxStep t { t with unsent := u, lbb := t.lbb + 1 } ∧
      List.Forall₂ (SegAt base) unsent u := by
  have hat : SegAt base q ⟨t.lbb, 1⟩ := ⟨hseq.trans h.snd_lbb, hq⟩
  have happend : ∃ u, ReflTransGen TxStep t { t with unsent := u, lbb := t.lbb + 1 } ∧
      List.Forall₂ (SegAt base) (pcb.unsent ++ [q]) u :=
    ⟨t.unsent ++ [⟨t.lbb, 1⟩], .single (.append (by exact ⟨rfl, Nat.one_pos, rfl⟩) he),
      List.rel_append h.unsent (.cons hat .nil)⟩
  unfold tcpEnqueueAppend at ha
  rcases List.eq_nil_or_concat pcb.unsent with hnil | ⟨init, useg, hu⟩
  · rw [hnil] at ha happend
    cases ha
    exact happend
  rw [List.concat_eq_append] at hu
  rw [hu, List.getLast?_concat] at ha
  dsimp only at ha
  split at ha
  · next hg =>
    obtain ⟨_, -, ha⟩ := bind_eq_ok.mp ha
    cases ha
    obtain ⟨hm, hf, us, r, hus, hinit, hr, hstop, hlen⟩ := h.glue_spec hu hg hseq
    have hglue := TxStep.glue hus hstop (k := 1) (by omega) he
    refine ⟨_, .single hglue, ?_⟩
    rw [modifyLast_concat]
    refine List.rel_append hinit (.cons ⟨hr.seqno, ?_⟩ .nil)
    unfold Seg.setFin Seg.tcplen
    rw [hlen]
    rfl
  · cases ha
    rw [hu] at happend
    exact happend

/-- The last segment enqueued is pushed, which does not move it. -/
theorem push_forall₂ {unsent : List Seg} {u : List Range}
    (h : List.Forall₂ (SegAt base) unsent u) :
    List.Forall₂ (SegAt base)
      (modifyLast (fun s => if decide (s.len > 0) && !more then s.setPsh else s) unsent) u := by
  refine modifyLast_forall₂ (fun s r hs => ?_) h
  split
  · exact ⟨hs.seqno, hs.tcplen⟩
  · exact hs

/-- `tcp_enqueue` of data. -/
theorem Sender.tcpEnqueue_data (h : Sender base pcb t) (hfin : pcb.flags.fin = false)
    {arg : List UInt8} (harg : 0 < arg.length) {e : Err}
    (he : tcpEnqueue o alloc pcb arg {} copy more false = .ok (e, pcb')) :
    ∃ t', ReflTransGen TxStep t t' ∧ Sender base pcb' t' := by
  rcases tcpEnqueue_cases he with ⟨-, rfl⟩ | ⟨-, hbuf, q, qs, ql, unsent, ql', hloop, happ, rfl⟩
  · exact ⟨t, .refl, h.congr ⟨rfl, rfl, rfl, rfl, rfl, rfl, rfl, rfl, rfl, rfl, rfl⟩⟩
  have hroom := h.room hfin
  have h1 := h.weak.nxt_ge
  have h2 := h.weak.nxt_le
  obtain ⟨segs, rs, hsegs, hflags, hrs, ht⟩ :=
    tcpEnqueueLoop_data h.mss_le harg (by omega) h.snd_lbb hloop
  rw [List.nil_append] at hsegs
  rw [← hsegs] at hflags hrs
  obtain ⟨u, hsteps, hu⟩ := h.tcpEnqueueAppend_data hflags hrs ht (by omega) happ
  refine ⟨_, hsteps, h.lastack, h.snd_nxt, ?_, h.unacked, push_forall₂ hu, h.infr, h.snd_wnd_le,
    h.mss_le, fun _ => ?_, h.live, fun _ => ?_, h.weak.steps hsteps⟩
  · show pcb.snd_lbb.adv arg.length = _
    rw [h.snd_lbb, Serial.adv_adv]
  · show u16sub pcb.snd_buf arg.length + (t.lbb + arg.length - t.lastack) ≤ 0xffff
    rw [u16sub_of_le (by omega) hbuf]
    omega
  · show (pcb.flags.fin || false) = false
    rw [hfin, Bool.or_false]

/-- `tcp_enqueue` of a FIN, after which `tcp_close` moves to the state `next`, unless the enqueuing
failed. -/
theorem Sender.tcpSendCtrl_fin (h : Sender base pcb t) (hfin : pcb.flags.fin = false) {e : Err}
    {next : TcpState} (hlive : next.geEstablished = true)
    (hnext : next ≠ .ESTABLISHED ∧ next ≠ .CLOSE_WAIT)
    (he : tcpSendCtrl o alloc pcb { fin := true } = .ok (e, pcb')) :
    ∃ t', ReflTransGen TxStep t t' ∧
      Sender base (if e = .OK then { pcb' with state := next } else pcb') t' := by
  rcases tcpEnqueue_cases he with
    ⟨rfl, rfl⟩ | ⟨rfl, hbuf, q, qs, ql, unsent, ql', hloop, happ, rfl⟩
  · exact ⟨t, .refl, h.congr ⟨rfl, rfl, rfl, rfl, rfl, rfl, rfl, rfl, rfl, rfl, rfl⟩⟩
  have hroom := h.room hfin
  obtain ⟨rfl, hseq, hlen⟩ := tcpEnqueueLoop_fin hloop
  obtain ⟨u, hsteps, hu⟩ := h.tcpEnqueueAppend_fin hseq hlen (by omega) happ
  have hset : (pcb.flags.fin || true) = true := Bool.or_true _
  refine ⟨_, hsteps, h.lastack, h.snd_nxt, ?_, h.unacked, push_forall₂ hu, h.infr, h.snd_wnd_le,
    h.mss_le, fun hf => ?_, hlive, fun hst => ?_, h.weak.steps hsteps⟩
  · show pcb.snd_lbb.adv 1 = _
    rw [h.snd_lbb, Serial.adv_adv]
  · exact absurd (hset.symm.trans hf) (by simp)
  · rcases hst with hst | hst
    · exact absurd hst hnext.1
    · exact absurd hst hnext.2

end Enqueue

end Lwip.Tcp
