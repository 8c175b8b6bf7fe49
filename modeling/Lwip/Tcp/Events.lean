import Lwip.Lib.Run
import Lwip.Tcp.InSeq
import Lwip.Tcp.Refused

/-!
# The order of the receive events

The calls of the `recv` callback: data in sequence, data that were refused and are offered again,
and the end of the data, a call with `NULL`. The stack keeps refused data in `refused_data`, and
hands up nothing new until they are taken. The end of the data does not wait for them: it is
announced by the segment that completes the stream, whether or not the callback takes the data of
that segment. And a segment that is in sequence behind the FIN is handed up like any other.

`nextInSeq` and `reachesFin` say of a segment, before it is processed, whether it will be handed up,
and whether the stream will then be complete.
-/

namespace Lwip.Tcp

/-! ## What a segment completes -/

/-- The part of an incoming segment that is the next in sequence, if there is one. -/
def nextInSeq (pcb : TcpPcb) (s : Seg) : Option Seg :=
  if u16 s.tcplen = 0 then none
  else
    let s := if Serial.between pcb.rcv_nxt (s.seqno.adv 1) (s.seqno.adv (u16 s.tcplen) - 1) then
        { s with
          seqno := pcb.rcv_nxt
          len := u16sub s.len (Serial.dist s.seqno pcb.rcv_nxt)
          p := s.p.drop (pcb.rcv_nxt - s.seqno).toInt.toNat }
      else s
    if pcb.rcv_nxt = s.seqno ∧
        Serial.between s.seqno pcb.rcv_nxt (pcb.rcv_nxt.adv pcb.rcv_wnd - 1) then some s
    else none

/-- The segment fits in the window. -/
def fitsWnd (pcb : TcpPcb) (s : Seg) : Bool := decide (u16 s.tcplen ≤ pcb.rcv_wnd)

/-- The segments follow each other from the sequence number `r` on, up to one with a FIN. -/
def chainFin : (r : Serial) → List Seg → Bool
  | _, [] => false
  | r, x :: rest => decide (x.seqno = r) && (x.flags.fin || chainFin (r.adv x.tcplen) rest)

/-- The data of the queued segment end at or before `e`. -/
def covered (e : Serial) (x : Seg) : Bool := decide (Serial.geq e (x.seqno.adv x.len))

/-- A segment without a FIN that ends at `e` covers a queued segment that has one, or the queued
segments behind it lead to one. If it reaches into the queue, it is cut where the queue began. -/
def queueFin (e : Serial) : (ooseq : List Seg) → Bool
  | [] => false
  | head :: tail =>
    let rest := (head :: tail).dropWhile (covered e)
    ((head :: tail).takeWhile (covered e)).any (·.flags.fin) ||
      chainFin (if rest.head?.any fun n => decide (Serial.gt e n.seqno) then head.seqno else e) rest

/-- The segment `s` in sequence completes the stream. -/
def reachesFin (pcb : TcpPcb) (s : Seg) : Bool :=
  (s.flags.fin && fitsWnd pcb s) ||
    queueFin (pcb.rcv_nxt.adv (min (u16 s.tcplen) pcb.rcv_wnd)) pcb.ooseq

/-- The segment `s` in sequence is a FIN without data. -/
def bareFin (pcb : TcpPcb) (s : Seg) : Bool :=
  decide (s.p = []) && s.flags.fin && fitsWnd pcb s

section HandUp

variable {o : Opts} {ticks : BitVec 32} {m : RxAlloc} {pcb pcb' : TcpPcb} {i : In} {s : Seg}
  {rx rx' : Rx}

/-- The loop over the queue hands up a FIN exactly if the queue leads to one. -/
theorem dequeueOoseq_got_fin {q : List Seg} (h : dequeueOoseq o q rx = .ok rx') :
    rx'.got_fin = (rx.got_fin || chainFin rx.pcb.rcv_nxt q) := by
  induction q generalizing rx with
  | nil =>
    cases h
    simp [chainFin]
  | cons c rest ih =>
    unfold dequeueOoseq at h
    split at h
    · next hc =>
      obtain ⟨_, -, h⟩ := bind_eq_ok.mp h
      rw [ih h]
      simp [chainFin, hc, Bool.or_assoc]
    · next hc =>
      cases h
      simp [chainFin, hc]

/-- Segments without a FIN are dropped from the queue, and nothing else happens. -/
theorem absorbOoseq_eq {n : ℕ} {q : List Seg}
    (h : (q.takeWhile (covered (s.seqno.adv n))).any (·.flags.fin) = false) :
    absorbOoseq s n q = (s, n, q.dropWhile (covered (s.seqno.adv n))) := by
  induction q with
  | nil => rfl
  | cons x rest ih =>
    unfold absorbOoseq
    by_cases hx : Serial.geq (s.seqno.adv n) (x.seqno.adv x.len)
    · have hc : covered (s.seqno.adv n) x = true := by simpa [covered] using hx
      rw [List.takeWhile_cons_of_pos hc, List.any_cons, Bool.or_eq_false_iff] at h
      rw [if_pos hx, List.dropWhile_cons_of_pos hc, h.1]
      exact ih h.2
    · have hc : ¬ covered (s.seqno.adv n) x = true := by simpa [covered] using hx
      rw [if_neg hx, List.dropWhile_cons_of_neg hc]

/-- The trimming to the window takes the FIN of a segment that does not fit, and leaves the
others. -/
theorem trimToWnd_fin {s' : Seg} {n : ℕ} (hs : s.seqno = pcb.rcv_nxt)
    (h : trimToWnd pcb s = .ok (s', n)) :
    s'.flags.fin = (s.flags.fin && fitsWnd pcb s) ∧ (fitsWnd pcb s = true → s' = s) ∧
      s'.seqno.adv n = pcb.rcv_nxt.adv (min (u16 s.tcplen) pcb.rcv_wnd) := by
  unfold trimToWnd at h
  split at h
  · next hw =>
    obtain ⟨_, hassert, h⟩ := bind_eq_ok.mp h
    cases h
    have hfit : fitsWnd pcb s = false := by simpa [fitsWnd] using hw
    rw [hfit, min_eq_right hw.le]
    exact ⟨(Bool.and_false _).symm, fun hf => (by cases hf), lwipAssert_eq_ok.mp hassert⟩
  · next hw =>
    cases h
    have hfit : fitsWnd pcb s = true := by simpa [fitsWnd] using hw
    rw [hfit, min_eq_left (Nat.not_lt.mp hw), hs]
    exact ⟨(Bool.and_true _).symm, fun _ => rfl, rfl⟩

/-- What is left of a segment and of the queue does not lead to a FIN. -/
theorem mergeOoseq_chainFin {s' : Seg} {n n' : ℕ} {q q' : List Seg} (hs : s.flags.fin = false)
    (hq : queueFin (s.seqno.adv n) q = false) (h : mergeOoseq q s n = .ok (s', n', q')) :
    s'.flags.fin = false ∧ chainFin (s'.seqno.adv n') q' = false := by
  unfold mergeOoseq at h
  split at h
  · cases h
    exact ⟨hs, rfl⟩
  · next head tail =>
    rw [hs, if_neg (by simp)] at h
    unfold queueFin at hq
    rw [Bool.or_eq_false_iff] at hq
    obtain ⟨hcov, hchain⟩ := hq
    rw [absorbOoseq_eq hcov] at h
    generalize (head :: tail).dropWhile (covered (s.seqno.adv n)) = rest at h hchain
    cases rest with
    | nil =>
      cases h
      exact ⟨hs, rfl⟩
    | cons x rest =>
      simp only [List.head?_cons, Option.any_some, decide_eq_true_eq] at hchain
      dsimp only at h
      split at h
      · next hgt =>
        -- The segment is cut where the queue began.
        obtain ⟨_, hassert, h⟩ := bind_eq_ok.mp h
        cases h
        rw [if_pos hgt] at hchain
        rw [lwipAssert_eq_ok.mp hassert, Seg.trim_flags]
        exact ⟨hs, hchain⟩
      · next hgt =>
        cases h
        rw [if_neg hgt] at hchain
        exact ⟨hs, hchain⟩

/-- A FIN empties the queue. -/
theorem mergeOoseq_of_fin {s' : Seg} {n n' : ℕ} {q q' : List Seg} (hs : s.flags.fin = true)
    (h : mergeOoseq q s n = .ok (s', n', q')) : s' = s ∧ q' = [] := by
  unfold mergeOoseq at h
  split at h
  · cases h
    exact ⟨rfl, rfl⟩
  · rw [if_pos hs] at h
    cases h
    exact ⟨rfl, rfl⟩

/-- A segment in sequence hands up a FIN only if it completes the stream, and no data if it is a FIN
alone. -/
theorem tcpReceiveInSeq_handsUp (hs : s.seqno = pcb.rcv_nxt)
    (h : tcpReceiveInSeq o pcb s = .ok rx) : (rx.got_fin = true → reachesFin pcb s = true) ∧
      (bareFin pcb s = true → rx.recv_data = []) := by
  unfold tcpReceiveInSeq at h
  obtain ⟨⟨s₁, n₁⟩, htrim, h⟩ := bind_eq_ok.mp h
  obtain ⟨⟨s₂, n₂, q⟩, hmerge, h⟩ := bind_eq_ok.mp h
  obtain ⟨_, -, h⟩ := bind_eq_ok.mp h
  obtain ⟨rx', hdeq, h⟩ := bind_eq_ok.mp h
  cases h
  obtain ⟨hfin, hfits, hend⟩ := trimToWnd_fin hs htrim
  constructor
  · intro hg
    have hgot : rx'.got_fin = (s₂.flags.fin || chainFin (s₂.seqno.adv n₂) q) := by
      rw [dequeueOoseq_got_fin hdeq, tcpUpdateRcvAnnWnd_rcv_nxt]
    by_contra hno
    have hno : reachesFin pcb s = false := by simpa using hno
    unfold reachesFin at hno
    rw [Bool.or_eq_false_iff, ← hfin, ← hend] at hno
    obtain ⟨hf, hc⟩ := mergeOoseq_chainFin hno.1 hno.2 hmerge
    have hg : rx'.got_fin = true := hg
    rw [hgot, hf, hc] at hg
    cases hg
  · intro hb
    simp only [bareFin, Bool.and_eq_true, decide_eq_true_eq] at hb
    obtain ⟨⟨hp, hf⟩, hfit⟩ := hb
    have h₁ : s₁ = s := hfits hfit
    rw [h₁] at hmerge
    obtain ⟨rfl, rfl⟩ := mergeOoseq_of_fin hf hmerge
    cases hdeq
    exact hp

/-- The data half of `tcp_receive` hands up nothing, or what the part of the segment that is next in
sequence brings. -/
theorem tcpReceiveData_nextInSeq (h : tcpReceiveData o m pcb s = .ok rx) :
    (nextInSeq pcb s = none ∧ rx.recv_data = [] ∧ rx.got_fin = false) ∨
      ∃ s', nextInSeq pcb s = some s' ∧ s'.seqno = pcb.rcv_nxt ∧
        tcpReceiveInSeq o pcb s' = .ok rx := by
  have hwindow : ∀ {p : TcpPcb} {x : Seg}, tcpReceiveWindow o m p x = .ok rx →
      (¬(p.rcv_nxt = x.seqno ∧
          Serial.between x.seqno p.rcv_nxt (p.rcv_nxt.adv p.rcv_wnd - 1)) ∧
        rx.recv_data = [] ∧ rx.got_fin = false) ∨
      (p.rcv_nxt = x.seqno ∧
          Serial.between x.seqno p.rcv_nxt (p.rcv_nxt.adv p.rcv_wnd - 1)) ∧
        tcpReceiveInSeq o p x = .ok rx := by
    intro p x hx
    unfold tcpReceiveWindow at hx
    dsimp only at hx
    split at hx
    · next hb =>
      split at hx
      · next heq => exact .inr ⟨⟨heq, hb⟩, hx⟩
      · next hne =>
        cases hx
        exact .inl ⟨fun hc => hne hc.1, rfl, rfl⟩
    · next hb =>
      cases hx
      exact .inl ⟨fun hc => hb hc.2, rfl, rfl⟩
  unfold tcpReceiveData at h
  unfold nextInSeq
  split at h
  · next hpos =>
    rw [if_neg (by omega)]
    split at h
    · next hb =>
      rw [if_pos hb]
      obtain ⟨s', htrim, h⟩ := bind_eq_ok.mp h
      have hs' : s' = { s with
          seqno := pcb.rcv_nxt
          len := u16sub s.len (Serial.dist s.seqno pcb.rcv_nxt)
          p := s.p.drop (pcb.rcv_nxt - s.seqno).toInt.toNat } := by
        unfold trimFront at htrim
        obtain ⟨_, -, htrim⟩ := bind_eq_ok.mp htrim
        obtain ⟨_, -, htrim⟩ := bind_eq_ok.mp htrim
        cases htrim
        rfl
      rw [← hs']
      rcases hwindow h with ⟨hno, hd⟩ | ⟨hyes, hx⟩
      · exact .inl ⟨if_neg hno, hd⟩
      · exact .inr ⟨s', if_pos hyes, hyes.1.symm, hx⟩
    · next hb =>
      rw [if_neg hb]
      by_cases hlt : Serial.lt s.seqno pcb.rcv_nxt
      · -- An old segment is answered at once, and is not in sequence.
        rw [if_pos hlt] at h
        have hne : pcb.rcv_nxt ≠ s.seqno := by
          intro heq
          rw [heq, Serial.lt_iff] at hlt
          simp at hlt
        rcases hwindow h with ⟨-, hd⟩ | ⟨⟨heq, -⟩, -⟩
        · exact .inl ⟨if_neg fun hc => hne hc.1, hd⟩
        · exact absurd heq hne
      · rw [if_neg hlt] at h
        rcases hwindow h with ⟨hno, hd⟩ | ⟨hyes, hx⟩
        · exact .inl ⟨if_neg hno, hd⟩
        · exact .inr ⟨s, if_pos hyes, hyes.1.symm, hx⟩
  · next h0 =>
    cases h
    exact .inl ⟨if_pos (by omega), rfl, rfl⟩

/-- What `tcp_receive` hands up, by the segment and the state before. -/
structure HandUp (pcb : TcpPcb) (s : Seg) (data : List UInt8) (fin : Bool) : Prop where
  none : nextInSeq pcb s = none → data = [] ∧ fin = false
  fin : ∀ s', nextInSeq pcb s = some s' → fin = true → reachesFin pcb s' = true
  bare : ∀ s', nextInSeq pcb s = some s' → bareFin pcb s' = true → data = []

/-- Only the next sequence number, the window and the queue count. -/
theorem HandUp.congr {data : List UInt8} {fin : Bool} (h : HandUp pcb s data fin)
    (hn : pcb'.rcv_nxt = pcb.rcv_nxt) (hw : pcb'.rcv_wnd = pcb.rcv_wnd)
    (hq : pcb'.ooseq = pcb.ooseq) : HandUp pcb' s data fin := by
  have hnext : nextInSeq pcb' s = nextInSeq pcb s := by unfold nextInSeq; rw [hn, hw]
  have hfits : fitsWnd pcb' = fitsWnd pcb := by funext x; unfold fitsWnd; rw [hw]
  have hreach : reachesFin pcb' = reachesFin pcb := by
    funext x
    unfold reachesFin
    rw [hfits, hn, hw, hq]
  have hbare : bareFin pcb' = bareFin pcb := by funext x; unfold bareFin; rw [hfits]
  exact ⟨hnext ▸ h.none, hnext ▸ hreach ▸ h.fin, hnext ▸ hbare ▸ h.bare⟩

/-- What a call of `tcp_receive` hands up. -/
theorem tcpReceive_handUp (h : tcpReceive o ticks m pcb i = .ok rx) :
    HandUp pcb i.seg rx.recv_data rx.got_fin := by
  obtain ⟨p, hp, h⟩ := tcpReceive_eq_ok h
  have hsame : SameRcv pcb p := by
    rcases hp with ⟨-, hp⟩ | ⟨-, rfl⟩
    · exact tcpReceiveAck_sameRcv hp
    · exact .refl _
  have hdata : HandUp p i.seg rx.recv_data rx.got_fin := by
    rcases tcpReceiveData_nextInSeq h with ⟨hn, hd, hf⟩ | ⟨s', hn, hseq, hx⟩
    · exact ⟨fun _ => ⟨hd, hf⟩, fun s' hs' => absurd (hn.symm.trans hs') (by simp),
        fun s' hs' => absurd (hn.symm.trans hs') (by simp)⟩
    · obtain ⟨hfin, hbare⟩ := tcpReceiveInSeq_handsUp hseq hx
      refine ⟨fun hno => absurd (hn.symm.trans hno) (by simp), fun t ht => ?_, fun t ht => ?_⟩
      · obtain rfl := Option.some.inj (hn.symm.trans ht)
        exact hfin
      · obtain rfl := Option.some.inj (hn.symm.trans ht)
        exact hbare
  exact hdata.congr hsame.rcv_nxt.symm hsame.rcv_wnd.symm hsame.ooseq.symm

end HandUp

/-! ## The peer's FIN -/

/-- The states in which the peer's FIN has been received. -/
def finSeen : TcpState → Bool
  | .CLOSE_WAIT | .CLOSING | .LAST_ACK | .TIME_WAIT => true
  | _ => false

section FinSeen

variable {o : Opts} {ticks : BitVec 32} {m : RxAlloc} {cb : Callbacks} {input alloc : Bool}
  {pcb pcb' : TcpPcb} {i : In} {pr : Proc} {p : TcpPcb} {ws : List WriteCall} {out : List Sent}

/-- `tcp_receive` with a FIN leaves no state in which the peer has not closed, once `tcp_process` is
done with it. -/
theorem processReceived_finSeen {rx : Rx} {st : TcpState} (hlive : st.geEstablished = true)
    (hst : rx.pcb.state = st ∨ st = .ESTABLISHED ∧ rx.pcb.state = .CLOSE_WAIT)
    (h : rx.got_fin = true ∨ finSeen st = true) (hp : (processReceived rx i st).pcb = some p) :
    finSeen p.state = true := by
  have hsame : finSeen st = true → finSeen rx.pcb.state = true := by
    rcases hst with hst | ⟨-, hst⟩
    · rw [hst]
      exact id
    · rw [hst]
      exact fun _ => rfl
  cases st with
  | CLOSED | LISTEN | SYN_SENT | SYN_RCVD => cases hlive
  | ESTABLISHED =>
    rcases h with hf | hf
    · simp only [processReceived, hf, if_true] at hp
      cases hp
      rfl
    · cases hf
  | CLOSE_WAIT =>
    cases hp
    split
    · rfl
    · exact hsame rfl
  | FIN_WAIT_1 =>
    rcases h with hf | hf
    · simp only [processReceived, hf, if_true] at hp
      split at hp <;> (cases hp; rfl)
    · cases hf
  | FIN_WAIT_2 =>
    rcases h with hf | hf
    · simp only [processReceived, hf, if_true] at hp
      cases hp
      rfl
    · cases hf
  | CLOSING =>
    simp only [processReceived] at hp
    split at hp
    · cases hp
      rfl
    · cases hp
      exact hsame rfl
  | LAST_ACK =>
    cases hp
    exact hsame rfl
  | TIME_WAIT =>
    cases hp
    exact hsame rfl

/-- After a FIN was handed up the state says so, and it goes on saying so. -/
theorem tcpProcess_finSeen (h : tcpProcess o ticks m cb pcb i = .ok pr) (hp : pr.pcb = some p)
    (hf : pr.got_fin = true ∨ finSeen pcb.state = true) : finSeen p.state = true := by
  unfold tcpProcess at h
  split at h
  · cases h
    unfold processRst at hp hf
    dsimp only at hp hf
    split at hp <;> split at hp <;> (cases hp; exact hf.resolve_left (by simp_all))
  split at h
  · cases h
    cases hp
    exact hf.resolve_left (by simp)
  have hreceived : ∀ st, pcb.state = st → st.geEstablished = true →
      (tcpReceive o ticks m (processNote o ticks pcb i) i >>= fun rx =>
        .ok (processReceived rx i st)) = .ok pr → finSeen p.state = true := by
    intro st hst hlive h
    obtain ⟨rx, hr, h⟩ := bind_eq_ok.mp h
    cases h
    have hmove := tcpReceive_move hr
    have hst' : (processNote o ticks pcb i).state = st := hst
    rw [hst'] at hmove
    rw [hst] at hf
    refine processReceived_finSeen hlive hmove ?_ hp
    rwa [(processReceived_handsUp rx i st).fin] at hf
  split at h
  · next hs =>
    -- No FIN is handed up while the connection is being opened.
    exfalso
    have hnofin : pr.got_fin = false := by
      unfold processSynSent at h
      split at h
      · split at h
        · cases h
        · cases h
          rfl
      · split at h
        · obtain ⟨_, -, h⟩ := bind_eq_ok.mp h
          cases h
          rfl
        · cases h
          rfl
    rw [hs, hnofin] at hf
    simp [finSeen] at hf
  · next hs =>
    have hf : pr.got_fin = true := hf.resolve_right (by simp [hs, finSeen])
    unfold processSynRcvd at h
    split at h
    · split at h
      · obtain ⟨⟨r, out⟩, -, h⟩ := bind_eq_ok.mp h
        dsimp only at h
        split at h
        · cases h
          cases hf
        · split at h
          · cases h
            cases hf
          · obtain ⟨rx, -, h⟩ := bind_eq_ok.mp h
            cases h
            have hfin : rx.got_fin = true := hf
            simp only [Rx.toProc, hfin, if_true] at hp
            cases hp
            rfl
      · cases h
        cases hf
    · split at h <;> (cases h; cases hf)
  · next hs =>
    cases h
    cases hp
    exact hf.resolve_left (by simp)
  · next hs =>
    cases h
    cases hp
    exact hf.resolve_left (by simp)
  · next hs =>
    cases h
    cases hp
    exact hf.resolve_left (by simp)
  · exact hreceived _ rfl (by cases hs : pcb.state <;> simp_all [TcpState.geEstablished]) h

/-- Only in the state `LAST_ACK` does the connection end with the segment. -/
theorem processReceived_removed {rx : Rx} {st : TcpState}
    (h : (processReceived rx i st).pcb = none ∨ (processReceived rx i st).reset = true ∨
      (processReceived rx i st).closed = true) : st = .LAST_ACK := by
  have hstay : ∀ q : TcpPcb, ¬((rx.toProc q).pcb = none ∨ (rx.toProc q).reset = true ∨
      (rx.toProc q).closed = true) := by
    intro q
    simp [Rx.toProc]
  have htw : ∀ q : TcpPcb, ¬((enterTimeWait rx q).pcb = none ∨ (enterTimeWait rx q).reset = true ∨
      (enterTimeWait rx q).closed = true) := by
    intro q
    simp [enterTimeWait]
  cases st with
  | LAST_ACK => rfl
  | FIN_WAIT_1 =>
    simp only [processReceived] at h
    split at h <;> split at h
    · exact absurd h (htw _)
    · exact absurd h (hstay _)
    · exact absurd h (hstay _)
    · exact absurd h (hstay _)
  | FIN_WAIT_2 | CLOSING =>
    simp only [processReceived] at h
    split at h
    · exact absurd h (htw _)
    · exact absurd h (hstay _)
  | CLOSED | LISTEN | SYN_SENT | SYN_RCVD | TIME_WAIT | ESTABLISHED | CLOSE_WAIT =>
    exact absurd h (hstay _)

/-- What `tcp_process` hands up is lost with the pcb only in the state `LAST_ACK`. -/
theorem tcpProcess_removed (h : tcpProcess o ticks m cb pcb i = .ok pr)
    (hr : pr.pcb = none ∨ pr.reset = true ∨ pr.closed = true) :
    pr.recv_data = [] ∨ pcb.state = .LAST_ACK := by
  unfold tcpProcess at h
  split at h
  · cases h
    unfold processRst
    dsimp only
    split <;> split <;> exact .inl rfl
  split at h
  · cases h
    exact .inl rfl
  split at h
  · unfold processSynSent at h
    split at h
    · split at h
      · cases h
      · cases h
        exact .inl rfl
    · split at h
      · obtain ⟨_, -, h⟩ := bind_eq_ok.mp h
        cases h
        exact .inl rfl
      · cases h
        exact .inl rfl
  · unfold processSynRcvd at h
    split at h
    · split at h
      · obtain ⟨⟨r, out⟩, -, h⟩ := bind_eq_ok.mp h
        dsimp only at h
        split at h
        · cases h
          exact .inl rfl
        · split at h
          · cases h
            exact .inl rfl
          · obtain ⟨rx, -, h⟩ := bind_eq_ok.mp h
            cases h
            simp [Rx.toProc] at hr
      · cases h
        exact .inl rfl
    · split at h <;> (cases h; exact .inl rfl)
  · cases h
    exact .inl rfl
  · cases h
    exact .inl rfl
  · cases h
    exact .inl rfl
  · obtain ⟨rx, -, h⟩ := bind_eq_ok.mp h
    cases h
    exact .inr (processReceived_removed hr)

/-- The application cannot take back that the peer has closed. -/
theorem tcpClose_finSeen {allocs : ℕ → Bool} {e : Err} (hf : finSeen pcb.state = true)
    (h : tcpClose o input ticks allocs alloc pcb = .ok (e, some pcb', out)) :
    finSeen pcb'.state = true := by
  obtain ⟨-, rfl, -⟩ | ⟨next, q, hnext, hq, hend⟩ := tcpClose_cases h
  · exact hf
  obtain ⟨-, hout⟩ | ⟨-, rfl, -⟩ := hend
  · rw [tcpOutputUnlessInput_state hout]
    rcases hnext with ⟨hst | hst, -⟩ | ⟨-, rfl⟩
    · rw [hst] at hf
      cases hf
    · rw [hst] at hf
      cases hf
    · rfl
  · rw [tcpEnqueue_state hq]
    exact hf

/-- After the end of the data, the calls of a callback leave the state behind it. -/
theorem appCalls_finSeen {cs : List AppCall} (hf : finSeen pcb.state = true)
    (h : appCalls o input ticks pcb cs = .ok (some pcb', out)) : finSeen pcb'.state = true := by
  refine appCalls_rule (P := fun p _ => finSeen p.state = true) h hf fun p q c _ _ hp hc => ?_
  refine appCall_rule (P := fun q _ => finSeen q.state = true) hc (fun hw => ?_) (fun hr => ?_)
    (tcpClose_finSeen hp)
  · rw [tcpWrite_state hw]
    exact hp
  · rw [tcpRecved_state hr]
    exact hp

/-- A slow timer tick after which the pcb is still there. -/
theorem tcpSlowtmr_finSeen {e : TickEnv} (hf : finSeen pcb.state = true)
    (h : tcpSlowtmr o ticks e pcb = .ok (.active pcb', out)) : finSeen pcb'.state = true := by
  refine (tcpSlowtmr_rule (P := fun p _ => finSeen p.state = true) h (fun p out₁ hr _ n => ?_)
    (fun p q _ _ hp happ => appCalls_finSeen hp happ)
    fun p q _ _ hp ho => (tcpOutput_state ho).symm ▸ hp).elim nofun ?_
  · show finSeen (slowtmrKeepalive ticks e p).1.state = true
    rw [(slowtmrKeepalive_sameSnd ticks e p).state, slowtmrRexmit_state hr]
    exact hf
  · rintro ⟨q, hq, hf'⟩
    cases hq
    exact hf'

/-- A fast timer tick offers the refused data, and leaves the state. -/
theorem tcpFasttmr_frame {takesRefused : Bool}
    (h : tcpFasttmr ticks takesRefused alloc pcb = .ok (pcb', out)) :
    pcb'.state = pcb.state ∧
      pcb'.refused_data = if takesRefused then none else pcb.refused_data := by
  refine tcpFasttmr_rule (P := fun p _ => p.state = pcb.state ∧
    p.refused_data = if takesRefused then none else pcb.refused_data) h ⟨rfl, rfl⟩ fun hack => ?_
  have hst := tcpOutputUnlessInput_state hack
  exact ⟨hst, (tcpAckNow_callFrame hack).refused_data⟩

/-- A segment in `TIME_WAIT` leaves the refused data alone. -/
theorem tcpTimewaitInput_refused (h : tcpTimewaitInput ticks alloc pcb i = .ok (pcb', out)) :
    pcb'.refused_data = pcb.refused_data := by
  exact tcpTimewaitInput_rule (P := fun p _ => p.refused_data = pcb.refused_data) h (fun _ => rfl)
    fun ho => (tcpOutput_callFrame ho).refused_data

end FinSeen

/-! ## The log -/

/-- A call of the `recv` callback: with data, which it takes or not, or with `NULL`. -/
inductive RecvCall where
  | data (p : List UInt8) (ok : Bool)
  | eof
  deriving DecidableEq, Repr

/-- The data that the callback has taken. -/
def accepted (log : List RecvCall) : List UInt8 :=
  log.flatMap fun
    | .data p true => p
    | _ => []

/-- The calls so far, the bytes handed up so far, and the data that are kept. -/
structure LogInv (log : List RecvCall) (stream : List UInt8) (kept : Option (List UInt8)) :
    Prop where
  kept_eq : accepted log ++ kept.getD [] = stream
  kept_ne : kept ≠ some []
  /-- The end of the data is announced last, when nothing is kept. -/
  eof : .eof ∈ log → kept = none ∧ ∃ l, log = l ++ [.eof] ∧ .eof ∉ l

section Log

variable {log : List RecvCall} {stream p data : List UInt8} {kept : Option (List UInt8)}
  {ok fin : Bool}

/-- What is accepted of two sequences of calls. -/
@[simp] theorem accepted_append (l l' : List RecvCall) :
    accepted (l ++ l') = accepted l ++ accepted l' := by
  simp [accepted]

/-- Data are accepted if the callback takes them. -/
@[simp] theorem accepted_data (p : List UInt8) (ok : Bool) :
    accepted [.data p ok] = if ok then p else [] := by
  cases ok <;> simp [accepted]

/-- The end of the data has no bytes. -/
@[simp] theorem accepted_eof : accepted [.eof] = [] := rfl

/-- At first nothing was handed up and nothing refused. -/
theorem LogInv.start : LogInv [] [] none := ⟨rfl, by simp, by simp⟩

/-- Kept data are offered again. -/
theorem LogInv.offer (h : LogInv log stream (some p)) :
    LogInv (log ++ [.data p ok]) stream (if ok then none else some p) := by
  have heof : .eof ∉ log := fun he => by cases (h.eof he).1
  have heq := h.kept_eq
  refine ⟨?_, ?_, fun he => ?_⟩
  · rw [accepted_append, accepted_data]
    cases ok with
    | false => simpa using heq
    | true => simpa using heq
  · cases ok with
    | false => exact h.kept_ne
    | true => simp
  · simp [heof] at he

/-- The calls for what a segment hands up. -/
def handUpCalls (data : List UInt8) (ok fin : Bool) : List RecvCall :=
  (if data = [] then [] else [.data data ok]) ++ if fin then [.eof] else []

/-- The end is announced only behind a FIN. -/
theorem eof_mem_handUpCalls (h : .eof ∈ handUpCalls data ok fin) : fin = true := by
  by_contra hf
  by_cases hd : data = []
  · simp [handUpCalls, hd, hf] at h
  · simp [handUpCalls, hd, hf] at h

/-- A segment hands up data, the end of the data, or both. Nothing comes after the end, and with the
end no data are refused. -/
theorem LogInv.handUp (h : LogInv log stream none) (hafter : .eof ∈ log → data = [] ∧ fin = false)
    (hrefuse : ok = false → fin = true → data = []) :
    LogInv (log ++ handUpCalls data ok fin) (stream ++ data)
      (if data ≠ [] ∧ ok = false then some data else none) := by
  have heq : accepted log = stream := by simpa using h.kept_eq
  have hacc : accepted (handUpCalls data ok fin) = if ok then data else [] := by
    unfold handUpCalls
    rw [accepted_append]
    by_cases hd : data = []
    · cases fin <;> simp [hd, accepted]
    · cases fin <;> cases ok <;> simp [hd, accepted]
  refine ⟨?_, ?_, fun he => ?_⟩
  · rw [accepted_append, hacc, heq]
    by_cases hd : data = []
    · simp [hd]
    · cases ok <;> simp [hd]
  · split
    · next hd => simpa using hd.1
    · simp
  · rcases List.mem_append.mp he with he | he
    · -- The end was announced before.
      obtain ⟨hd, hf⟩ := hafter he
      obtain ⟨-, hl⟩ := h.eof he
      rw [if_neg (by simp [hd])]
      simpa [handUpCalls, hd, hf] using hl
    · have hno : .eof ∉ log := by
        intro hlog
        obtain ⟨hd, hf⟩ := hafter hlog
        simp [handUpCalls, hd, hf] at he
      have hfin : fin = true := eof_mem_handUpCalls he
      constructor
      · rw [if_neg]
        rintro ⟨hd, hok⟩
        exact hd (hrefuse hok hfin)
      · refine ⟨log ++ if data = [] then [] else [.data data ok], ?_, ?_⟩
        · simp [handUpCalls, hfin]
        · by_cases hd : data = []
          · simp [hd, hno]
          · simp [hd, hno]

end Log

/-! ## The machine -/

/-- A connection, the calls of its `recv` callback so far, and the bytes that `tcp_receive` handed
up so far, which are those of the stream in sequence. -/
structure RecvLog where
  conn : Conn
  log : List RecvCall := []
  stream : List UInt8 := []

/-- What happens to the connection. The `accept` callback may write. -/
inductive RecvEvent where
  | input (ticks : BitVec 32) (m : RxAlloc) (accepts : Bool) (writes : List WriteCall)
      (takesRefused takesData : Bool) (calls : List AppCall) (out : Bool) (i : In)
  | fasttmr (ticks : BitVec 32) (takesRefused out : Bool)
  | call (ticks : BitVec 32) (c : AppCall)
  | output (ticks : BitVec 32) (alloc : Bool)
  | slowtmr (ticks : BitVec 32) (e : TickEnv)

/-- The event for the connection. -/
def RecvEvent.toConn : RecvEvent → ConnEvent
  | .input ticks m accepts writes takesRefused takesData calls out i =>
    .input ticks m
      { takesRefused, accepts, onAccept := writes.map WriteCall.call, calls, takesData } out i
  | .fasttmr ticks takesRefused out => .fasttmr ticks takesRefused out
  | .call ticks c => .call ticks c
  | .output ticks alloc => .output ticks alloc
  | .slowtmr ticks e => .slowtmr ticks e

/-- The call with the data that were refused before. -/
def offerCalls (pcb : TcpPcb) (takesRefused : Bool) : List RecvCall :=
  match pcb.refused_data with
  | none => []
  | some p => [.data p takesRefused]

/-- The calls of the `recv` callback by `tcp_input`, and the bytes handed up to it. -/
def inputCalls (o : Opts) (ticks : BitVec 32) (m : RxAlloc) (cb : Callbacks) (pcb : TcpPcb)
    (i : In) : Except Abort (List RecvCall × List UInt8) :=
  if decide (pcb.refused_data ≠ none) && !cb.takesRefused then
    .ok (offerCalls pcb cb.takesRefused, [])
  else do
    let pr ← tcpProcess o ticks m cb { pcb with refused_data := none } i
    match pr.pcb with
    | none => .ok (offerCalls pcb cb.takesRefused, pr.recv_data)
    | some _ =>
      if pr.reset || pr.closed then .ok (offerCalls pcb cb.takesRefused, pr.recv_data)
      else .ok (offerCalls pcb cb.takesRefused ++ handUpCalls pr.recv_data cb.takesData pr.got_fin,
        pr.recv_data)

/-- The calls of the `recv` callback at an event. -/
def recvCalls (o : Opts) : Conn → ConnEvent → Except Abort (List RecvCall × List UInt8)
  | .active pcb, .input ticks m cb _ i => inputCalls o ticks m cb pcb i
  | .active pcb, .fasttmr _ takesRefused _ => .ok (offerCalls pcb takesRefused, [])
  | _, _ => .ok ([], [])

/-- One event. -/
def recvStep (o : Opts) (s : RecvLog) (e : RecvEvent) : Except Abort RecvLog := do
  let r ← recvCalls o s.conn e.toConn
  let conn ← connStep o s.conn e.toConn
  .ok { conn, log := s.log ++ r.1, stream := s.stream ++ r.2 }

/-- The order of the events. The data that the callback has taken are the stream up to what is kept.
The end of the data is announced at most once, after all data were taken, and no call follows it. -/
structure EventOrder (s : RecvLog) : Prop where
  in_order : accepted s.log <+: s.stream
  kept : ∀ pcb, s.conn = .active pcb ∨ s.conn = .timeWait pcb →
    accepted s.log ++ pcb.refused_data.getD [] = s.stream
  eof_all : .eof ∈ s.log → accepted s.log = s.stream
  eof_last : .eof ∈ s.log → ∃ l, s.log = l ++ [.eof] ∧ .eof ∉ l

/-- A segment is next in sequence only before the peer's FIN has been received, and the callback
takes the data that complete the stream. -/
def Orderly (s : RecvLog) : RecvEvent → Prop
  | .input _ _ _ _ takesRefused takesData _ _ i =>
    ∀ pcb, s.conn = .active pcb → (pcb.refused_data = none ∨ takesRefused = true) →
      receives pcb i = true → ∀ s', nextInSeq pcb i.seg = some s' →
        finSeen pcb.state = false ∧
          (takesData = false → reachesFin pcb s' = true → bareFin pcb s' = true)
  | _ => True

/-- The invariant of the machine. -/
structure RecvInv (s : RecvLog) (kept : Option (List UInt8)) : Prop where
  log : LogInv s.log s.stream kept
  kept : ∀ pcb, s.conn = .active pcb ∨ s.conn = .timeWait pcb → pcb.refused_data = kept
  eof : ∀ pcb, s.conn = .active pcb → .eof ∈ s.log → finSeen pcb.state = true

/-- A log with the invariant is in order. -/
theorem RecvInv.eventOrder {s : RecvLog} {kept : Option (List UInt8)} (h : RecvInv s kept) :
    EventOrder s where
  in_order := ⟨kept.getD [], h.log.kept_eq⟩
  kept pcb hc := by
    rw [h.kept pcb hc]
    exact h.log.kept_eq
  eof_all he := by
    have heq := h.log.kept_eq
    rw [(h.log.eof he).1] at heq
    simpa using heq
  eof_last he := (h.log.eof he).2

section Step

variable {o : Opts} {ticks : BitVec 32} {m : RxAlloc} {cb : Callbacks} {pcb p : TcpPcb} {i : In}
  {pr : Proc} {ws : List WriteCall} {s s' : RecvLog} {kept : Option (List UInt8)} {ok : Bool}

/-- An offer of refused data is not the end of the data. -/
theorem eof_not_mem_offerCalls : .eof ∉ offerCalls pcb ok := by
  unfold offerCalls
  split <;> simp

/-- What is kept is offered, if anything is. -/
theorem LogInv.offered {log : List RecvCall} {stream : List UInt8}
    (h : LogInv log stream pcb.refused_data) :
    LogInv (log ++ offerCalls pcb ok) stream (if ok then none else pcb.refused_data) := by
  unfold offerCalls
  cases hp : pcb.refused_data with
  | none =>
    rw [hp] at h
    simpa using h
  | some p =>
    rw [hp] at h
    exact h.offer

/-- What `tcp_process` hands up. -/
theorem tcpProcess_handUp (hcb : cb.onAccept = ws.map WriteCall.call)
    (h : tcpProcess o ticks m cb pcb i = .ok pr) :
    pr.recv_data = [] ∧ pr.got_fin = false ∨
      receives pcb i = true ∧ HandUp pcb i.seg pr.recv_data pr.got_fin := by
  cases tcpProcess_cases hcb h with
  | quiet hdata hfin => exact .inl ⟨hdata, hfin⟩
  | received hrec hs hrx hands =>
    refine .inr ⟨hrec, ?_⟩
    rw [hands.data, hands.fin]
    exact (tcpReceive_handUp hrx).congr hs.rcv_nxt.symm hs.rcv_wnd.symm hs.ooseq.symm

/-- `tcp_process` refuses nothing. -/
theorem tcpProcess_refused (hcb : cb.onAccept = ws.map WriteCall.call)
    (href : pcb.refused_data = none) (h : tcpProcess o ticks m cb pcb i = .ok pr)
    (hp : pr.pcb = some p) : p.refused_data = none := by
  cases tcpProcess_cases hcb h with
  | quiet _ _ hsame => exact (hsame p hp).trans href
  | received _ hs hrx hands =>
    have hrx' := (tcpReceive_refused hrx).trans (hs.refused.trans href)
    rcases hands.pcb p hp with hsame | ⟨-, hnone⟩
    · exact hsame.refused.trans hrx'
    · exact hnone hrx'

/-- The end of `tcp_input` for a connection that goes on. -/
theorem tcpInputFinish_recv {conn : Conn} {sent : List Sent} {out : Bool}
    (href : p.refused_data = none) (h : tcpInputFinish o ticks cb out pr p = .ok (conn, sent)) :
    ∀ q, conn = .active q ∨ conn = .timeWait q →
      q.refused_data = (if pr.recv_data ≠ [] ∧ cb.takesData = false then some pr.recv_data
        else none) ∧
      (finSeen p.state = true → finSeen q.state = true) := by
  unfold tcpInputFinish at h
  obtain ⟨⟨r, out₁⟩, happ, h⟩ := bind_eq_ok.mp h
  cases r with
  | none =>
    cases h
    rintro q (hq | hq) <;> cases hq
  | some r =>
    obtain ⟨⟨r', out₂⟩, hout, h⟩ := bind_eq_ok.mp h
    cases h
    have hr : r.refused_data = none := (appCalls_callFrame happ).refused_data.trans href
    have hkeep : r'.refused_data = (if pr.recv_data ≠ [] ∧ cb.takesData = false
        then some pr.recv_data else none) := by
      rw [(tcpOutput_callFrame hout).refused_data, ← hr]
      rfl
    have hseen : finSeen p.state = true → finSeen r'.state = true := by
      intro hf
      have hr : finSeen r.state = true := appCalls_finSeen hf happ
      rw [tcpOutput_state hout]
      exact hr
    rintro q (hq | hq)
    · dsimp only at hq
      split at hq
      · cases hq
      · cases hq
        exact ⟨hkeep, hseen⟩
    · dsimp only at hq
      split at hq
      · cases hq
        exact ⟨hkeep, hseen⟩
      · cases hq

/-- The condition on a segment: of its calls, none comes after the end of the data, and no data are
refused with it. -/
theorem tcpProcess_orderly (hcb : cb.onAccept = ws.map WriteCall.call)
    (h : tcpProcess o ticks m cb { pcb with refused_data := none } i = .ok pr)
    (hD : receives pcb i = true → ∀ s', nextInSeq pcb i.seg = some s' →
      finSeen pcb.state = false ∧
        (cb.takesData = false → reachesFin pcb s' = true → bareFin pcb s' = true)) :
    (finSeen pcb.state = true → pr.recv_data = [] ∧ pr.got_fin = false) ∧
      (cb.takesData = false → pr.got_fin = true → pr.recv_data = []) := by
  rcases tcpProcess_handUp hcb h with ⟨hd, hf⟩ | ⟨hrec, hup⟩
  · exact ⟨fun _ => ⟨hd, hf⟩, fun _ _ => hd⟩
  · have hup : HandUp pcb i.seg pr.recv_data pr.got_fin := hup.congr rfl rfl rfl
    cases hn : nextInSeq pcb i.seg with
    | none => exact ⟨fun _ => hup.none hn, fun _ _ => (hup.none hn).1⟩
    | some s' =>
      obtain ⟨hopen, hbare⟩ := hD hrec s' hn
      constructor
      · intro hf
        rw [hopen] at hf
        cases hf
      · intro ht hf
        exact hup.bare s' hn (hbare ht (hup.fin s' hn hf))

/-- The log of a connection that is gone is kept. -/
theorem RecvInv.gone {log : List RecvCall} {stream : List UInt8} (h : LogInv log stream kept) :
    RecvInv { conn := .gone, log, stream } kept where
  log := h
  kept q hq := by rcases hq with hq | hq <;> cases hq
  eof q hq := by cases hq

/-- A segment that comes in keeps the order. -/
theorem RecvInv.input {r : List RecvCall × List UInt8} {conn : Conn} {sent : List Sent} {out : Bool}
    (h : RecvInv s kept) (hc : s.conn = .active pcb) (hcb : cb.onAccept = ws.map WriteCall.call)
    (hD : pcb.refused_data = none ∨ cb.takesRefused = true → receives pcb i = true →
      ∀ s', nextInSeq pcb i.seg = some s' → finSeen pcb.state = false ∧
        (cb.takesData = false → reachesFin pcb s' = true → bareFin pcb s' = true))
    (hr : inputCalls o ticks m cb pcb i = .ok r)
    (hin : tcpInput o ticks m cb out pcb i = .ok (conn, sent)) :
    ∃ kept', RecvInv { conn, log := s.log ++ r.1, stream := s.stream ++ r.2 } kept' := by
  have hlog : LogInv (s.log ++ offerCalls pcb cb.takesRefused) s.stream
      (if cb.takesRefused then none else pcb.refused_data) :=
    LogInv.offered (h.kept pcb (.inl hc) ▸ h.log)
  have heof : .eof ∈ s.log ++ offerCalls pcb cb.takesRefused → finSeen pcb.state = true := fun he =>
    h.eof pcb hc ((List.mem_append.mp he).resolve_right eof_not_mem_offerCalls)
  unfold tcpInput at hin
  unfold inputCalls at hr
  split at hin
  · next hfull =>
    -- The segment is dropped.
    rw [if_pos hfull] at hr
    cases hr
    cases hin
    simp only [Bool.and_eq_true, Bool.not_eq_true'] at hfull
    rw [hfull.2, if_neg (by simp)] at hlog
    dsimp only
    rw [List.append_nil, hfull.2]
    refine ⟨pcb.refused_data, hlog, fun q hq => ?_, fun q hq he => ?_⟩
    · rcases hq with hq | hq <;> cases hq
      rfl
    · cases hq
      rw [hfull.2] at heof
      exact heof he
  · next htaken =>
    rw [if_neg htaken] at hr
    obtain ⟨pr, hpr, hin⟩ := bind_eq_ok.mp hin
    obtain ⟨pr', hpr', hr⟩ := bind_eq_ok.mp hr
    obtain rfl : pr = pr' := Except.ok.inj (hpr.symm.trans hpr')
    have htakes : pcb.refused_data = none ∨ cb.takesRefused = true := by
      cases ht : cb.takesRefused with
      | true => exact .inr rfl
      | false =>
        rw [ht] at htaken
        exact .inl (by simpa using htaken)
    have hnone : (if cb.takesRefused then none else pcb.refused_data) = none := by
      rcases htakes with ht | ht
      · rw [ht, ite_self]
      · rw [if_pos ht]
    rw [hnone] at hlog
    obtain ⟨hafter, hrefuse⟩ := tcpProcess_orderly hcb hpr (hD htakes)
    have hremoved : pr.pcb = none ∨ pr.reset = true ∨ pr.closed = true → pr.recv_data = [] := by
      intro hrem
      rcases tcpProcess_removed hpr hrem with hd | hst
      · exact hd
      · have hst : pcb.state = .LAST_ACK := hst
        exact (hafter (by rw [hst]; rfl)).1
    split at hin
    · next hp =>
      rw [hp] at hr
      cases hr
      cases hin
      dsimp only
      rw [hremoved (.inl hp), List.append_nil]
      exact ⟨none, .gone hlog⟩
    · next p hp =>
      rw [hp] at hr
      dsimp only at hr
      split at hin
      · next hrem =>
        rw [if_pos hrem] at hr
        obtain ⟨_, -, hin⟩ := bind_eq_ok.mp hin
        cases hin
        cases hr
        rw [Bool.or_eq_true] at hrem
        dsimp only
        rw [hremoved (.inr hrem), List.append_nil]
        exact ⟨none, .gone hlog⟩
      · next hrem =>
        rw [if_neg hrem] at hr
        cases hr
        have hfinish := tcpInputFinish_recv (tcpProcess_refused hcb rfl hpr hp) hin
        have hlog' := hlog.handUp (fun he => hafter (heof he)) hrefuse
        dsimp only
        rw [← List.append_assoc]
        refine ⟨_, hlog', fun q hq => (hfinish q hq).1, fun q hq he => ?_⟩
        refine (hfinish q (.inl hq)).2 (tcpProcess_finSeen hpr hp ?_)
        -- The end was announced before, or now.
        rcases List.mem_append.mp he with he | he
        · exact .inr (heof he)
        · exact .inl (eof_mem_handUpCalls he)

/-- An event that calls nothing keeps the order, if it keeps what is kept. -/
theorem RecvInv.frame {conn : Conn} (h : RecvInv s kept)
    (hk : ∀ q, conn = .active q ∨ conn = .timeWait q → q.refused_data = kept)
    (hf : ∀ q, conn = .active q → ∃ p, s.conn = .active p ∧
      (finSeen p.state = true → finSeen q.state = true)) :
    RecvInv { conn, log := s.log ++ [], stream := s.stream ++ [] } kept := by
  rw [List.append_nil, List.append_nil]
  refine ⟨h.log, hk, fun q hq he => ?_⟩
  obtain ⟨p, hp, hseen⟩ := hf q hq
  exact hseen (h.eof p hp he)

/-- Every event keeps the order. -/
theorem RecvInv.step {e : RecvEvent} (h : RecvInv s kept) (hD : Orderly s e)
    (hs : recvStep o s e = .ok s') : ∃ kept', RecvInv s' kept' := by
  obtain ⟨r, hr, hs⟩ := bind_eq_ok.mp hs
  obtain ⟨conn, hconn, hs⟩ := bind_eq_ok.mp hs
  cases hs
  cases hc : s.conn with
  | gone =>
    rw [hc] at hr hconn
    cases e <;> (cases hr; cases hconn; exact ⟨kept, h.frame (by simp) (by simp)⟩)
  | timeWait pcb =>
    have hkept := h.kept pcb (.inr hc)
    rw [hc] at hr hconn
    cases e with
    | input ticks m accepts writes takesRefused takesData calls out i =>
      obtain ⟨⟨q, sent⟩, hq, hconn⟩ := bind_eq_ok.mp hconn
      cases hr
      cases hconn
      refine ⟨kept, h.frame (fun q' hq' => ?_) (by simp)⟩
      rcases hq' with hq' | hq' <;> cases hq'
      exact (tcpTimewaitInput_refused hq).trans hkept
    | slowtmr ticks e =>
      cases hr
      cases hconn
      refine ⟨kept, h.frame (fun q' hq' => ?_) fun q' hq' => ?_⟩
      · unfold tcpSlowtmrTimeWait at hq'
        split at hq' <;> rcases hq' with hq' | hq' <;> cases hq'
        exact hkept
      · unfold tcpSlowtmrTimeWait at hq'
        split at hq' <;> cases hq'
    | _ =>
      cases hr
      cases hconn
      refine ⟨kept, h.frame (fun q' hq' => ?_) (by simp)⟩
      rcases hq' with hq' | hq' <;> cases hq'
      exact hkept
  | active pcb =>
    have hkept := h.kept pcb (.inl hc)
    -- The events that leave an active pcb with the same refused data.
    have hframe : ∀ q, q.refused_data = pcb.refused_data →
        (finSeen pcb.state = true → finSeen q.state = true) →
        RecvInv { conn := .active q, log := s.log ++ [], stream := s.stream ++ [] } kept := by
      intro q hq hf
      refine h.frame (fun q' hq' => ?_) fun q' hq' => ?_
      · rcases hq' with hq' | hq' <;> cases hq'
        exact hq.trans hkept
      · cases hq'
        exact ⟨pcb, hc, hf⟩
    rw [hc] at hr hconn
    cases e with
    | input ticks m accepts writes takesRefused takesData calls out i =>
      obtain ⟨⟨c, sent⟩, hin, hconn⟩ := bind_eq_ok.mp hconn
      cases hconn
      exact h.input hc rfl (fun ht hrec s' hs' => hD pcb hc ht hrec s' hs') hr hin
    | fasttmr ticks takesRefused out =>
      obtain ⟨⟨q, sent⟩, hq, hconn⟩ := bind_eq_ok.mp hconn
      cases hr
      cases hconn
      obtain ⟨hst, href⟩ := tcpFasttmr_frame hq
      dsimp only
      rw [List.append_nil]
      refine ⟨_, LogInv.offered (hkept ▸ h.log), fun q' hq' => ?_, fun q' hq' he => ?_⟩
      · rcases hq' with hq' | hq' <;> cases hq'
        exact href
      · cases hq'
        rw [hst]
        exact h.eof pcb hc ((List.mem_append.mp he).resolve_right eof_not_mem_offerCalls)
    | call ticks c =>
      obtain ⟨⟨q, sent⟩, hq, hconn⟩ := bind_eq_ok.mp hconn
      cases hr
      cases hconn
      cases q with
      | none => exact ⟨kept, h.frame (by simp) (by simp)⟩
      | some q =>
        have hq' : appCalls o false ticks pcb [c] = .ok (some q, sent ++ []) :=
          bind_eq_ok.mpr ⟨_, hq, rfl⟩
        exact ⟨kept, hframe q (appCall_callFrame hq).refused_data fun hf => appCalls_finSeen hf hq'⟩
    | output ticks alloc =>
      obtain ⟨⟨q, sent⟩, hq, hconn⟩ := bind_eq_ok.mp hconn
      cases hr
      cases hconn
      refine ⟨kept, hframe q (tcpOutput_callFrame hq).refused_data fun hf => ?_⟩
      rw [tcpOutput_state hq]
      exact hf
    | slowtmr ticks e =>
      obtain ⟨⟨c, sent⟩, hq, hconn⟩ := bind_eq_ok.mp hconn
      cases hr
      cases hconn
      rcases tcpSlowtmr_refused hq with hgone | ⟨q, rfl, href⟩
      · dsimp only
        rw [hgone]
        exact ⟨kept, h.frame (by simp) (by simp)⟩
      · exact ⟨kept, hframe q href fun hf => tcpSlowtmr_finSeen hf hq⟩

end Step

/-- In every run in which segments are next in sequence only before the peer's FIN has been
received, and in which the callback takes the data that complete the stream, the events come in
order. -/
theorem events_in_order (o : Opts) (pcb : TcpPcb) (href : pcb.refused_data = none)
    (es : List RecvEvent) (hes : Along (recvStep o) Orderly { conn := .active pcb } es) :
    Always (recvStep o) EventOrder { conn := .active pcb } es := by
  intro es' es'' s hsplit hr
  have hes' : Along (recvStep o) Orderly { conn := .active pcb } es' := by
    rw [hsplit] at hes
    exact hes.left
  have hstart : ∃ kept, RecvInv { conn := .active pcb } kept := by
    refine ⟨none, .start, fun q hq => ?_, fun q _ he => by cases he⟩
    rcases hq with hq | hq <;> cases hq
    exact href
  obtain ⟨kept, hinv⟩ :=
    run_invariant (I := fun s => ∃ kept, RecvInv s kept)
      (fun _ _ _ ⟨_, hi⟩ he hs => hi.step he hs) hstart hes' hr
  exact hinv.eventOrder

/-- A segment of the peer for a connection that was just established. -/
def arrival (seqno : Serial) (p : List UInt8) (fin takesData : Bool) : RecvEvent :=
  .input 1 {} true [] true takesData [] true
    { seg := { seqno, len := p.length, flags := { fin, ack := true }, p }, ackno := 1, wnd := 1000 }

/-- Data that are refused and offered again, and the last data. -/
def orderlyRun : List RecvEvent :=
  [arrival 1 [10] false false, .fasttmr 1 true true, arrival 2 [11] true true]

/-- A run in which data are refused and taken later. -/
theorem events_in_order_orderlyRun :
    Always (recvStep .shipped) EventOrder { conn := .active (.established .shipped 0 0 1000) }
        orderlyRun ∧
      ∃ s, run (recvStep .shipped) { conn := .active (.established .shipped 0 0 1000) }
          orderlyRun = .ok s ∧
        s.log = [.data [10] false, .data [10] true, .data [11] true, .eof] := by
  refine ⟨events_in_order .shipped _ rfl _ ?_, _, rfl, rfl⟩
  refine ⟨fun pcb hc _ _ s' hs' => ?_,
    fun s hs => ⟨trivial, fun t ht => ⟨fun pcb hc _ _ s' hs' => ?_, fun _ _ => trivial⟩⟩⟩
  · cases hc
    have hseg : s' = { seqno := 1, len := 1, flags := { ack := true }, p := [10] } :=
      Option.some.inj (hs'.symm.trans (by decide +kernel))
    rw [hseg]
    exact ⟨rfl, fun _ hr => absurd hr (by decide +kernel)⟩
  · cases hs
    cases ht
    cases hc
    exact ⟨rfl, fun hd => by cases hd⟩

/-- The callback refuses the data of a segment with the FIN, and is told of the end before it is
offered them again; and data behind the FIN are handed up after the end. -/
theorem eof_before_data :
    (∃ s, run (recvStep .shipped) { conn := .active (.established .shipped 0 0 1000) }
        [arrival 1 [10] true false] = .ok s ∧ s.stream = [10] ∧
          s.log = [.data [10] false, .eof] ∧ ¬ EventOrder s) ∧
      ∃ s, run (recvStep .shipped) { conn := .active (.established .shipped 0 0 1000) }
        [arrival 1 [] true true, arrival 2 [11] false true] = .ok s ∧
          s.log = [.eof, .data [11] true] ∧ ¬ EventOrder s := by
  have hlost : ∀ s : RecvLog, s.stream = [10] → s.log = [.data [10] false, .eof] →
      ¬ EventOrder s := by
    intro s hs hl h
    have hall := h.eof_all (by rw [hl]; decide)
    rw [hs, hl] at hall
    exact absurd hall (by decide)
  have hlate : ∀ s : RecvLog, s.log = [.eof, .data [11] true] → ¬ EventOrder s := by
    intro s hl h
    obtain ⟨l, hlast, -⟩ := h.eof_last (by rw [hl]; decide)
    rw [hl] at hlast
    have hlast := congrArg List.getLast? hlast
    rw [List.getLast?_concat] at hlast
    exact absurd hlast (by decide)
  exact ⟨⟨_, rfl, rfl, rfl, hlost _ rfl rfl⟩, ⟨_, rfl, rfl, hlate _ rfl⟩⟩

end Lwip.Tcp
