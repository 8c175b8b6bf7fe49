import Lwip.Tcp.Connection
import Lwip.Tcp.Open
import Lwip.Tcp.Untouched

/-!
# The congestion window

What the functions store into `cwnd` and `ssthresh`, before the conversion to `u16_t`, and where
they divide by `cwnd` (`Op`): `lifeOps` lists this for a step of a connection, from its set-up on,
and the two fields after the step are those of the list (`lifeStep_traced`). A list is `Sound` if no
value wraps, no `ssthresh` of 0 is copied into `cwnd`, and no division is by zero.

All steps are sound but one: the guard of congestion avoidance against an overflow compares the
window before and after, and misses a sum that wraps more than once. With a window of 4 octets or
less this can be (`LifeFits`).
-/

namespace Lwip.Tcp

/-- What is done with the congestion window. -/
inductive Op where
  /-- `cwnd` is set to this value. -/
  | cwnd (v : ℕ)
  /-- `ssthresh` is set to this value. -/
  | ssthresh (v : ℕ)
  /-- `cwnd` is set to `ssthresh`. -/
  | leave
  /-- Something is divided by `cwnd`. -/
  | divide
  deriving DecidableEq, Repr

/-- The two fields. -/
structure Wnds where
  cwnd : ℕ := 0
  ssthresh : ℕ := 0
  deriving DecidableEq, Repr

def TcpPcb.wnds (pcb : TcpPcb) : Wnds := ⟨pcb.cwnd, pcb.ssthresh⟩

namespace Op

/-- The fields are `u16_t`. -/
def apply (w : Wnds) : Op → Wnds
  | cwnd v => { w with cwnd := u16 v }
  | ssthresh v => { w with ssthresh := u16 v }
  | leave => { w with cwnd := w.ssthresh }
  | divide => w

def Sound (w : Wnds) : Op → Prop
  | cwnd v => v < 2^16
  | ssthresh v => v < 2^16
  | leave => 1 ≤ w.ssthresh
  | divide => 1 ≤ w.cwnd

instance (w : Wnds) : (op : Op) → Decidable (op.Sound w)
  | cwnd v => inferInstanceAs (Decidable (v < 2^16))
  | ssthresh v => inferInstanceAs (Decidable (v < 2^16))
  | leave => inferInstanceAs (Decidable (1 ≤ w.ssthresh))
  | divide => inferInstanceAs (Decidable (1 ≤ w.cwnd))

end Op

/-- The fields after a list of operations. -/
def replay (ops : List Op) (w : Wnds) : Wnds := ops.foldl Op.apply w

/-- Each operation of the list is sound where it is done. -/
def Sound : List Op → Wnds → Prop
  | [], _ => True
  | op :: ops, w => op.Sound w ∧ Sound ops (op.apply w)

instance Sound.decidable : (ops : List Op) → (w : Wnds) → Decidable (Sound ops w)
  | [], _ => .isTrue trivial
  | op :: ops, w =>
    have := Sound.decidable ops (op.apply w)
    inferInstanceAs (Decidable (_ ∧ _))

/-! ## What the functions do -/

/-- `tcp_rexmit_fast`. -/
def rexmitFastOps (pcb : TcpPcb) : List Op :=
  if pcb.unacked ≠ [] ∧ pcb.flags.infr = false then
    let half := if pcb.cwnd > pcb.snd_wnd then pcb.snd_wnd / 2 else pcb.cwnd / 2
    if half < 2 * pcb.mss then
      [.ssthresh half, .ssthresh (2 * pcb.mss), .cwnd (u16 (2 * pcb.mss) + 3 * pcb.mss)]
    else [.ssthresh half, .cwnd (half + 3 * pcb.mss)]
  else []

/-- `cwnd` grows by `n` octets, unless the guard finds that the sum overflows. -/
def guardedOps (pcb : TcpPcb) (n : ℕ) : List Op :=
  if u16 (pcb.cwnd + n) > pcb.cwnd then [.cwnd (pcb.cwnd + n)] else []

/-- A duplicate acknowledgement. -/
def dupAckOps (pcb : TcpPcb) : List Op :=
  if pcb.dupacks > 3 then guardedOps pcb pcb.mss
  else if pcb.dupacks = 3 then rexmitFastOps pcb
  else []

/-- An acknowledgement at or below `lastack`. -/
def oldAckOps (rightWndEdge : Serial) (pcb : TcpPcb) (i : In) : List Op :=
  if i.tcplen = 0 ∧ pcb.snd_wl2.adv pcb.snd_wnd = rightWndEdge ∧ pcb.rtime ≥ 0 ∧
      pcb.lastack = i.ackno then
    dupAckOps { pcb with dupacks := (pcb.dupacks + 1) % 2^8 }
  else []

/-- Slow start, or congestion avoidance. -/
def growOps (pcb : TcpPcb) : List Op :=
  if pcb.state.geEstablished then
    if pcb.cwnd < pcb.ssthresh then guardedOps pcb pcb.mss
    else .divide :: guardedOps pcb (pcb.mss * pcb.mss / pcb.cwnd)
  else []

/-- The window at which new data are acknowledged: fast recovery is left first. -/
def cwndAtAck (pcb : TcpPcb) : ℕ := if pcb.flags.infr then pcb.ssthresh else pcb.cwnd

/-- An acknowledgement of new data. -/
def newAckOps (pcb : TcpPcb) : List Op :=
  (if pcb.flags.infr then [.leave] else []) ++ growOps { pcb with cwnd := cwndAtAck pcb }

/-- The three cases of the acknowledgement number. -/
def acknoOps (rightWndEdge : Serial) (pcb : TcpPcb) (i : In) : List Op :=
  if Serial.leq i.ackno pcb.lastack then oldAckOps rightWndEdge pcb i
  else if Serial.between i.ackno (pcb.lastack.adv 1) pcb.snd_nxt then newAckOps pcb
  else []

/-- `tcp_receive`. -/
def receiveOps (pcb : TcpPcb) (i : In) : List Op :=
  if i.seg.flags.ack then acknoOps (pcb.snd_wl2.adv pcb.snd_wnd) (updateSndWnd pcb i) i else []

/-- The first window of a connection, as `SYN_SENT` and `SYN_RCVD` leave it. -/
def firstCwnd (cwnd mss : ℕ) : ℕ := if cwnd = 1 then mss * 2 else mss

/-- The state `SYN_SENT`. -/
def synSentOps (m : RxAlloc) (pcb : TcpPcb) (i : In) : List Op :=
  match pcb.unacked with
  | [] => []
  | rseg :: _ =>
    if i.seg.flags.ack && i.seg.flags.syn && decide (i.ackno = rseg.seqno.adv 1) then
      let mss := tcpEffSendMss m.mtu pcb.mss
      [.ssthresh (mss * 10), .cwnd (firstCwnd pcb.cwnd mss)]
    else []

/-- The state `SYN_RCVD`. -/
def synRcvdOps (o : Opts) (ticks : BitVec 32) (cb : Callbacks) (pcb : TcpPcb) (i : In) : List Op :=
  if i.seg.flags.ack = true ∧ Serial.between i.ackno (pcb.lastack.adv 1) pcb.snd_nxt then
    match appCalls o true ticks { pcb with state := .ESTABLISHED } cb.onAccept with
    | .ok (some q, _) =>
      if !cb.accepts then [] else receiveOps q i ++ [.cwnd (firstCwnd q.cwnd q.mss)]
    | _ => []
  else []

/-- `tcp_process`. -/
def processOps (o : Opts) (ticks : BitVec 32) (m : RxAlloc) (cb : Callbacks) (pcb : TcpPcb)
    (i : In) : List Op :=
  if i.seg.flags.rst then []
  else if i.seg.flags.syn && decide (pcb.state ≠ .SYN_SENT) &&
      decide (pcb.state ≠ .SYN_RCVD) then []
  else
    match pcb.state with
    | .SYN_SENT => synSentOps m (processNote o ticks pcb i) i
    | .SYN_RCVD => synRcvdOps o ticks cb (processNote o ticks pcb i) i
    | .CLOSED | .LISTEN | .TIME_WAIT => []
    | _ => receiveOps (processNote o ticks pcb i) i

/-- The retransmission timer of `tcp_slowtmr`. -/
def slowtmrOps (o : Opts) (pcb : TcpPcb) : List Op :=
  if slowtmrMaxed o pcb = false ∧ rtoExpires pcb = true then
    let half := min pcb.cwnd pcb.snd_wnd / 2
    if half < pcb.mss then [.ssthresh half, .ssthresh (pcb.mss * 2), .cwnd pcb.mss]
    else [.ssthresh half, .cwnd pcb.mss]
  else []

/-- A step of a connection. -/
def connOps (o : Opts) : Conn → ConnEvent → List Op
  | .active pcb, .slowtmr _ _ => slowtmrOps o pcb
  | .active pcb, .input ticks m cb _ i =>
    if decide (pcb.refused_data ≠ none) && !cb.takesRefused then []
    else processOps o ticks m cb { pcb with refused_data := none } i
  | _, _ => []

/-! ## The life of a connection -/

/-- A connection is set up, passively or actively, over an interface with this `mtu`, or goes on. -/
inductive LifeEvent where
  | tcp_listen_input (mtu : BitVec 16) (e : ListenEnv) (i : In)
  | tcp_connect (mtu : BitVec 16) (e : ConnectEnv)
  | on (ev : ConnEvent)

/-- One event. `tcp_connect` is called with a pcb that `tcp_alloc` returned. -/
def lifeStep (o : Opts) : Option Conn → LifeEvent → Except Abort (Option Conn)
  | none, .tcp_listen_input mtu e i => do
    let r ← tcpListenInput o { e with effSendMss := tcpEffSendMss mtu } i
    .ok (r.1.map .active)
  | none, .tcp_connect mtu e => do
    let r ← tcpConnect o { e with effSendMss := tcpEffSendMss mtu } (tcpAlloc o e.ticks e.iss)
    .ok (r.map (.active ·.2.1))
  | some c, .on ev => do
    let c' ← connStep o c ev
    .ok (some c')
  | c, _ => .ok c

/-- What an event does with the congestion window. -/
def lifeOps (o : Opts) : Option Conn → LifeEvent → List Op
  | none, .tcp_listen_input _ _ i =>
    if !i.seg.flags.ack && i.seg.flags.syn then [.cwnd 1, .ssthresh i.wnd.toNat] else []
  | none, .tcp_connect mtu _ =>
    [.cwnd 1, .cwnd 1, .ssthresh (u16 (tcpEffSendMss mtu (min o.TCP_MSS 536)) * 10)]
  | some c, .on ev => connOps o c ev
  | _, _ => []

/-- The pcb of a connection, unless it was freed. -/
def Conn.pcb? : Conn → Option TcpPcb
  | .active pcb | .timeWait pcb => some pcb
  | .gone => none

/-- The two fields of a connection; they are zero in a new pcb. -/
def lifeWnds (c : Option Conn) : Wnds := ((c.bind Conn.pcb?).map TcpPcb.wnds).getD {}

/-! ## One function after the other -/

/-- Operations are done one after the other. -/
theorem replay_append (ops ops' : List Op) (w : Wnds) :
    replay (ops ++ ops') w = replay ops' (replay ops w) := List.foldl_append

/-- A sequence is sound if its parts are. -/
theorem sound_append {ops ops' : List Op} {w : Wnds} :
    Sound (ops ++ ops') w ↔ Sound ops w ∧ Sound ops' (replay ops w) := by
  induction ops generalizing w with
  | nil => exact (and_iff_right trivial).symm
  | cons op ops ih =>
    change op.Sound w ∧ Sound (ops ++ ops') (op.apply w) ↔ _
    rw [ih, ← and_assoc]
    rfl

/-- What holds of the congestion window between two events. -/
structure Fine (pcb : TcpPcb) : Prop where
  mss_pos : 1 ≤ pcb.mss
  mss_le : pcb.mss ≤ 536
  cwnd_pos : 1 ≤ pcb.cwnd
  cwnd_lt : pcb.cwnd < 2^16
  ssthresh_lt : pcb.ssthresh < 2^16
  snd_wnd_lt : pcb.snd_wnd < 2^16
  infr : pcb.flags.infr = true → 1 ≤ pcb.ssthresh

/-- The congestion window is left alone. -/
structure WndFrame (a b : TcpPcb) : Prop where
  cwnd : b.cwnd = a.cwnd
  ssthresh : b.ssthresh = a.ssthresh
  mss : b.mss = a.mss
  infr : b.flags.infr = a.flags.infr
  snd_wnd : a.snd_wnd < 2^16 → b.snd_wnd < 2^16

/-- Nothing changes the windows where nothing happens. -/
theorem WndFrame.refl (a : TcpPcb) : WndFrame a a := ⟨rfl, rfl, rfl, rfl, id⟩

/-- The windows are those of before. -/
theorem WndFrame.wnds {a b : TcpPcb} (h : WndFrame a b) : b.wnds = a.wnds := by
  unfold TcpPcb.wnds
  rw [h.cwnd, h.ssthresh]

/-- The fields that the arithmetic relies on stay fine. -/
theorem WndFrame.fine {a b : TcpPcb} (h : WndFrame a b) (ha : Fine a) : Fine b where
  mss_pos := h.mss ▸ ha.mss_pos
  mss_le := h.mss ▸ ha.mss_le
  cwnd_pos := h.cwnd ▸ ha.cwnd_pos
  cwnd_lt := h.cwnd ▸ ha.cwnd_lt
  ssthresh_lt := h.ssthresh ▸ ha.ssthresh_lt
  snd_wnd_lt := h.snd_wnd ha.snd_wnd_lt
  infr hb := by
    rw [h.ssthresh]
    exact ha.infr (h.infr ▸ hb)

/-- A frame of a call is one of the windows. -/
theorem CallFrame.wndFrame {a b : TcpPcb} (h : CallFrame a b) : WndFrame a b :=
  ⟨h.cwnd, h.ssthresh, h.mss, h.infr, fun hlt => h.snd_wnd ▸ hlt⟩

/-- A frame of the data half is one of the windows. -/
theorem DataFrame.wndFrame {a b : TcpPcb} (h : DataFrame a b) : WndFrame a b :=
  ⟨h.cwnd, h.ssthresh, h.mss, h.infr, fun hlt => h.snd_wnd ▸ hlt⟩

/-- From a pcb that is fine, the step from `a` to `b` does `ops`, and leaves a pcb that is fine. -/
def Traced (a b : TcpPcb) (ops : List Op) : Prop := Fine a → b.wnds = replay ops a.wnds ∧ Fine b

section Traced

variable {a b c : TcpPcb} {ops ops' : List Op}

/-- A step that leaves the windows alone does no operation. -/
theorem WndFrame.traced (h : WndFrame a b) : Traced a b [] := fun ha => ⟨h.wnds, h.fine ha⟩

/-- The operations of two steps follow each other. -/
theorem Traced.trans (h : Traced a b ops) (h' : Traced b c ops') : Traced a c (ops ++ ops') := by
  intro ha
  obtain ⟨hw, hb⟩ := h ha
  obtain ⟨hw', hc⟩ := h' hb
  exact ⟨by rw [hw', hw, replay_append], hc⟩

/-- A frame behind a step adds no operation. -/
theorem Traced.frame (h : Traced a b ops) (h' : WndFrame b c) : Traced a c ops := by
  have := h.trans h'.traced
  rwa [List.append_nil] at this

/-- A frame before a step adds no operation. -/
theorem WndFrame.trans_traced (h : WndFrame a b) (h' : Traced b c ops) : Traced a c ops :=
  h.traced.trans h'

end Traced

section Functions

variable {o : Opts} {ticks : BitVec 32} {m : RxAlloc} {cb : Callbacks} {pcb pcb' : TcpPcb} {i : In}

/-- The guard of an addition. -/
theorem guarded_sound {cwnd n : ℕ} (hc : cwnd < 2^16) (hn : n < 2^16 ∨ u16 (cwnd + n) ≤ cwnd)
    (hgrow : u16 (cwnd + n) > cwnd) : cwnd + n < 2^16 := by
  unfold u16 at hn hgrow
  omega

/-- A window that grows under its guard. -/
def grown (cwnd n : ℕ) : ℕ := if u16 (cwnd + n) > cwnd then u16 (cwnd + n) else cwnd

/-- The guarded growth is one operation. -/
theorem guardedOps_traced (pcb : TcpPcb) (n : ℕ) :
    Traced pcb { pcb with cwnd := grown pcb.cwnd n } (guardedOps pcb n) := by
  intro ha
  have hpos := ha.cwnd_pos
  have hlt := ha.cwnd_lt
  refine ⟨?_, ha.mss_pos, ha.mss_le, ?_, ?_, ha.ssthresh_lt, ha.snd_wnd_lt, ha.infr⟩
  · unfold guardedOps grown
    split <;> rfl
  · show 1 ≤ grown pcb.cwnd n
    unfold grown
    split <;> omega
  · show grown pcb.cwnd n < 2^16
    unfold grown u16
    split <;> omega

/-- The guarded growth is sound, if its summand fits or the guard notices the wrap. -/
theorem guardedOps_sound {n : ℕ} {w : Wnds} (ha : Fine pcb)
    (hn : n < 2^16 ∨ u16 (pcb.cwnd + n) ≤ pcb.cwnd) : Sound (guardedOps pcb n) w := by
  unfold guardedOps
  split
  · next hgrow => exact ⟨guarded_sound ha.cwnd_lt hn hgrow, trivial⟩
  · trivial

/-- Half of a window, and five segments. -/
theorem Fine.half_lt (ha : Fine pcb) :
    (if pcb.cwnd > pcb.snd_wnd then pcb.snd_wnd / 2 else pcb.cwnd / 2) < 2^15 := by
  have := ha.cwnd_lt
  have := ha.snd_wnd_lt
  split <;> omega

/-- A fast retransmission is sound. -/
theorem rexmitFastOps_sound {w : Wnds} (ha : Fine pcb) : Sound (rexmitFastOps pcb) w := by
  have hhalf := ha.half_lt
  have hle := ha.mss_le
  unfold rexmitFastOps
  split
  · dsimp only
    generalize (if pcb.cwnd > pcb.snd_wnd then pcb.snd_wnd / 2 else pcb.cwnd / 2) = half at hhalf
    split
    · refine ⟨?_, ?_, ?_, trivial⟩
      · show half < 2^16
        omega
      · show 2 * pcb.mss < 2^16
        omega
      · show u16 (2 * pcb.mss) + 3 * pcb.mss < 2^16
        rw [u16_eq (by omega)]
        omega
    · refine ⟨?_, ?_, trivial⟩
      · show half < 2^16
        omega
      · show half + 3 * pcb.mss < 2^16
        omega
  · trivial

/-- Fast retransmit leaves both fields positive. -/
theorem tcpRexmitFast_traced (pcb : TcpPcb) :
    Traced pcb (tcpRexmitFast pcb) (rexmitFastOps pcb) := by
  intro ha
  have hframe : (tcpRexmit pcb).cwnd = pcb.cwnd ∧ (tcpRexmit pcb).mss = pcb.mss ∧
      (tcpRexmit pcb).snd_wnd = pcb.snd_wnd := by
    unfold tcpRexmit
    split <;> exact ⟨rfl, rfl, rfl⟩
  obtain ⟨hcwnd, hmss, hwnd⟩ := hframe
  have hhalf := ha.half_lt
  have hle := ha.mss_le
  have hpos := ha.mss_pos
  unfold tcpRexmitFast rexmitFastOps
  split
  · dsimp only
    rw [hcwnd, hmss, hwnd]
    generalize (if pcb.cwnd > pcb.snd_wnd then pcb.snd_wnd / 2 else pcb.cwnd / 2) = half at hhalf
    by_cases hsmall : half < 2 * pcb.mss
    · simp only [hsmall, if_true]
      have htwo : u16 (2 * pcb.mss) = 2 * pcb.mss := u16_eq (by omega)
      have hsum : u16 (2 * pcb.mss + 3 * pcb.mss) = 2 * pcb.mss + 3 * pcb.mss :=
        u16_eq (by omega)
      refine ⟨?_, hmss ▸ hpos, hmss ▸ hle, ?_, ?_, ?_, hwnd ▸ ha.snd_wnd_lt, fun _ => ?_⟩
      · simp only [TcpPcb.wnds, replay, List.foldl_cons, List.foldl_nil, Op.apply]
      · show 1 ≤ u16 (u16 (2 * pcb.mss) + 3 * pcb.mss)
        rw [htwo, hsum]
        omega
      · exact Nat.mod_lt _ (by decide)
      · exact Nat.mod_lt _ (by decide)
      · show 1 ≤ u16 (2 * pcb.mss)
        rw [htwo]
        omega
    · simp only [hsmall, if_false]
      have hself : u16 half = half := u16_eq (by omega)
      have hsum : u16 (half + 3 * pcb.mss) = half + 3 * pcb.mss := u16_eq (by omega)
      refine ⟨?_, hmss ▸ hpos, hmss ▸ hle, ?_, ?_, ?_, hwnd ▸ ha.snd_wnd_lt, fun _ => ?_⟩
      · simp only [TcpPcb.wnds, replay, List.foldl_cons, List.foldl_nil, Op.apply, hself]
      · show 1 ≤ u16 (half + 3 * pcb.mss)
        rw [hsum]
        omega
      · exact Nat.mod_lt _ (by decide)
      · show half < 2^16
        omega
      · show 1 ≤ half
        omega
  · exact (WndFrame.refl pcb).traced ha

/-- A sum of one segment size does not wrap past its guard. -/
theorem mss_guard (ha : Fine pcb) : pcb.mss < 2^16 ∨ u16 (pcb.cwnd + pcb.mss) ≤ pcb.cwnd := by
  have := ha.mss_le
  exact .inl (by omega)

/-- A duplicate ACK is sound. -/
theorem dupAckOps_sound {w : Wnds} (ha : Fine pcb) : Sound (dupAckOps pcb) w := by
  unfold dupAckOps
  split
  · exact guardedOps_sound ha (mss_guard ha)
  split
  · exact rexmitFastOps_sound ha
  · trivial

/-- What a duplicate ACK does to the windows. -/
theorem tcpReceiveDupAck_traced (pcb : TcpPcb) :
    Traced pcb (tcpReceiveDupAck pcb) (dupAckOps pcb) := by
  unfold tcpReceiveDupAck dupAckOps
  split
  · exact guardedOps_traced pcb pcb.mss
  split
  · exact tcpRexmitFast_traced pcb
  · exact (WndFrame.refl pcb).traced

/-- An ACK of nothing new is sound. -/
theorem oldAckOps_sound {edge : Serial} {w : Wnds} (ha : Fine pcb) :
    Sound (oldAckOps edge pcb i) w := by
  unfold oldAckOps
  split
  · have hframe : WndFrame pcb { pcb with dupacks := (pcb.dupacks + 1) % 2^8 } :=
      ⟨rfl, rfl, rfl, rfl, id⟩
    exact dupAckOps_sound (hframe.fine ha)
  · trivial

/-- What an ACK of nothing new does to the windows. -/
theorem tcpReceiveOldAck_traced (edge : Serial) (pcb : TcpPcb) (i : In) :
    Traced pcb (tcpReceiveOldAck edge pcb i) (oldAckOps edge pcb i) := by
  unfold tcpReceiveOldAck oldAckOps
  split
  · have hsame : dupAckOps { pcb with dupacks := (pcb.dupacks + 1) % 2^8 } =
        dupAckOps { pcb with acked := 0, dupacks := (pcb.dupacks + 1) % 2^8 } := rfl
    rw [hsame]
    have hstart : WndFrame pcb { pcb with acked := 0, dupacks := (pcb.dupacks + 1) % 2^8 } :=
      ⟨rfl, rfl, rfl, rfl, id⟩
    exact hstart.trans_traced (tcpReceiveDupAck_traced _)
  · exact WndFrame.traced ⟨rfl, rfl, rfl, rfl, id⟩

/-- The quotient by which congestion avoidance grows the window is a 16-bit value, or the guard
finds that the sum overflows. -/
def quotientFits (mss cwnd : ℕ) : Prop :=
  mss * mss / cwnd < 2^16 ∨ u16 (cwnd + mss * mss / cwnd) ≤ cwnd

instance (mss cwnd : ℕ) : Decidable (quotientFits mss cwnd) := inferInstanceAs (Decidable (_ ∨ _))

/-- The growth by an ACK is sound, if its quotient fits. -/
theorem growOps_sound (ha : Fine pcb)
    (hfits : pcb.state.geEstablished = true → pcb.ssthresh ≤ pcb.cwnd →
    quotientFits pcb.mss pcb.cwnd) : Sound (growOps pcb) pcb.wnds := by
  unfold growOps
  split
  · next hst =>
    split
    · exact guardedOps_sound ha (mss_guard ha)
    · next hge => exact ⟨ha.cwnd_pos, guardedOps_sound ha (hfits hst (Nat.not_lt.mp hge))⟩
  · trivial

/-- Slow start and congestion avoidance. -/
theorem growCwnd_traced {cwnd : ℕ} (h : growCwnd pcb = .ok cwnd) :
    Traced pcb { pcb with cwnd } (growOps pcb) := by
  unfold growCwnd at h
  unfold growOps
  split at h
  · next hst =>
    rw [if_pos hst]
    split at h
    · next hlt =>
      cases h
      rw [if_pos hlt]
      exact guardedOps_traced pcb pcb.mss
    · next hge =>
      rw [if_neg hge]
      split at h
      · cases h
      · cases h
        exact guardedOps_traced pcb (pcb.mss * pcb.mss / pcb.cwnd)
  · next hst =>
    cases h
    rw [if_neg hst]
    exact (WndFrame.refl pcb).traced

/-- Fast recovery is left. -/
theorem Fine.leave (ha : Fine pcb) :
    Fine { pcb with cwnd := cwndAtAck pcb, flags := { pcb.flags with infr := false } } := by
  have hcwnd : 1 ≤ cwndAtAck pcb ∧ cwndAtAck pcb < 2^16 := by
    unfold cwndAtAck
    split
    · next hinfr => exact ⟨ha.infr hinfr, ha.ssthresh_lt⟩
    · exact ⟨ha.cwnd_pos, ha.cwnd_lt⟩
  exact ⟨ha.mss_pos, ha.mss_le, hcwnd.1, hcwnd.2, ha.ssthresh_lt,
    ha.snd_wnd_lt, fun hi => by cases hi⟩

/-- The fields after fast recovery has been left. -/
theorem replay_leave (pcb : TcpPcb) :
    replay (if pcb.flags.infr then [.leave] else []) pcb.wnds = ⟨cwndAtAck pcb, pcb.ssthresh⟩ := by
  unfold cwndAtAck
  split <;> rfl

/-- An ACK of new data is sound, if the quotient fits. -/
theorem newAckOps_sound (ha : Fine pcb) (hfits : pcb.state.geEstablished = true →
    pcb.ssthresh ≤ cwndAtAck pcb → quotientFits pcb.mss (cwndAtAck pcb)) :
    Sound (newAckOps pcb) pcb.wnds := by
  unfold newAckOps
  apply sound_append.mpr
  rw [replay_leave]
  constructor
  · split
    · next hinfr => exact ⟨ha.infr hinfr, trivial⟩
    · trivial
  · have hgrow := growOps_sound ha.leave hfits
    exact hgrow

/-- Congestion avoidance, if the segment takes the pcb there, grows the window as it should. -/
def ReceiveFits (pcb : TcpPcb) (i : In) : Prop :=
  i.seg.flags.ack = true → Serial.between i.ackno (pcb.lastack.adv 1) pcb.snd_nxt →
    pcb.state.geEstablished = true → pcb.ssthresh ≤ cwndAtAck pcb →
      quotientFits pcb.mss (cwndAtAck pcb)

/-- What an ACK of new data does to the windows. -/
theorem tcpReceiveNewAck_traced (h : tcpReceiveNewAck pcb i = .ok pcb') :
    Traced pcb pcb' (newAckOps pcb) := by
  unfold tcpReceiveNewAck at h
  obtain ⟨cwnd, hgrow, h⟩ := bind_eq_ok.mp h
  obtain ⟨⟨queue, queuelen, acked⟩, -, h⟩ := bind_eq_ok.mp h
  cases h
  have hleave : Traced pcb
      { pcb with cwnd := cwndAtAck pcb, flags := { pcb.flags with infr := false } }
      (if pcb.flags.infr then [.leave] else []) := fun ha =>
    ⟨(replay_leave pcb).symm, ha.leave⟩
  have hgrown := growCwnd_traced hgrow
  have hops : growOps { pcb with cwnd := cwndAtAck pcb } =
      growOps { pcb with cwnd := cwndAtAck pcb, flags := { pcb.flags with infr := false } } := rfl
  unfold newAckOps
  rw [hops]
  refine hleave.trans (c := _) ?_
  have hafter : WndFrame
      { pcb with cwnd := cwndAtAck pcb, flags := { pcb.flags with infr := false } }
      { pcb with
        cwnd := if pcb.flags.infr then pcb.ssthresh else pcb.cwnd
        flags := { pcb.flags with infr := false }
        nrtx := 0
        rto := s16 (pcb.sa >>> (3 : ℕ) + pcb.sv)
        snd_buf := u16 (pcb.snd_buf + u16 (Serial.dist pcb.lastack i.ackno))
        dupacks := 0
        lastack := i.ackno } := ⟨rfl, rfl, rfl, rfl, id⟩
  exact (hafter.trans_traced hgrown).frame ⟨rfl, rfl, rfl, rfl, id⟩

/-- The peer's window is not the congestion window. -/
theorem updateSndWnd_wndFrame (pcb : TcpPcb) (i : In) : WndFrame pcb (updateSndWnd pcb i) := by
  unfold updateSndWnd
  split
  · exact ⟨rfl, rfl, rfl, rfl, fun _ => i.wnd.isLt⟩
  · exact .refl pcb

/-- An ACK is sound, if its quotient fits. -/
theorem receiveOps_sound (ha : Fine pcb) (hfits : ReceiveFits pcb i) :
    Sound (receiveOps pcb i) pcb.wnds := by
  have hupd := updateSndWnd_wndFrame pcb i
  have hnums : (updateSndWnd pcb i).lastack = pcb.lastack ∧
      (updateSndWnd pcb i).snd_nxt = pcb.snd_nxt ∧ (updateSndWnd pcb i).state = pcb.state := by
    unfold updateSndWnd
    split <;> exact ⟨rfl, rfl, rfl⟩
  unfold receiveOps
  split
  · next hflags =>
    unfold acknoOps
    split
    · exact oldAckOps_sound (hupd.fine ha)
    split
    · next hnew =>
      rw [← hupd.wnds]
      apply newAckOps_sound (hupd.fine ha)
      have hcwnd : cwndAtAck (updateSndWnd pcb i) = cwndAtAck pcb := by
        unfold cwndAtAck
        rw [hupd.infr, hupd.ssthresh, hupd.cwnd]
      rw [hnums.1, hnums.2.1] at hnew
      rw [hnums.2.2, hupd.ssthresh, hupd.mss, hcwnd]
      exact hfits hflags hnew
    · trivial
  · trivial

/-- What an ACK does to the windows. -/
theorem tcpReceiveAck_traced (hflags : i.seg.flags.ack = true)
    (h : tcpReceiveAck ticks pcb i = .ok pcb') : Traced pcb pcb' (receiveOps pcb i) := by
  unfold tcpReceiveAck at h
  obtain ⟨p, hp, h⟩ := bind_eq_ok.mp h
  obtain ⟨q, hq, h⟩ := bind_eq_ok.mp h
  cases h
  unfold receiveOps
  rw [if_pos hflags]
  have hunsent : WndFrame p q := by
    unfold tcpReceiveUnsent at hq
    obtain ⟨⟨queue, queuelen, acked⟩, -, hq⟩ := bind_eq_ok.mp hq
    cases hq
    exact ⟨rfl, rfl, rfl, rfl, id⟩
  have hrtt : WndFrame q (estimateRtt ticks q i) := by
    unfold estimateRtt
    split <;> exact ⟨rfl, rfl, rfl, rfl, id⟩
  refine (updateSndWnd_wndFrame pcb i).trans_traced (Traced.frame (Traced.frame ?_ hunsent) hrtt)
  unfold tcpReceiveAckno at hp
  unfold acknoOps
  split at hp
  · next hold =>
    cases hp
    rw [if_pos hold]
    exact tcpReceiveOldAck_traced _ _ i
  · next hold =>
    rw [if_neg hold]
    split at hp
    · next hnew =>
      rw [if_pos hnew]
      exact tcpReceiveNewAck_traced hp
    · next hnew =>
      cases hp
      rw [if_neg hnew]
      exact WndFrame.traced ⟨rfl, rfl, rfl, rfl, id⟩

/-- What `tcp_receive` does to the windows. -/
theorem tcpReceive_traced {rx : Rx} (h : tcpReceive o ticks m pcb i = .ok rx) :
    Traced pcb rx.pcb (receiveOps pcb i) := by
  obtain ⟨p, ⟨hflags, hp⟩ | ⟨hflags, rfl⟩, hdata⟩ := tcpReceive_eq_ok h
  · exact (tcpReceiveAck_traced hflags hp).frame (tcpReceiveData_dataFrame hdata).wndFrame
  · have hops : receiveOps p i = [] := by
      unfold receiveOps
      rw [hflags]
      rfl
    rw [hops]
    exact (tcpReceiveData_dataFrame hdata).wndFrame.traced

/-- `tcp_receive` leaves the MSS alone. -/
theorem tcpReceive_mss {rx : Rx} (h : tcpReceive o ticks m pcb i = .ok rx) :
    rx.pcb.mss = pcb.mss := by
  obtain ⟨p, ⟨-, hp⟩ | ⟨-, rfl⟩, hdata⟩ := tcpReceive_eq_ok h
  · exact (tcpReceiveData_dataFrame hdata).mss.trans (tcpReceiveAck_sameRcv hp).mss
  · exact (tcpReceiveData_dataFrame hdata).mss

/-- A purge leaves the windows alone. -/
theorem tcpPcbPurge_wndFrame (pcb : TcpPcb) : WndFrame pcb (tcpPcbPurge pcb) := by
  unfold tcpPcbPurge
  split <;> exact ⟨rfl, rfl, rfl, rfl, id⟩

/-- The states after `tcp_receive` leave the window. -/
theorem processReceived_wndFrame {rx : Rx} {st : TcpState}
    (hp : (processReceived rx i st).pcb = some pcb') : WndFrame rx.pcb pcb' := by
  refine processReceived_rule (P := fun p => WndFrame rx.pcb p) hp (.refl _)
    (fun _ => ⟨rfl, rfl, rfl, rfl, id⟩) ⟨rfl, rfl, rfl, rfl, id⟩ fun q hq => ?_
  have h := tcpPcbPurge_wndFrame q
  rcases hq with rfl | rfl
  · exact ⟨h.cwnd, h.ssthresh, h.mss, h.infr, h.snd_wnd⟩
  · exact ⟨h.cwnd, h.ssthresh, h.mss, h.infr, h.snd_wnd⟩

/-- The MSS option is at least 1, and at most `TCP_MSS`. -/
theorem tcpParseopt_bounds (ho : 1 ≤ o.TCP_MSS) (fuel : ℕ) (opts : List UInt8) (mss : ℕ)
    (h : 1 ≤ mss ∧ mss ≤ o.TCP_MSS) :
    1 ≤ tcpParseopt o fuel opts mss ∧ tcpParseopt o fuel opts mss ≤ o.TCP_MSS := by
  induction fuel generalizing opts mss with
  | zero => exact h
  | succ fuel ih =>
    cases opts with
    | nil => exact h
    | cons opt rest =>
      unfold tcpParseopt
      split
      · exact h
      · split
        · exact ih rest mss h
        · split
          · split
            · next len hi lo rest =>
              split
              · exact h
              · -- The MSS option.
                apply ih rest
                split <;> omega
            · exact h
          · split
            · exact h
            · split
              · exact h
              · exact ih _ mss h

/-- What `tcp_process` notes at first keeps the fields fine. -/
theorem Fine.noted (ho : o.TCP_MSS = 536) (h : Fine pcb) : Fine (processNote o ticks pcb i) := by
  obtain ⟨hpos, hle⟩ := tcpParseopt_bounds (o := o) (by omega) i.opts.length i.opts pcb.mss
    ⟨h.mss_pos, by rw [ho]; exact h.mss_le⟩
  exact ⟨hpos, ho ▸ hle, h.cwnd_pos, h.cwnd_lt, h.ssthresh_lt, h.snd_wnd_lt, h.infr⟩

/-- What follows the note of a segment. -/
theorem Traced.note {ops : List Op} (ho : o.TCP_MSS = 536)
    (h : Traced (processNote o ticks pcb i) pcb' ops) : Traced pcb pcb' ops :=
  fun ha => h (ha.noted ho)

/-- An interface whose `mtu` is not the length of the headers leaves room for data. -/
theorem tcpEffSendMss_pos {mtu : BitVec 16} {n : ℕ} (hmtu : mtu ≠ 40) (hmss : 1 ≤ n) :
    1 ≤ tcpEffSendMss mtu n := by
  unfold tcpEffSendMss
  split
  · have hne : mtu.toNat ≠ 40 := fun heq => hmtu (BitVec.eq_of_toNat_eq heq)
    have hlt := mtu.isLt
    refine le_min hmss ?_
    unfold u16sub
    omega
  · exact hmss

/-- `tcp_process` hands the segment to `tcp_receive`, and it acknowledges new data. -/
def acksNew (pcb : TcpPcb) (cb : Callbacks) (i : In) : Bool :=
  !i.seg.flags.rst && i.seg.flags.ack &&
    decide (Serial.between i.ackno (pcb.lastack.adv 1) pcb.snd_nxt) &&
    (decide (pcb.state = .SYN_RCVD) && cb.accepts || pcb.state.geEstablished && !i.seg.flags.syn)

/-- Congestion avoidance, if the segment takes the pcb there, grows the window as it should. -/
def AckFits (o : Opts) (cb : Callbacks) (pcb : TcpPcb) (i : In) : Prop :=
  acksNew pcb cb i = true → pcb.ssthresh ≤ cwndAtAck pcb →
    quotientFits (tcpParseopt o i.opts.length i.opts pcb.mss) (cwndAtAck pcb)

instance (o : Opts) (cb : Callbacks) (pcb : TcpPcb) (i : In) : Decidable (AckFits o cb pcb i) :=
  inferInstanceAs (Decidable (_ → _ → _))

/-- The interface leaves room for data when the SYN is acknowledged. -/
def MtuFits (m : RxAlloc) (pcb : TcpPcb) (i : In) : Prop :=
  pcb.state = .SYN_SENT → (i.seg.flags.ack && i.seg.flags.syn && !i.seg.flags.rst) = true →
    pcb.unacked.head?.map (·.seqno.adv 1) = some i.ackno → m.mtu ≠ 40

instance (m : RxAlloc) (pcb : TcpPcb) (i : In) : Decidable (MtuFits m pcb i) :=
  inferInstanceAs (Decidable (_ → _ → _ → _))

/-- The first window is positive and fits 16 bits. -/
theorem firstCwnd_bounds (cwnd : ℕ) {mss : ℕ} (hpos : 1 ≤ mss) (hle : mss ≤ 536) :
    u16 (firstCwnd cwnd mss) = (if cwnd = 1 then u16 (mss * 2) else mss) ∧ 1 ≤ firstCwnd cwnd mss ∧
      firstCwnd cwnd mss < 2^16 := by
  unfold firstCwnd u16
  split <;> omega

/-- The SYN|ACK of the peer is sound. -/
theorem synSentOps_sound {w : Wnds} (ha : Fine pcb) : Sound (synSentOps m pcb i) w := by
  have hle := (tcpEffSendMss_le m.mtu pcb.mss).trans ha.mss_le
  unfold synSentOps
  split
  · trivial
  · split
    · refine ⟨?_, ?_, trivial⟩
      · show tcpEffSendMss m.mtu pcb.mss * 10 < 2^16
        omega
      · show firstCwnd pcb.cwnd (tcpEffSendMss m.mtu pcb.mss) < 2^16
        unfold firstCwnd
        split <;> omega
    · trivial

/-- What `SYN_SENT` does to the windows. -/
theorem processSynSent_traced {pr : Proc}
    (hmtu : (i.seg.flags.ack && i.seg.flags.syn) = true →
      pcb.unacked.head?.map (·.seqno.adv 1) = some i.ackno → m.mtu ≠ 40)
    (h : processSynSent m pcb i = .ok pr) (hp : pr.pcb = some pcb') :
    Traced pcb pcb' (synSentOps m pcb i) := by
  unfold processSynSent at h
  split at h
  · next hun =>
    have hops : synSentOps m pcb i = [] := by simp only [synSentOps, hun]
    rw [hops]
    split at h
    · cases h
    · cases h
      cases hp
      exact (WndFrame.refl pcb).traced
  · next rseg rest hun =>
    have hops : synSentOps m pcb i =
        if i.seg.flags.ack && i.seg.flags.syn && decide (i.ackno = rseg.seqno.adv 1) then
          [.ssthresh (tcpEffSendMss m.mtu pcb.mss * 10),
            .cwnd (firstCwnd pcb.cwnd (tcpEffSendMss m.mtu pcb.mss))]
        else [] := by
      simp only [synSentOps, hun]
    rw [hops]
    split at h
    · next hacc =>
      rw [if_pos hacc]
      obtain ⟨_, -, h⟩ := bind_eq_ok.mp h
      cases h
      cases hp
      intro ha
      have hle := (tcpEffSendMss_le m.mtu pcb.mss).trans ha.mss_le
      obtain ⟨hsyn, hackno⟩ := Bool.and_eq_true_iff.mp hacc
      have hfirst : pcb.unacked.head?.map (·.seqno.adv 1) = some i.ackno := by
        rw [hun, of_decide_eq_true hackno]
        rfl
      have hpos := tcpEffSendMss_pos (hmtu hsyn hfirst) ha.mss_pos
      generalize tcpEffSendMss m.mtu pcb.mss = mss at hle hpos
      obtain ⟨hfirst, hfirst_pos, hfirst_lt⟩ := firstCwnd_bounds pcb.cwnd hpos hle
      refine ⟨?_, hpos, hle, ?_, ?_, ?_, i.wnd.isLt, fun _ => ?_⟩
      · simp only [TcpPcb.wnds, replay, List.foldl_cons, List.foldl_nil, Op.apply, hfirst]
        rfl
      · show 1 ≤ (if pcb.cwnd = 1 then u16 (mss * 2) else mss)
        rwa [← hfirst, u16_eq hfirst_lt]
      · show (if pcb.cwnd = 1 then u16 (mss * 2) else mss) < 2^16
        rwa [← hfirst, u16_eq hfirst_lt]
      · exact Nat.mod_lt _ (by decide)
      · show 1 ≤ u16 (mss * 10)
        rw [u16_eq (by omega)]
        omega
    · next hacc =>
      cases h
      cases hp
      rw [if_neg hacc]
      exact (WndFrame.refl pcb).traced

/-- The pcb after the calls of the `accept` callback. -/
theorem accept_callFrame {q : TcpPcb} {calls : List AppCall} {sent : List Sent}
    (h : appCalls o true ticks { pcb with state := .ESTABLISHED } calls = .ok (some q, sent)) :
    CallFrame pcb q :=
  CallFrame.trans (b := { pcb with state := .ESTABLISHED }) (by constructor <;> rfl)
    (appCalls_callFrame h)

/-- The ACK of the handshake is sound. -/
theorem synRcvdOps_sound (ha : Fine pcb) (hfits : ∀ q, CallFrame pcb q → i.seg.flags.ack = true →
      Serial.between i.ackno (pcb.lastack.adv 1) pcb.snd_nxt → cb.accepts = true →
      ReceiveFits q i) :
    Sound (synRcvdOps o ticks cb pcb i) pcb.wnds := by
  unfold synRcvdOps
  split
  · next hnew =>
    obtain ⟨hack, hnew⟩ := hnew
    split
    · next q sent hacc =>
      have hcall := accept_callFrame hacc
      have hq := hcall.wndFrame.fine ha
      split
      · trivial
      · next haccepts =>
        rw [← hcall.wndFrame.wnds]
        apply sound_append.mpr
        refine ⟨receiveOps_sound hq
          (hfits q hcall hack hnew (by simpa using haccepts)), ?_, trivial⟩
        exact (firstCwnd_bounds _ hq.mss_pos hq.mss_le).2.2
    · trivial
  · trivial

/-- What `SYN_RCVD` does to the windows. -/
theorem processSynRcvd_traced {pr : Proc}
    (h : processSynRcvd o ticks m cb pcb i = .ok pr) (hp : pr.pcb = some pcb') :
    Traced pcb pcb' (synRcvdOps o ticks cb pcb i) := by
  unfold processSynRcvd at h
  unfold synRcvdOps
  split at h
  · next hack =>
    split at h
    · next hnew =>
      rw [if_pos ⟨hack, hnew⟩]
      obtain ⟨⟨r, out⟩, hacc, h⟩ := bind_eq_ok.mp h
      rw [hacc]
      cases r with
      | none =>
        cases h
        cases hp
      | some q =>
        dsimp only at h ⊢
        split at h
        · cases h
          cases hp
        · next haccepts =>
          rw [if_neg haccepts]
          obtain ⟨rx, hrx, h⟩ := bind_eq_ok.mp h
          cases h
          cases hp
          have hmss := tcpReceive_mss hrx
          have hreceived : Traced pcb rx.pcb (receiveOps q i) :=
            (accept_callFrame hacc).wndFrame.trans_traced (tcpReceive_traced hrx)
          refine hreceived.trans ?_
          -- The window of `tcp_receive` is overwritten.
          have hset : Traced rx.pcb { rx.pcb with
              acked := rx.pcb.acked - 1
              cwnd := if q.cwnd = 1 then u16 (rx.pcb.mss * 2) else rx.pcb.mss }
              [.cwnd (firstCwnd q.cwnd q.mss)] := by
            rw [← hmss]
            intro ha
            obtain ⟨hfirst, hfirst_pos, hfirst_lt⟩ :=
              firstCwnd_bounds q.cwnd ha.mss_pos ha.mss_le
            refine ⟨?_, ha.mss_pos, ha.mss_le, ?_, ?_, ha.ssthresh_lt, ha.snd_wnd_lt, ha.infr⟩
            · simp only [TcpPcb.wnds, replay, List.foldl_cons, List.foldl_nil, Op.apply, hfirst]
            · show 1 ≤ (if q.cwnd = 1 then u16 (rx.pcb.mss * 2) else rx.pcb.mss)
              rwa [← hfirst, u16_eq hfirst_lt]
            · show (if q.cwnd = 1 then u16 (rx.pcb.mss * 2) else rx.pcb.mss) < 2^16
              rwa [← hfirst, u16_eq hfirst_lt]
          split
          · exact hset.frame ⟨rfl, rfl, rfl, rfl, id⟩
          · exact hset
    · next hnew =>
      cases h
      cases hp
      rw [if_neg fun hc => hnew hc.2]
      exact (WndFrame.refl pcb).traced
  · next hack =>
    rw [if_neg fun hc => hack hc.1]
    split at h
    · cases h
      cases hp
      have hrex : WndFrame pcb (tcpRexmit pcb) := by
        unfold tcpRexmit
        split <;> exact ⟨rfl, rfl, rfl, rfl, id⟩
      exact hrex.traced
    · cases h
      cases hp
      exact (WndFrame.refl pcb).traced

/-- In the states from `ESTABLISHED` on. -/
theorem processOps_est (hrst : ¬ i.seg.flags.rst = true)
    (hsyn : ¬ (i.seg.flags.syn && decide (pcb.state ≠ .SYN_SENT) &&
      decide (pcb.state ≠ .SYN_RCVD)) = true)
    (h₁ : pcb.state ≠ .SYN_SENT) (h₂ : pcb.state ≠ .SYN_RCVD) (h₃ : pcb.state ≠ .CLOSED)
    (h₄ : pcb.state ≠ .LISTEN) (h₅ : pcb.state ≠ .TIME_WAIT) :
    processOps o ticks m cb pcb i = receiveOps (processNote o ticks pcb i) i := by
  unfold processOps
  rw [if_neg hrst, if_neg hsyn]
  split <;> first | rfl | contradiction

/-- A segment is sound in every state, if the quotients fit. -/
theorem processOps_sound (ho : o.TCP_MSS = 536) (ha : Fine pcb) (hfits : AckFits o cb pcb i) :
    Sound (processOps o ticks m cb pcb i) pcb.wnds := by
  have hnote : Fine (processNote o ticks pcb i) := ha.noted ho
  unfold processOps
  split
  · trivial
  next hrst =>
  split
  · trivial
  next hsyn =>
  split
  · exact synSentOps_sound hnote
  · next hst =>
    apply synRcvdOps_sound hnote
    intro q hq hack hnew haccepts _ _ _ hle
    have hcwnd : cwndAtAck q = cwndAtAck pcb := by
      unfold cwndAtAck
      rw [hq.infr, hq.ssthresh, hq.cwnd]
      rfl
    have hnew' : Serial.between i.ackno (pcb.lastack.adv 1) pcb.snd_nxt := hnew
    rw [hcwnd] at hle ⊢
    rw [hq.mss]
    apply hfits
    · unfold acksNew
      simp [hrst, hack, hnew', hst, haccepts]
    · rwa [hq.ssthresh] at hle
  · trivial
  · trivial
  · trivial
  · next h₁ h₂ h₃ h₄ h₅ =>
    apply receiveOps_sound hnote
    intro hack hnew hest hle
    have hnew' : Serial.between i.ackno (pcb.lastack.adv 1) pcb.snd_nxt := hnew
    have hest' : pcb.state.geEstablished = true := hest
    have hnosyn : i.seg.flags.syn = false := by
      by_contra hs
      apply hsyn
      rw [Bool.eq_true_of_not_eq_false hs, Bool.true_and, Bool.and_eq_true]
      exact ⟨decide_eq_true h₁, decide_eq_true h₂⟩
    refine hfits ?_ hle
    unfold acksNew
    simp [hrst, hack, hnew', hest', hnosyn]

/-- What `tcp_process` does to the windows. -/
theorem tcpProcess_traced {pr : Proc} (ho : o.TCP_MSS = 536) (hmtu : MtuFits m pcb i)
    (h : tcpProcess o ticks m cb pcb i = .ok pr) (hp : pr.pcb = some pcb') :
    Traced pcb pcb' (processOps o ticks m cb pcb i) := by
  unfold tcpProcess at h
  split at h
  · next hrst =>
    cases h
    unfold processOps
    rw [if_pos hrst]
    unfold processRst at hp
    dsimp only at hp
    have hflags : WndFrame pcb { pcb with flags := { pcb.flags with ack_delay := false } } :=
      ⟨rfl, rfl, rfl, rfl, id⟩
    split at hp <;> split at hp <;> cases hp
    all_goals first | exact hflags.traced | exact (WndFrame.refl pcb).traced
  next hrst =>
  split at h
  · next hsyn =>
    cases h
    cases hp
    unfold processOps
    rw [if_neg hrst, if_pos hsyn]
    exact WndFrame.traced ⟨rfl, rfl, rfl, rfl, id⟩
  next hsyn =>
  have hquiet : Traced pcb (processNote o ticks pcb i) [] := Traced.note ho (WndFrame.refl _).traced
  have hops : ∀ st, pcb.state = st → processOps o ticks m cb pcb i = match st with
      | .SYN_SENT => synSentOps m (processNote o ticks pcb i) i
      | .SYN_RCVD => synRcvdOps o ticks cb (processNote o ticks pcb i) i
      | .CLOSED | .LISTEN | .TIME_WAIT => []
      | _ => receiveOps (processNote o ticks pcb i) i := by
    rintro st rfl
    unfold processOps
    rw [if_neg hrst, if_neg hsyn]
  split at h
  · next hst =>
    have hmtu' : (i.seg.flags.ack && i.seg.flags.syn) = true →
        pcb.unacked.head?.map (·.seqno.adv 1) = some i.ackno → m.mtu ≠ 40 := by
      intro hacc
      apply hmtu hst
      rw [hacc, Bool.true_and]
      simpa using hrst
    rw [hops _ hst]
    exact Traced.note ho (processSynSent_traced hmtu' h hp)
  · next hst =>
    rw [hops _ hst]
    exact Traced.note ho (processSynRcvd_traced h hp)
  · next hst =>
    cases h
    cases hp
    rw [hops _ hst]
    exact hquiet
  · next hst =>
    cases h
    cases hp
    rw [hops _ hst]
    exact hquiet
  · next hst =>
    cases h
    cases hp
    rw [hops _ hst]
    exact hquiet
  · next h₁ h₂ h₃ h₄ h₅ =>
    obtain ⟨rx, hrx, h⟩ := bind_eq_ok.mp h
    cases h
    rw [processOps_est hrst hsyn h₁ h₂ h₃ h₄ h₅]
    exact Traced.note ho ((tcpReceive_traced hrx).frame (processReceived_wndFrame hp))

/-- What `tcp_input` does to the windows. -/
theorem tcpInput_traced {conn : Conn} {out : Bool} {sent : List Sent} (ho : o.TCP_MSS = 536)
    (hmtu : MtuFits m pcb i)
    (h : tcpInput o ticks m cb out pcb i = .ok (conn, sent)) (hp : conn.pcb? = some pcb') :
    Traced pcb pcb' (if decide (pcb.refused_data ≠ none) && !cb.takesRefused then []
      else processOps o ticks m cb { pcb with refused_data := none } i) := by
  unfold tcpInput at h
  split at h
  · next hkept =>
    cases h
    cases hp
    rw [if_pos hkept]
    exact (WndFrame.refl _).traced
  next hkept =>
  rw [if_neg hkept]
  obtain ⟨pr, hpr, h⟩ := bind_eq_ok.mp h
  split at h
  · cases h
    cases hp
  next p hprp =>
  split at h
  · obtain ⟨r, -, h⟩ := bind_eq_ok.mp h
    cases h
    cases hp
  unfold tcpInputFinish at h
  obtain ⟨⟨r, out₁⟩, happ, h⟩ := bind_eq_ok.mp h
  cases r with
  | none =>
    cases h
    cases hp
  | some q =>
    obtain ⟨⟨q', out₂⟩, hout, h⟩ := bind_eq_ok.mp h
    have hq' : pcb' = q' := by
      dsimp only at h
      split at h <;> (cases h; cases hp; rfl)
    subst hq'
    have hoffer : WndFrame pcb { pcb with refused_data := none } := ⟨rfl, rfl, rfl, rfl, id⟩
    have hkeep : WndFrame q (keepRefused cb pr q) := ⟨rfl, rfl, rfl, rfl, id⟩
    have hproc : Traced { pcb with refused_data := none } p _ := tcpProcess_traced ho hmtu hpr hprp
    exact hoffer.trans_traced (((hproc.frame (appCalls_callFrame happ).wndFrame).frame hkeep).frame
      (tcpOutput_callFrame hout).wndFrame)

/-! ## A tick -/

/-- `tcp_rexmit_rto` leaves the windows alone. -/
theorem tcpRexmitRto_wndFrame {alloc : Bool} {sent : List Sent}
    (h : tcpRexmitRto ticks alloc pcb = .ok (pcb', sent)) : WndFrame pcb pcb' := by
  unfold tcpRexmitRto at h
  split at h
  · cases h
    exact .refl _
  · have hout := (tcpOutput_callFrame h).wndFrame
    exact ⟨hout.cwnd, hout.ssthresh, hout.mss, hout.infr, hout.snd_wnd⟩

/-- A slow tick is sound. -/
theorem slowtmrOps_sound {w : Wnds} (ha : Fine pcb) : Sound (slowtmrOps o pcb) w := by
  have hlt := ha.cwnd_lt
  have hle := ha.mss_le
  have hmin := min_le_left pcb.cwnd pcb.snd_wnd
  unfold slowtmrOps
  split
  · dsimp only
    split
    · refine ⟨?_, ?_, ?_, trivial⟩
      · show min pcb.cwnd pcb.snd_wnd / 2 < 2^16
        omega
      · show pcb.mss * 2 < 2^16
        omega
      · show pcb.mss < 2^16
        omega
    · refine ⟨?_, ?_, trivial⟩
      · show min pcb.cwnd pcb.snd_wnd / 2 < 2^16
        omega
      · show pcb.mss < 2^16
        omega
  · trivial

/-- A timeout leaves both fields positive. -/
theorem slowtmrRexmit_traced {e : TickEnv} {sent : List Sent}
    (h : slowtmrRexmit o ticks e pcb = .ok (pcb', sent)) : Traced pcb pcb' (slowtmrOps o pcb) := by
  unfold slowtmrRexmit at h
  unfold slowtmrOps
  split at h
  · next hmaxed =>
    cases h
    rw [if_neg fun hc => by rw [hmaxed] at hc; cases hc.1]
    exact (WndFrame.refl pcb).traced
  next hmaxed =>
  have hmaxed : slowtmrMaxed o pcb = false := by simpa using hmaxed
  split at h
  · next hpersist =>
    have hoff : rtoExpires pcb = false := by
      unfold rtoExpires
      rw [decide_eq_false (by omega), Bool.false_and, Bool.false_and]
    rw [if_neg fun hc => by rw [hoff] at hc; cases hc.2]
    have heq : slowtmrPersist e pcb = (pcb', sent) := Except.ok.inj h
    have hframe : WndFrame pcb (slowtmrPersist e pcb).1 := by
      unfold slowtmrPersist tcpZeroWindowProbe
      dsimp only
      split
      · split
        · exact ⟨rfl, rfl, rfl, rfl, id⟩
        · split <;> exact ⟨rfl, rfl, rfl, rfl, id⟩
      · exact ⟨rfl, rfl, rfl, rfl, id⟩
    rw [heq] at hframe
    exact hframe.traced
  · dsimp only at h
    generalize (if pcb.rtime ≥ 0 then s16 (pcb.rtime + 1) else pcb.rtime) = rtime at h
    split at h
    · next hexp =>
      rw [if_pos ⟨hmaxed, hexp⟩]
      unfold slowtmrRto at h
      split at h
      · cases h
      dsimp only at h ⊢
      have hmin := min_le_left pcb.cwnd pcb.snd_wnd
      generalize hhalf : min pcb.cwnd pcb.snd_wnd / 2 = half at h
      -- What follows the stores leaves the window.
      obtain ⟨p, hframe, hcwnd, hssthresh, hmss, hinfr, hwnd⟩ : ∃ p : TcpPcb, WndFrame p pcb' ∧
          p.cwnd = pcb.mss ∧ p.ssthresh = (if half < pcb.mss then u16 (pcb.mss * 2) else half) ∧
          p.mss = pcb.mss ∧ p.flags.infr = pcb.flags.infr ∧ p.snd_wnd = pcb.snd_wnd :=
        ⟨_, tcpRexmitRto_wndFrame h, rfl, rfl, rfl, rfl, rfl⟩
      refine Traced.frame (fun ha => ?_) hframe
      have hlt := ha.cwnd_lt
      have hle := ha.mss_le
      have hpos := ha.mss_pos
      have hmss16 : u16 pcb.mss = pcb.mss := u16_eq (by omega)
      have htwo : u16 (pcb.mss * 2) = pcb.mss * 2 := u16_eq (by omega)
      have hhalf16 : u16 half = half := u16_eq (by omega)
      by_cases hsmall : half < pcb.mss
      · rw [if_pos hsmall, htwo] at hssthresh
        rw [if_pos hsmall]
        refine ⟨?_, by omega, by omega, by omega, by omega, by omega, hwnd ▸ ha.snd_wnd_lt,
          fun _ => by omega⟩
        simp only [TcpPcb.wnds, replay, List.foldl_cons, List.foldl_nil, Op.apply, hcwnd, hssthresh,
          hmss16, htwo]
      · rw [if_neg hsmall] at hssthresh
        rw [if_neg hsmall]
        refine ⟨?_, by omega, by omega, by omega, by omega, by omega, hwnd ▸ ha.snd_wnd_lt,
          fun _ => by omega⟩
        simp only [TcpPcb.wnds, replay, List.foldl_cons, List.foldl_nil, Op.apply, hcwnd, hssthresh,
          hmss16, hhalf16]
    · next hexp =>
      rw [if_neg fun hc => hexp hc.2]
      cases h
      exact WndFrame.traced ⟨rfl, rfl, rfl, rfl, id⟩

/-- What a slow tick does to the windows. -/
theorem tcpSlowtmr_traced {e : TickEnv} {conn : Conn} {sent : List Sent}
    (h : tcpSlowtmr o ticks e pcb = .ok (conn, sent)) (hp : conn.pcb? = some pcb') :
    Traced pcb pcb' (slowtmrOps o pcb) := by
  refine (tcpSlowtmr_rule (P := fun p _ => Traced pcb p (slowtmrOps o pcb)) h
    (fun p out₁ hr _ n => ?_) (fun p q _ _ hp happ => hp.frame (appCalls_callFrame happ).wndFrame)
    fun p q _ _ hp hout => hp.frame (tcpOutput_callFrame hout).wndFrame).elim ?_ ?_
  · refine (slowtmrRexmit_traced hr).frame ?_
    unfold slowtmrOoseq slowtmrKeepalive tcpKeepalive
    dsimp only
    split
    · split <;> exact ⟨rfl, rfl, rfl, rfl, id⟩
    · exact ⟨rfl, rfl, rfl, rfl, id⟩
  · rintro rfl
    cases hp
  · rintro ⟨q, rfl, hq⟩
    cases hp
    exact hq

/-- A fast tick leaves the windows alone. -/
theorem tcpFasttmr_wndFrame {takesRefused out : Bool} {sent : List Sent}
    (h : tcpFasttmr ticks takesRefused out pcb = .ok (pcb', sent)) : WndFrame pcb pcb' := by
  refine tcpFasttmr_rule (P := fun p _ => WndFrame pcb p) h ⟨rfl, rfl, rfl, rfl, id⟩
    fun hack => ?_
  have hf := (tcpAckNow_callFrame hack).wndFrame
  exact ⟨hf.cwnd, hf.ssthresh, hf.mss, hf.infr, hf.snd_wnd⟩

/-- A segment in `TIME_WAIT` leaves the windows alone. -/
theorem tcpTimewaitInput_wndFrame {out : Bool} {sent : List Sent}
    (h : tcpTimewaitInput ticks out pcb i = .ok (pcb', sent)) : WndFrame pcb pcb' := by
  refine tcpTimewaitInput_rule (P := fun p _ => WndFrame pcb p) h
    (fun _ => ⟨rfl, rfl, rfl, rfl, id⟩) fun ho => ?_
  have hout := (tcpOutput_callFrame ho).wndFrame
  exact ⟨hout.cwnd, hout.ssthresh, hout.mss, hout.infr, hout.snd_wnd⟩

end Functions

/-! ## Every run -/

/-- The events at which the arithmetic of the congestion window is right: the interface leaves room
for data, and no segment makes congestion avoidance add a quotient that wraps past its guard. -/
def LifeFits (o : Opts) : Option Conn → LifeEvent → Prop
  | none, .tcp_listen_input mtu _ i => (!i.seg.flags.ack && i.seg.flags.syn) = true → mtu ≠ 40
  | none, .tcp_connect mtu _ => mtu ≠ 40
  | some (.active pcb), .on (.input _ m cb _ i) =>
    MtuFits m pcb i ∧ (pcb.refused_data = none ∨ cb.takesRefused = true → AckFits o cb pcb i)
  | _, _ => True

/-- A connection that is there has a congestion window and a segment size. -/
def Windowed (c : Option Conn) : Prop :=
  ∀ pcb, c.bind Conn.pcb? = some pcb → 1 ≤ pcb.cwnd ∧ 1 ≤ pcb.mss

/-- What an event does with the congestion window is sound, and leaves its two fields as they
are. -/
def StepSound (o : Opts) (c : Option Conn) (e : LifeEvent) : Prop :=
  Sound (lifeOps o c e) (lifeWnds c) ∧
    ∀ c' pcb, lifeStep o c e = .ok c' → c'.bind Conn.pcb? = some pcb →
      pcb.wnds = replay (lifeOps o c e) (lifeWnds c)

section Life

variable {o : Opts} {c : Conn} {ev : ConnEvent}

/-- The invariant. -/
def LifeFine (c : Option Conn) : Prop := ∀ pcb, c.bind Conn.pcb? = some pcb → Fine pcb

/-- The pcb of a listener starts with fine fields. -/
theorem listenPcb_fine (ho : o.TCP_MSS = 536) {mtu : BitVec 16} (hmtu : mtu ≠ 40) (e : ListenEnv)
    (i : In) : Fine (listenPcb o { e with effSendMss := tcpEffSendMss mtu } i) := by
  have hparse := tcpParseopt_bounds (o := o) (by omega) i.opts.length i.opts
    (min o.TCP_MSS 536) (by omega)
  have hpos := tcpEffSendMss_pos hmtu hparse.1
  have hle := tcpEffSendMss_le mtu (tcpParseopt o i.opts.length i.opts (min o.TCP_MSS 536))
  have hmss : (listenPcb o { e with effSendMss := tcpEffSendMss mtu } i).mss =
      tcpEffSendMss mtu (tcpParseopt o i.opts.length i.opts (min o.TCP_MSS 536)) := by
    have hlt : tcpEffSendMss mtu (tcpParseopt o i.opts.length i.opts (min o.TCP_MSS 536)) <
        2^16 := by omega
    exact u16_eq hlt
  refine ⟨by omega, by omega, Nat.le_refl 1, ?_, i.wnd.isLt, i.wnd.isLt, fun hi => by cases hi⟩
  show 1 < 2^16
  omega

/-- The pcb of `tcp_connect` starts with fine fields. -/
theorem connectPcb_fine (ho : o.TCP_MSS = 536) {mtu : BitVec 16} (hmtu : mtu ≠ 40)
    (e : ConnectEnv) : Fine (connectPcb o { e with effSendMss := tcpEffSendMss mtu }
      (tcpAlloc o e.ticks e.iss)) := by
  have hpos := tcpEffSendMss_pos (n := min o.TCP_MSS 536) hmtu (by omega)
  have hle := tcpEffSendMss_le mtu (min o.TCP_MSS 536)
  have hmss : (connectPcb o { e with effSendMss := tcpEffSendMss mtu }
    (tcpAlloc o e.ticks e.iss)).mss =
      tcpEffSendMss mtu (min o.TCP_MSS 536) := by
    have hlt : tcpEffSendMss mtu (min o.TCP_MSS 536) < 2^16 := by omega
    exact u16_eq hlt
  have hwnd := o.wnd_le
  refine ⟨by omega, by omega, Nat.le_refl 1, ?_, ?_, Nat.lt_succ_of_le hwnd, fun hi => by cases hi⟩
  · show 1 < 2^16
    omega
  · exact Nat.mod_lt _ (by decide)

/-- What a step of a connection does is sound. -/
theorem connOps_sound (ho : o.TCP_MSS = 536) (hc : LifeFine (some c))
    (hfits : LifeFits o (some c) (.on ev)) : Sound (connOps o c ev) (lifeWnds (some c)) := by
  unfold connOps
  split
  · exact slowtmrOps_sound (hc _ rfl)
  · next pcb ticks m cb out i =>
    split
    · trivial
    · next htaken =>
      have hoffer : WndFrame pcb { pcb with refused_data := none } := ⟨rfl, rfl, rfl, rfl, id⟩
      have htakes : pcb.refused_data = none ∨ cb.takesRefused = true := by
        by_contra hc
        push Not at hc
        exact htaken (by simp [hc.1, hc.2])
      exact processOps_sound ho (hoffer.fine (hc _ rfl)) (hfits.2 htakes)
  · trivial

/-- A step of a connection does what `connOps` says. -/
theorem connStep_traced {c' : Conn} {pcb' : TcpPcb} (ho : o.TCP_MSS = 536)
    (hfits : LifeFits o (some c) (.on ev)) (h : connStep o c ev = .ok c')
    (hp : c'.pcb? = some pcb') : ∃ pcb, c.pcb? = some pcb ∧ Traced pcb pcb' (connOps o c ev) := by
  unfold connStep at h
  split at h
  · next pcb ticks call =>
    obtain ⟨⟨r, sent⟩, hcall, h⟩ := bind_eq_ok.mp h
    cases h
    cases r with
    | none => cases hp
    | some q =>
      cases hp
      exact ⟨pcb, rfl, (appCall_callFrame hcall).wndFrame.traced⟩
  · next pcb ticks alloc =>
    obtain ⟨⟨q, sent⟩, hout, h⟩ := bind_eq_ok.mp h
    cases h
    cases hp
    exact ⟨pcb, rfl, (tcpOutput_callFrame hout).wndFrame.traced⟩
  · next pcb ticks e =>
    obtain ⟨⟨q, sent⟩, htick, h⟩ := bind_eq_ok.mp h
    cases h
    exact ⟨pcb, rfl, tcpSlowtmr_traced htick hp⟩
  · next pcb ticks takesRefused out =>
    obtain ⟨⟨q, sent⟩, htick, h⟩ := bind_eq_ok.mp h
    cases h
    cases hp
    exact ⟨pcb, rfl, (tcpFasttmr_wndFrame htick).traced⟩
  · next pcb ticks m cb out i =>
    obtain ⟨⟨q, sent⟩, hin, h⟩ := bind_eq_ok.mp h
    cases h
    exact ⟨pcb, rfl, tcpInput_traced ho hfits.1 hin hp⟩
  · next pcb ticks m cb out i =>
    obtain ⟨⟨q, sent⟩, hin, h⟩ := bind_eq_ok.mp h
    cases h
    cases hp
    exact ⟨pcb, rfl, (tcpTimewaitInput_wndFrame hin).traced⟩
  · next pcb ticks e =>
    cases h
    unfold tcpSlowtmrTimeWait at hp
    split at hp
    · cases hp
    · cases hp
      exact ⟨pcb', rfl, (WndFrame.refl pcb').traced⟩
  · next h₁ h₂ h₃ h₄ h₅ h₆ h₇ =>
    cases h
    have hops : connOps o c ev = [] := by
      unfold connOps
      split
      · next pcb ticks e => exact absurd rfl (h₃ pcb ticks e rfl)
      · next pcb ticks m cb out i => exact absurd rfl (h₅ pcb ticks m cb out i rfl)
      · rfl
    rw [hops]
    exact ⟨pcb', hp, (WndFrame.refl pcb').traced⟩

/-- The SYN of an open leaves the window. -/
theorem tcpListenInput_wndFrame {e : ListenEnv} {i : In} {pcb : TcpPcb} {sent : List Sent}
    (h : tcpListenInput o e i = .ok (some pcb, sent)) : WndFrame (listenPcb o e i) pcb := by
  obtain ⟨p, henq, hout⟩ := tcpListenInput_eq_ok h
  exact ((tcpEnqueue_callFrame henq).trans (tcpOutput_callFrame hout)).wndFrame

/-- `tcp_connect` leaves the windows as it set them. -/
theorem tcpConnect_wndFrame {e : ConnectEnv} {pcb pcb' : TcpPcb} {err : Err} {sent : List Sent}
    (h : tcpConnect o e pcb = .ok (some (err, pcb', sent))) :
    WndFrame (connectPcb o e pcb) pcb' := by
  unfold tcpConnect at h
  split at h
  · cases h
  · obtain ⟨⟨err', p⟩, henq, h⟩ := bind_eq_ok.mp h
    have hp := tcpEnqueue_callFrame henq
    split at h
    · obtain ⟨⟨q, out⟩, hout, h⟩ := bind_eq_ok.mp h
      cases h
      exact (hp.trans (tcpOutput_callFrame hout)).wndFrame
    · cases h
      exact hp.wndFrame

/-- A segment that opens a connection is a SYN without an ACK. -/
theorem tcpListenInput_syn {e : ListenEnv} {i : In} {pcb : TcpPcb} {sent : List Sent}
    (h : tcpListenInput o e i = .ok (some pcb, sent)) :
    (!i.seg.flags.ack && i.seg.flags.syn) = true := by
  unfold tcpListenInput at h
  split at h
  · cases h
  · next hack =>
    split at h
    · next hsyn =>
      rw [hsyn, Bool.and_true]
      simpa using hack
    · cases h

/-- What an event does is sound. -/
theorem lifeOps_sound (ho : o.TCP_MSS = 536) {c : Option Conn} {e : LifeEvent} (hc : LifeFine c)
    (hfits : LifeFits o c e) : Sound (lifeOps o c e) (lifeWnds c) := by
  unfold lifeOps
  split
  · next mtu e i =>
    split
    · exact ⟨Nat.lt_of_lt_of_le (Nat.lt_succ_self 1) (by decide), i.wnd.isLt, trivial⟩
    · trivial
  · next mtu e =>
    have hle := tcpEffSendMss_le mtu (min o.TCP_MSS 536)
    have hself : u16 (tcpEffSendMss mtu (min o.TCP_MSS 536)) =
        tcpEffSendMss mtu (min o.TCP_MSS 536) :=
      u16_eq (by omega)
    refine ⟨?_, ?_, ?_, trivial⟩
    · show 1 < 2^16
      omega
    · show 1 < 2^16
      omega
    · show u16 (tcpEffSendMss mtu (min o.TCP_MSS 536)) * 10 < 2^16
      rw [hself]
      omega
  · exact connOps_sound ho hc hfits
  · trivial

/-- An event does what `lifeOps` says, and keeps the invariant. -/
theorem lifeStep_traced (ho : o.TCP_MSS = 536) {c c' : Option Conn} {e : LifeEvent} {pcb' : TcpPcb}
    (hc : LifeFine c) (hfits : LifeFits o c e) (h : lifeStep o c e = .ok c')
    (hp : c'.bind Conn.pcb? = some pcb') :
    pcb'.wnds = replay (lifeOps o c e) (lifeWnds c) ∧ Fine pcb' := by
  unfold lifeStep at h
  split at h
  · next mtu e i =>
    obtain ⟨⟨r, sent⟩, hl, h⟩ := bind_eq_ok.mp h
    cases h
    cases r with
    | none => cases hp
    | some q =>
      cases hp
      have hframe := tcpListenInput_wndFrame hl
      have hsyn := tcpListenInput_syn hl
      refine ⟨?_, hframe.fine (listenPcb_fine ho (hfits hsyn) e i)⟩
      have hops : lifeOps o none (.tcp_listen_input mtu e i) = [.cwnd 1, .ssthresh i.wnd.toNat] :=
        if_pos hsyn
      have hwnd : u16 i.wnd.toNat = i.wnd.toNat := u16_eq i.wnd.isLt
      rw [hframe.wnds, hops]
      simp only [replay, List.foldl_cons, List.foldl_nil, Op.apply, hwnd]
      rfl
  · next mtu e =>
    obtain ⟨r, hl, h⟩ := bind_eq_ok.mp h
    cases h
    cases r with
    | none => cases hp
    | some r =>
      cases hp
      have hframe := tcpConnect_wndFrame hl
      exact ⟨hframe.wnds, hframe.fine (connectPcb_fine ho hfits e)⟩
  · next c ev =>
    obtain ⟨c₁, hstep, h⟩ := bind_eq_ok.mp h
    cases h
    obtain ⟨pcb, hpcb, htraced⟩ := connStep_traced ho hfits hstep hp
    have hwnds : lifeWnds (some c) = pcb.wnds := by
      unfold lifeWnds
      rw [Option.bind_some, hpcb]
      rfl
    rw [hwnds]
    exact htraced (hc pcb hpcb)
  · next h₁ h₂ h₃ =>
    cases h
    have hops : lifeOps o c e = [] := by
      unfold lifeOps
      split
      · next mtu e i => exact absurd rfl (h₁ mtu e i rfl)
      · next mtu e => exact absurd rfl (h₂ mtu e rfl)
      · next c ev => exact absurd rfl (h₃ c ev rfl)
      · rfl
    rw [hops]
    refine ⟨?_, hc pcb' hp⟩
    unfold lifeWnds
    rw [hp]
    rfl

end Life

/-- In every run of a connection, with the shipped segment size, whose events meet the condition,
the arithmetic of the congestion window is sound. -/
theorem congestion_window_sound (o : Opts) (ho : o.TCP_MSS = 536) (es : List LifeEvent)
    (h : Along (lifeStep o) (LifeFits o) none es) :
    Always (lifeStep o) Windowed none es ∧ Along (lifeStep o) (StepSound o) none es := by
  have hinit : LifeFine none := fun pcb hp => by cases hp
  have hstep : ∀ c e c', LifeFine c → LifeFits o c e → lifeStep o c e = .ok c' → LifeFine c' :=
    fun c e c' hc hfits hs pcb hp => (lifeStep_traced ho hc hfits hs hp).2
  constructor
  · rintro es' es'' c rfl hr pcb hp
    have hc := run_invariant hstep hinit h.left hr pcb hp
    exact ⟨hc.cwnd_pos, hc.mss_pos⟩
  · exact run_along hstep (fun c e hc hfits => ⟨lifeOps_sound ho hc hfits,
      fun c' pcb hs hp => (lifeStep_traced ho hc hfits hs hp).1⟩) hinit h

instance (o : Opts) : (c : Option Conn) → (e : LifeEvent) → Decidable (LifeFits o c e)
  | none, .tcp_listen_input mtu _ i =>
    inferInstanceAs (Decidable ((!i.seg.flags.ack && i.seg.flags.syn) = true → mtu ≠ 40))
  | none, .tcp_connect mtu _ => inferInstanceAs (Decidable (mtu ≠ 40))
  | some (.active pcb), .on (.input _ m cb _ i) =>
    inferInstanceAs (Decidable (MtuFits m pcb i ∧
      (pcb.refused_data = none ∨ cb.takesRefused = true → AckFits o cb pcb i)))
  | some (.active _), .on (.call _ _) | some (.active _), .on (.output _ _) => .isTrue trivial
  | some (.active _), .on (.slowtmr _ _) | some (.active _), .on (.fasttmr _ _ _) => .isTrue trivial
  | some (.active _), .tcp_listen_input _ _ _ | some (.active _), .tcp_connect _ _ =>
    .isTrue trivial
  | none, .on _ | some (.timeWait _), _ | some .gone, _ => .isTrue trivial

/-- A passive open by a peer with the window `wnd`, and the segments with these acknowledgement
numbers, in the middle of which the application writes ten octets. -/
def acksRun (wnd : BitVec 16) (acks : List Serial) : List LifeEvent :=
  let ack (ackno : Serial) : LifeEvent := .on (.input 1 {} {} true
    { seg := { seqno := 1, len := 0, flags := { ack := true } }, ackno, wnd })
  [.tcp_listen_input 1500 {}
      { seg := { seqno := 0, len := 0, flags := { syn := true } }, ackno := 0, wnd },
    ack 1, .on (.call 1 (.write (fun _ => true) (List.replicate 10 0) true false)),
    .on (.output 1 true)] ++ acks.map ack

/-- A run with four acknowledgements has sound windows. -/
theorem congestion_window_sound_acksRun :
    Always (lifeStep .shipped) Windowed none (acksRun 1000 [11, 11, 11, 11]) ∧
      Along (lifeStep .shipped) (StepSound .shipped) none (acksRun 1000 [11, 11, 11, 11]) :=
  congestion_window_sound .shipped rfl _ (by decide +kernel)

/-- The peer advertises a window of 0 in its SYN, so `ssthresh` is 0 and the window of 1 octet is
grown by congestion avoidance: 1 + 536 * 536 wraps four times, to a value that passes the guard. -/
theorem zero_window_syn_wraps :
    ¬ ∀ es, Always (lifeStep .shipped) Windowed none es ∧
      Along (lifeStep .shipped) (StepSound .shipped) none es := by
  intro h
  have hbad : ¬ Along (lifeStep .shipped) (fun c e => Sound (lifeOps .shipped c e) (lifeWnds c))
      none (acksRun 0 []) := by decide +kernel
  apply hbad
  exact run_along (I := fun _ => True) (fun _ _ _ _ _ _ => trivial) (fun _ _ _ h => h.1) trivial
    (h (acksRun 0 [])).2

end Lwip.Tcp
