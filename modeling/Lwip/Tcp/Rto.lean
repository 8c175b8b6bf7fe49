import Lwip.Tcp.Congestion
import Mathlib.Algebra.Order.Ring.Int
import Mathlib.Algebra.Order.Group.Unbundled.Abs

/-!
# The retransmission timeout

What the functions do with the round-trip estimate, the fields `sa` and `sv`, and with the timeout
`rto` that they compute from it (`Op`): a timeout that is set back, a round trip that is measured, a
timeout that is backed off. Each is done in `s16_t` arithmetic (`apply16`) and would be done in
integers without a width (`apply`). `rttOps` lists the operations of a step of a connection, from
its set-up on, and the fields after the step are those of the list (`lifeStep_rtt`).

While the estimate stays in range the two agree, and the timeout is positive. They part at a round
trip that is too long, and at a timeout that is shifted out of its field (`Fits`).
-/

namespace Lwip.Tcp

/-- The round-trip estimate and the timeout; `tcp_alloc` sets a new pcb to the defaults. -/
structure Rtt where
  sa : ℤ := 0
  sv : ℤ := 6
  rto : ℤ := 6
  deriving DecidableEq, Repr

def TcpPcb.rtt (pcb : TcpPcb) : Rtt := ⟨pcb.sa, pcb.sv, pcb.rto⟩

namespace Rtt

/-- What is done with the estimate. -/
inductive Op where
  /-- New data were acknowledged: the timeout is that of the estimate again. -/
  | reset
  /-- A round trip of this many ticks was measured. -/
  | measure (m : ℕ)
  /-- The timeout expired, and is shifted to the left by this. -/
  | backoff (n : ℕ)
  deriving DecidableEq, Repr

/-- The timeout of an estimate. -/
def base (t : Rtt) : ℤ := t.sa >>> (3 : ℕ) + t.sv

/-- How far a round trip of `m` ticks is from the smoothed one. -/
def gap (t : Rtt) (m : ℕ) : ℤ := m - t.sa >>> (3 : ℕ)

namespace Op

/-- The operation in integers without a width. -/
def apply (t : Rtt) : Op → Rtt
  | reset => { t with rto := t.base }
  | measure m =>
    let sa := t.sa + t.gap m
    let sv := t.sv + (|t.gap m| - t.sv >>> (2 : ℕ))
    { sa, sv, rto := sa >>> (3 : ℕ) + sv }
  | backoff n => { t with rto := t.base * 2^n }

/-- The operation in the fields of the pcb, as the code does it. -/
def apply16 (t : Rtt) : Op → Rtt
  | reset => { t with rto := s16 (t.sa >>> (3 : ℕ) + t.sv) }
  | measure m =>
    let m := s16 m
    let m := s16 (m - t.sa >>> (3 : ℕ))
    let sa := s16 (t.sa + m)
    let m := if m < 0 then s16 (-m) else m
    let m := s16 (m - t.sv >>> (2 : ℕ))
    let sv := s16 (t.sv + m)
    { sa, sv, rto := s16 (sa >>> (3 : ℕ) + sv) }
  | backoff n => { t with rto := s16 ((t.sa >>> (3 : ℕ) + t.sv) * 2 ^ n) }

/-- No result of the operation exceeds 15 bits. -/
def Fits (t : Rtt) : Op → Prop
  | reset => True
  | measure m => ((measure m).apply t).sa < 2^15 ∧ ((measure m).apply t).rto < 2^15
  | backoff n => t.base * 2^n < 2^15

instance (t : Rtt) : (op : Op) → Decidable (op.Fits t)
  | reset => .isTrue trivial
  | measure _ => inferInstanceAs (Decidable (_ ∧ _))
  | backoff _ => inferInstanceAs (Decidable (_ < _))

end Op

/-- Each operation of the list fits where it is done. -/
def Fit : List Op → Rtt → Prop
  | [], _ => True
  | op :: ops, t => op.Fits t ∧ Fit ops (op.apply t)

instance Fit.decidable : (ops : List Op) → (t : Rtt) → Decidable (Fit ops t)
  | [], _ => .isTrue trivial
  | op :: ops, t =>
    have := Fit.decidable ops (op.apply t)
    inferInstanceAs (Decidable (_ ∧ _))

/-- Each operation of the list, done in the fields, gives what it gives without a width, and leaves
a timeout of at least one tick. -/
def Right : List Op → Rtt → Prop
  | [], _ => True
  | op :: ops, t => op.apply16 t = op.apply t ∧ 1 ≤ (op.apply16 t).rto ∧ Right ops (op.apply16 t)

instance Right.decidable : (ops : List Op) → (t : Rtt) → Decidable (Right ops t)
  | [], _ => .isTrue trivial
  | op :: ops, t =>
    have := Right.decidable ops (op.apply16 t)
    inferInstanceAs (Decidable (_ ∧ _ ∧ _))

/-! ## What the functions do -/

/-- This segment makes `tcp_receive` retransmit, which gives up the measurement. `rightWndEdge` is
the right edge of the send window before its update. -/
def rexmits (rightWndEdge : Serial) (pcb : TcpPcb) (i : In) : Prop :=
  Serial.leq i.ackno pcb.lastack ∧ i.tcplen = 0 ∧ pcb.snd_wl2.adv pcb.snd_wnd = rightWndEdge ∧
    pcb.rtime ≥ 0 ∧ pcb.lastack = i.ackno ∧ (pcb.dupacks + 1) % 2^8 = 3 ∧ pcb.unacked ≠ [] ∧
    pcb.flags.infr = false

instance (rightWndEdge : Serial) (pcb : TcpPcb) (i : In) : Decidable (rexmits rightWndEdge pcb i) :=
  inferInstanceAs (Decidable (_ ∧ _))

/-- The acknowledgement is of new data. -/
def acksData (pcb : TcpPcb) (i : In) : Prop :=
  ¬ Serial.leq i.ackno pcb.lastack ∧ Serial.between i.ackno (pcb.lastack.adv 1) pcb.snd_nxt

instance (pcb : TcpPcb) (i : In) : Decidable (acksData pcb i) := inferInstanceAs (Decidable (_ ∧ _))

/-- `tcp_receive`. -/
def receiveOps (ticks : BitVec 32) (pcb : TcpPcb) (i : In) : List Op :=
  if i.seg.flags.ack then
    (if acksData pcb i then [.reset] else []) ++
      if pcb.rttest ≠ 0 ∧ Serial.lt pcb.rtseq i.ackno ∧
          ¬ rexmits (pcb.snd_wl2.adv pcb.snd_wnd) (updateSndWnd pcb i) i then
        [.measure (ticks - pcb.rttest).toNat]
      else []
  else []

/-- The state `SYN_RCVD`. -/
def synRcvdOps (o : Opts) (ticks : BitVec 32) (cb : Callbacks) (pcb : TcpPcb) (i : In) : List Op :=
  if i.seg.flags.ack = true ∧ Serial.between i.ackno (pcb.lastack.adv 1) pcb.snd_nxt then
    match appCalls o true ticks { pcb with state := .ESTABLISHED } cb.onAccept with
    | .ok (some q, _) => if !cb.accepts then [] else receiveOps ticks q i
    | _ => []
  else []

/-- `tcp_process`. -/
def processOps (o : Opts) (ticks : BitVec 32) (cb : Callbacks) (pcb : TcpPcb) (i : In) : List Op :=
  if i.seg.flags.rst then []
  else if i.seg.flags.syn && decide (pcb.state ≠ .SYN_SENT) &&
      decide (pcb.state ≠ .SYN_RCVD) then []
  else
    match pcb.state with
    | .SYN_RCVD => synRcvdOps o ticks cb (processNote o ticks pcb i) i
    | .SYN_SENT | .CLOSED | .LISTEN | .TIME_WAIT => []
    | _ => receiveOps ticks (processNote o ticks pcb i) i

/-- `tcp_slowtmr`. -/
def slowtmrOps (o : Opts) (pcb : TcpPcb) : List Op :=
  if slowtmrMaxed o pcb = false ∧ rtoExpires pcb = true ∧ pcb.state ≠ .SYN_SENT then
    [.backoff (tcpBackoff.getD pcb.nrtx 0)]
  else []

/-- An event of a connection. -/
def connOps (o : Opts) : Conn → ConnEvent → List Op
  | .active pcb, .slowtmr _ _ => slowtmrOps o pcb
  | .active pcb, .input ticks _ cb _ i =>
    if decide (pcb.refused_data ≠ none) && !cb.takesRefused then []
    else processOps o ticks cb { pcb with refused_data := none } i
  | _, _ => []

end Rtt

/-- What an event does with the round-trip estimate. -/
def rttOps (o : Opts) : Option Conn → LifeEvent → List Rtt.Op
  | some c, .on ev => Rtt.connOps o c ev
  | _, _ => []

/-- The estimate of a connection; a new pcb has the defaults. -/
def lifeRtt (c : Option Conn) : Rtt := ((c.bind Conn.pcb?).map TcpPcb.rtt).getD {}

/-- A step of a connection, beside an estimate that is kept in integers without a width. -/
def rttStep (o : Opts) (s : Option Conn × Rtt) (e : LifeEvent) :
    Except Abort (Option Conn × Rtt) := do
  let c ← lifeStep o s.1 e
  .ok (c, (rttOps o s.1 e).foldl Rtt.Op.apply s.2)

/-- The fields of the pcb have the values that the integers have, and the timeout is at least a
tick. -/
def RttExact (s : Option Conn × Rtt) : Prop :=
  ∀ pcb, s.1.bind Conn.pcb? = some pcb → pcb.rtt = s.2 ∧ 1 ≤ pcb.rto

/-- Each update of an event is right. -/
def RttRight (o : Opts) (s : Option Conn × Rtt) (e : LifeEvent) : Prop :=
  Rtt.Right (rttOps o s.1 e) (lifeRtt s.1)

/-- No round trip that the event measures, and no timeout that it backs off, is too long. -/
def RttFits (o : Opts) (s : Option Conn × Rtt) (e : LifeEvent) : Prop :=
  Rtt.Fit (rttOps o s.1 e) (lifeRtt s.1)

/-! ## The arithmetic -/

namespace Rtt

/-- The estimates for which the fields have room. -/
structure Ok (t : Rtt) : Prop where
  sa_nonneg : 0 ≤ t.sa
  sa_lt : t.sa < 2^15
  sv_pos : 1 ≤ t.sv
  base_lt : t.base < 2^15
  rto_pos : 1 ≤ t.rto

/-- The estimate at the start is in range. -/
theorem ok_default : Ok {} := by
  constructor <;> decide

/-- A value in range is stored as it is. -/
theorem s16_of_bounds {x : ℤ} (hlo : -2^15 ≤ x) (hhi : x < 2^15) : s16 x = x :=
  Int.bmod_eq_of_le (by omega) (by omega)

/-- What an `s16_t` holds. -/
theorem s16_bounds (x : ℤ) : -2^15 ≤ s16 x ∧ s16 x < 2^15 :=
  ⟨Int.le_bmod (by decide), Int.bmod_lt (by decide)⟩

/-- A smoothed value that is not negative, without its eighth. -/
theorem shift_three (x : ℤ) : x >>> (3 : ℕ) = x / 8 := Int.shiftRight_eq_div_pow x 3

/-- A shift by two places divides by four. -/
theorem shift_two (x : ℤ) : x >>> (2 : ℕ) = x / 4 := Int.shiftRight_eq_div_pow x 2

section

variable {t : Rtt} {op : Op}

/-- A timeout in range is positive. -/
theorem Ok.base_pos (h : t.Ok) : 1 ≤ t.base := by
  have hsa := h.sa_nonneg
  have hsv := h.sv_pos
  unfold base
  rw [shift_three]
  omega

/-- A measurement leaves an estimate that is not negative. -/
theorem Ok.measure_pos (h : t.Ok) (m : ℕ) :
    0 ≤ ((Op.measure m).apply t).sa ∧ 1 ≤ ((Op.measure m).apply t).sv := by
  have hsa := h.sa_nonneg
  have hsv := h.sv_pos
  have hgap := abs_nonneg (t.gap m)
  simp only [Op.apply]
  constructor
  · unfold gap
    rw [shift_three]
    omega
  · rw [shift_two]
    omega

/-- Where an operation fits, it leaves an estimate that the fields have room for. -/
theorem Ok.apply (h : t.Ok) (hfits : op.Fits t) : (op.apply t).Ok := by
  have hbase := h.base_pos
  cases op with
  | reset => exact ⟨h.sa_nonneg, h.sa_lt, h.sv_pos, h.base_lt, hbase⟩
  | measure m =>
    obtain ⟨hsa, hsv⟩ := h.measure_pos m
    refine ⟨hsa, hfits.1, hsv, hfits.2, ?_⟩
    show 1 ≤ ((Op.measure m).apply t).sa >>> (3 : ℕ) + ((Op.measure m).apply t).sv
    rw [shift_three]
    omega
  | backoff n =>
    refine ⟨h.sa_nonneg, h.sa_lt, h.sv_pos, h.base_lt, ?_⟩
    calc (1 : ℤ) = 1 * 1 := rfl
      _ ≤ t.base * 2^n := mul_le_mul hbase (one_le_pow₀ (by decide)) (by decide) (by omega)

/-- A measurement that fits is what it is without a width. -/
theorem Ok.measure_exact (h : t.Ok) {m : ℕ} (hfits : (Op.measure m).Fits t) :
    (Op.measure m).apply16 t = (Op.measure m).apply t := by
  obtain ⟨hsa', hsv'⟩ := h.measure_pos m
  have hsa := h.sa_nonneg
  have hsa_lt := h.sa_lt
  have hsv := h.sv_pos
  have hbase := h.base_lt
  obtain ⟨hfit_sa, hfit_rto⟩ := hfits
  simp only [Op.apply, base, gap, shift_three, shift_two] at hsa' hsv' hfit_sa hfit_rto hbase
  simp only [Op.apply16, Op.apply, gap, shift_three, shift_two]
  have hm : s16 m = m := s16_of_bounds (by omega) (by omega)
  have hgap : s16 (m - t.sa / 8) = m - t.sa / 8 := s16_of_bounds (by omega) (by omega)
  have hnew : s16 (t.sa + (m - t.sa / 8)) = t.sa + (m - t.sa / 8) :=
    s16_of_bounds (by omega) (by omega)
  -- The two signs of the gap.
  have habs : (if (m : ℤ) - t.sa / 8 < 0 then s16 (-(m - t.sa / 8)) else m - t.sa / 8) =
      |(m : ℤ) - t.sa / 8| := by
    split
    · next hneg =>
      rw [abs_of_neg hneg]
      exact s16_of_bounds (by omega) (by omega)
    · next hpos => rw [abs_of_nonneg (not_lt.mp hpos)]
  rw [hm, hgap, hnew, habs]
  have habs_nonneg := abs_nonneg ((m : ℤ) - t.sa / 8)
  have hdev : s16 (|(m : ℤ) - t.sa / 8| - t.sv / 4) = |(m : ℤ) - t.sa / 8| - t.sv / 4 :=
    s16_of_bounds (by omega) (by omega)
  rw [hdev]
  have hsum : s16 (t.sv + (|(m : ℤ) - t.sa / 8| - t.sv / 4)) =
      t.sv + (|(m : ℤ) - t.sa / 8| - t.sv / 4) :=
    s16_of_bounds (by omega) (by omega)
  rw [hsum, s16_of_bounds (by omega) (by omega)]

/-- An operation in the fields gives what it gives without a width exactly where it fits. -/
theorem Ok.exact_iff (h : t.Ok) : op.apply16 t = op.apply t ↔ op.Fits t := by
  have hbase := h.base_pos
  have hlt := h.base_lt
  cases op with
  | reset =>
    refine iff_of_true ?_ trivial
    have hself : s16 t.base = t.base := s16_of_bounds (by omega) (by omega)
    show { t with rto := s16 t.base } = { t with rto := t.base }
    rw [hself]
  | measure m =>
    refine ⟨fun heq => ?_, h.measure_exact⟩
    constructor
    · rw [← heq]
      exact (s16_bounds _).2
    · rw [← heq]
      exact (s16_bounds _).2
  | backoff n =>
    constructor
    · intro heq
      have hrto : s16 (t.base * 2^n) = t.base * 2^n := congrArg Rtt.rto heq
      show t.base * 2^n < 2^15
      rw [← hrto]
      exact (s16_bounds _).2
    · intro hfits
      have hpos : 0 ≤ t.base * 2^n := mul_nonneg (by omega) (pow_nonneg (by decide) n)
      have hself : s16 (t.base * 2^n) = t.base * 2^n := s16_of_bounds (by omega) hfits
      show { t with rto := s16 (t.base * 2^n) } = { t with rto := t.base * 2^n }
      rw [hself]

/-- Lists of operations that fit. -/
theorem Ok.fold {ops : List Op} (h : t.Ok) (hfit : Fit ops t) :
    ops.foldl Op.apply16 t = ops.foldl Op.apply t ∧ (ops.foldl Op.apply t).Ok ∧ Right ops t := by
  induction ops generalizing t with
  | nil => exact ⟨rfl, h, trivial⟩
  | cons op ops ih =>
    have heq := h.exact_iff.mpr hfit.1
    have hok := h.apply hfit.1
    obtain ⟨hfold, hfold_ok, hright⟩ := ih hok hfit.2
    refine ⟨?_, hfold_ok, heq, ?_, ?_⟩
    · rw [List.foldl_cons, List.foldl_cons, heq]
      exact hfold
    · rw [heq]
      exact hok.rto_pos
    · rw [heq]
      exact hright

end

end Rtt

/-! ## One function after the other -/

/-- A frame of a call keeps the estimate. -/
theorem CallFrame.rtt {a b : TcpPcb} (h : CallFrame a b) : b.rtt = a.rtt := by
  unfold TcpPcb.rtt
  rw [h.sa, h.sv, h.rto]

/-- A frame of the data half keeps the estimate. -/
theorem DataFrame.rtt {a b : TcpPcb} (h : DataFrame a b) : b.rtt = a.rtt := by
  unfold TcpPcb.rtt
  rw [h.sa, h.sv, h.rto]

namespace Rtt

/-- The step from `a` to `b` does `ops`. -/
def Traced (a b : TcpPcb) (ops : List Op) : Prop := b.rtt = ops.foldl Op.apply16 a.rtt

section Functions

variable {o : Opts} {ticks : BitVec 32} {m : RxAlloc} {cb : Callbacks} {a b c pcb pcb' : TcpPcb}
  {i : In} {ops ops' : List Op}

/-- The operations of two steps follow each other. -/
theorem Traced.trans (h : Traced a b ops) (h' : Traced b c ops') : Traced a c (ops ++ ops') := by
  unfold Traced at h h' ⊢
  rw [h', h, List.foldl_append]

/-- A frame behind a step adds no operation. -/
theorem Traced.frame (h : Traced a b ops) (h' : c.rtt = b.rtt) : Traced a c ops := h'.trans h

/-- A frame before a step adds no operation. -/
theorem Traced.of_frame (h : b.rtt = a.rtt) (h' : Traced b c ops) : Traced a c ops := by
  unfold Traced at h' ⊢
  rw [h', h]

/-- The peer's window is not the estimate. -/
theorem updateSndWnd_rtt (pcb : TcpPcb) (i : In) : (updateSndWnd pcb i).rtt = pcb.rtt ∧
    (updateSndWnd pcb i).rttest = pcb.rttest ∧ (updateSndWnd pcb i).rtseq = pcb.rtseq ∧
    (updateSndWnd pcb i).lastack = pcb.lastack ∧ (updateSndWnd pcb i).snd_nxt = pcb.snd_nxt := by
  unfold updateSndWnd
  split <;> exact ⟨rfl, rfl, rfl, rfl, rfl⟩

/-- Fast retransmit gives the measurement up, unless it is done already. -/
theorem tcpRexmitFast_rtt (pcb : TcpPcb) : (tcpRexmitFast pcb).rtt = pcb.rtt ∧
    (tcpRexmitFast pcb).rtseq = pcb.rtseq ∧
    (tcpRexmitFast pcb).rttest = if pcb.unacked ≠ [] ∧
    pcb.flags.infr = false then 0 else pcb.rttest := by
  unfold tcpRexmitFast
  split
  · next hfast =>
    unfold tcpRexmit
    cases hun : pcb.unacked with
    | nil => exact absurd hun hfast.1
    | cons seg rest => exact ⟨rfl, rfl, rfl⟩
  · exact ⟨rfl, rfl, rfl⟩

/-- A duplicate ACK gives up the measurement at most. -/
theorem tcpReceiveDupAck_rtt (pcb : TcpPcb) : (tcpReceiveDupAck pcb).rtt = pcb.rtt ∧
    (tcpReceiveDupAck pcb).rtseq = pcb.rtseq ∧ (tcpReceiveDupAck pcb).rttest =
      if pcb.dupacks = 3 ∧ pcb.unacked ≠ [] ∧ pcb.flags.infr = false then 0 else pcb.rttest := by
  unfold tcpReceiveDupAck
  split
  · next hmany => exact ⟨rfl, rfl, (if_neg fun hc => by omega).symm⟩
  split
  · next hthree =>
    obtain ⟨hrtt, hseq, htest⟩ := tcpRexmitFast_rtt pcb
    refine ⟨hrtt, hseq, htest.trans (if_congr ?_ rfl rfl)⟩
    exact (and_iff_right hthree).symm
  · next hfew => exact ⟨rfl, rfl, (if_neg fun hc => hfew hc.1).symm⟩

/-- An ACK of nothing new gives up the measurement at most. -/
theorem tcpReceiveOldAck_rtt (edge : Serial) (hold : Serial.leq i.ackno pcb.lastack) :
    (tcpReceiveOldAck edge pcb i).rtt = pcb.rtt ∧ (tcpReceiveOldAck edge pcb i).rtseq = pcb.rtseq ∧
      (tcpReceiveOldAck edge pcb i).rttest = if rexmits edge pcb i then 0 else pcb.rttest := by
  unfold tcpReceiveOldAck rexmits
  split
  · next hdup =>
    obtain ⟨hrtt, hseq, htest⟩ :=
      tcpReceiveDupAck_rtt { pcb with acked := 0, dupacks := (pcb.dupacks + 1) % 2^8 }
    refine ⟨hrtt, hseq, htest.trans (if_congr ?_ rfl rfl)⟩
    obtain ⟨hlen, hedge, hrtime, hack⟩ := hdup
    exact ⟨fun hc => ⟨hold, hlen, hedge, hrtime, hack, hc⟩, fun hc => hc.2.2.2.2.2⟩
  · next hdup =>
    refine ⟨rfl, rfl, (if_neg fun hc => ?_).symm⟩
    exact hdup ⟨hc.2.1, hc.2.2.1, hc.2.2.2.1, hc.2.2.2.2.1⟩

/-- The first part of an acknowledgement. -/
theorem tcpReceiveAckno_rtt {edge : Serial} (h : tcpReceiveAckno edge pcb i = .ok pcb') :
    Traced pcb pcb' (if acksData pcb i then [.reset] else []) ∧ pcb'.rtseq = pcb.rtseq ∧
      pcb'.rttest = if rexmits edge pcb i then 0 else pcb.rttest := by
  unfold tcpReceiveAckno at h
  split at h
  · next hold =>
    cases h
    obtain ⟨hrtt, hseq, htest⟩ := tcpReceiveOldAck_rtt edge hold
    rw [if_neg fun hc : acksData pcb i => hc.1 hold]
    exact ⟨hrtt, hseq, htest⟩
  · next hold =>
    -- Nothing is retransmitted.
    rw [if_neg fun hc : rexmits edge pcb i => hold hc.1]
    split at h
    · next hnew =>
      rw [if_pos (show acksData pcb i from ⟨hold, hnew⟩)]
      unfold tcpReceiveNewAck at h
      obtain ⟨cwnd, -, h⟩ := bind_eq_ok.mp h
      obtain ⟨⟨queue, queuelen, acked⟩, -, h⟩ := bind_eq_ok.mp h
      cases h
      exact ⟨rfl, rfl, rfl⟩
    · next hnew =>
      cases h
      rw [if_neg fun hc : acksData pcb i => hnew hc.2]
      exact ⟨rfl, rfl, rfl⟩

/-- The measurement. -/
theorem estimateRtt_traced (ticks : BitVec 32) (pcb : TcpPcb) (i : In) :
    Traced pcb (estimateRtt ticks pcb i)
      (if pcb.rttest ≠ 0 ∧ Serial.lt pcb.rtseq i.ackno then [.measure (ticks - pcb.rttest).toNat]
      else []) := by
  unfold estimateRtt
  split <;> rfl

/-- What an ACK does to the estimate. -/
theorem tcpReceiveAck_traced (hflags : i.seg.flags.ack = true)
    (h : tcpReceiveAck ticks pcb i = .ok pcb') : Traced pcb pcb' (receiveOps ticks pcb i) := by
  unfold tcpReceiveAck at h
  obtain ⟨p, hp, h⟩ := bind_eq_ok.mp h
  obtain ⟨q, hq, h⟩ := bind_eq_ok.mp h
  cases h
  obtain ⟨hupd, hupd_test, hupd_seq, hupd_last, hupd_nxt⟩ := updateSndWnd_rtt pcb i
  obtain ⟨htraced, hseq, htest⟩ := tcpReceiveAckno_rtt hp
  have hunsent : q.rtt = p.rtt ∧ q.rttest = p.rttest ∧ q.rtseq = p.rtseq := by
    unfold tcpReceiveUnsent at hq
    obtain ⟨⟨queue, queuelen, acked⟩, -, hq⟩ := bind_eq_ok.mp hq
    cases hq
    exact ⟨rfl, rfl, rfl⟩
  have hmeasure := estimateRtt_traced ticks q i
  unfold receiveOps
  rw [if_pos hflags]
  have hnew : acksData (updateSndWnd pcb i) i ↔ acksData pcb i := by
    unfold acksData
    rw [hupd_last, hupd_nxt]
  rw [if_congr hnew rfl rfl] at htraced
  refine ((Traced.of_frame hupd htraced).frame hunsent.1).trans ?_
  rw [hunsent.2.1, hunsent.2.2, hseq, htest, hupd_seq, hupd_test] at hmeasure
  by_cases hrex : rexmits (pcb.snd_wl2.adv pcb.snd_wnd) (updateSndWnd pcb i) i
  · rw [if_pos hrex, if_neg fun hc => hc.1 rfl] at hmeasure
    rwa [if_neg fun hc => hc.2.2 hrex]
  · rw [if_neg hrex] at hmeasure
    have hcond : (pcb.rttest ≠ 0 ∧ Serial.lt pcb.rtseq i.ackno ∧
        ¬ rexmits (pcb.snd_wl2.adv pcb.snd_wnd) (updateSndWnd pcb i) i) ↔
        pcb.rttest ≠ 0 ∧ Serial.lt pcb.rtseq i.ackno := by
      simp only [hrex, not_false_eq_true, and_true]
    rwa [if_congr hcond rfl rfl]

/-- What `tcp_receive` does to the estimate. -/
theorem tcpReceive_traced {rx : Rx} (h : tcpReceive o ticks m pcb i = .ok rx) :
    Traced pcb rx.pcb (receiveOps ticks pcb i) := by
  obtain ⟨p, ⟨hflags, hp⟩ | ⟨hflags, rfl⟩, hdata⟩ := tcpReceive_eq_ok h
  · exact (tcpReceiveAck_traced hflags hp).frame (tcpReceiveData_dataFrame hdata).rtt
  · have hops : receiveOps ticks p i = [] := by
      unfold receiveOps
      rw [hflags]
      rfl
    rw [hops]
    exact (tcpReceiveData_dataFrame hdata).rtt

/-- A purge leaves the estimate alone. -/
theorem tcpPcbPurge_rtt (pcb : TcpPcb) : (tcpPcbPurge pcb).rtt = pcb.rtt := by
  unfold tcpPcbPurge
  split <;> rfl

/-- The states after `tcp_receive` leave the estimate. -/
theorem processReceived_rtt {rx : Rx} {st : TcpState}
    (hp : (processReceived rx i st).pcb = some pcb') : pcb'.rtt = rx.pcb.rtt := by
  refine processReceived_rule (P := fun p => p.rtt = rx.pcb.rtt) hp rfl (fun _ => rfl) rfl
    fun q hq => ?_
  have hpurge : TcpPcb.rtt { tcpPcbPurge q with state := .TIME_WAIT } = q.rtt := tcpPcbPurge_rtt q
  rcases hq with rfl | rfl
  · exact hpurge
  · exact hpurge

/-- `SYN_SENT` leaves the estimate alone. -/
theorem processSynSent_rtt {pr : Proc} (h : processSynSent m pcb i = .ok pr)
    (hp : pr.pcb = some pcb') : pcb'.rtt = pcb.rtt := by
  unfold processSynSent at h
  split at h
  · split at h
    · cases h
    · cases h
      cases hp
      rfl
  · split at h
    · obtain ⟨_, -, h⟩ := bind_eq_ok.mp h
      cases h
      cases hp
      rfl
    · cases h
      cases hp
      rfl

/-- What `SYN_RCVD` does to the estimate. -/
theorem processSynRcvd_traced {pr : Proc} (h : processSynRcvd o ticks m cb pcb i = .ok pr)
    (hp : pr.pcb = some pcb') : Traced pcb pcb' (synRcvdOps o ticks cb pcb i) := by
  unfold processSynRcvd at h
  unfold synRcvdOps
  split at h
  · next hack =>
    split at h
    · next hnew =>
      rw [if_pos ⟨hack, hnew⟩]
      obtain ⟨⟨r, out⟩, hacc, h⟩ := bind_eq_ok.mp h
      rw [hacc]
      cases r with
      | none =>
        cases h
        cases hp
      | some q =>
        dsimp only at h ⊢
        split at h
        · cases h
          cases hp
        · next haccepts =>
          rw [if_neg haccepts]
          obtain ⟨rx, hrx, h⟩ := bind_eq_ok.mp h
          cases h
          cases hp
          have hreceived : Traced pcb rx.pcb (receiveOps ticks q i) :=
            Traced.of_frame (accept_callFrame hacc).rtt (tcpReceive_traced hrx)
          apply hreceived.frame
          split <;> rfl
    · next hnew =>
      cases h
      cases hp
      rw [if_neg fun hc => hnew hc.2]
      rfl
  · next hack =>
    rw [if_neg fun hc => hack hc.1]
    split at h
    · -- The SYN is sent again.
      cases h
      cases hp
      unfold tcpRexmit
      split <;> rfl
    · cases h
      cases hp
      rfl

/-- In the states from `ESTABLISHED` on. -/
theorem processOps_est (hrst : ¬ i.seg.flags.rst = true)
    (hsyn : ¬ (i.seg.flags.syn && decide (pcb.state ≠ .SYN_SENT) &&
      decide (pcb.state ≠ .SYN_RCVD)) = true)
    (h₁ : pcb.state ≠ .SYN_SENT) (h₂ : pcb.state ≠ .SYN_RCVD) (h₃ : pcb.state ≠ .CLOSED)
    (h₄ : pcb.state ≠ .LISTEN) (h₅ : pcb.state ≠ .TIME_WAIT) :
    processOps o ticks cb pcb i = receiveOps ticks (processNote o ticks pcb i) i := by
  unfold processOps
  rw [if_neg hrst, if_neg hsyn]
  split <;> first | rfl | contradiction

/-- What `tcp_process` does to the estimate. -/
theorem tcpProcess_traced {pr : Proc} (h : tcpProcess o ticks m cb pcb i = .ok pr)
    (hp : pr.pcb = some pcb') : Traced pcb pcb' (processOps o ticks cb pcb i) := by
  unfold tcpProcess at h
  split at h
  · next hrst =>
    cases h
    unfold processOps
    rw [if_pos hrst]
    unfold processRst at hp
    dsimp only at hp
    split at hp <;> split at hp <;> cases hp
    all_goals rfl
  next hrst =>
  split at h
  · next hsyn =>
    cases h
    cases hp
    unfold processOps
    rw [if_neg hrst, if_pos hsyn]
    rfl
  next hsyn =>
  have hops : ∀ st, pcb.state = st → processOps o ticks cb pcb i = match st with
      | .SYN_RCVD => synRcvdOps o ticks cb (processNote o ticks pcb i) i
      | .SYN_SENT | .CLOSED | .LISTEN | .TIME_WAIT => []
      | _ => receiveOps ticks (processNote o ticks pcb i) i := by
    rintro st rfl
    unfold processOps
    rw [if_neg hrst, if_neg hsyn]
  have hnote : (processNote o ticks pcb i).rtt = pcb.rtt := rfl
  split at h
  · next hst =>
    rw [hops _ hst]
    exact (processSynSent_rtt h hp).trans hnote
  · next hst =>
    rw [hops _ hst]
    exact Traced.of_frame hnote (processSynRcvd_traced h hp)
  · next hst =>
    cases h
    cases hp
    rw [hops _ hst]
    exact hnote
  · next hst =>
    cases h
    cases hp
    rw [hops _ hst]
    exact hnote
  · next hst =>
    cases h
    cases hp
    rw [hops _ hst]
    exact hnote
  · next h₁ h₂ h₃ h₄ h₅ =>
    obtain ⟨rx, hrx, h⟩ := bind_eq_ok.mp h
    cases h
    rw [processOps_est hrst hsyn h₁ h₂ h₃ h₄ h₅]
    exact Traced.of_frame hnote ((tcpReceive_traced hrx).frame (processReceived_rtt hp))

/-- What `tcp_input` does to the estimate. -/
theorem tcpInput_traced {conn : Conn} {out : Bool} {sent : List Sent}
    (h : tcpInput o ticks m cb out pcb i = .ok (conn, sent)) (hp : conn.pcb? = some pcb') :
    Traced pcb pcb' (if decide (pcb.refused_data ≠ none) && !cb.takesRefused then []
      else processOps o ticks cb { pcb with refused_data := none } i) := by
  unfold tcpInput at h
  split at h
  · next hkept =>
    cases h
    cases hp
    rw [if_pos hkept]
    rfl
  next hkept =>
  rw [if_neg hkept]
  obtain ⟨pr, hpr, h⟩ := bind_eq_ok.mp h
  split at h
  · cases h
    cases hp
  next p hprp =>
  split at h
  · obtain ⟨r, -, h⟩ := bind_eq_ok.mp h
    cases h
    cases hp
  unfold tcpInputFinish at h
  obtain ⟨⟨r, out₁⟩, happ, h⟩ := bind_eq_ok.mp h
  cases r with
  | none =>
    cases h
    cases hp
  | some q =>
    obtain ⟨⟨q', out₂⟩, hout, h⟩ := bind_eq_ok.mp h
    have hq' : pcb' = q' := by
      dsimp only at h
      split at h <;> (cases h; cases hp; rfl)
    subst hq'
    -- What comes before and after `tcp_process` leaves the estimate.
    have hoffer : TcpPcb.rtt { pcb with refused_data := none } = pcb.rtt := rfl
    have hkeep : (keepRefused cb pr q).rtt = q.rtt := rfl
    have hproc := (tcpProcess_traced hpr hprp).frame (appCalls_callFrame happ).rtt
    exact Traced.of_frame hoffer ((hproc.frame hkeep).frame (tcpOutput_callFrame hout).rtt)

/-- `tcp_rexmit_rto` leaves the estimate alone. -/
theorem tcpRexmitRto_rtt {alloc : Bool} {sent : List Sent}
    (h : tcpRexmitRto ticks alloc pcb = .ok (pcb', sent)) : pcb'.rtt = pcb.rtt := by
  unfold tcpRexmitRto at h
  split at h
  · cases h
    rfl
  · exact (tcpOutput_callFrame h).rtt

/-- A timeout is backed off, but for a SYN that was not answered. -/
theorem slowtmrRto_traced {e : TickEnv} {sent : List Sent}
    (h : slowtmrRto ticks e pcb = .ok (pcb', sent)) :
    Traced pcb pcb' (if pcb.state ≠ .SYN_SENT then [.backoff (tcpBackoff.getD pcb.nrtx 0)]
    else []) := by
  unfold slowtmrRto at h
  split at h
  · cases h
  refine Eq.trans (tcpRexmitRto_rtt h) ?_
  by_cases hst : pcb.state = .SYN_SENT
  · rw [if_neg (not_not.mpr hst)]
    simp only [TcpPcb.rtt, if_pos hst, List.foldl_nil]
  · rw [if_pos hst]
    simp only [TcpPcb.rtt, if_neg hst, List.foldl_cons, List.foldl_nil, Op.apply16]

/-- What a retransmission does to the estimate. -/
theorem slowtmrRexmit_traced {e : TickEnv} {sent : List Sent}
    (h : slowtmrRexmit o ticks e pcb = .ok (pcb', sent)) : Traced pcb pcb' (slowtmrOps o pcb) := by
  unfold slowtmrRexmit at h
  unfold slowtmrOps
  split at h
  · next hmaxed =>
    cases h
    rw [if_neg fun hc => by rw [hmaxed] at hc; cases hc.1]
    rfl
  next hmaxed =>
  have hmaxed : slowtmrMaxed o pcb = false := by simpa using hmaxed
  split at h
  · next hpersist =>
    have hoff : rtoExpires pcb = false := by
      unfold rtoExpires
      rw [decide_eq_false (by omega), Bool.false_and, Bool.false_and]
    rw [if_neg fun hc => by rw [hoff] at hc; cases hc.2.1]
    have heq : slowtmrPersist e pcb = (pcb', sent) := Except.ok.inj h
    have hframe : (slowtmrPersist e pcb).1.rtt = pcb.rtt := by
      unfold slowtmrPersist tcpZeroWindowProbe
      dsimp only
      split
      · split
        · rfl
        · split <;> rfl
      · rfl
    rw [heq] at hframe
    exact hframe
  · dsimp only at h
    split at h
    · next hexp =>
      have hcond : (slowtmrMaxed o pcb = false ∧ rtoExpires pcb = true ∧ pcb.state ≠ .SYN_SENT) ↔
          pcb.state ≠ .SYN_SENT := by
        simp only [hmaxed, hexp, true_and]
      rw [if_congr hcond rfl rfl]
      exact slowtmrRto_traced h
    · next hexp =>
      rw [if_neg fun hc => hexp hc.2.1]
      cases h
      rfl

/-- What a slow tick does to the estimate. -/
theorem tcpSlowtmr_traced {e : TickEnv} {conn : Conn} {sent : List Sent}
    (h : tcpSlowtmr o ticks e pcb = .ok (conn, sent)) (hp : conn.pcb? = some pcb') :
    Traced pcb pcb' (slowtmrOps o pcb) := by
  refine (tcpSlowtmr_rule (P := fun p _ => Traced pcb p (slowtmrOps o pcb)) h
    (fun p out₁ hr _ n => ?_) (fun p q _ _ hp happ => hp.frame (appCalls_callFrame happ).rtt)
    fun p q _ _ hp hout => hp.frame (tcpOutput_callFrame hout).rtt).elim ?_ ?_
  · refine (slowtmrRexmit_traced hr).frame ?_
    unfold slowtmrOoseq slowtmrKeepalive tcpKeepalive
    dsimp only
    split
    · split <;> rfl
    · rfl
  · rintro rfl
    cases hp
  · rintro ⟨q, rfl, hq⟩
    cases hp
    exact hq

/-- A fast tick leaves the estimate alone. -/
theorem tcpFasttmr_rtt {takesRefused out : Bool} {sent : List Sent}
    (h : tcpFasttmr ticks takesRefused out pcb = .ok (pcb', sent)) : pcb'.rtt = pcb.rtt := by
  exact tcpFasttmr_rule (P := fun p _ => p.rtt = pcb.rtt) h rfl
    fun hack => (tcpAckNow_callFrame hack).rtt

/-- A segment in `TIME_WAIT` leaves the estimate alone. -/
theorem tcpTimewaitInput_rtt {out : Bool} {sent : List Sent}
    (h : tcpTimewaitInput ticks out pcb i = .ok (pcb', sent)) : pcb'.rtt = pcb.rtt := by
  exact tcpTimewaitInput_rule (P := fun p _ => p.rtt = pcb.rtt) h (fun _ => rfl)
    fun ho => (tcpOutput_callFrame ho).rtt

/-- A step of a connection does what `connOps` says. -/
theorem connStep_traced {c c' : Conn} {ev : ConnEvent} (h : connStep o c ev = .ok c')
    (hp : c'.pcb? = some pcb') : ∃ pcb, c.pcb? = some pcb ∧ Traced pcb pcb' (connOps o c ev) := by
  unfold connStep at h
  split at h
  · next pcb ticks call =>
    obtain ⟨⟨r, sent⟩, hcall, h⟩ := bind_eq_ok.mp h
    cases h
    cases r with
    | none => cases hp
    | some q =>
      cases hp
      exact ⟨pcb, rfl, (appCall_callFrame hcall).rtt⟩
  · next pcb ticks alloc =>
    obtain ⟨⟨q, sent⟩, hout, h⟩ := bind_eq_ok.mp h
    cases h
    cases hp
    exact ⟨pcb, rfl, (tcpOutput_callFrame hout).rtt⟩
  · next pcb ticks e =>
    obtain ⟨⟨q, sent⟩, htick, h⟩ := bind_eq_ok.mp h
    cases h
    exact ⟨pcb, rfl, tcpSlowtmr_traced htick hp⟩
  · next pcb ticks takesRefused out =>
    obtain ⟨⟨q, sent⟩, htick, h⟩ := bind_eq_ok.mp h
    cases h
    cases hp
    exact ⟨pcb, rfl, tcpFasttmr_rtt htick⟩
  · next pcb ticks m cb out i =>
    obtain ⟨⟨q, sent⟩, hin, h⟩ := bind_eq_ok.mp h
    cases h
    exact ⟨pcb, rfl, tcpInput_traced hin hp⟩
  · next pcb ticks m cb out i =>
    obtain ⟨⟨q, sent⟩, hin, h⟩ := bind_eq_ok.mp h
    cases h
    cases hp
    exact ⟨pcb, rfl, tcpTimewaitInput_rtt hin⟩
  · next pcb ticks e =>
    cases h
    unfold tcpSlowtmrTimeWait at hp
    split at hp
    · cases hp
    · cases hp
      exact ⟨pcb', rfl, rfl⟩
  · next h₁ h₂ h₃ h₄ h₅ h₆ h₇ =>
    cases h
    have hops : connOps o c ev = [] := by
      unfold connOps
      split
      · next pcb ticks e => exact absurd rfl (h₃ pcb ticks e rfl)
      · next pcb ticks m cb out i => exact absurd rfl (h₅ pcb ticks m cb out i rfl)
      · rfl
    rw [hops]
    exact ⟨pcb', hp, rfl⟩

end Functions

end Rtt

/-! ## Every run -/

section Life

variable {o : Opts} {c c' : Option Conn} {e : LifeEvent}

/-- The fields after an event are those of its operations. -/
theorem lifeStep_rtt {pcb' : TcpPcb} (h : lifeStep o c e = .ok c')
    (hp : c'.bind Conn.pcb? = some pcb') :
    pcb'.rtt = (rttOps o c e).foldl Rtt.Op.apply16 (lifeRtt c) := by
  unfold lifeStep at h
  split at h
  · next mtu e i =>
    obtain ⟨⟨r, sent⟩, hl, h⟩ := bind_eq_ok.mp h
    cases h
    cases r with
    | none => cases hp
    | some q =>
      cases hp
      obtain ⟨p, henq, hout⟩ := tcpListenInput_eq_ok hl
      exact ((tcpEnqueue_callFrame henq).trans (tcpOutput_callFrame hout)).rtt
  · next mtu e =>
    obtain ⟨r, hl, h⟩ := bind_eq_ok.mp h
    cases h
    cases r with
    | none => cases hp
    | some r =>
      cases hp
      unfold tcpConnect at hl
      split at hl
      · cases hl
      obtain ⟨⟨err, p⟩, henq, hl⟩ := bind_eq_ok.mp hl
      have hframe := (tcpEnqueue_callFrame henq).rtt
      split at hl
      · obtain ⟨⟨q, out⟩, hout, hl⟩ := bind_eq_ok.mp hl
        cases hl
        exact (tcpOutput_callFrame hout).rtt.trans hframe
      · cases hl
        exact hframe
  · next c ev =>
    obtain ⟨c₁, hstep, h⟩ := bind_eq_ok.mp h
    cases h
    obtain ⟨pcb, hpcb, htraced⟩ := Rtt.connStep_traced hstep hp
    have hrtt : lifeRtt (some c) = pcb.rtt := by
      unfold lifeRtt
      rw [Option.bind_some, hpcb]
      rfl
    rw [hrtt]
    exact htraced
  · next h₁ h₂ h₃ =>
    cases h
    have hops : rttOps o c e = [] := by
      unfold rttOps
      split
      · next c ev => exact absurd rfl (h₃ c ev rfl)
      · rfl
    rw [hops]
    unfold lifeRtt
    rw [hp]
    rfl

/-- A connection that is gone stays gone. -/
theorem lifeStep_gone (h : lifeStep o (some .gone) e = .ok c') : c' = some .gone := by
  cases e <;> (cases h; rfl)

/-- There is no connection afterwards only if there was none before. -/
theorem lifeStep_none (h : lifeStep o c e = .ok none) : c = none := by
  cases c with
  | none => rfl
  | some c =>
    unfold lifeStep at h
    cases e with
    | tcp_listen_input mtu e i => cases h
    | tcp_connect mtu e => cases h
    | on ev =>
      obtain ⟨c₁, -, h⟩ := bind_eq_ok.mp h
      cases h

/-- As long as the connection is there. -/
theorem lifeRtt_step (h : lifeStep o c e = .ok c') (hgone : c' ≠ some .gone) :
    c ≠ some .gone ∧ lifeRtt c' = (rttOps o c e).foldl Rtt.Op.apply16 (lifeRtt c) := by
  constructor
  · rintro rfl
    exact hgone (lifeStep_gone h)
  · cases hp : c'.bind Conn.pcb? with
    | some pcb =>
      have hrtt : lifeRtt c' = pcb.rtt := by
        unfold lifeRtt
        rw [hp]
        rfl
      exact hrtt.trans (lifeStep_rtt h hp)
    | none =>
      -- The connection was not set up.
      cases c' with
      | some c' => cases c' with
        | active pcb => cases hp
        | timeWait pcb => cases hp
        | gone => exact absurd rfl hgone
      | none =>
        rw [lifeStep_none h]
        rfl

/-- The invariant. -/
structure RttInv (s : Option Conn × Rtt) : Prop where
  ok : s.2.Ok
  same : s.1 ≠ some .gone → lifeRtt s.1 = s.2

/-- With the invariant the two estimates are the same. -/
theorem RttInv.exact {s : Option Conn × Rtt} (hs : RttInv s) : RttExact s := by
  intro pcb hp
  have hthere : s.1 ≠ some .gone := by
    rintro hgone
    rw [hgone] at hp
    cases hp
  have hrtt : lifeRtt s.1 = pcb.rtt := by
    unfold lifeRtt
    rw [hp]
    rfl
  have hsame := hrtt.symm.trans (hs.same hthere)
  exact ⟨hsame, by rw [show pcb.rto = s.2.rto from congrArg Rtt.rto hsame]; exact hs.ok.rto_pos⟩

/-- A step that fits is right, and keeps the invariant. -/
theorem RttInv.step {s s' : Option Conn × Rtt} (hs : RttInv s) (hfits : RttFits o s e)
    (h : rttStep o s e = .ok s') : RttInv s' := by
  obtain ⟨c', hstep, h⟩ := bind_eq_ok.mp h
  cases h
  by_cases hgone : s.1 = some .gone
  · -- Nothing is done any more.
    rw [hgone] at hstep
    have hc' := lifeStep_gone hstep
    have hops : rttOps o s.1 e = [] := by
      rw [hgone]
      cases e <;> rfl
    rw [hops, hc']
    exact ⟨hs.ok, fun hne => absurd rfl hne⟩
  · have hsame := hs.same hgone
    unfold RttFits at hfits
    rw [hsame] at hfits
    obtain ⟨hfold, hok, -⟩ := hs.ok.fold hfits
    refine ⟨hok, fun hne => ?_⟩
    rw [(lifeRtt_step hstep hne).2, hsame, hfold]

/-- With the invariant a step that fits is right. -/
theorem RttInv.right {s : Option Conn × Rtt} (hs : RttInv s) (hfits : RttFits o s e) :
    RttRight o s e := by
  by_cases hgone : s.1 = some .gone
  · have hops : rttOps o s.1 e = [] := by
      rw [hgone]
      cases e <;> rfl
    unfold RttRight
    rw [hops]
    trivial
  · have hsame := hs.same hgone
    unfold RttFits at hfits
    unfold RttRight
    rw [hsame] at hfits ⊢
    exact (hs.ok.fold hfits).2.2

end Life

/-- In every run of a connection in which no measured round trip and no backed-off timeout is too
long, `sa`, `sv` and `rto` have the values that the updates give without a width, and every update
leaves a timeout of at least one tick. -/
theorem rto_exact (o : Opts) (es : List LifeEvent)
    (h : Along (rttStep o) (RttFits o) (none, {}) es) :
    Always (rttStep o) RttExact (none, {}) es ∧ Along (rttStep o) (RttRight o) (none, {}) es := by
  have hinit : RttInv (none, {}) := ⟨Rtt.ok_default, fun _ => rfl⟩
  have hstep : ∀ s e s', RttInv s → RttFits o s e → rttStep o s e = .ok s' → RttInv s' :=
    fun s e s' hs hfits hstep => hs.step hfits hstep
  constructor
  · rintro es' es'' s rfl hr
    exact (run_invariant hstep hinit h.left hr).exact
  · exact run_along hstep (fun s e hs hfits => hs.right hfits) hinit h

instance (o : Opts) (s : Option Conn × Rtt) (e : LifeEvent) : Decidable (RttFits o s e) :=
  inferInstanceAs (Decidable (Rtt.Fit _ _))

/-- A segment of the peer. -/
def peerSeg (seqno : Serial) (flags : TcpFlags) (p : List UInt8) (ackno : Serial) : In :=
  { seg := { seqno, len := p.length, p, flags }, ackno, wnd := 1000 }

/-- An active open at tick 1, and the answer of the peer. -/
def openRun : List LifeEvent :=
  [.tcp_connect 1500 { ticks := 1, iss := 1 },
    .on (.input 1 { mtu := 1500 } {} true (peerSeg 0 { syn := true, ack := true } [] 1))]

/-- The next `n` ticks. -/
def idleRun (n : ℕ) : List LifeEvent :=
  (List.range n).map fun k => .on (.slowtmr (BitVec.ofNat 32 (k + 2)) {})

/-- The peer sends an octet, at this tick. -/
def octetRun (ticks : BitVec 32) : List LifeEvent :=
  [.on (.input ticks { mtu := 1500 } {} true (peerSeg 1 { ack := true } [0] 1))]

/-- The application writes ten octets; they are lost, and retransmitted when the timer expires. -/
def lossRun : List LifeEvent :=
  [.on (.call 4 (.write (fun _ => true) (List.replicate 10 0) true false)), .on (.output 4 true)] ++
    (List.range 9).map (fun k => .on (.slowtmr (BitVec.ofNat 32 (k + 5)) {})) ++
    [.on (.input 14 { mtu := 1500 } {} true (peerSeg 2 { ack := true } [] 11))]

/-- A run with a measurement and a loss has exact timeouts. -/
theorem rto_exact_lossRun :
    Always (rttStep .shipped) RttExact (none, {}) (openRun ++ idleRun 3 ++ octetRun 4 ++ lossRun) ∧
      Along (rttStep .shipped) (RttRight .shipped) (none, {})
        (openRun ++ idleRun 3 ++ octetRun 4 ++ lossRun) :=
  rto_exact .shipped _ (by decide +kernel)

/-- The pcb between the open and the first segment of the peer. The measurement that was started by
the SYN still runs. -/
def idlePcb : TcpPcb :=
  { TcpPcb.established .shipped 0 0 1000 with tmr := 1, rttest := 1, snd_wl2 := 1 }

/-- A tick leaves an idle connection as it is. -/
theorem tcpSlowtmr_idlePcb (ticks : BitVec 32) :
    tcpSlowtmr .shipped ticks {} idlePcb = .ok (.active idlePcb, []) := by
  have hooseq : slowtmrOoseq ticks idlePcb = idlePcb := by
    unfold slowtmrOoseq
    rw [show idlePcb.ooseq = [] from rfl, ite_self]
    rfl
  have hrexmit : slowtmrRexmit .shipped ticks {} idlePcb = .ok (idlePcb, []) := rfl
  have hkeep : slowtmrKeepalive ticks {} idlePcb = (idlePcb, []) := rfl
  have hstays : slowtmrRemoves .shipped ticks idlePcb idlePcb = false := rfl
  have hpoll : slowtmrPoll .shipped ticks {} idlePcb = .ok (.active idlePcb, []) := rfl
  unfold tcpSlowtmr
  simp only [hrexmit, bind, Except.bind, hkeep, hooseq, hstays, hpoll]
  rfl

/-- A connection that is idle stays as it is. -/
theorem run_idleRun (t : Rtt) (n : ℕ) :
    run (rttStep .shipped) (some (.active idlePcb), t) (idleRun n) = .ok
    (some (.active idlePcb), t) := by
  unfold idleRun
  induction List.range n with
  | nil => rfl
  | cons k ks ih =>
    have hstep : rttStep .shipped (some (.active idlePcb), t)
        (.on (.slowtmr (BitVec.ofNat 32 (k + 2)) {})) = .ok (some (.active idlePcb), t) := by
      unfold rttStep lifeStep connStep
      dsimp only
      rw [tcpSlowtmr_idlePcb]
      rfl
    rw [List.map_cons]
    unfold run
    rw [hstep]
    exact ih

/-- The connection is open, and has been idle since. -/
theorem run_openRun (n : ℕ) :
    run (rttStep .shipped) (none, {}) (openRun ++ idleRun n) = .ok
    (some (.active idlePcb), {}) := by
  have hopen : run (rttStep .shipped) (none, {}) openRun = .ok (some (.active idlePcb), {}) := rfl
  rw [run_append, hopen]
  exact run_idleRun {} n

/-- After four hours the first segment of the peer measures a round trip of 30000 ticks, from the
SYN on, and the timeout wraps to a negative value. -/
theorem idle_connection_wraps :
    ¬ ∀ es, Always (rttStep .shipped) RttExact (none, {}) es ∧
      Along (rttStep .shipped) (RttRight .shipped) (none, {}) es := by
  intro h
  have hright := (h (openRun ++ idleRun 30000 ++ octetRun 30001)).2.right (run_openRun 30000)
  have hwraps : ¬ Rtt.Right [.measure 30000] {} := by decide
  exact hwraps hright.1

end Lwip.Tcp
