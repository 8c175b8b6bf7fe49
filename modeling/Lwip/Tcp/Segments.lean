import Lwip.Tcp.Enqueue
import Lwip.Tcp.Sender

/-!
# The loop of `tcp_enqueue`

What a call that returns `ERR_OK` should have done to `unsent` is `Segmented`: the bytes are there,
in order and one behind the other, in segments that with their options keep to the MSS. `SplitsWhen`
is the exact condition for this. It fails in two ways. A glued segment is compared with the MSS
without its options. And if the options are longer than the MSS, the segment length wraps. Of the
loop this module says what it has built when it comes to its end (`Built`), and when it does so.
-/

namespace Lwip.Tcp.Enqueue

/-! ## What should come of a call -/

/-- The segments carry `data` from `seqno` on, one behind the other. -/
def Carries : Serial → List UInt8 → List TcpSeg → Prop
  | _, data, [] => data = []
  | seqno, data, s :: segs => s.seqno = seqno ∧ s.len ≤ data.length ∧ s.data = data.take s.len ∧
    Carries (seqno.adv s.len) (data.drop s.len) segs

/-- The segments that a call created or extended: each keeps to the MSS with its options, one with a
SYN has no data, and a FIN, if there is to be one, is in the last alone. -/
structure Fitting (mss optlen : ℕ) (fin : Bool) (segs : List TcpSeg) : Prop where
  len : ∀ s ∈ segs, s.len + optlen ≤ mss
  syn : ∀ s ∈ segs, s.flags.syn = true → s.len = 0
  fin : ∀ init last, segs = init ++ [last] →
    last.flags.fin = fin ∧ ∀ s ∈ init, s.flags.fin = false
  ne : segs ≠ []

/-- The data are in new segments behind `unsent`, or the first of them are in its last segment. -/
def Segmented (pcb pcb' : Pcb) (arg : List UInt8) (fin : Bool) (optlen : ℕ) : Prop :=
  (∃ segs, pcb'.unsent = pcb.unsent ++ segs ∧ Carries pcb.snd_lbb arg segs ∧
      Fitting pcb.mss optlen fin segs) ∨
    ∃ init u u' segs k, pcb.unsent = init ++ [u] ∧ pcb'.unsent = init ++ u' :: segs ∧
      u'.seqno = u.seqno ∧ u.seqno.adv u.len = pcb.snd_lbb ∧ k ≤ arg.length ∧ u'.len = u.len + k ∧
      u'.data = u.data ++ arg.take k ∧ Carries (pcb.snd_lbb.adv k) (arg.drop k) segs ∧
      Fitting pcb.mss optlen fin (u' :: segs)

section Statement

variable (o : Opts) (pcb : Pcb) (arg : List UInt8) (flags : TcpFlags) (copy more : Bool)
  (optflags : OptFlags)

/-- Whatever the outcomes of the allocations, the loop comes to its end, and `ERR_OK` means that the
data are segmented. -/
def Splits : Prop := ∀ alloc,
  (∀ stop, tcpEnqueue o alloc pcb arg flags copy more optflags = .error stop →
    stop ≠ .rounds ∧ stop ≠ .abort .firstPbufTooShort) ∧
  ∀ pcb' m, tcpEnqueue o alloc pcb arg flags copy more optflags = .ok (.OK, pcb', m) →
    Segmented pcb pcb' arg flags.fin optflags.length

/-- The call passes the checks in front of its loop. -/
def Enters : Prop :=
  (arg.length ≠ 0 ∨ optflags ≠ {} ∨ flags.syn ∨ flags.fin) ∧ arg.length ≤ pcb.snd_buf ∧
    pcb.snd_queuelen < o.TCP_SND_QUEUELEN ∧ pcb.snd_queuelen ≤ TCP_SNDQUEUELEN_OVERFLOW ∧
    (pcb.snd_queuelen = 0 ∨ pcb.unacked ≠ [] ∨ pcb.unsent ≠ []) ∧
    (pcb.snd_queuelen ≠ 0 ∨ pcb.unacked = [] ∧ pcb.unsent = [])

/-- The limits of the queue allow `n` pbufs. -/
def Limit (n : ℕ) : Prop := n ≤ o.TCP_SND_QUEUELEN ∧ n ≤ TCP_SNDQUEUELEN_OVERFLOW

/-- The number of segments for `len` bytes with up to `room` in each. -/
def segCount (room len : ℕ) : ℕ := if len = 0 then 1 else (len + room - 1) / room

/-- The number of pbufs of `n` segments. -/
def pbufCount (copy : Bool) (len n : ℕ) : ℕ := if copy then n else if len = 0 then 1 else 2 * n

/-- The first new segment. -/
def firstSeg : TcpSeg :=
  { seqno := pcb.snd_lbb, len := min arg.length (pcb.mss - optflags.length), optflags,
    cell := 0, p := [] }

/-- With data, FIN is not glued; without, nothing else is. -/
def GlueStops : Prop := flags.fin = true ∧ arg.length ≠ 0 ∨ flags.fin = false ∧ arg.length = 0

/-- What the segments meet if the options fit in the MSS. -/
def SegmentsFit : Prop :=
  match pcb.unsent.getLast?.filter fun u => glues pcb flags u (firstSeg pcb arg optflags) with
  | some u => GlueStops arg flags ∨
    u.len + min arg.length (pcb.mss - optflags.length) + optflags.length ≤ pcb.mss
  | none => (flags.syn = true → arg.length = 0) ∧
    (flags.fin = true → arg.length ≤ pcb.mss - optflags.length)

/-- The number of pbufs of `k` rounds without copies. -/
def wrapPbufs (left k : ℕ) : ℕ := if left = 0 then 2 * k - 1 else 2 * k

/-- A length that wraps, of all but `optlen - mss` of `2^16` bytes, comes to an end after `k`
rounds. -/
def WrapsToEnd : Prop :=
  ∃ k, 0 < k ∧ 2^16 ∣ arg.length + k * (optflags.length - pcb.mss) ∧
    Limit o (pcb.snd_queuelen + wrapPbufs arg.length k)

/-- The condition on the pcb, the data and the flags. -/
def SplitsWhen : Prop :=
  Enters o pcb arg flags optflags →
    (pcb.mss < optflags.length → copy = false ∧ ¬ WrapsToEnd o pcb arg optflags) ∧
    (optflags.length ≤ pcb.mss → arg.length = 0 ∨ optflags.length < pcb.mss →
      Limit o (pcb.snd_queuelen + pbufCount copy arg.length
        (segCount (pcb.mss - optflags.length) arg.length)) →
      SegmentsFit pcb arg flags optflags)

end Statement

/-! ## A round of the loop -/

section Round

variable {o : Opts} {alloc : ℕ → Bool} {mss rounds base left queuelen queuelen' : ℕ}
  {flags : TcpFlags}
  {copy : Bool} {optflags : OptFlags} {queue queue' : List TcpSeg} {ptr : List UInt8}
  {seqno : Serial} {m m' : Ledger}

/-- The number of pbufs of a segment. -/
def pbufsOf (copy : Bool) (left : ℕ) : ℕ := if !copy && decide (left > 0) then 2 else 1

/-- A round of a loop that comes to its end. -/
theorem loop_round (h : loop o alloc mss flags copy optflags
    (rounds + 1) base queue ptr left seqno queuelen m =
      .ok (.done queue' queuelen' m')) :
    ∃ p m₁, p.length = pbufsOf copy left ∧ Limit o (queuelen + p.length) ∧
      ((0 < u16sub left (segLen mss optflags.length left) ∧
          loop o alloc mss flags copy optflags rounds (base + 3)
            (queue ++ [⟨seqno, segLen mss optflags.length left, flags,
              ptr.take (segLen mss optflags.length left), optflags, base, p⟩])
            (ptr.drop (segLen mss optflags.length left))
            (u16sub left (segLen mss optflags.length left))
            (seqno.adv (segLen mss optflags.length left)) (queuelen + p.length) m₁ =
              .ok (.done queue' queuelen' m')) ∨
        (u16sub left (segLen mss optflags.length left) = 0 ∧
          queue' = queue ++ [⟨seqno, segLen mss optflags.length left, flags,
            ptr.take (segLen mss optflags.length left), optflags, base, p⟩] ∧
          queuelen' = queuelen + p.length)) := by
  have hfst := newPbufs_fst alloc copy left (base + 1) (m.give base)
  unfold loop at h
  dsimp only at h
  split at h
  · split at h
    · cases h
    · next p m₁ hnew =>
      rw [hnew] at hfst
      rcases hfst with ⟨hnone, -⟩ | ⟨p', hsome, -, hlen⟩
      · cases hnone
      · cases hsome
        obtain ⟨_, -, h⟩ := bind_eq_ok.mp h
        split at h
        · cases h
        · next hlimit =>
          have hlimit : Limit o (queuelen + p.length) := by
            unfold Limit
            omega
          split at h
          · next hmore => exact ⟨p, m₁, hlen, hlimit, .inl ⟨hmore, h⟩⟩
          · next hmore =>
            cases h
            exact ⟨p, m', hlen, hlimit, .inr ⟨by omega, rfl, rfl⟩⟩
  · cases h

variable (rounds base flags queue ptr seqno m) in
/-- A round with memory for all. -/
theorem loop_round_ok (halloc : ∀ n, alloc n = true)
    (hfits : copy = false ∨ u16 (segLen mss optflags.length left + optflags.length) ≥
      segLen mss optflags.length left + optflags.length)
    (hlimit : Limit o (queuelen + pbufsOf copy left)) :
    ∃ p m₁, p.length = pbufsOf copy left ∧
      loop o alloc mss flags copy optflags (rounds + 1) base queue ptr left seqno queuelen m =
        if 0 < u16sub left (segLen mss optflags.length left) then
          loop o alloc mss flags copy optflags rounds (base + 3)
            (queue ++ [⟨seqno, segLen mss optflags.length left, flags,
              ptr.take (segLen mss optflags.length left), optflags, base, p⟩])
            (ptr.drop (segLen mss optflags.length left))
            (u16sub left (segLen mss optflags.length left))
            (seqno.adv (segLen mss optflags.length left)) (queuelen + p.length) m₁
        else .ok (.done (queue ++ [⟨seqno, segLen mss optflags.length left, flags,
          ptr.take (segLen mss optflags.length left), optflags, base, p⟩])
          (queuelen + p.length) m₁) := by
  have hfst := newPbufs_fst alloc copy left (base + 1) (m.give base)
  rw [loop, if_pos (halloc base)]
  generalize newPbufs alloc copy left (base + 1) (m.give base) = r at hfst
  obtain ⟨p?, m₁⟩ := r
  rcases hfst with ⟨-, hfail⟩ | ⟨p, hsome, -, hlen⟩
  · simp [halloc] at hfail
  · obtain rfl : p? = some p := hsome
    have hno : ¬ (queuelen + p.length > o.TCP_SND_QUEUELEN ∨
        queuelen + p.length > TCP_SNDQUEUELEN_OVERFLOW) := by
      rw [hlen]
      obtain ⟨h₁, h₂⟩ := hlimit
      unfold pbufsOf at h₁ h₂
      omega
    refine ⟨p, m₁, hlen, ?_⟩
    dsimp only
    rw [show lwipAssert (Stop.abort .firstPbufTooShort) _ = .ok () from if_pos hfits]
    exact if_neg hno

end Round

/-! ## The loop if the options fit in the MSS -/

section Fits

variable {o : Opts} {alloc : ℕ → Bool} {mss rounds base left queuelen queuelen' room optlen : ℕ}
  {flags : TcpFlags} {copy : Bool} {optflags : OptFlags} {queue queue' : List TcpSeg}
  {ptr : List UInt8} {seqno : Serial} {m m' : Ledger}

/-- A segment takes what is left, up to the room of one. -/
theorem segLen_eq_min (hopt : optlen ≤ mss) (hmss : mss ≤ 0xffff) :
    segLen mss optlen left = min left (mss - optlen) := by
  unfold segLen
  split
  · rw [u16sub_of_le hmss hopt]
    omega
  · omega

/-- What fits into one segment takes one. -/
theorem segCount_of_le (h : left ≤ room) : segCount room left = 1 := by
  unfold segCount
  split
  · rfl
  · exact Nat.div_eq_of_lt_le (by omega) (by omega)

/-- What does not fit takes a segment more than the rest. -/
theorem segCount_of_gt (hroom : 0 < room) (h : room < left) :
    segCount room left = segCount room (left - room) + 1 := by
  unfold segCount
  rw [if_neg (by omega), if_neg (by omega), show left + room - 1 = left - room + room - 1 + room by
    omega, Nat.add_div_right _ hroom]

/-- The pbufs of what fits into one segment. -/
theorem pbufCount_of_le (h : left ≤ room) :
    pbufCount copy left (segCount room left) = pbufsOf copy left := by
  rw [segCount_of_le h]
  unfold pbufCount pbufsOf
  cases copy with
  | true => rfl
  | false => by_cases hleft : left = 0 <;> simp [hleft, Nat.pos_iff_ne_zero]

variable (copy) in

/-- The pbufs of a full segment, and of the rest. -/
theorem pbufCount_of_gt (hroom : 0 < room) (h : room < left) :
    pbufsOf copy (left - room) = pbufsOf copy left ∧
      pbufCount copy left (segCount room left) =
        pbufsOf copy left + pbufCount copy (left - room) (segCount room (left - room)) := by
  have hpos : left > 0 := by omega
  have hpos' : left - room > 0 := by omega
  rw [segCount_of_gt hroom h]
  unfold pbufCount pbufsOf
  cases copy with
  | true => simp [Nat.add_comm]
  | false =>
    simp only [Bool.not_false, Bool.true_and, hpos, hpos', decide_true, if_true,
      if_neg (Nat.ne_of_gt hpos),
      if_neg (Nat.ne_of_gt hpos'), Bool.false_eq_true, if_false, true_and]
    omega

/-- The segments of a loop that comes to its end. -/
structure Built (o : Opts) (room left : ℕ) (flags : TcpFlags) (copy : Bool) (optflags : OptFlags)
    (ptr : List UInt8) (seqno : Serial) (queuelen queuelen' : ℕ) (q : TcpSeg) (qs : List TcpSeg) :
    Prop where
  carries : Carries seqno ptr (q :: qs)
  each : ∀ s ∈ q :: qs, s.len ≤ room ∧ s.flags = flags ∧ s.optflags = optflags ∧
    s.p.length = pbufsOf copy left
  first : q.len = min left room ∧ q.seqno = seqno ∧ q.data = ptr.take q.len
  single : qs = [] ↔ left ≤ room
  pbufs : queuelen' = queuelen + pbufCount copy left (segCount room left)
  limit : Limit o queuelen'

/-- The loop makes as many segments and pbufs as it should. -/
theorem loop_done (hopt : optflags.length ≤ mss) (hmss : mss ≤ 0xffff)
    (hroom : left = 0 ∨ optflags.length < mss) (hleft : left ≤ 0xffff) (hptr : ptr.length = left)
    (h : loop o alloc mss flags copy optflags rounds base queue ptr left seqno queuelen m =
      .ok (.done queue' queuelen' m')) :
    ∃ q qs, queue' = queue ++ q :: qs ∧
      Built o (mss - optflags.length) left flags copy optflags ptr seqno
      queuelen queuelen' q qs := by
  induction rounds generalizing base queue ptr left seqno queuelen m with
  | zero => cases h
  | succ rounds ih =>
    obtain ⟨p, m₁, hlen, hlimit, hround⟩ := loop_round h
    rw [segLen_eq_min hopt hmss] at hround
    have hrest : u16sub left (min left (mss - optflags.length)) =
        left - (mss - optflags.length) := by
      rw [u16sub_of_le hleft (Nat.min_le_left _ _)]
      omega
    rw [hrest] at hround
    generalize hr : mss - optflags.length = room at hround
    have hroom' : left = 0 ∨ 0 < room := hroom.imp_right fun h => by omega
    rcases hround with ⟨hmore, h⟩ | ⟨hdone, rfl, rfl⟩
    · have hmin : min left room = room := by omega
      rw [hmin] at h
      obtain ⟨q, qs, rfl, hb⟩ := ih (.inr (by omega)) (by omega) (by rw [List.length_drop, hptr]) h
      rw [hr] at hb
      obtain ⟨hsame, hcount⟩ := pbufCount_of_gt copy (show 0 < room by omega)
        (show room < left by omega)
      refine ⟨_, q :: qs, List.append_assoc _ _ _, ?_⟩
      constructor
      · have hle : room ≤ ptr.length := by omega
        exact ⟨rfl, hle, rfl, hb.carries⟩
      · intro s hs
        rcases List.mem_cons.mp hs with rfl | hs
        · exact ⟨Nat.le_refl room, rfl, rfl, hlen⟩
        · rw [← hsame]
          exact hb.each s hs
      · exact ⟨hmin.symm, rfl, rfl⟩
      · exact iff_of_false (List.cons_ne_nil q qs) (by omega)
      · rw [hb.pbufs, hcount, hlen]
        omega
      · exact hb.limit
    · have hle : left ≤ room := by omega
      have hmin : min left room = left := Nat.min_eq_left hle
      rw [hmin]
      refine ⟨_, [], rfl, ?_⟩
      constructor
      · refine ⟨rfl, hptr.ge, rfl, ?_⟩
        rw [← hptr]
        exact List.drop_length
      · intro s hs
        rw [List.mem_singleton.mp hs]
        exact ⟨hle, rfl, rfl, hlen⟩
      · exact ⟨hmin.symm, rfl, rfl⟩
      · exact iff_of_true rfl hle
      · rw [pbufCount_of_le hle, hlen]
      · exact hlimit

/-- With memory for all, the loop comes to its end within the limits. -/
theorem loop_ok (halloc : ∀ n, alloc n = true) (hopt : optflags.length ≤ mss) (hmss : mss ≤ 0xffff)
    (hroom : left = 0 ∨ optflags.length < mss) (hleft : left ≤ 0xffff)
    (hlimit : Limit o (queuelen + pbufCount copy left (segCount (mss - optflags.length) left)))
    (hrounds : segCount (mss - optflags.length) left ≤ rounds) :
    ∃ queue' queuelen' m', loop o alloc mss flags copy optflags rounds base queue
    ptr left seqno queuelen m =
      .ok (.done queue' queuelen' m') := by
  induction rounds generalizing base queue ptr left seqno queuelen m with
  | zero =>
    exfalso
    unfold segCount at hrounds
    split at hrounds
    · omega
    · have := Nat.div_pos (a := left + (mss - optflags.length) - 1) (b := mss - optflags.length)
        (by omega) (by omega)
      omega
  | succ rounds ih =>
    have hfits := (@segLen_fits mss optflags.length left hopt hmss).2
    have hrest : u16sub left (segLen mss optflags.length left) =
        left - (mss - optflags.length) := by
      rw [segLen_eq_min hopt hmss, u16sub_of_le hleft (Nat.min_le_left _ _)]
      omega
    by_cases hmore : left ≤ mss - optflags.length
    · rw [pbufCount_of_le hmore] at hlimit
      obtain ⟨p, m₁, -, hround⟩ := loop_round_ok rounds base flags queue ptr
        seqno m halloc (.inr hfits) hlimit
      rw [hround, if_neg (by omega)]
      exact ⟨_, _, _, rfl⟩
    · have hpos : 0 < mss - optflags.length := by omega
      obtain ⟨-, hcount⟩ := pbufCount_of_gt copy hpos (Nat.lt_of_not_le hmore)
      rw [hcount, ← Nat.add_assoc] at hlimit
      have hfirst : Limit o (queuelen + pbufsOf copy left) := by
        obtain ⟨h₁, h₂⟩ := hlimit
        unfold Limit
        omega
      obtain ⟨p, m₁, hlen, hround⟩ := loop_round_ok rounds base flags queue ptr
        seqno m halloc (.inr hfits) hfirst
      rw [hround, if_pos (by omega), hrest]
      rw [segCount_of_gt hpos (Nat.lt_of_not_le hmore)] at hrounds
      refine ih (.inr (by omega)) (by omega) ?_ (by omega)
      rwa [hlen]

end Fits

/-! ## The loop if the options are as long as the MSS, or longer -/

section Wraps

variable {o : Opts} {alloc : ℕ → Bool} {mss rounds base left queuelen queuelen' : ℕ}
  {flags : TcpFlags} {copy : Bool} {optflags : OptFlags} {queue queue' : List TcpSeg}
  {ptr : List UInt8} {seqno : Serial} {m m' : Ledger}

/-- Segments of no bytes: the loop does not come to its end. -/
theorem loop_empty (hopt : optflags.length = mss) (hpos : 0 < left) (hleft : left ≤ 0xffff) :
    loop o alloc mss flags copy optflags rounds base queue ptr left seqno queuelen m ≠
      .ok (.done queue' queuelen' m') := by
  induction rounds generalizing base queue ptr seqno queuelen m with
  | zero => nofun
  | succ rounds ih =>
    intro h
    have hseg : segLen mss optflags.length left = 0 := by
      unfold segLen u16sub
      rw [hopt, if_pos (by omega)]
      omega
    obtain ⟨p, m₁, -, -, ⟨-, h⟩ | ⟨hdone, -⟩⟩ := loop_round h
    · rw [hseg, u16sub_of_le hleft (Nat.zero_le left)] at h
      exact ih h
    · rw [hseg, u16sub_of_le hleft (Nat.zero_le left)] at hdone
      omega

/-- The options of a segment are short. -/
theorem OptFlags.length_le (optflags : OptFlags) : optflags.length ≤ 16 := by
  unfold OptFlags.length
  split <;> split <;> decide

/-- The length wraps, and what is left grows. -/
theorem segLen_wraps (hopt : mss < optflags.length) (hleft : left ≤ 0xffff) :
    segLen mss optflags.length left = 2^16 - (optflags.length - mss) ∧
      u16sub left (segLen mss optflags.length left) = (left + (optflags.length - mss)) % 2^16 := by
  have hle := optflags.length_le
  have hseg : segLen mss optflags.length left = 2^16 - (optflags.length - mss) := by
    unfold segLen u16sub
    rw [if_pos (by omega)]
    omega
  refine ⟨hseg, ?_⟩
  rw [hseg]
  unfold u16sub
  omega

/-- Without copies a segment is one round. -/
theorem pbufsOf_false : pbufsOf false left = wrapPbufs left 1 := by
  unfold pbufsOf wrapPbufs
  by_cases hleft : left = 0 <;> simp [hleft, Nat.pos_iff_ne_zero]

/-- A round more without copies. -/
theorem pbufsOf_add {k rest : ℕ} (hk : 0 < k) (hrest : 0 < rest) :
    pbufsOf false left + wrapPbufs rest k = wrapPbufs left (k + 1) := by
  rw [pbufsOf_false]
  unfold wrapPbufs
  rw [if_neg hrest.ne']
  split <;> omega

/-- A loop of which the length wraps comes to its end only by chance. -/
theorem loop_wraps_done (hopt : mss < optflags.length) (hleft : left ≤ 0xffff)
    (h : loop o alloc mss flags false optflags rounds base queue ptr left seqno queuelen m =
      .ok (.done queue' queuelen' m')) :
    (∃ k, 0 < k ∧ 2^16 ∣ left + k * (optflags.length - mss) ∧
        Limit o (queuelen + wrapPbufs left k)) ∧
      ∃ q qs, queue' = queue ++ q :: qs ∧ q.len = 2^16 - (optflags.length - mss) := by
  induction rounds generalizing base queue ptr left seqno queuelen m with
  | zero => cases h
  | succ rounds ih =>
    obtain ⟨hseg, hrest⟩ := segLen_wraps hopt hleft
    obtain ⟨p, m₁, hlen, hlimit, hround⟩ := loop_round h
    rw [hrest, hseg] at hround
    have hdiv := Nat.div_add_mod (left + (optflags.length - mss)) (2^16)
    rcases hround with ⟨hmore, h⟩ | ⟨hdone, rfl, rfl⟩
    · obtain ⟨⟨k, hk, hdvd, hlim⟩, q, qs, rfl, -⟩ := ih (by omega) h
      refine ⟨⟨k + 1, Nat.succ_pos k, ?_, ?_⟩, _, q :: qs, List.append_assoc _ _ _, rfl⟩
      · rw [Nat.add_mul, Nat.one_mul]
        have hsum : left + (k * (optflags.length - mss) + (optflags.length - mss)) =
            2^16 * ((left + (optflags.length - mss)) / 2^16) +
              ((left + (optflags.length - mss)) % 2^16 + k * (optflags.length - mss)) := by
          omega
        rw [hsum]
        exact Nat.dvd_add (Nat.dvd_mul_right _ _) hdvd
      · rw [hlen, Nat.add_assoc, pbufsOf_add hk hmore] at hlim
        exact hlim
    · refine ⟨⟨1, Nat.one_pos, ?_, ?_⟩, _, [], rfl, rfl⟩
      · rw [Nat.one_mul]
        exact Nat.dvd_of_mod_eq_zero hdone
      · rw [← pbufsOf_false, ← hlen]
        exact hlimit

/-- With memory for all it does so, after `k` rounds at the latest. -/
theorem loop_wraps_ok (halloc : ∀ n, alloc n = true) (hopt : mss < optflags.length) {k : ℕ}
    (hk : 0 < k) (hleft : left ≤ 0xffff) (hdvd : 2^16 ∣ left + k * (optflags.length - mss))
    (hlimit : Limit o (queuelen + wrapPbufs left k)) (hrounds : k ≤ rounds) :
    ∃ queue' queuelen' m', loop o alloc mss flags false optflags rounds base queue
    ptr left seqno queuelen m =
      .ok (.done queue' queuelen' m') := by
  induction rounds generalizing base queue ptr left seqno queuelen m k with
  | zero => omega
  | succ rounds ih =>
    obtain ⟨hseg, hrest⟩ := segLen_wraps hopt hleft
    have hfirst : Limit o (queuelen + pbufsOf false left) := by
      have hle : wrapPbufs left 1 ≤ wrapPbufs left k := by
        unfold wrapPbufs
        split <;> omega
      rw [pbufsOf_false]
      exact ⟨(Nat.add_le_add_left hle queuelen).trans hlimit.1,
        (Nat.add_le_add_left hle queuelen).trans hlimit.2⟩
    obtain ⟨p, m₁, hlen, hround⟩ := loop_round_ok rounds base flags queue ptr seqno m halloc
      (.inl rfl) hfirst
    rw [hround, hrest]
    split
    · next hmore =>
      -- One round is not enough.
      obtain ⟨k, rfl⟩ : ∃ j, k = j + 1 := ⟨k - 1, by omega⟩
      have hkpos : 0 < k := by
        rcases Nat.eq_zero_or_pos k with rfl | hpos
        · rw [Nat.zero_add, Nat.one_mul] at hdvd
          rw [Nat.mod_eq_zero_of_dvd hdvd] at hmore
          omega
        · exact hpos
      refine ih hkpos (by omega) ?_ ?_ (by omega)
      · have hdiv := Nat.div_add_mod (left + (optflags.length - mss)) (2^16)
        rw [Nat.add_mul, Nat.one_mul] at hdvd
        have hsum : left + (k * (optflags.length - mss) + (optflags.length - mss)) =
            2^16 * ((left + (optflags.length - mss)) / 2^16) +
              ((left + (optflags.length - mss)) % 2^16 + k * (optflags.length - mss)) := by
          omega
        rw [hsum] at hdvd
        exact (Nat.dvd_add_right (Nat.dvd_mul_right _ _)).mp hdvd
      · rw [hlen, Nat.add_assoc, pbufsOf_add hkpos hmore]
        exact hlimit
    · exact ⟨_, _, _, rfl⟩

end Wraps

end Lwip.Tcp.Enqueue
