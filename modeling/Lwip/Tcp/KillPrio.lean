import Lwip.Arch
import Mathlib.Data.List.Perm.Basic
import Mathlib.Data.List.Induction
import Mathlib.Data.List.Nodup
import Mathlib.Data.List.MinMax
import Mathlib.Tactic.Common

/-!
# The pcb that is aborted when there is no room for another

The two searches of `tcp_alloc` for a victim. A pcb is here what these read of it. `tcp_kill_prio`
goes through the active pcbs once and keeps the last pcb that has at most the priority and at least
the inactivity of the one it kept before: the `records` of the list. So it misses a pcb of the
lowest priority if it has kept, in front of it, one that has been inactive for longer
(`killsRight_iff`).
-/

namespace Lwip.TcpPool

/-- `TCP_PRIO_MAX`. -/
def TCP_PRIO_MAX : UInt8 := 127

/-- `TCP_PRIO_NORMAL`. -/
def TCP_PRIO_NORMAL : UInt8 := 64

/-- The address of a `struct tcp_pcb`, and the fields that the searches read. -/
structure AgedPcb where
  addr : ℕ
  prio : UInt8
  tmr : BitVec 32
  deriving DecidableEq, Repr

/-- `tcp_ticks - pcb->tmr`. -/
def AgedPcb.inactivity (p : AgedPcb) (ticks : BitVec 32) : BitVec 32 := ticks - p.tmr

/-- A list of pcbs, each of them on it once. -/
structure PcbList where
  pcbs : List AgedPcb
  nodup : (pcbs.map (·.addr)).Nodup

/-- `TCP_RMV`. -/
def PcbList.rmv (l : PcbList) (p : AgedPcb) : PcbList where
  pcbs := l.pcbs.eraseP fun q => q.addr = p.addr
  nodup := l.nodup.sublist (List.eraseP_sublist.map _)

/-- The lists that the pool of pcbs is used for, and the pcbs that were aborted, the latest
first. -/
structure PcbPool where
  active : PcbList
  tw : PcbList
  aborted : List AgedPcb := []

/-- What `tcp_kill_prio` keeps as it goes through the list. -/
structure KillScan where
  inactivity : BitVec 32 := 0
  inactive : Option AgedPcb := none
  mprio : UInt8 := TCP_PRIO_MAX

/-- The loop body of `tcp_kill_prio`. -/
def killPrioBody (ticks : BitVec 32) (prio : UInt8) (k : KillScan) (pcb : AgedPcb) : KillScan :=
  if pcb.prio ≤ prio ∧ pcb.prio ≤ k.mprio ∧ k.inactivity ≤ pcb.inactivity ticks then
    { inactivity := pcb.inactivity ticks, inactive := some pcb, mprio := pcb.prio }
  else k

/-- `tcp_kill_prio`. -/
def tcpKillPrio (ticks : BitVec 32) (prio : UInt8) (s : PcbPool) : PcbPool :=
  match (s.active.pcbs.foldl (killPrioBody ticks prio) {}).inactive with
  | some pcb => { s with active := s.active.rmv pcb, aborted := pcb :: s.aborted }
  | none => s

/-- The loop body of `tcp_kill_timewait`. -/
def killTimewaitBody (ticks : BitVec 32) (k : KillScan) (pcb : AgedPcb) : KillScan :=
  if k.inactivity ≤ pcb.inactivity ticks then
    { k with inactivity := pcb.inactivity ticks, inactive := some pcb }
  else k

/-! ## What the search should find -/

section Victim

variable (ticks : BitVec 32) (prio : UInt8)

/-- A pcb of the lowest priority, and of these one that has been inactive for longest. -/
def Victim (l : List AgedPcb) (v : AgedPcb) : Prop :=
  v ∈ l ∧ ∀ p ∈ l, v.prio ≤ p.prio ∧ (p.prio = v.prio → p.inactivity ticks ≤ v.inactivity ticks)

instance (l : List AgedPcb) (v : AgedPcb) : Decidable (Victim ticks l v) :=
  inferInstanceAs (Decidable (_ ∧ ∀ p ∈ l, _))

/-- From `s` to `s'` no pcb of a higher priority was aborted, and if there was one of this priority
or a lower one, the victim was and no other. -/
structure KillsRight (s s' : PcbPool) : Prop where
  tw : s'.tw = s.tw
  aborted : ∃ killed, s'.aborted = killed ++ s.aborted ∧
    (killed ++ s'.active.pcbs).Perm s.active.pcbs ∧ (∀ p ∈ killed, p.prio ≤ prio) ∧
    ((∃ p ∈ s.active.pcbs, p.prio ≤ prio) → ∃ v, killed = [v] ∧ Victim ticks s.active.pcbs v)

/-- The pcb `x` is one to prefer to `y` or as good. -/
def Beats (x y : AgedPcb) : Prop := x.prio ≤ y.prio ∧ y.inactivity ticks ≤ x.inactivity ticks

instance (x y : AgedPcb) : Decidable (Beats ticks x y) := inferInstanceAs (Decidable (_ ∧ _))

/-- The pcbs, of a list that is given from its end, that beat the records in front of them. -/
def records : List AgedPcb → List AgedPcb
  | [] => []
  | x :: front =>
    if x.prio ≤ prio ∧ x.prio ≤ TCP_PRIO_MAX ∧ ∀ y ∈ records front, Beats ticks x y then
      x :: records front
    else records front

/-- No record in front of a victim has been inactive for longer, and its priority is not above the
maximum. -/
def VictimInReach (l : List AgedPcb) : Prop :=
  ∃ k v k', l = k ++ v :: k' ∧ Victim ticks l v ∧ v.prio ≤ TCP_PRIO_MAX ∧
    ∀ y ∈ records ticks prio k.reverse, y.inactivity ticks ≤ v.inactivity ticks

/-! ## What it finds -/

section Scan

variable {ticks prio} {l : List AgedPcb} {k : KillScan} {p v : AgedPcb}

/-- A record is a pcb of the list with at most the priority. -/
theorem mem_records (hp : p ∈ records ticks prio l) :
    p ∈ l ∧ p.prio ≤ prio ∧ p.prio ≤ TCP_PRIO_MAX := by
  induction l with
  | nil => cases hp
  | cons x front ih =>
    unfold records at hp
    split at hp
    · next hx =>
      rcases List.mem_cons.mp hp with rfl | hp
      · exact ⟨List.mem_cons_self, hx.1, hx.2.1⟩
      · exact ⟨List.mem_cons_of_mem x (ih hp).1, (ih hp).2⟩
    · exact ⟨List.mem_cons_of_mem x (ih hp).1, (ih hp).2⟩

variable (ticks prio) in
/-- What the loop has kept: the bounds are those of the last record, which beats all records. -/
structure KillScan.Kept (l : List AgedPcb) (k : KillScan) : Prop where
  prio_le : ∀ y ∈ records ticks prio l, k.mprio ≤ y.prio
  inactivity_ge : ∀ y ∈ records ticks prio l, y.inactivity ticks ≤ k.inactivity
  head : k.inactive = (records ticks prio l).head?
  self : ∀ c, k.inactive = some c → k.mprio = c.prio ∧ k.inactivity = c.inactivity ticks
  start : k.inactive = none → k.mprio = TCP_PRIO_MAX ∧ k.inactivity = 0

/-- A pcb passes the test of the loop body if it is the next record. -/
theorem KillScan.Kept.beats_iff (h : k.Kept ticks prio l) :
    (p.prio ≤ k.mprio ∧ k.inactivity ≤ p.inactivity ticks) ↔
      p.prio ≤ TCP_PRIO_MAX ∧ ∀ y ∈ records ticks prio l, Beats ticks p y := by
  cases hc : k.inactive with
  | none =>
    obtain ⟨hprio, hinact⟩ := h.start hc
    have hnil : records ticks prio l = [] := by
      rw [← List.head?_eq_none_iff, ← h.head, hc]
    have hzero : (0 : BitVec 32) ≤ p.inactivity ticks := BitVec.le_def.mpr (Nat.zero_le _)
    rw [hprio, hinact, hnil]
    exact and_congr_right fun _ => iff_of_true hzero nofun
  | some c =>
    obtain ⟨hprio, hinact⟩ := h.self c hc
    have hmem : c ∈ records ticks prio l := List.mem_of_mem_head? (h.head ▸ hc)
    constructor
    · rintro ⟨hle, hge⟩
      refine ⟨UInt8.le_trans hle (hprio ▸ (mem_records hmem).2.2), fun y hy => ⟨?_, ?_⟩⟩
      · exact UInt8.le_trans hle (h.prio_le y hy)
      · exact BitVec.le_trans (h.inactivity_ge y hy) hge
    · rintro ⟨-, hall⟩
      rw [hprio, hinact]
      exact hall c hmem

/-- A round of the scan keeps the right record. -/
theorem KillScan.Kept.body (h : k.Kept ticks prio l) (p : AgedPcb) :
    (killPrioBody ticks prio k p).Kept ticks prio (p :: l) := by
  unfold killPrioBody
  by_cases hp : p.prio ≤ prio ∧ p.prio ≤ k.mprio ∧ k.inactivity ≤ p.inactivity ticks
  · have hrec := h.beats_iff.mp hp.2
    have hrecs : records ticks prio (p :: l) = p :: records ticks prio l := by
      rw [records, if_pos ⟨hp.1, hrec⟩]
    rw [if_pos hp]
    constructor
    · rw [hrecs]
      intro y hy
      rcases List.mem_cons.mp hy with rfl | hy
      · exact UInt8.le_refl _
      · exact (hrec.2 y hy).1
    · rw [hrecs]
      intro y hy
      rcases List.mem_cons.mp hy with rfl | hy
      · exact BitVec.le_refl _
      · exact (hrec.2 y hy).2
    · rw [hrecs]
      rfl
    · intro c hc
      cases hc
      exact ⟨rfl, rfl⟩
    · nofun
  · have hrecs : records ticks prio (p :: l) = records ticks prio l := by
      rw [records, if_neg fun hrec => hp ⟨hrec.1, h.beats_iff.mpr hrec.2⟩]
    rw [if_neg hp]
    exact ⟨hrecs ▸ h.prio_le, hrecs ▸ h.inactivity_ge, hrecs ▸ h.head, h.self, h.start⟩

variable (ticks prio) in
/-- The loop ends with the last record of the list. -/
theorem kept_foldl (l : List AgedPcb) :
    (l.foldl (killPrioBody ticks prio) {}).Kept ticks prio l.reverse := by
  induction l using List.reverseRec with
  | nil => exact ⟨nofun, nofun, rfl, nofun, fun _ => ⟨rfl, rfl⟩⟩
  | append_singleton l p ih =>
    rw [List.foldl_append, List.reverse_append]
    exact ih.body p

/-- Records stay records as the list goes on. -/
theorem records_append (l front : List AgedPcb) :
    records ticks prio front <:+ records ticks prio (l ++ front) := by
  induction l with
  | nil => exact List.suffix_rfl
  | cons x l ih =>
    rw [List.cons_append, records]
    split
    · exact ih.trans (List.suffix_cons x _)
    · exact ih

/-- The last record has the other records in front of it. -/
theorem records_split {rest : List AgedPcb} (h : records ticks prio l = v :: rest) :
    ∃ behind front, l = behind ++ v :: front ∧ records ticks prio front = rest := by
  induction l with
  | nil => cases h
  | cons x l ih =>
    unfold records at h
    split at h
    · obtain ⟨rfl, hrest⟩ := List.cons.inj h
      exact ⟨[], l, rfl, hrest⟩
    · obtain ⟨behind, front, hl, hfront⟩ := ih h
      exact ⟨x :: behind, front, by rw [hl, List.cons_append], hfront⟩

/-- A victim in reach is a record of the whole list. -/
theorem exists_record (h : VictimInReach ticks prio l) (hsome : ∃ p ∈ l, p.prio ≤ prio) :
    ∃ v, Victim ticks l v ∧ v ∈ records ticks prio l.reverse := by
  obtain ⟨k, v, k', hl, hv, hmax, hrec⟩ := h
  obtain ⟨p, hp, hprio⟩ := hsome
  refine ⟨v, hv, ?_⟩
  have hbeats : ∀ y ∈ records ticks prio k.reverse, Beats ticks v y := by
    intro y hy
    have hyl : y ∈ l := by
      rw [hl]
      exact List.mem_append_left _ (List.mem_reverse.mp (mem_records hy).1)
    exact ⟨(hv.2 y hyl).1, hrec y hy⟩
  have hself : v ∈ records ticks prio (v :: k.reverse) := by
    rw [records, if_pos ⟨UInt8.le_trans (hv.2 p hp).1 hprio, hmax, hbeats⟩]
    exact List.mem_cons_self
  have hreverse : l.reverse = k'.reverse ++ v :: k.reverse := by
    rw [hl]
    simp
  rw [hreverse]
  exact (records_append k'.reverse (v :: k.reverse)).subset hself

/-- A pcb that is taken from a list. -/
theorem perm_rmv {l : PcbList} (hp : p ∈ l.pcbs) : (p :: (l.rmv p).pcbs).Perm l.pcbs := by
  obtain ⟨q, l₁, l₂, -, hq, hl, hrmv⟩ :=
    List.exists_of_eraseP hp (p := fun q => q.addr = p.addr) (by simp)
  have hqp : q = p := List.inj_on_of_nodup_map l.nodup (by rw [hl]; simp) hp (of_decide_eq_true hq)
  subst hqp
  show (q :: l.pcbs.eraseP _).Perm _
  rw [hrmv, hl]
  exact List.perm_middle.symm

end Scan

/-- `tcp_kill_prio` aborts the victim, where there is one, exactly if it is in reach. -/
theorem killsRight_iff (s : PcbPool) :
    KillsRight ticks prio s (tcpKillPrio ticks prio s) ↔
      ((∃ p ∈ s.active.pcbs, p.prio ≤ prio) → VictimInReach ticks prio s.active.pcbs) := by
  have hk := kept_foldl ticks prio s.active.pcbs
  unfold tcpKillPrio
  generalize s.active.pcbs.foldl (killPrioBody ticks prio) {} = k at hk
  constructor
  · rintro ⟨-, killed, haborted, -, -, hkill⟩ hsome
    obtain ⟨v, rfl, hv⟩ := hkill hsome
    cases hc : k.inactive with
    | none =>
      rw [hc] at haborted
      exact absurd (congrArg List.length haborted) (by simp)
    | some c =>
      rw [hc] at haborted
      obtain rfl : c = v := List.head_eq_of_cons_eq haborted
      have hhead := hk.head
      rw [hc] at hhead
      obtain ⟨rest, hrest⟩ := List.head?_eq_some_iff.mp hhead.symm
      obtain ⟨behind, front, hl, hfront⟩ := records_split hrest
      refine ⟨front.reverse, c, behind.reverse, ?_, hv, ?_, fun y hy => ?_⟩
      · rw [← List.reverse_reverse s.active.pcbs, hl]
        simp
      · exact (mem_records (hrest ▸ List.mem_cons_self)).2.2
      · rw [List.reverse_reverse, hfront] at hy
        rw [← (hk.self c hc).2]
        exact hk.inactivity_ge y (hrest ▸ List.mem_cons_of_mem c hy)
  · intro hreach
    cases hc : k.inactive with
    | none =>
      refine ⟨rfl, [], rfl, .refl _, nofun, fun hsome => ?_⟩
      obtain ⟨v, hrec⟩ := exists_record (hreach hsome) hsome
      rw [hk.head, List.head?_eq_none_iff] at hc
      rw [hc] at hrec
      cases hrec.2
    | some c =>
      have hmem : c ∈ records ticks prio s.active.pcbs.reverse :=
        List.mem_of_mem_head? (hk.head ▸ hc)
      obtain ⟨hcl, hcprio, -⟩ := mem_records hmem
      rw [List.mem_reverse] at hcl
      refine ⟨rfl, [c], rfl, perm_rmv hcl, ?_, fun hsome => ⟨c, rfl, hcl, fun p hp => ?_⟩⟩
      · intro p hp
        rwa [List.mem_singleton.mp hp]
      · obtain ⟨v, hv, hrec⟩ := exists_record (hreach hsome) hsome
        obtain ⟨hprio, hinact⟩ := hk.self c hc
        have hle : c.prio ≤ v.prio := hprio ▸ hk.prio_le v hrec
        have hge : v.inactivity ticks ≤ c.inactivity ticks := hinact ▸ hk.inactivity_ge v hrec
        refine ⟨UInt8.le_trans hle (hv.2 p hp).1, fun heq => ?_⟩
        have hpv : p.prio = v.prio := UInt8.le_antisymm (heq ▸ hle) (hv.2 p hp).1
        exact BitVec.le_trans ((hv.2 p hp).2 hpv) hge

end Victim

/-- A connection that has been inactive for longer, in front of one that may be given up first. -/
def olderInFront : PcbPool where
  active := ⟨[⟨1, TCP_PRIO_NORMAL, 0⟩, ⟨2, 1, 95⟩], by decide⟩
  tw := ⟨[], by decide⟩

/-- The first of the two is aborted, although the priority of the second is lower. -/
theorem kills_older_in_front :
    ¬ ∀ (ticks : BitVec 32) (prio : UInt8) (s : PcbPool), KillsRight ticks prio s
      (tcpKillPrio ticks prio s) := by
  intro h
  obtain ⟨killed, haborted, -, -, hkill⟩ := (h 100 TCP_PRIO_NORMAL olderInFront).aborted
  obtain ⟨v, rfl, hv⟩ := hkill ⟨⟨2, 1, 95⟩, by decide, by decide⟩
  have hfirst : (tcpKillPrio 100 TCP_PRIO_NORMAL olderInFront).aborted =
      [⟨1, TCP_PRIO_NORMAL, 0⟩] := by
    decide +kernel
  obtain rfl : v = ⟨1, TCP_PRIO_NORMAL, 0⟩ := List.head_eq_of_cons_eq (haborted.symm.trans hfirst)
  exact absurd hv (by decide +kernel)

/-- Where all active pcbs have one priority, the victim is in reach. -/
theorem victimInReach_of_const {ticks : BitVec 32} {prio c : UInt8} {l : List AgedPcb}
    (hc : c ≤ TCP_PRIO_MAX)
    (hl : ∀ p ∈ l, p.prio = c) (hne : l ≠ []) : VictimInReach ticks prio l := by
  have hsome : l.argmax (fun p => (p.inactivity ticks).toNat) ≠ none := by
    rwa [Ne, List.argmax_eq_none]
  obtain ⟨v, hv⟩ := Option.ne_none_iff_exists'.mp hsome
  have hmem : v ∈ l := List.argmax_mem hv
  have hmax : ∀ p ∈ l, p.inactivity ticks ≤ v.inactivity ticks := fun p hp =>
    BitVec.le_def.mpr (List.le_of_mem_argmax (f := fun p => (p.inactivity ticks).toNat) hp hv)
  obtain ⟨k, k', hsplit⟩ := List.append_of_mem hmem
  refine ⟨k, v, k', hsplit, ⟨hmem, fun p hp => ⟨?_, fun _ => hmax p hp⟩⟩, hl v hmem ▸ hc,
    fun y hy => ?_⟩
  · rw [hl v hmem, hl p hp]
    exact UInt8.le_refl c
  · have hyk : y ∈ k := List.mem_reverse.mp (mem_records hy).1
    exact hmax y (by rw [hsplit]; exact List.mem_append_left _ hyk)

end Lwip.TcpPool
