import Lwip.Ip.Timers

/-!
# Whether queries are answered in time

`watch` is the machine of the IGMP functions, with the queries that wait for a report beside their
state: one entry for each group that a query covers, with the ticks since. An entry goes when the
report is sent, when another member's report is heard, and when the group is left. `Answered` says
that the timers of the groups are running and early enough for their entries, and that no report was
sent for the group of all systems. `Timely` is what a step needs to keep this; `answered_iff_timely`
says that it is also all that it needs.
-/

namespace Lwip.Igmp

open Netif (IpAddr)
open State

/-- A query that waits for the report of a group, which is given by its interface and its
address. -/
structure Pending where
  key : ℕ × IpAddr
  /-- The ticks that the query leaves for the report. -/
  maxresp : ℕ
  /-- The ticks since the query. -/
  ticks : ℕ := 0
  deriving DecidableEq, Repr

namespace Pending

/-- The report that it waits for. -/
def report (e : Pending) : Sent := ⟨.V2_MEMB_REPORT, e.key.2, e.key.2, e.key.1⟩

def tick (e : Pending) : Pending := { e with ticks := e.ticks + 1 }

/-- A timer that runs, and that runs out in time. -/
def Meets (e : Pending) (timer : UInt16) :
    Prop := 1 ≤ timer.toNat ∧ e.ticks + timer.toNat ≤ e.maxresp

end Pending

/-- The entries of a query, one for each group that it covers. -/
def State.asked (s : State) (p : Packet) (inp : ℕ) (dest : IpAddr) : List Pending :=
  if s.Accepts p inp dest ∧ p.igmp_msgtype = .MEMB_QUERY then
    (s.groups.filter fun q => (s.group q).interface = inp ∧
      p.Covers dest (s.group q).group_address).map
      fun q => { key := (s.group q).key, maxresp := p.deadline.toNat }
  else []

/-- The message is another member's report for the group of an entry. -/
def State.Hears (s : State) (p : Packet) (inp : ℕ) (dest : IpAddr) (e : Pending) : Prop :=
  s.Accepts p inp dest ∧ p.igmp_msgtype = .V2_MEMB_REPORT ∧ e.key = (inp, dest)

instance (s : State) (p : Packet) (inp : ℕ) (dest : IpAddr) (e : Pending) :
    Decidable (s.Hears p inp dest e) :=
  inferInstanceAs (Decidable (_ ∧ _))

structure Watch where
  s : State := {}
  pending : List Pending := []

namespace Watch

/-- A call has led to the state `s`: what has been reported, and what is no longer on the list, is
not waited for any longer. -/
def after (w : Watch) (s : State) : Watch :=
  let news := s.sent.take (s.sent.length - w.s.sent.length)
  { s, pending := w.pending.filter fun e =>
      igmpLookforGroup s e.key.1 e.key.2 ≠ none ∧ e.report ∉ news }

/-- A message comes. -/
def receive (w : Watch) (p : Packet) (inp : ℕ) (dest : IpAddr) : Watch :=
  { w with
    pending := w.pending.filter (fun e => ¬ w.s.Hears p inp dest e) ++ w.s.asked p inp dest }

/-- A delay is early enough for the queries that wait for a group. -/
def InTime (w : Watch) (key : ℕ × IpAddr) (delay : ℕ) : Prop :=
  ∀ e ∈ w.pending, e.key = key → e.ticks + delay ≤ e.maxresp

instance (w : Watch) (key : ℕ × IpAddr) (delay : ℕ) : Decidable (w.InTime key delay) :=
  inferInstanceAs (Decidable (∀ e ∈ w.pending, _))

end Watch

/-- A call of one of the functions, with the entries. -/
def watch (ifs : NetIfs) (w : Watch) : Event → Except Abort Watch
  | .igmp_start n mem => .ok (w.after (igmpStart ifs w.s n mem).2)
  | .igmp_stop n => .ok (w.after (igmpStop ifs w.s n).2)
  | .igmp_joingroup ifaddr g mem => do
    return w.after (← igmpJoingroup ifs w.s ifaddr g.1 mem).2
  | .igmp_leavegroup ifaddr g mem => do
    return w.after (← igmpLeavegroup ifs w.s ifaddr g.1 mem).2
  | .igmp_report_groups n => .ok (w.after (igmpReportGroups w.s n))
  | .igmp_input p inp dest => .ok ((w.receive p inp dest).after (igmpInput w.s p inp dest))
  | .igmp_tmr mem =>
    .ok (({ w with pending := w.pending.map Pending.tick } : Watch).after (igmpTmr w.s mem))

/-- The groups that queries wait for have running timers, early enough for each of the queries, and
no report was sent for the group of all systems. -/
structure Answered (w : Watch) : Prop where
  running : ∀ e ∈ w.pending, ∃ p, igmpLookforGroup w.s e.key.1 e.key.2 = some p ∧
    1 ≤ (w.s.group p).timer.toNat ∧ e.ticks + (w.s.group p).timer.toNat ≤ e.maxresp
  allsystems : ∀ r ∈ w.s.sent, r.type = .V2_MEMB_REPORT → r.group_address ≠ allsystems

instance (w : Watch) : Decidable (Answered w) :=
  decidable_of_iff ((∀ e ∈ w.pending, ∃ p ∈ igmpLookforGroup w.s e.key.1 e.key.2,
      1 ≤ (w.s.group p).timer.toNat ∧ e.ticks + (w.s.group p).timer.toNat ≤ e.maxresp) ∧
      ∀ r ∈ w.s.sent, r.type = .V2_MEMB_REPORT → r.group_address ≠ allsystems)
    ⟨fun h => ⟨h.1, h.2⟩, fun h => ⟨h.running, h.allsystems⟩⟩

/-- The steps that keep the answers in time. -/
def Timely (w : Watch) : Event → Prop
  | .igmp_input p inp dest =>
    w.s.Accepts p inp dest → p.igmp_msgtype = .MEMB_QUERY → ∀ q ∈ w.s.groups,
      (w.s.group q).interface = inp → p.Covers dest (w.s.group q).group_address →
      if (w.s.group q).Restarts (p.delay dest) then
        -- half of the delay is not nothing, and early enough for the queries before
        2 ≤ (p.delay dest).toNat ∧ w.InTime (w.s.group q).key ((p.delay dest).toNat / 2)
      else
        -- the timer that goes on is early enough for this query
        1 ≤ (w.s.group q).timer.toNat ∧ (w.s.group q).timer.toNat ≤ p.deadline.toNat
  | .igmp_report_groups n =>
    ∀ q ∈ w.s.groups, (w.s.group q).interface = n →
      (w.s.group q).Restarts IGMP_JOIN_DELAYING_MEMBER_TMR →
      w.InTime (w.s.group q).key (IGMP_JOIN_DELAYING_MEMBER_TMR.toNat / 2)
  | .igmp_tmr mem =>
    ∀ q ∈ w.s.groups, (w.s.group q).timer = 1 →
      if (w.s.group q).group_address = allsystems then
        (w.s.group q).group_state = .DELAYING_MEMBER → mem.pbuf q = false
      else
        -- a report that is waited for gets its pbuf
        (∃ e ∈ w.pending, e.key = (w.s.group q).key) → mem.pbuf q = true
  | _ => True

instance (w : Watch) : (e : Event) → Decidable (Timely w e)
  | .igmp_input .. => inferInstanceAs (Decidable (_ → _ → ∀ q ∈ w.s.groups, _))
  | .igmp_report_groups _ => inferInstanceAs (Decidable (∀ q ∈ w.s.groups, _))
  | .igmp_tmr _ => inferInstanceAs (Decidable (∀ q ∈ w.s.groups, _))
  | .igmp_start .. | .igmp_stop .. | .igmp_joingroup .. | .igmp_leavegroup .. => .isTrue trivial

/-- The invariant: the timers of delaying members only are running. -/
structure Watched (w : Watch) : Prop where
  linked : Linked w.s
  address : ∀ p ∈ w.s.groups, (w.s.group p).group_address ≠ 0
  timer : ∀ p ∈ w.s.groups, (w.s.group p).group_address ≠ allsystems →
    (w.s.group p).timer ≠ 0 → (w.s.group p).group_state = .DELAYING_MEMBER
  pending : ∀ e ∈ w.pending, e.key.2 ≠ allsystems

section Step

variable {ifs : NetIfs} {w : Watch} {s' : State} {news : List Sent} {pend : List Pending}

/-- What waits after a step waited before, is on the list, and was not reported. -/
theorem mem_after {e : Pending} (hsent : s'.sent = news ++ w.s.sent) :
    e ∈ (w.after s').pending ↔
      e ∈ w.pending ∧ igmpLookforGroup s' e.key.1 e.key.2 ≠ none ∧ e.report ∉ news := by
  have hnews : s'.sent.take (s'.sent.length - w.s.sent.length) = news := by
    rw [hsent, List.length_append, Nat.add_sub_cancel, List.take_left]
  change e ∈ w.pending.filter _ ↔ _
  rw [List.mem_filter, hnews, decide_eq_true_iff]

variable (news pend) in
/-- Calls that leave the list as it is: it is for the timers to meet the entries. -/
theorem answered_after (hl : Linked w.s) (hk : Kept w.s s') (hsent : s'.sent = news ++ w.s.sent)
    (hold : ∀ r ∈ w.s.sent, r.type = .V2_MEMB_REPORT → r.group_address ≠ allsystems)
    (hlisted : ∀ e ∈ pend, ∃ p ∈ w.s.groups, (w.s.group p).key = e.key) :
    Answered (({ w with pending := pend } : Watch).after s') ↔
      (∀ p ∈ w.s.groups, ∀ e ∈ pend, e.key = (w.s.group p).key → e.report ∉ news →
        e.Meets (s'.group p).timer) ∧
      ∀ r ∈ news, r.type = .V2_MEMB_REPORT → r.group_address ≠ allsystems := by
  have hlinks := hk.links hl.links
  have hfind : ∀ p (e : Pending), igmpLookforGroup s' e.key.1 e.key.2 = some p ↔
      p ∈ w.s.groups ∧ (w.s.group p).key = e.key := by
    intro p e
    rw [hlinks.lookfor, hk.key]
  constructor
  · intro h
    refine ⟨fun p hp e he hkey hreport => ?_, fun r hr => h.allsystems r ?_⟩
    · have hsome : igmpLookforGroup s' e.key.1 e.key.2 = some p := (hfind p e).mpr ⟨hp, hkey.symm⟩
      have hmem : e ∈ (({ w with pending := pend } : Watch).after s').pending :=
        (mem_after (w := { w with pending := pend }) hsent).mpr ⟨he, by rw [hsome]; nofun, hreport⟩
      obtain ⟨q, hq, hmeets⟩ := h.running e hmem
      obtain rfl : p = q := Option.some.inj (hsome.symm.trans hq)
      exact hmeets
    · change r ∈ s'.sent
      rw [hsent]
      exact List.mem_append_left _ hr
  · rintro ⟨hmeets, hnew⟩
    refine ⟨fun e he => ?_, fun r hr => ?_⟩
    · obtain ⟨he, -, hreport⟩ := (mem_after (w := { w with pending := pend }) hsent).mp he
      obtain ⟨p, hp, hkey⟩ := hlisted e he
      exact ⟨p, (hfind p e).mpr ⟨hp, hkey⟩, hmeets p hp e he hkey.symm hreport⟩
    · change r ∈ s'.sent at hr
      rw [hsent, List.mem_append] at hr
      exact hr.elim (hnew r) (hold r)

/-- The entries are for groups on the list, and these meet them. -/
theorem Answered.listed (h : Answered w) (hl : Linked w.s) :
    ∀ e ∈ w.pending, ∃ p ∈ w.s.groups, (w.s.group p).key = e.key := by
  intro e he
  obtain ⟨p, hp, -⟩ := h.running e he
  exact ⟨p, hl.links.lookfor.mp hp⟩

/-- The timers are early enough for what waits. -/
theorem Answered.meets (h : Answered w) (hl : Linked w.s) :
    ∀ p ∈ w.s.groups, ∀ e ∈ w.pending, e.key = (w.s.group p).key → e.Meets (w.s.group p).timer := by
  intro p hp e he hkey
  obtain ⟨q, hq, hmeets⟩ := h.running e he
  obtain ⟨hq, hqkey⟩ := hl.links.lookfor.mp hq
  rw [hl.links.unique p hp q hq (hkey.symm.trans hqkey.symm)]
  exact hmeets

/-- Calls that leave the list as it is keep the invariant. -/
theorem Watched.after (h : Watched w) (hq : Quiet w.s s')
    (htimer : ∀ p ∈ w.s.groups, (w.s.group p).group_address ≠ allsystems →
      (s'.group p).timer ≠ 0 → (s'.group p).group_state = .DELAYING_MEMBER)
    (hpend : ∀ e ∈ pend, e.key.2 ≠ allsystems) :
    Watched (({ w with pending := pend } : Watch).after s') := by
  have hgroups : s'.groups = w.s.groups := hq.toKept.groups h.linked.links
  have haddr : ∀ p, (s'.group p).group_address = (w.s.group p).group_address := fun p =>
    congrArg Prod.snd (hq.key p)
  refine ⟨hq.linked h.linked, fun p hp => ?_, fun p hp hall => ?_, fun e he => ?_⟩
  · change p ∈ s'.groups at hp
    change (s'.group p).group_address ≠ 0
    rw [haddr]
    exact h.address p (hgroups ▸ hp)
  · change p ∈ s'.groups at hp
    change (s'.group p).group_address ≠ _ at hall
    rw [haddr] at hall
    exact htimer p (hgroups ▸ hp) hall
  · exact hpend e (List.mem_of_mem_filter he)

/-- Calls that put groups on the list, or take groups off it. -/
theorem Watched.carried (h : Watched w) (ha : Answered w) (hc : Carried w.s s')
    (hsub : (∀ p ∈ w.s.groups, p ∈ s'.groups) ∨ ∀ p ∈ s'.groups, p ∈ w.s.groups) :
    Watched (w.after s') ∧ Answered (w.after s') := by
  refine ⟨⟨hc.linked, fun p hp => ?_, fun p hp hall htimer => ?_, fun e he => ?_⟩,
    fun e he => ?_, fun r hr htype => ?_⟩
  · change p ∈ s'.groups at hp
    change (s'.group p).group_address ≠ 0
    by_cases hold : p ∈ w.s.groups
    · have hkey := hc.key p hold hp
      rw [show (s'.group p).group_address = (w.s.group p).group_address from congrArg Prod.snd hkey]
      exact h.address p hold
    · exact (hc.new p hp hold).1
  · change p ∈ s'.groups at hp
    change (s'.group p).group_address ≠ allsystems at hall
    change (s'.group p).timer ≠ 0 at htimer
    by_cases hold : p ∈ w.s.groups
    · have haddr : (s'.group p).group_address = (w.s.group p).group_address :=
        congrArg Prod.snd (hc.key p hold hp)
      rw [haddr] at hall
      obtain ⟨hstate, htimer'⟩ := hc.timer p hold hp hall
      rw [htimer'] at htimer
      exact hstate.trans (h.timer p hold hall htimer)
    · exact (hc.new p hp hold).2 hall
  · exact h.pending e (List.mem_of_mem_filter he)
  · obtain ⟨he, hfind⟩ := List.mem_filter.mp he
    have hne := (of_decide_eq_true hfind).1
    obtain ⟨p', hp'⟩ := Option.ne_none_iff_exists'.mp hne
    obtain ⟨hmem', hkey'⟩ := hc.linked.links.lookfor.mp hp'
    obtain ⟨p, hmem, hkey⟩ := ha.listed h.linked e he
    -- The group is the one that it was.
    obtain rfl : p = p' := by
      rcases hsub with hsub | hsub
      · apply hc.linked.links.unique p (hsub p hmem) p' hmem'
        rw [hc.key p hmem (hsub p hmem), hkey]
        exact hkey'.symm
      · apply h.linked.links.unique p hmem p' (hsub p' hmem')
        rw [← hc.key p' (hsub p' hmem') hmem', hkey]
        exact hkey'.symm
    have hall : (w.s.group p).group_address ≠ allsystems := by
      have := h.pending e he
      rwa [← hkey] at this
    refine ⟨p, hp', ?_⟩
    change (e.Meets (s'.group p).timer)
    rw [(hc.timer p hmem hmem' hall).2]
    exact ha.meets h.linked p hmem e he hkey.symm
  · rcases hc.sent r hr with hr | hr
    · exact ha.allsystems r hr htype
    · exact hr htype

/-- A group that is delayed meets the entries as long as the delay does, if it starts its timer
again. -/
theorem delayed_meets {g : IgmpGroup} {maxresp : UInt8}
    (hmeets : ∀ e ∈ w.pending, e.key = g.key → e.Meets g.timer) (htwo : 2 ≤ maxresp.toNat) :
    (∀ e ∈ w.pending, e.key = g.key → e.Meets (g.delayed maxresp).timer) ↔
      (g.Restarts maxresp → w.InTime g.key (maxresp.toNat / 2)) := by
  by_cases hre : g.Restarts maxresp
  · have htimer : (g.delayed maxresp).timer.toNat = maxresp.toNat / 2 := by
      simp [IgmpGroup.delayed, hre]
    simp only [Pending.Meets, htimer, hre, true_imp_iff, Watch.InTime]
    have hone : 1 ≤ maxresp.toNat / 2 := by omega
    simp only [hone, true_and]
  · have hsame : g.delayed maxresp = g := if_neg hre
    rw [hsame]
    exact iff_of_true hmeets fun h => absurd h hre

/-- A timer that runs is that of a delaying member, after a query too. -/
theorem delayed_timer {g : IgmpGroup} {maxresp : UInt8}
    (h : g.timer ≠ 0 → g.group_state = .DELAYING_MEMBER) :
    (g.delayed maxresp).timer ≠ 0 → (g.delayed maxresp).group_state = .DELAYING_MEMBER := by
  unfold IgmpGroup.delayed
  split
  · exact fun _ => rfl
  · exact h

/-- `igmp_report_groups`. -/
theorem igmpReportGroups_answered (h : Watched w) (ha : Answered w) (n : ℕ) :
    Watched (w.after (igmpReportGroups w.s n)) ∧
      (Answered (w.after (igmpReportGroups w.s n)) ↔ Timely w (.igmp_report_groups n)) := by
  have hquiet := igmpReportGroups_quiet w.s n
  obtain ⟨hsent, hcells⟩ := igmpReportGroups_cells h.linked n
  refine ⟨h.after hquiet (fun p hp hall => ?_) h.pending, ?_⟩
  · rw [hcells p hp]
    split
    · exact delayed_timer (h.timer p hp hall)
    · exact h.timer p hp hall
  · refine (answered_after [] w.pending h.linked hquiet.toKept hsent ha.allsystems
      (ha.listed h.linked)).trans ?_
    have hmeets := ha.meets h.linked
    constructor
    · rintro ⟨hnew, -⟩ q hq hface
      have hcell := hcells q hq
      rw [if_pos hface] at hcell
      refine (delayed_meets (hmeets q hq) (by decide)).mp fun e he hkey => ?_
      rw [← hcell]
      exact hnew q hq e he hkey nofun
    · refine fun htimely => ⟨fun q hq e he hkey _ => ?_, nofun⟩
      rw [hcells q hq]
      split
      · next hface =>
        exact (delayed_meets (hmeets q hq) (by decide)).mpr (htimely q hq hface) e he hkey
      · exact hmeets q hq e he hkey

/-- A report is in the news of `igmp_tmr` if its group is to report, and has a pbuf. -/
theorem report_mem_news (hl : Linked w.s) {mem : Memory} {p : ℕ} {e : Pending} (hp : p ∈ w.s.groups)
    (hkey : e.key = (w.s.group p).key)
    (hnews : ∀ r, r ∈ news ↔ ∃ q ∈ w.s.groups, r ∈ (w.s.group q).expired (mem.pbuf q)) :
    e.report ∈ news ↔ (w.s.group p).Expires ∧ mem.pbuf p = true := by
  rw [hnews]
  constructor
  · rintro ⟨q, hq, hr⟩
    unfold IgmpGroup.expired at hr
    split at hr
    · next hexp =>
      have hreport : e.report = (w.s.group q).report := List.mem_singleton.mp hr
      have hqkey : (w.s.group q).key = e.key := by
        injection hreport with _ _ haddr hface
        exact Prod.ext hface.symm haddr.symm
      rw [hl.links.unique p hp q hq (hkey.symm.trans hqkey.symm)]
      exact hexp
    · cases hr
  · intro hexp
    refine ⟨p, hp, ?_⟩
    have hreport : e.report = (w.s.group p).report := by
      unfold Pending.report
      rw [hkey]
      rfl
    rw [hreport, IgmpGroup.expired, if_pos hexp]
    exact List.mem_singleton_self _

/-- A timer that runs is one tick shorter, and still runs unless it was the last tick. -/
theorem tick_meets {e : Pending} {g : IgmpGroup} {pbuf : Bool} (h : e.Meets g.timer) :
    e.tick.Meets (g.ticked pbuf).timer ↔ g.timer ≠ 1 := by
  obtain ⟨hpos, htime⟩ := h
  have hzero : g.timer ≠ 0 := by
    intro heq
    rw [heq] at hpos
    cases hpos
  have hone : (1 : UInt16) ≤ g.timer := UInt16.le_iff_toNat_le.mpr hpos
  have htimer : (g.ticked pbuf).timer.toNat = g.timer.toNat - 1 := by
    rw [IgmpGroup.ticked, if_neg hzero, UInt16.toNat_sub_of_le _ _ hone, UInt16.toNat_one]
  have hne : g.timer ≠ 1 ↔ g.timer.toNat ≠ 1 := by
    rw [Ne, ← UInt16.toNat_inj]
    rfl
  unfold Pending.Meets
  rw [htimer, hne]
  change 1 ≤ _ ∧ e.ticks + 1 + _ ≤ e.maxresp ↔ _
  omega

/-- `igmp_tmr`. -/
theorem igmpTmr_answered (h : Watched w) (ha : Answered w) (mem : Memory) :
    let w' : Watch := { w with pending := w.pending.map Pending.tick }
    Watched (w'.after (igmpTmr w.s mem)) ∧
      (Answered (w'.after (igmpTmr w.s mem)) ↔ Timely w (.igmp_tmr mem)) := by
  have hquiet := igmpTmr_quiet w.s mem
  obtain ⟨hcells, news, hsent, hnews⟩ := igmpTmr_cells h.linked mem
  have hmeets := ha.meets h.linked
  refine ⟨h.after hquiet (fun p hp hall htimer => ?_) fun e he => ?_, ?_⟩
  · rw [hcells p hp] at htimer ⊢
    unfold IgmpGroup.ticked at htimer ⊢
    split at htimer
    · next hzero => exact absurd hzero htimer
    · next hzero =>
      rw [if_neg hzero]
      exact h.timer p hp hall hzero
  · obtain ⟨e, hmem, rfl⟩ := List.mem_map.mp he
    exact h.pending e hmem
  · refine (answered_after news _ h.linked hquiet.toKept hsent ha.allsystems ?_).trans ?_
    · intro e he
      obtain ⟨e, hmem, rfl⟩ := List.mem_map.mp he
      exact ha.listed h.linked e hmem
    -- An entry needs a pbuf if the tick is the last one.
    have hentry : ∀ p ∈ w.s.groups, ∀ e ∈ w.pending, e.key = (w.s.group p).key →
        ((e.tick.report ∉ news → e.tick.Meets ((igmpTmr w.s mem).group p).timer) ↔
          ((w.s.group p).timer = 1 → mem.pbuf p = true)) := by
      intro p hp e he hkey
      have hall : (w.s.group p).group_address ≠ allsystems := by
        have := h.pending e he
        rwa [hkey] at this
      have hexp : (w.s.group p).Expires ↔ (w.s.group p).timer = 1 := by
        refine ⟨And.left, fun hone => ⟨hone, h.timer p hp hall ?_⟩⟩
        rw [hone]
        decide
      rw [hcells p hp, tick_meets (hmeets p hp e he hkey),
        report_mem_news (e := e.tick) h.linked hp hkey hnews, hexp]
      tauto
    -- And the group of all systems gets none.
    have hquietly : (∀ r ∈ news, r.type = .V2_MEMB_REPORT → r.group_address ≠ allsystems) ↔
        ∀ p ∈ w.s.groups, (w.s.group p).Expires → (w.s.group p).group_address = allsystems →
          mem.pbuf p = false := by
      constructor
      · intro hno p hp hexp hall
        by_contra hpbuf
        rw [Bool.not_eq_false] at hpbuf
        refine hno (w.s.group p).report ((hnews _).mpr ⟨p, hp, ?_⟩) rfl hall
        rw [IgmpGroup.expired, if_pos ⟨hexp, hpbuf⟩]
        exact List.mem_singleton_self _
      · intro hno r hr _ hall
        obtain ⟨p, hp, hr⟩ := (hnews r).mp hr
        unfold IgmpGroup.expired at hr
        split at hr
        · next hexp =>
          obtain rfl := List.mem_singleton.mp hr
          rw [hno p hp hexp.1 hall] at hexp
          cases hexp.2
        · cases hr
    rw [hquietly]
    constructor
    · rintro ⟨hnew, hno⟩ q hq hone
      split
      · next hall => exact fun hstate => hno q hq ⟨hone, hstate⟩ hall
      · rintro ⟨e, he, hkey⟩
        exact (hentry q hq e he hkey).mp
          (hnew q hq e.tick (List.mem_map_of_mem he) hkey) hone
    · intro htimely
      refine ⟨fun q hq e he hkey => ?_, fun q hq hexp hall => ?_⟩
      · obtain ⟨e, hmem, rfl⟩ := List.mem_map.mp he
        refine (hentry q hq e hmem hkey).mpr fun hone => ?_
        have hq' := htimely q hq hone
        have hall : (w.s.group q).group_address ≠ allsystems := by
          have := h.pending e hmem
          rwa [show e.key = (w.s.group q).key from hkey] at this
        rw [if_neg hall] at hq'
        exact hq' ⟨e, hmem, hkey⟩
      · have hq' := htimely q hq hexp.1
        rw [if_pos hall] at hq'
        exact hq' hexp.2

/-- The entries of a query are those of the groups that it covers. -/
theorem mem_asked {s : State} {p : Packet} {inp : ℕ} {dest : IpAddr} {e : Pending}
    (hacc : s.Accepts p inp dest) (htype : p.igmp_msgtype = .MEMB_QUERY) :
    e ∈ s.asked p inp dest ↔ ∃ q ∈ s.groups, ((s.group q).interface = inp ∧
      p.Covers dest (s.group q).group_address) ∧
      ⟨(s.group q).key, p.deadline.toNat, 0⟩ = e := by
  unfold State.asked
  rw [if_pos ⟨hacc, htype⟩, List.mem_map]
  simp only [List.mem_filter, decide_eq_true_iff, and_assoc]

/-- What is handed to `igmp_delaying_member` is not more than the query leaves. -/
theorem delay_le_deadline (p : Packet) (dest : IpAddr) :
    (p.delay dest).toNat / 2 ≤ p.deadline.toNat := by
  unfold Packet.delay
  split
  · exact Nat.div_le_self _ 2
  · unfold Packet.deadline
    split
    · next hzero =>
      rw [hzero]
      exact Nat.zero_le _
    · exact Nat.div_le_self _ 2

/-- A query. -/
theorem igmpInput_query_answered (h : Watched w) (ha : Answered w) {p : Packet} {inp : ℕ}
    {dest : IpAddr} (hacc : w.s.Accepts p inp dest) (htype : p.igmp_msgtype = .MEMB_QUERY) :
    Watched ((w.receive p inp dest).after (igmpInput w.s p inp dest)) ∧
      (Answered ((w.receive p inp dest).after (igmpInput w.s p inp dest)) ↔
        Timely w (.igmp_input p inp dest)) := by
  have hquiet := igmpInput_quiet w.s p inp dest
  obtain ⟨hsent, hcells⟩ := igmpInput_query h.linked h.address hacc htype
  have hmeets := ha.meets h.linked
  have hask : ∀ e, e ∈ (w.receive p inp dest).pending ↔
      e ∈ w.pending ∨ ∃ q ∈ w.s.groups, ((w.s.group q).interface = inp ∧
        p.Covers dest (w.s.group q).group_address) ∧
        ⟨(w.s.group q).key, p.deadline.toNat, 0⟩ = e := by
    intro e
    have hnot : ¬ w.s.Hears p inp dest e := by
      rintro ⟨-, hreport, -⟩
      rw [htype] at hreport
      cases hreport
    change e ∈ _ ++ _ ↔ _
    rw [List.mem_append, mem_asked hacc htype, List.mem_filter]
    simp only [hnot, not_false_eq_true, decide_true, and_true]
  refine ⟨h.after hquiet (fun q hq hall => ?_) fun e he => ?_, ?_⟩
  · rw [hcells q hq hall]
    split
    · exact delayed_timer (h.timer q hq hall)
    · exact h.timer q hq hall
  · rcases (hask e).mp he with he | ⟨q, -, hcov, rfl⟩
    · exact h.pending e he
    · exact hcov.2.1
  · refine (answered_after [] (w.receive p inp dest).pending h.linked hquiet.toKept
      hsent ha.allsystems fun e he => ?_).trans ?_
    · rcases (hask e).mp he with he | ⟨q, hq, -, rfl⟩
      · exact ha.listed h.linked e he
      · exact ⟨q, hq, rfl⟩
    -- The entries for one group: the old ones, and that of this query.
    have hcell : ∀ q ∈ w.s.groups,
        (∀ e ∈ (w.receive p inp dest).pending, e.key = (w.s.group q).key →
        e.report ∉ ([] : List Sent) →
          e.Meets ((igmpInput w.s p inp dest).group q).timer) ↔
        ((w.s.group q).interface = inp → p.Covers dest (w.s.group q).group_address →
          if (w.s.group q).Restarts (p.delay dest) then
            2 ≤ (p.delay dest).toNat ∧ w.InTime (w.s.group q).key ((p.delay dest).toNat / 2)
          else
            1 ≤ (w.s.group q).timer.toNat ∧ (w.s.group q).timer.toNat ≤ p.deadline.toNat) := by
      intro q hq
      by_cases hcov : (w.s.group q).interface = inp ∧ p.Covers dest (w.s.group q).group_address
      · rw [hcells q hq hcov.2.1, if_pos hcov]
        simp only [hcov.1, hcov.2, true_imp_iff]
        have hsplit : (∀ e ∈ (w.receive p inp dest).pending, e.key = (w.s.group q).key →
              e.report ∉ ([] : List Sent) → e.Meets ((w.s.group q).delayed (p.delay dest)).timer) ↔
            (∀ e ∈ w.pending, e.key = (w.s.group q).key →
              e.Meets ((w.s.group q).delayed (p.delay dest)).timer) ∧
            Pending.Meets ⟨(w.s.group q).key, p.deadline.toNat, 0⟩
              ((w.s.group q).delayed (p.delay dest)).timer := by
          constructor
          · intro hnew
            exact ⟨fun e he hkey => hnew e ((hask e).mpr (.inl he)) hkey List.not_mem_nil,
              hnew _ ((hask _).mpr (.inr ⟨q, hq, hcov, rfl⟩)) rfl List.not_mem_nil⟩
          · rintro ⟨hold, hthis⟩ e he hkey -
            rcases (hask e).mp he with he | ⟨q', hq', -, rfl⟩
            · exact hold e he hkey
            · rw [h.linked.links.unique q' hq' q hq hkey]
              exact hthis
        rw [hsplit]
        split
        · next hre =>
          have htimer : ((w.s.group q).delayed (p.delay dest)).timer.toNat =
              (p.delay dest).toNat / 2 := by
            simp [IgmpGroup.delayed, hre]
          have hle := delay_le_deadline p dest
          constructor
          · rintro ⟨hold, hpos, -⟩
            rw [htimer] at hpos
            have htwo : 2 ≤ (p.delay dest).toNat := by omega
            exact ⟨htwo, (delayed_meets (hmeets q hq) htwo).mp hold hre⟩
          · rintro ⟨htwo, htime⟩
            refine ⟨(delayed_meets (hmeets q hq) htwo).mpr fun _ => htime, ?_⟩
            change 1 ≤ _ ∧ 0 + _ ≤ p.deadline.toNat
            rw [htimer]
            omega
        · next hre =>
          have hsame : (w.s.group q).delayed (p.delay dest) = w.s.group q := if_neg hre
          rw [hsame]
          unfold Pending.Meets
          rw [Nat.zero_add]
          exact and_iff_right (hmeets q hq)
      · refine iff_of_true (fun e he hkey _ => ?_) fun hface hcov' => absurd ⟨hface, hcov'⟩ hcov
        rcases (hask e).mp he with he | ⟨q', hq', hcov', rfl⟩
        · have hall : (w.s.group q).group_address ≠ allsystems := by
            have := h.pending e he
            rwa [hkey] at this
          rw [hcells q hq hall, if_neg hcov]
          exact hmeets q hq e he hkey
        · rw [h.linked.links.unique q' hq' q hq hkey] at hcov'
          exact absurd hcov' hcov
    constructor
    · exact fun hnew _ _ q hq => (hcell q hq).mp (hnew.1 q hq)
    · intro htimely
      exact ⟨fun q hq => (hcell q hq).mpr (htimely hacc htype q hq),
        fun _ hrep => absurd hrep List.not_mem_nil⟩

/-- A message that is not a query. -/
theorem igmpInput_other_answered (h : Watched w) (ha : Answered w) {p : Packet} {inp : ℕ}
    {dest : IpAddr} (hnot : ¬ (w.s.Accepts p inp dest ∧ p.igmp_msgtype = .MEMB_QUERY)) :
    Watched ((w.receive p inp dest).after (igmpInput w.s p inp dest)) ∧
      Answered ((w.receive p inp dest).after (igmpInput w.s p inp dest)) := by
  have hquiet := igmpInput_quiet w.s p inp dest
  have hmeets := ha.meets h.linked
  have hnone : w.s.asked p inp dest = [] := if_neg hnot
  have hask : ∀ e, e ∈ (w.receive p inp dest).pending ↔
      e ∈ w.pending ∧ ¬ w.s.Hears p inp dest e := by
    intro e
    change e ∈ _ ++ _ ↔ _
    rw [hnone, List.append_nil, List.mem_filter, decide_eq_true_iff]
  -- The groups whose reports are not heard are as they were.
  obtain ⟨hsent, hcells⟩ : (igmpInput w.s p inp dest).sent = w.s.sent ∧ ∀ q ∈ w.s.groups,
      ((igmpInput w.s p inp dest).group q).timer = 0 ∧
          w.s.Accepts p inp dest ∧ p.igmp_msgtype = .V2_MEMB_REPORT ∧
          (w.s.group q).key = (inp, dest) ∨
        (igmpInput w.s p inp dest).group q = w.s.group q := by
    by_cases hreport : w.s.Accepts p inp dest ∧ p.igmp_msgtype = .V2_MEMB_REPORT
    · obtain ⟨hsent, hcells⟩ := igmpInput_report h.linked hreport.1 hreport.2
      refine ⟨hsent, fun q hq => ?_⟩
      rw [hcells q hq]
      split
      · next hkey => exact .inl ⟨rfl, hreport.1, hreport.2, hkey.1⟩
      · exact .inr rfl
    · rw [igmpInput_of_not fun hacc =>
        ⟨fun htype => hnot ⟨hacc, htype⟩, fun htype => hreport ⟨hacc, htype⟩⟩]
      exact ⟨rfl, fun _ _ => .inr rfl⟩
  refine ⟨h.after hquiet (fun q hq hall htimer => ?_) fun e he =>
    h.pending e ((hask e).mp he).1, ?_⟩
  · rcases hcells q hq with ⟨hzero, -⟩ | hsame
    · exact absurd hzero htimer
    · rw [hsame] at htimer ⊢
      exact h.timer q hq hall htimer
  · refine (answered_after [] (w.receive p inp dest).pending h.linked hquiet.toKept
      hsent ha.allsystems fun e he => ha.listed h.linked e ((hask e).mp he).1).mpr
      ⟨fun q hq e he hkey _ => ?_, nofun⟩
    obtain ⟨he, hhears⟩ := (hask e).mp he
    rcases hcells q hq with ⟨-, hacc, htype, hq'⟩ | hsame
    · exact absurd ⟨hacc, htype, hkey.trans hq'⟩ hhears
    · rw [hsame]
      exact hmeets q hq e he hkey

/-- A step keeps the answers in time exactly if it is a timely one. -/
theorem watch_answered (h : Watched w) (ha : Answered w) (e : Event) :
    ∃ w', watch ifs w e = .ok w' ∧ Watched w' ∧ (Answered w' ↔ Timely w e) := by
  cases e with
  | igmp_start n mem =>
    have hgrown := igmpStart_grown ifs mem n h.linked
    obtain ⟨h', ha'⟩ := h.carried ha hgrown.toCarried (.inl hgrown.sub)
    exact ⟨_, rfl, h', iff_of_true ha' trivial⟩
  | igmp_stop n =>
    have hshrunk := igmpStop_shrunk ifs n h.linked
    obtain ⟨h', ha'⟩ := h.carried ha hshrunk.toCarried (.inr hshrunk.sub)
    exact ⟨_, rfl, h', iff_of_true ha' trivial⟩
  | igmp_joingroup ifaddr g mem =>
    have hzero : g.1 ≠ 0 := by
      intro hg
      have := g.2.1
      rw [hg] at this
      exact absurd this (by decide)
    have hgrown := igmpJoinLoop_grown ifs mem ifaddr hzero g.2.2 ifs.netif_list .VAL w.s h.linked
    obtain ⟨h', ha'⟩ := h.carried ha hgrown.toCarried (.inl hgrown.sub)
    refine ⟨_, ?_, h', iff_of_true ha' trivial⟩
    simp only [watch, igmpJoingroup, checkGroupaddr_ok]
    rfl
  | igmp_leavegroup ifaddr g mem =>
    have hshrunk := igmpLeaveLoop_shrunk ifs mem g.1 ifaddr ifs.netif_list .VAL w.s
      h.linked
    obtain ⟨h', ha'⟩ := h.carried ha hshrunk.toCarried (.inr hshrunk.sub)
    refine ⟨_, ?_, h', iff_of_true ha' trivial⟩
    simp only [watch, igmpLeavegroup, checkGroupaddr_ok]
    rfl
  | igmp_report_groups n => exact ⟨_, rfl, igmpReportGroups_answered h ha n⟩
  | igmp_input p inp dest =>
    refine ⟨_, rfl, ?_⟩
    by_cases hquery : w.s.Accepts p inp dest ∧ p.igmp_msgtype = .MEMB_QUERY
    · exact igmpInput_query_answered h ha hquery.1 hquery.2
    · obtain ⟨h', ha'⟩ := igmpInput_other_answered h ha hquery
      exact ⟨h', iff_of_true ha' fun hacc htype => absurd ⟨hacc, htype⟩ hquery⟩
  | igmp_tmr mem => exact ⟨_, rfl, igmpTmr_answered h ha mem⟩

end Step

/-- At first nothing waits. -/
theorem watched_init : Watched {} where
  linked := kempt_init.linked
  address p hp := by
    rw [show (({} : Watch).s).groups = [] from links_init.groups] at hp
    cases hp
  timer p hp := by
    rw [show (({} : Watch).s).groups = [] from links_init.groups] at hp
    cases hp
  pending := nofun

/-- All through a run the queries are answered in time, and the group of all systems is not
reported, exactly if all steps of the run are timely. -/
theorem answered_iff_timely (ifs : NetIfs) (es : List Event) :
    Always (watch ifs) Answered {} es ↔ Along (watch ifs) Timely {} es :=
  always_iff_along (fun _ e h ha => watch_answered h ha e) watched_init ⟨nofun, nofun⟩

/-- An interface joins a group, and a general query leaves three ticks: the timer of the group,
which has five ticks to go, goes on. -/
theorem query_answered_late : ¬ ∀ (ifs : NetIfs) (es : List Event),
    Always (watch ifs) Answered {} es := by
  intro h
  have hlate := h twoInterfaces [.igmp_start 0 {}, .igmp_joingroup 0 someGroup {},
    .igmp_input { igmp_msgtype := .MEMB_QUERY, igmp_maxresp := 3, igmp_group_address := 0 }
      0 allsystems]
  exact absurd hlate (by decide +kernel)

/-- When the timer of the join has run out, a query starts it again with half of its delay. -/
example : Along (watch twoInterfaces) Timely {}
    ([.igmp_start 0 {}, .igmp_joingroup 0 someGroup {}] ++ List.replicate 2 (.igmp_tmr {}) ++
    [.igmp_input { igmp_msgtype := .MEMB_QUERY, igmp_maxresp := 6, igmp_group_address := 0 }
      0 allsystems] ++ List.replicate 3 (.igmp_tmr {})) := by
  decide +kernel

end Lwip.Igmp
