import Lwip.Ip.Membership

/-!
# The timers of the groups

What each function does to the timers and to the messages sent. A loop that changes each cell by
itself is read cell by cell (`foldl_group`, `foldl_sent`): so `igmp_delaying_member` makes `delayed`
of a group, and `igmp_tmr` makes `ticked` of it and sends `expired`. The functions that put groups
on the list or take them off leave the timers of the others alone (`Carried`).
-/

namespace Lwip.Igmp

open Netif (IpAddr)
open State

/-! ## Cells that change by themselves -/

section Loop

variable {f : State → ℕ → State} {F : ℕ → IgmpGroup → IgmpGroup} {new : ℕ → IgmpGroup → List Sent}

/-- A loop whose rounds change one cell each. -/
theorem foldl_group (hf : ∀ s p, (f s p).group = Function.update s.group p (F p (s.group p)))
    {l : List ℕ} (hl : l.Nodup) (s : State) (q : ℕ) :
    (l.foldl f s).group q = if q ∈ l then F q (s.group q) else s.group q := by
  induction l generalizing s with
  | nil => rfl
  | cons p l ih =>
    obtain ⟨hp, hl⟩ := List.nodup_cons.mp hl
    rw [List.foldl_cons, ih hl (f s p), hf]
    by_cases hq : q = p
    · subst hq
      rw [if_neg hp, if_pos List.mem_cons_self, Function.update_self]
    · rw [Function.update_of_ne hq]
      simp only [List.mem_cons, hq, false_or]

variable (new) in
/-- And that send what the cell, as it was before the loop, makes them send. -/
theorem foldl_sent (hf : ∀ s p, (f s p).group = Function.update s.group p (F p (s.group p)))
    (hnew : ∀ s p, (f s p).sent = new p (s.group p) ++ s.sent) {l : List ℕ} (hl : l.Nodup)
    (s : State) :
    ∃ news, (l.foldl f s).sent = news ++ s.sent ∧ ∀ r, r ∈ news ↔ ∃ p ∈ l,
    r ∈ new p (s.group p) := by
  induction l generalizing s with
  | nil => exact ⟨[], rfl, fun r => by simp⟩
  | cons p l ih =>
    obtain ⟨hp, hl⟩ := List.nodup_cons.mp hl
    obtain ⟨news, hsent, hmem⟩ := ih hl (f s p)
    refine ⟨news ++ new p (s.group p), ?_, fun r => ?_⟩
    · rw [List.foldl_cons, hsent, hnew, List.append_assoc]
    · -- The cells behind the first one are as they were.
      have hcell : ∀ q ∈ l, (f s p).group q = s.group q := by
        intro q hq
        have hne : q ≠ p := by
          rintro rfl
          exact hp hq
        rw [hf, Function.update_of_ne hne]
      have hiff : (∃ q ∈ l, r ∈ new q ((f s p).group q)) ↔ ∃ q ∈ l, r ∈ new q (s.group q) :=
        exists_congr fun q => and_congr_right fun hq => by rw [hcell q hq]
      rw [List.mem_append, hmem, hiff, List.exists_mem_cons_iff, or_comm]

end Loop

namespace IgmpGroup

/-- `igmp_delaying_member` starts the timer of such a group again. -/
def Restarts (g : IgmpGroup) (maxresp : UInt8) : Prop :=
  g.group_state = .IDLE_MEMBER ∨ g.group_state = .DELAYING_MEMBER ∧ maxresp.toUInt16 > g.timer

instance (g : IgmpGroup) (maxresp : UInt8) : Decidable (g.Restarts maxresp) :=
  inferInstanceAs (Decidable (_ ∨ _))

/-- What `igmp_delaying_member` makes of a group. -/
def delayed (g : IgmpGroup) (maxresp : UInt8) : IgmpGroup :=
  if g.Restarts maxresp then
    { g with timer := (maxresp / 2).toUInt16, group_state := .DELAYING_MEMBER }
  else g

/-- Whether a tick is the last one of a group that is to report. -/
def Expires (g : IgmpGroup) : Prop := g.timer = 1 ∧ g.group_state = .DELAYING_MEMBER

instance (g : IgmpGroup) : Decidable g.Expires := inferInstanceAs (Decidable (_ ∧ _))

/-- What `igmp_tmr` makes of a group. -/
def ticked (g : IgmpGroup) (pbuf : Bool) : IgmpGroup :=
  if g.timer = 0 then g
  else
    { g with timer := g.timer - 1,
             last_reporter_flag := if g.Expires ∧ pbuf then true else g.last_reporter_flag }

/-- The report of a group. -/
def report (g : IgmpGroup) : Sent :=
  ⟨.V2_MEMB_REPORT, g.group_address, g.group_address, g.interface⟩

/-- What `igmp_tmr` sends about a group. -/
def expired (g : IgmpGroup) (pbuf : Bool) : List Sent :=
  if g.Expires ∧ pbuf then [g.report] else []

end IgmpGroup

section Cells

variable {s : State} {p : ℕ}

/-- One group is changed. -/
theorem modify_group (f : IgmpGroup → IgmpGroup) :
    (s.modify p f).group = Function.update s.group p (f (s.group p)) := rfl

/-- The change of a group is no message. -/
@[simp] theorem modify_sent (f : IgmpGroup → IgmpGroup) : (s.modify p f).sent = s.sent := rfl

/-- What `igmp_delaying_member` does to the groups. -/
theorem igmpDelayingMember_group (s : State) (p : ℕ) (maxresp : UInt8) :
    (igmpDelayingMember s p maxresp).group =
      Function.update s.group p ((s.group p).delayed maxresp) := by
  have heq : igmpDelayingMember s p maxresp =
      if (s.group p).Restarts maxresp then
        (igmpStartTimer s p (maxresp / 2)).modify p fun g =>
          { g with group_state := .DELAYING_MEMBER }
      else s := rfl
  rw [heq, IgmpGroup.delayed]
  by_cases h : (s.group p).Restarts maxresp
  · rw [if_pos h, if_pos h]
    simp [igmpStartTimer, modify_group]
  · rw [if_neg h, if_neg h]
    exact (Function.update_eq_self p s.group).symm

/-- `igmp_delaying_member` sends nothing. -/
theorem igmpDelayingMember_sent (s : State) (p : ℕ) (maxresp : UInt8) :
    (igmpDelayingMember s p maxresp).sent = s.sent := by
  unfold igmpDelayingMember
  split <;> rfl

/-- A loop that delays the groups of some kind. -/
theorem delaying_loop (C : IgmpGroup → Prop) [DecidablePred C] (maxresp : UInt8) {l : List ℕ}
    (hl : l.Nodup) (s : State) :
    let s' := l.foldl (fun s q => if C (s.group q) then igmpDelayingMember s q maxresp else s) s
    s'.sent = s.sent ∧ ∀ q ∈ l,
      s'.group q = if C (s.group q) then (s.group q).delayed maxresp else s.group q := by
  have hf : ∀ (s : State) p,
      (if C (s.group p) then igmpDelayingMember s p maxresp else s).group =
        Function.update s.group p (if C (s.group p) then (s.group p).delayed maxresp
        else s.group p) := by
    intro s p
    split
    · exact igmpDelayingMember_group s p maxresp
    · exact (Function.update_eq_self p s.group).symm
  refine ⟨?_, fun q hq => ?_⟩
  · have hsent : ∀ (s : State) p,
        (if C (s.group p) then igmpDelayingMember s p maxresp else s).sent = [] ++ s.sent := by
      intro s p
      split
      · exact igmpDelayingMember_sent s p maxresp
      · rfl
    obtain ⟨news, hnews, hmem⟩ := foldl_sent (fun _ _ => [])
      (F := fun _ g => if C g then g.delayed maxresp else g) hf hsent hl s
    have hnil : news = [] := by
      rw [List.eq_nil_iff_forall_not_mem]
      intro r hr
      obtain ⟨p, -, hr⟩ := (hmem r).mp hr
      cases hr
    rw [hnews, hnil, List.nil_append]
  · rw [foldl_group (F := fun _ g => if C g then g.delayed maxresp else g) hf hl s q, if_pos hq]

/-- The round of `igmp_tmr`. -/
theorem tick_group (s : State) (p : ℕ) (mem : Memory) :
    let s' := if (s.group p).timer ≠ 0 then
        let s := s.modify p fun g => { g with timer := g.timer - 1 }
        if (s.group p).timer = 0 then igmpTimeout s p mem else s
      else s
    s'.group = Function.update s.group p ((s.group p).ticked (mem.pbuf p)) ∧
      s'.sent = (s.group p).expired (mem.pbuf p) ++ s.sent := by
  dsimp only
  by_cases hzero : (s.group p).timer = 0
  · have hnot : ¬ (s.group p).Expires := by
      rintro ⟨hone, -⟩
      rw [hzero] at hone
      cases hone
    rw [if_neg (not_not.mpr hzero)]
    simp [IgmpGroup.ticked, IgmpGroup.expired, hzero, hnot]
  · rw [if_pos hzero]
    have hlast : (s.group p).timer - 1 = 0 ↔ (s.group p).timer = 1 := by
      rw [← UInt16.toNat_inj, ← UInt16.toNat_inj, UInt16.toNat_sub_of_le]
      · have := mt UInt16.toNat_inj.mp hzero
        change _ - 1 = 0 ↔ _ = 1
        have : (0 : UInt16).toNat = 0 := rfl
        omega
      · rw [UInt16.le_iff_toNat_le]
        have := mt UInt16.toNat_inj.mp hzero
        have : (0 : UInt16).toNat = 0 := rfl
        have : (1 : UInt16).toNat = 1 := rfl
        omega
    by_cases hone : (s.group p).timer = 1
    · by_cases hstate : (s.group p).group_state = .DELAYING_MEMBER
      · cases hpbuf : mem.pbuf p with
        | false => simp [modify_group, igmpTimeout, igmpSend, IgmpGroup.ticked,
          IgmpGroup.expired, hone,
            hstate, hpbuf]
        | true => simp [modify_group, igmpTimeout, igmpSend, IgmpGroup.ticked, IgmpGroup.expired,
            IgmpGroup.Expires, IgmpGroup.report, hone, hstate, hpbuf]
      · simp [modify_group, igmpTimeout, IgmpGroup.ticked, IgmpGroup.expired, IgmpGroup.Expires,
          hone, hstate]
    · have hnot : ¬ (s.group p).Expires := fun h => hone h.1
      simp [modify_group, IgmpGroup.ticked, IgmpGroup.expired, hlast, hone, hzero, hnot]

/-- `igmp_tmr`. -/
theorem igmpTmr_cells (h : Linked s) (mem : Memory) :
    (∀ q ∈ s.groups, (igmpTmr s mem).group q = (s.group q).ticked (mem.pbuf q)) ∧
      ∃ news, (igmpTmr s mem).sent = news ++ s.sent ∧
        ∀ r, r ∈ news ↔ ∃ p ∈ s.groups, r ∈ (s.group p).expired (mem.pbuf p) := by
  have hnodup := h.links.walk.nodup
  refine ⟨fun q hq => ?_, ?_⟩
  · exact (foldl_group (F := fun p g => g.ticked (mem.pbuf p)) (fun s p => (tick_group s p mem).1)
      hnodup s q).trans (if_pos hq)
  · exact foldl_sent (fun p g => g.expired (mem.pbuf p)) (F := fun p g => g.ticked (mem.pbuf p))
      (fun s p => (tick_group s p mem).1) (fun s p => (tick_group s p mem).2) hnodup s

end Cells

/-! ## What `igmp_input` does -/

namespace Packet

/-- The time that a query leaves for a report. -/
def deadline (p : Packet) : UInt8 :=
  if p.igmp_maxresp = 0 then IGMP_V1_DELAYING_MEMBER_TMR else p.igmp_maxresp

/-- A general query. -/
def General (p : Packet) (dest : IpAddr) : Prop := dest = allsystems ∧ p.igmp_group_address = 0

instance (p : Packet) (dest : IpAddr) : Decidable (p.General dest) := inferInstanceAs
    (Decidable (_ ∧ _))

/-- What `igmp_input` hands to `igmp_delaying_member`: of a query to a specific group it is the
field as it came. -/
def delay (p : Packet) (dest : IpAddr) :
    UInt8 := if p.General dest then p.deadline else p.igmp_maxresp

/-- The query asks for a report of the group with this address. -/
def Covers (p : Packet) (dest a : IpAddr) : Prop :=
  a ≠ allsystems ∧ (p.General dest ∨ a = if dest = allsystems then p.igmp_group_address else dest)

instance (p : Packet) (dest a : IpAddr) : Decidable (p.Covers dest a) := inferInstanceAs
    (Decidable (_ ∧ _))

end Packet

/-- The message passes the checks of `igmp_input`, and the interface has a group for its
destination. -/
def State.Accepts (s : State) (p : Packet) (inp : ℕ) (dest : IpAddr) : Prop :=
  p.long = true ∧ p.chksum = true ∧ igmpLookforGroup s inp dest ≠ none

instance (s : State) (p : Packet) (inp : ℕ) (dest : IpAddr) : Decidable (s.Accepts p inp dest) :=
  inferInstanceAs (Decidable (_ ∧ _))

section Input

variable {s : State} {p : Packet} {inp : ℕ} {dest : IpAddr}

/-- Another message changes nothing. -/
theorem igmpInput_of_not (h : s.Accepts p inp dest → p.igmp_msgtype ≠ .MEMB_QUERY ∧
    p.igmp_msgtype ≠ .V2_MEMB_REPORT) : igmpInput s p inp dest = s := by
  unfold igmpInput
  split
  · rfl
  · next hchecks =>
    obtain ⟨hlong, hchksum⟩ := not_or.mp hchecks
    cases hfind : igmpLookforGroup s inp dest with
    | none => rfl
    | some group =>
      obtain ⟨hquery, hreport⟩ := h ⟨Bool.eq_true_of_not_eq_false hlong,
        Bool.eq_true_of_not_eq_false hchksum, by rw [hfind]; nofun⟩
      cases htype : p.igmp_msgtype with
      | MEMB_QUERY => exact absurd htype hquery
      | V2_MEMB_REPORT => exact absurd htype hreport
      | LEAVE_GROUP | other => rfl

/-- A query delays the groups that it covers. -/
theorem igmpInput_query (h : Linked s) (haddr : ∀ q ∈ s.groups, (s.group q).group_address ≠ 0)
    (hacc : s.Accepts p inp dest) (htype : p.igmp_msgtype = .MEMB_QUERY) :
    (igmpInput s p inp dest).sent = s.sent ∧
      ∀ q ∈ s.groups, (s.group q).group_address ≠ allsystems → (igmpInput s p inp dest).group q =
        if (s.group q).interface = inp ∧ p.Covers dest (s.group q).group_address then
          (s.group q).delayed (p.delay dest)
        else s.group q := by
  obtain ⟨hlong, hchksum, hfind⟩ := hacc
  obtain ⟨group, hgroup⟩ := Option.ne_none_iff_exists'.mp hfind
  obtain ⟨hmem, hkey⟩ := h.links.lookfor.mp hgroup
  unfold igmpInput
  rw [if_neg (by rw [hlong, hchksum]; nofun), hgroup]
  simp only [htype]
  by_cases hgen : p.General dest
  · -- The general query: the loop over the list.
    rw [if_pos (show dest = allsystems ∧ p.igmp_group_address = 0 from hgen)]
    obtain ⟨hsent, hcells⟩ := delaying_loop
      (fun g => g.interface = inp ∧ g.group_address ≠ allsystems) p.deadline h.links.walk.nodup s
    refine ⟨hsent, fun q hq hall => (hcells q hq).trans ?_⟩
    have hdelay : p.delay dest = p.deadline := if_pos hgen
    have hcovers : p.Covers dest (s.group q).group_address := ⟨hall, .inl hgen⟩
    simp only [hdelay, hall, hcovers, ne_eq, not_false_eq_true]
  · have hspec : ¬ (dest = allsystems ∧ p.igmp_group_address = 0) := hgen
    rw [if_neg hspec, if_pos (haddr group hmem)]
    have hdelay : p.delay dest = p.igmp_maxresp := if_neg hgen
    -- The group that is asked for.
    have hasked : (if dest = allsystems then igmpLookforGroup s inp p.igmp_group_address
        else some group) =
        igmpLookforGroup s inp (if dest = allsystems then p.igmp_group_address else dest) := by
      split
      · rfl
      · exact hgroup.symm
    have hcovers : ∀ q ∈ s.groups, (s.group q).group_address ≠ allsystems →
        ((s.group q).interface = inp ∧ p.Covers dest (s.group q).group_address ↔
          igmpLookforGroup s inp (if dest = allsystems then p.igmp_group_address else dest) =
          some q) := by
      intro q hq hall
      rw [h.links.lookfor, IgmpGroup.key, Prod.mk.injEq]
      constructor
      · rintro ⟨hface, hcov⟩
        exact ⟨hq, hface, hcov.2.resolve_left hgen⟩
      · rintro ⟨-, hface, ha⟩
        exact ⟨hface, hall, .inr ha⟩
    rw [hasked, hdelay]
    cases hasked' : igmpLookforGroup s inp
        (if dest = allsystems then p.igmp_group_address else dest) with
    | none =>
      refine ⟨rfl, fun q hq hall => ?_⟩
      rw [if_neg]
      rw [hcovers q hq hall, hasked']
      exact Option.some_ne_none q ∘ Eq.symm
    | some group' =>
      refine ⟨igmpDelayingMember_sent s group' _, fun q hq hall => ?_⟩
      have hiff := hcovers q hq hall
      rw [hasked', Option.some_inj] at hiff
      change (igmpDelayingMember s group' p.igmp_maxresp).group q = _
      rw [igmpDelayingMember_group]
      by_cases hq' : group' = q
      · rw [if_pos (hiff.mpr hq'), hq', Function.update_self]
      · rw [if_neg (fun hc => hq' (hiff.mp hc)), Function.update_of_ne (Ne.symm hq')]

/-- A report of another member stops the timer of its group. -/
theorem igmpInput_report (h : Linked s) (hacc : s.Accepts p inp dest)
    (htype : p.igmp_msgtype = .V2_MEMB_REPORT) :
    (igmpInput s p inp dest).sent = s.sent ∧ ∀ q ∈ s.groups, (igmpInput s p inp dest).group q =
      if (s.group q).key = (inp, dest) ∧ (s.group q).group_state = .DELAYING_MEMBER then
        { s.group q with timer := 0, group_state := .IDLE_MEMBER, last_reporter_flag := false }
      else s.group q := by
  obtain ⟨hlong, hchksum, hfind⟩ := hacc
  obtain ⟨group, hgroup⟩ := Option.ne_none_iff_exists'.mp hfind
  have hkey : ∀ q ∈ s.groups, (s.group q).key = (inp, dest) ↔ group = q := by
    intro q hq
    have hlookfor : igmpLookforGroup s inp dest = some q ↔ group = q := by
      rw [hgroup, Option.some_inj]
    rw [← hlookfor, h.links.lookfor]
    exact ⟨fun hk => ⟨hq, hk⟩, And.right⟩
  unfold igmpInput
  rw [if_neg (by rw [hlong, hchksum]; nofun), hgroup]
  simp only [htype]
  split
  · next hstate =>
    refine ⟨rfl, fun q hq => ?_⟩
    rw [modify_group]
    by_cases hq' : group = q
    · rw [if_pos ⟨(hkey q hq).mpr hq', hq' ▸ hstate⟩, hq', Function.update_self]
    · rw [if_neg (fun hc => hq' ((hkey q hq).mp hc.1)), Function.update_of_ne (Ne.symm hq')]
  · next hstate =>
    refine ⟨rfl, fun q hq => ?_⟩
    rw [if_neg]
    rintro ⟨hk, hstate'⟩
    exact hstate ((hkey q hq).mp hk ▸ hstate')

/-- `igmp_report_groups` delays the groups of an interface. -/
theorem igmpReportGroups_cells (h : Linked s) (n : ℕ) :
    (igmpReportGroups s n).sent = s.sent ∧ ∀ q ∈ s.groups, (igmpReportGroups s n).group q =
      if (s.group q).interface = n then (s.group q).delayed IGMP_JOIN_DELAYING_MEMBER_TMR
      else s.group q :=
  delaying_loop (fun g => g.interface = n) IGMP_JOIN_DELAYING_MEMBER_TMR h.links.walk.nodup s

end Input

/-! ## Groups that come and go -/

/-- The groups that stay keep their timers, and a group that comes waits to report; of the group of
all systems only its address is told. -/
structure Carried (s s' : State) : Prop where
  linked : Linked s'
  key : ∀ p ∈ s.groups, p ∈ s'.groups → (s'.group p).key = (s.group p).key
  timer : ∀ p ∈ s.groups, p ∈ s'.groups → (s.group p).group_address ≠ allsystems →
    (s'.group p).group_state = (s.group p).group_state ∧ (s'.group p).timer = (s.group p).timer
  new : ∀ p ∈ s'.groups, p ∉ s.groups → (s'.group p).group_address ≠ 0 ∧
    ((s'.group p).group_address ≠ allsystems → (s'.group p).group_state = .DELAYING_MEMBER)
  sent : ∀ r ∈ s'.sent, r ∈ s.sent ∨ (r.type = .V2_MEMB_REPORT → r.group_address ≠ allsystems)

/-- No group goes. -/
structure Grown (s s' : State) : Prop extends Carried s s' where
  sub : ∀ p ∈ s.groups, p ∈ s'.groups

/-- No group comes. -/
structure Shrunk (s s' : State) : Prop extends Carried s s' where
  sub : ∀ p ∈ s'.groups, p ∈ s.groups

section Carried

variable {ifs : NetIfs} {mem : Memory} {s s' s'' s₁ : State} {n p : ℕ} {a ifaddr : IpAddr}

/-- All timers stay. -/
theorem Carried.refl (h : Linked s) : Carried s s :=
  ⟨h, fun _ _ _ => rfl, fun _ _ _ _ => ⟨rfl, rfl⟩, fun _ hp hno => absurd hp hno,
    fun _ hr => .inl hr⟩

/-- A group that is there before and after two calls is there between them. -/
theorem Carried.trans (h : Carried s s') (h' : Carried s' s'')
    (hmid : ∀ p ∈ s.groups, p ∈ s''.groups → p ∈ s'.groups) : Carried s s'' where
  linked := h'.linked
  key p hp hp'' := (h'.key p (hmid p hp hp'') hp'').trans (h.key p hp (hmid p hp hp''))
  timer p hp hp'' hall := by
    have hp' := hmid p hp hp''
    have hkey := h.key p hp hp'
    obtain ⟨hstate, htimer⟩ := h.timer p hp hp' hall
    obtain ⟨hstate', htimer'⟩ := h'.timer p hp' hp'' fun heq => hall <| by
      rw [← heq]
      exact (congrArg Prod.snd hkey).symm
    exact ⟨hstate'.trans hstate, htimer'.trans htimer⟩
  new p hp'' hno := by
    by_cases hp' : p ∈ s'.groups
    · have hkey : (s''.group p).group_address = (s'.group p).group_address :=
        congrArg Prod.snd (h'.key p hp' hp'')
      obtain ⟨hzero, hstate⟩ := h.new p hp' hno
      rw [hkey]
      exact ⟨hzero, fun hall => (h'.timer p hp' hp'' hall).1.trans (hstate hall)⟩
    · exact h'.new p hp'' hp'
  sent r hr := (h'.sent r hr).elim (h.sent r) .inr

/-- The list stays as it is. -/
theorem Grown.refl (h : Linked s) : Grown s s := ⟨.refl h, fun _ hp => hp⟩

/-- The list grows in two steps. -/
theorem Grown.trans (h : Grown s s') (h' : Grown s' s'') : Grown s s'' :=
  ⟨h.toCarried.trans h'.toCarried fun p hp _ => h.sub p hp, fun p hp => h'.sub p (h.sub p hp)⟩

/-- The list stays as it is. -/
theorem Shrunk.refl (h : Linked s) : Shrunk s s := ⟨.refl h, fun _ hp => hp⟩

/-- The list shrinks in two steps. -/
theorem Shrunk.trans (h : Shrunk s s') (h' : Shrunk s' s'') : Shrunk s s'' :=
  ⟨h.toCarried.trans h'.toCarried fun p _ hp => h'.sub p hp, fun p hp => h.sub p (h'.sub p hp)⟩

/-- A group of another address is opened, and only its cell changes. -/
theorem Opened.grown (h : Linked s) (ho : Opened s n a p s₁) (hl : Linked s') (hk : Kept s₁ s')
    (ha : a ≠ 0) (hother : ∀ q, q ≠ p → s'.group q = s₁.group q)
    (hmember : (s₁.group p).group_state ≠ .NON_MEMBER → a ≠ allsystems →
      (s'.group p).group_state = (s₁.group p).group_state ∧ (s'.group p).timer = (s₁.group p).timer)
    (hnew : (s₁.group p).group_state = .NON_MEMBER → a ≠ allsystems →
      (s'.group p).group_state = .DELAYING_MEMBER)
    (hsent : ∀ r ∈ s'.sent, r ∈ s₁.sent ∨
    (r.type = .V2_MEMB_REPORT → r.group_address ≠ allsystems)) : Grown s s' := by
  have hgroups : s'.groups = s₁.groups := hk.groups ho.links
  have hkeep : ∀ q ∈ s.groups, q ∈ s'.groups := by
    intro q hq
    rw [hgroups]
    exact (ho.kept q hq).1
  refine ⟨⟨hl, fun q hq _ => ?_, fun q hq _ hall => ?_, fun q hq' hno => ?_, fun r hr => ?_⟩, hkeep⟩
  · rw [hk.key, (ho.kept q hq).2]
  · by_cases hqp : q = p
    · subst hqp
      have hcell := (ho.kept q hq).2
      have haddr : a = (s.group q).group_address := by
        rw [← hcell]
        exact (congrArg Prod.snd ho.key).symm
      rw [← hcell]
      refine hmember ?_ (by rwa [haddr])
      rw [hcell]
      exact h.member q hq
    · rw [hother q hqp, (ho.kept q hq).2]
      exact ⟨rfl, rfl⟩
  · -- The only group that may come is the opened one.
    have hqp : q = p := by
      by_contra hqp
      exact hno (ho.old q (hgroups ▸ hq') hqp)
    subst hqp
    have haddr : (s'.group q).group_address = a :=
      (congrArg Prod.snd (hk.key q)).trans (congrArg Prod.snd ho.key)
    rw [haddr]
    refine ⟨ha, fun hall => hnew (ho.state.mpr ?_) hall⟩
    by_contra hsome
    obtain ⟨q', hfind⟩ := Option.ne_none_iff_exists'.mp (mt uses_eq_none.mpr hsome)
    obtain ⟨hq, hkey⟩ := h.links.lookfor.mp hfind
    obtain ⟨hmem, hcell⟩ := ho.kept q' hq
    have heq := ho.links.unique q' hmem q ho.mem (by rw [hcell, hkey, ho.key])
    exact hno (heq ▸ hq)
  · rcases hsent r hr with hr | hr
    · rw [ho.sent] at hr
      exact .inl hr
    · exact .inr hr

/-- A message of `igmp_send` is about its group. -/
theorem igmpSend_sent (s : State) (p : ℕ) (type : MsgType) (pbuf : Bool) :
    ∀ r ∈ (igmpSend s p type pbuf).sent,
      r ∈ s.sent ∨ r.type = type ∧ r.group_address = (s.group p).group_address := by
  intro r hr
  unfold igmpSend at hr
  split at hr
  · cases type with
    | V2_MEMB_REPORT | LEAVE_GROUP =>
      rcases List.mem_cons.mp hr with rfl | hr
      · exact .inr ⟨rfl, rfl⟩
      · exact .inl hr
    | MEMB_QUERY | other => exact .inl hr
  · exact .inl hr

/-- A message changes its own group only. -/
theorem igmpSend_other {q : ℕ} (s : State) (type : MsgType) (pbuf : Bool) (hq : q ≠ p) :
    (igmpSend s p type pbuf).group q = s.group q := by
  unfold igmpSend
  split
  · cases type with
    | V2_MEMB_REPORT => exact Function.update_of_ne hq _ _
    | LEAVE_GROUP | MEMB_QUERY | other => rfl
  · rfl

variable (ifs mem) in

/-- A join makes the list grow. -/
theorem joinGroup_grown (h : Linked s) (ho : Opened s n a p s₁) (ha : a ≠ 0)
    (hall : a ≠ allsystems) : Grown s (joinGroup ifs mem n a p s₁) := by
  have haddr : (s₁.group p).group_address = a := congrArg Prod.snd ho.key
  refine ho.grown h (joinGroup_spec ifs mem ho).1 ?_ ha (fun q hq => ?_) (fun hmember _ => ?_)
    (fun hmember _ => ?_) ?_
  · unfold joinGroup
    have hlast : ∀ s : State, Kept s (s.modify p fun g => { g with use := g.use + 1 }) := by
      intro s
      apply Kept.modify <;> intro g <;> rfl
    apply Kept.trans _ (hlast _)
    split
    · exact (Quiet.refl s₁).toKept
    · refine Kept.trans ?_ (((igmpSend_quiet _ p _ _).trans (igmpStartTimer_quiet _ p _)).trans
        (delaying_quiet _ p)).toKept
      split
      · exact tell_kept
      · exact (Quiet.refl s₁).toKept
  · unfold joinGroup
    split
    · simp [modify_group, hq]
    · simp only [modify_group, igmpStartTimer, Function.update_of_ne hq]
      rw [igmpSend_other _ _ _ hq]
      split
      · rw [tell_group]
      · rfl
  · unfold joinGroup
    simp [hmember, modify_group]
  · unfold joinGroup
    simp [hmember, modify_group]
  · intro r hr
    unfold joinGroup at hr
    split at hr
    · exact .inl hr
    · rcases igmpSend_sent _ p .V2_MEMB_REPORT (mem.pbuf p) r hr with hr | ⟨-, hr⟩
      · left
        split at hr
        · rwa [tell_sent] at hr
        · exact hr
      · right
        intro _
        rw [hr]
        split
        · rw [tell_group, haddr]
          exact hall
        · rw [haddr]
          exact hall

variable (ifs mem ifaddr) in
/-- The join loop. -/
theorem igmpJoinLoop_grown (ha : a ≠ 0) (hall : a ≠ allsystems) (ns : List ℕ) :
    ∀ (err : Err) (s : State), Linked s → Grown s (igmpJoinLoop ifs mem ifaddr a ns err s).2 := by
  induction ns with
  | nil => exact fun err s h => .refl h
  | cons n ns ih =>
    intro err s h
    by_cases hn : ifs.covers ifaddr n
    · by_cases hroom : Room s mem a n
      · obtain ⟨p, s₁, hlookup, hopen⟩ := igmpLookupGroup_some h hroom
        have hgrown := joinGroup_grown ifs mem h hopen ha hall
        rw [igmpJoinLoop, if_pos hn, hlookup]
        exact hgrown.trans (ih .OK _ hgrown.linked)
      · rw [igmpJoinLoop_stops hn hroom]
        exact .refl h
    · rw [igmpJoinLoop, if_neg hn]
      exact ih err s h

variable (ifs mem n) in

/-- The start of an interface makes the list grow. -/
theorem igmpStart_grown (h : Linked s) : Grown s (igmpStart ifs s n mem).2 := by
  by_cases hroom : s.uses n allsystems ≠ none ∨ mem.group n = true
  · obtain ⟨p, s₁, hlookup, hopen⟩ := igmpLookupGroup_some h hroom
    have hlinked := (igmpStart_spec ifs h hroom).1
    unfold igmpStart at hlinked ⊢
    rw [hlookup] at hlinked ⊢
    refine hopen.grown h hlinked ?_ (by decide) (fun q hq => ?_) (fun _ hall => absurd rfl hall)
      (fun _ hall => absurd rfl hall) fun r hr => .inl ?_
    · refine Kept.trans ?_ tell_kept
      apply Kept.modify <;> intro g <;> rfl
    · simp [modify_group, hq]
    · simpa using hr
  · obtain ⟨hno, hmem⟩ := not_or.mp hroom
    unfold igmpStart
    rw [igmpLookupGroup_none s (not_not.mp hno) (Bool.not_eq_true _ ▸ hmem)]
    exact .refl h

/-- Cells of which some are no longer on the list. -/
theorem Shrunk.of_same {l : List ℕ} (hl : Linked s') (hlinks : Links s' l) (hsame : Same s s')
    (hsub : ∀ q ∈ l, q ∈ s.groups) : Shrunk s s' := by
  have hsub' : ∀ q ∈ s'.groups, q ∈ s.groups := by
    rw [hlinks.groups]
    exact hsub
  refine ⟨⟨hl, fun q _ _ => hsame.key q, fun q _ _ _ => ⟨hsame.state q, hsame.timer q⟩,
    fun q hq hno => absurd (hsub' q hq) hno, fun r hr => ?_⟩, hsub'⟩
  rw [hsame.sent] at hr
  exact .inl hr

variable (ifs n) in

/-- The stop of an interface makes the list shrink. -/
theorem igmpStop_shrunk (h : Linked s) : Shrunk s (igmpStop ifs s n).2 := by
  obtain ⟨hlinks, hsame, -⟩ := igmpStopLoop_spec ifs n s.groups [] s h.links
  exact .of_same (igmpStop_spec ifs n h).1 hlinks hsame fun q hq => (List.mem_filter.mp hq).1

variable (ifs mem) in

/-- A leave makes the list shrink. -/
theorem leaveGroup_shrunk (h : Linked s) (hp : p ∈ s.groups) (hkey : (s.group p).key = (n, a)) :
    Shrunk s (leaveGroup ifs mem n a p s) := by
  have hlinked := (leaveGroup_spec ifs mem h hp hkey).1
  unfold leaveGroup at hlinked ⊢
  split at hlinked
  · next huse =>
    rw [if_pos huse]
    -- The message goes out before the group goes.
    generalize ht : (if (s.group p).last_reporter_flag = true then
      igmpSend s p .LEAVE_GROUP (mem.pbuf p) else s) = t at hlinked ⊢
    have hgroup : t.group = s.group := by
      rw [← ht]
      unfold igmpSend
      split
      · split <;> rfl
      · rfl
    have hsent : ∀ r ∈ t.sent, r ∈ s.sent ∨
        (r.type = .V2_MEMB_REPORT → r.group_address ≠ allsystems) := by
      intro r hr
      rw [← ht] at hr
      split at hr
      · rcases igmpSend_sent s p _ _ r hr with hr | ⟨hr, -⟩
        · exact .inl hr
        · refine .inr fun htype => ?_
          rw [hr] at htype
          cases htype
      · exact .inl hr
    have hquiet : Quiet s t := by
      rw [← ht]
      split
      · exact igmpSend_quiet s p _ _
      · exact .refl s
    have hgroups : t.groups = s.groups := hquiet.toKept.groups h.links
    have ht' : Shrunk s t := by
      refine ⟨⟨hquiet.linked h, fun q _ _ => hquiet.key q, fun q _ _ _ => ?_, fun q hq hno => ?_,
        hsent⟩, fun q hq => ?_⟩
      · rw [hgroup]
        exact ⟨rfl, rfl⟩
      · exact absurd (hgroups ▸ hq) hno
      · exact hgroups ▸ hq
    have htell : Linked (t.tell ifs n a .DEL) := tell_linked ht'.linked
    obtain ⟨l, hlinks, hsame, hmem, -⟩ := igmpRemoveGroup_links htell (p := p) (by
      rw [tell_groups, hgroups]
      exact hp)
    refine ht'.trans (.of_same hlinked hlinks (tell_same.trans hsame) fun q hq => ?_)
    have := ((hmem q).mp hq).1
    rwa [tell_groups] at this
  · next huse =>
    rw [if_neg huse]
    have hkept : Kept s (s.modify p fun g => { g with use := g.use - 1 }) := by
      apply Kept.modify <;> intro g <;> rfl
    have hgroups : (s.modify p fun g => { g with use := g.use - 1 }).groups = s.groups :=
      hkept.groups h.links
    refine ⟨⟨hlinked, fun q _ _ => hkept.key q, fun q _ _ _ => ?_, fun q hq hno => ?_,
      fun r hr => .inl hr⟩, fun q hq => hgroups ▸ hq⟩
    · by_cases hq : q = p
      · simp [modify_group, hq]
      · simp [modify_group, hq]
    · exact absurd (hgroups ▸ hq) hno

variable (ifs mem a ifaddr) in
/-- The leave loop. -/
theorem igmpLeaveLoop_shrunk (ns : List ℕ) : ∀ (err : Err) (s : State), Linked s →
    Shrunk s (igmpLeaveLoop ifs mem ifaddr a ns err s).2 := by
  induction ns with
  | nil => exact fun err s h => .refl h
  | cons n ns ih =>
    intro err s h
    rw [igmpLeaveLoop]
    split
    · cases hfind : igmpLookforGroup s n a with
      | none => exact ih err s h
      | some p =>
        obtain ⟨hp, hkey⟩ := h.links.lookfor.mp hfind
        have hshrunk := leaveGroup_shrunk ifs mem h hp hkey
        exact hshrunk.trans (ih .OK _ hshrunk.linked)
    · exact ih err s h

end Carried

end Lwip.Igmp
