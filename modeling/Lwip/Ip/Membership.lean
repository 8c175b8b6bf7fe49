import Lwip.Ip.GroupList

/-!
# Who has joined which group

`step` is the machine of the IGMP functions, with a ledger of the calls beside their state. `Books`
is what the ledger says about the list, the use counters and the MAC filters. A step keeps it unless
it meets one of three cases (`Sound`): a counter of simultaneous uses that is full, a join of
several interfaces that runs out of memory behind the first one, and a second start of one
interface. So `Books` holds all through a run exactly if no event of the run is one of these
(`books_iff`).
-/

namespace Lwip.Igmp

open Netif (IpAddr ipAddrIsany ipAddrIsmulticast)
open State

section Tell

variable {ifs : NetIfs} {s : State} {n : ℕ} {a : IpAddr} {action : MacFilter}

/-- What the filter of an interface was told. -/
theorem tell_told (m : ℕ) (b : IpAddr) : (s.tell ifs n a action).told m b =
    if (m, b) = (n, a) ∧ (ifs.netif n).igmp_mac_filter = true then action :: s.told m b
    else s.told m b := by
  unfold State.tell
  by_cases hf : (ifs.netif n).igmp_mac_filter
  · simp [hf]
  · simp [hf]

/-- The filter does not touch the groups. -/
@[simp] theorem tell_group : (s.tell ifs n a action).group = s.group := by
  unfold State.tell
  split <;> rfl

/-- The filter does not touch the head of the list. -/
@[simp] theorem tell_head : (s.tell ifs n a action).igmp_group_list = s.igmp_group_list := by
  unfold State.tell
  split <;> rfl

/-- The filter does not touch the next cell. -/
@[simp] theorem tell_fresh : (s.tell ifs n a action).fresh = s.fresh := by
  unfold State.tell
  split <;> rfl

/-- The filter is no message. -/
@[simp] theorem tell_sent : (s.tell ifs n a action).sent = s.sent := by
  unfold State.tell
  split <;> rfl

/-- The filter is no timer. -/
theorem tell_same : Same s (s.tell ifs n a action) := .of_group tell_group tell_sent

/-- The filter does not touch what is kept. -/
theorem tell_kept : Kept s (s.tell ifs n a action) :=
  ⟨tell_head, tell_fresh, fun p => by rw [tell_group], fun p => by rw [tell_group]⟩

/-- The filter does not touch the list. -/
theorem tell_groups : (s.tell ifs n a action).groups = s.groups := by
  unfold State.groups
  rw [tell_group, tell_head, tell_fresh]

/-- The filter does not touch the use counters. -/
theorem tell_uses : (s.tell ifs n a action).uses = s.uses := by
  funext m b
  unfold State.uses igmpLookforGroup
  rw [tell_groups, tell_group]

/-- The filter keeps the list linked. -/
theorem tell_linked (h : Linked s) : Linked (s.tell ifs n a action) where
  links := by
    rw [tell_groups]
    exact tell_kept.links h.links
  member p hp := by
    rw [tell_groups] at hp
    rw [tell_group]
    exact h.member p hp

end Tell

/-! ## What the functions do to the table -/

section Functions

variable {ifs : NetIfs} {mem : Memory} {s : State} {n : ℕ} {a : IpAddr}

variable (ifs n) in
/-- `igmp_stop` goes on behind the groups `k`, which stay. -/
theorem igmpStopLoop_spec (l : List ℕ) : ∀ (k : List ℕ) (s : State), Links s (k ++ l) →
    Links (igmpStopLoop ifs n l k.getLast? s) (k ++ l.filter fun p => (s.group p).interface ≠ n) ∧
      Same s (igmpStopLoop ifs n l k.getLast? s) ∧
      ∀ m b, (igmpStopLoop ifs n l k.getLast? s).told m b =
        if (m = n ∧ (ifs.netif n).igmp_mac_filter = true) ∧ ∃ p ∈ l, (s.group p).key = (n, b) then
          .DEL :: s.told m b
        else s.told m b := by
  induction l with
  | nil =>
    intro k s h
    exact ⟨by simpa [igmpStopLoop] using h, .of_group rfl rfl, fun m b => by simp [igmpStopLoop]⟩
  | cons p l ih =>
    intro k s h
    by_cases hp : (s.group p).interface = n
    · -- The group is passed over by the group before it, or by the head of the list.
      obtain ⟨s₁, hloop, hlinks, hsame, htold⟩ : ∃ s₁, igmpStopLoop ifs n (p :: l) k.getLast? s =
          igmpStopLoop ifs n l k.getLast? (s₁.tell ifs n (s₁.group p).group_address .DEL) ∧
          Links s₁ (k ++ l) ∧ Same s s₁ ∧ s₁.told = s.told := by
        rcases List.eq_nil_or_concat k with rfl | ⟨k, q, rfl⟩
        · have hhead : s.igmp_group_list = some p := by
            have hw := h.walk
            generalize s.igmp_group_list = r at hw
            cases hw
            rfl
          refine ⟨_, ?_, h.behead, .of_group rfl rfl, rfl⟩
          simp [igmpStopLoop, hp, hhead]
        · rw [List.concat_eq_append, List.append_assoc] at h
          have hhead : s.igmp_group_list ≠ some p := by
            intro hhead
            have hw := h.walk
            rw [hhead] at hw
            have hp' : p ∈ k ++ [q] := by
              cases k with
              | nil => cases hw; exact List.mem_cons_self
              | cons x k => cases hw; exact List.mem_cons_self
            have hmem : p ∈ k ++ q :: l := by
              rw [List.append_cons]
              exact List.mem_append_left l hp'
            exact (h.mem_relink.mp hmem).2 rfl
          refine ⟨_, ?_, by simpa using h.relink, Same.relink s q _, rfl⟩
          simp [igmpStopLoop, hp, hhead]
      have hkey : (s.group p).key = (n, (s₁.group p).group_address) := by
        rw [← hsame.key p]
        exact Prod.ext ((congrArg Prod.fst (hsame.key p)).trans hp) rfl
      obtain ⟨hlinks', hsame', htold'⟩ := ih k _ (tell_kept.links hlinks)
      have hface : ∀ q, (s₁.group q).interface = (s.group q).interface := fun q =>
        congrArg Prod.fst (hsame.key q)
      simp only [tell_group, hface] at hlinks' htold'
      rw [hloop]
      refine ⟨by simpa [hp] using hlinks', (hsame.trans tell_same).trans hsame', fun m b => ?_⟩
      · -- No other group is for this interface and address.
        rw [htold' m b, tell_told, htold]
        have hne : ∀ q ∈ l, (s.group q).key ≠ (s.group p).key := by
          intro q hq heq
          have hqp := h.unique q (List.mem_append_right k (List.mem_cons_of_mem p hq)) p
            (List.mem_append_right k List.mem_cons_self) heq
          subst hqp
          have := (List.nodup_append.mp h.walk.nodup).2.1
          exact (List.nodup_cons.mp this).1 hq
        simp only [hsame.key, List.mem_cons, exists_eq_or_imp, hkey]
        by_cases hb : (m, b) = (n, (s₁.group p).group_address)
        · obtain ⟨rfl, rfl⟩ := Prod.mk.injEq _ _ _ _ ▸ hb
          have hno : ¬ ∃ q ∈ l, (s.group q).key = (m, (s₁.group p).group_address) := by
            rintro ⟨q, hq, hqkey⟩
            exact hne q hq (hqkey.trans hkey.symm)
          simp [hno]
        · have hb' : m = n → ¬ (n, (s₁.group p).group_address) = (n, b) := by
            rintro rfl heq
            exact hb heq.symm
          by_cases hm : m = n
          · simp [hb, hb' hm]
          · simp [hm]
    · have hloop : igmpStopLoop ifs n (p :: l) k.getLast? s =
          igmpStopLoop ifs n l (k ++ [p]).getLast? s := by
        simp [igmpStopLoop, hp]
      obtain ⟨hlinks', hsame', htold'⟩ := ih (k ++ [p]) s (by simpa using h)
      rw [hloop]
      refine ⟨by simpa [hp] using hlinks', hsame', fun m b => ?_⟩
      have hkey : (s.group p).key ≠ (n, b) := fun heq => hp (congrArg Prod.fst heq)
      rw [htold' m b]
      simp only [List.mem_cons, exists_eq_or_imp, hkey, false_or]

variable (ifs n) in
/-- `igmp_stop` takes all groups of the interface from the list. -/
theorem igmpStop_spec (h : Linked s) :
    Linked (igmpStop ifs s n).2 ∧
      (∀ m b, (igmpStop ifs s n).2.uses m b = if m = n then none else s.uses m b) ∧
      ∀ m b, (igmpStop ifs s n).2.told m b =
        if (m = n ∧ (ifs.netif n).igmp_mac_filter = true) ∧
        s.uses n b ≠ none then .DEL :: s.told m b
        else s.told m b := by
  obtain ⟨hlinks, hsame, htold⟩ := igmpStopLoop_spec ifs n s.groups [] s h.links
  obtain ⟨hlinked, huses⟩ := h.remove (fun key => key.1 = n) hlinks hsame fun p => by
    simp [IgmpGroup.key]
  refine ⟨hlinked, huses, fun m b => (htold m b).trans ?_⟩
  have : (∃ p ∈ s.groups, (s.group p).key = (n, b)) ↔ s.uses n b ≠ none := by
    rw [Ne, uses_eq_none, h.links.lookfor_none]
    push Not
    rfl
  simp only [this]

/-- The table with one more use of a group. -/
theorem Opened.count {s₁ s₂ : State} {p : ℕ} {f : IgmpGroup → IgmpGroup} (h : Opened s n a p s₁)
    (hk : Kept s₁ s₂) (huse : ∀ q, (s₂.group q).use = (s₁.group q).use)
    (hstate : ∀ q, (s₁.group q).group_state ≠ .NON_MEMBER → (s₂.group q).group_state ≠ .NON_MEMBER)
    (hp : (f (s₂.group p)).group_state ≠ .NON_MEMBER)
    (hf : ∀ g, (f g).next = g.next ∧ (f g).key = g.key ∧ (f g).use = g.use + 1) :
    Linked (s₂.modify p f) ∧ ∀ m b, (s₂.modify p f).uses m b =
      if (m, b) = (n, a) then some ((s.uses n a).getD 0 + 1) else s.uses m b := by
  have hself : (s₂.modify p f).group p = f (s₂.group p) := Function.update_self _ _ _
  have hother : ∀ q, q ≠ p → (s₂.modify p f).group q = s₂.group q := fun q hq =>
    Function.update_of_ne hq _ _
  obtain ⟨hlinked, huses⟩ := h.close
    (hk.trans (Kept.modify (fun g => (hf g).1) (fun g => (hf g).2.1)))
    (fun q hq => by rw [hother q hq, huse])
    (fun q hq hmem => by
      rw [hother q hq]
      exact hstate q hmem)
    (by rwa [hself])
  refine ⟨hlinked, fun m b => (huses m b).trans ?_⟩
  rw [hself, (hf _).2.2, huse, h.use]

variable (ifs mem) in
/-- An interface joins a group. -/
theorem joinGroup_spec {s₁ : State} {p : ℕ} (h : Opened s n a p s₁) :
    Linked (joinGroup ifs mem n a p s₁) ∧
      (∀ m b, (joinGroup ifs mem n a p s₁).uses m b =
        if (m, b) = (n, a) then some ((s.uses n a).getD 0 + 1) else s.uses m b) ∧
      ∀ m b, (joinGroup ifs mem n a p s₁).told m b =
        if ((m, b) = (n, a) ∧ (ifs.netif n).igmp_mac_filter = true) ∧ s.uses n a = none then
          .ADD :: s.told m b
        else s.told m b := by
  unfold joinGroup
  by_cases hmember : (s₁.group p).group_state = .NON_MEMBER
  · -- It was a new group.
    have hno : s.uses n a = none := h.state.mp hmember
    have huse : (s₁.group p).use = 0 := by rw [h.use, hno, Option.getD_none]
    simp only [hmember, huse, ne_eq, not_true_eq_false, if_false, if_true]
    generalize ht : igmpStartTimer
      (igmpSend (s₁.tell ifs n a .ADD) p .V2_MEMB_REPORT (mem.pbuf p)) p
      IGMP_JOIN_DELAYING_MEMBER_TMR = t
    have hquiet : Quiet (s₁.tell ifs n a .ADD)
        (t.modify p fun g => { g with group_state := .DELAYING_MEMBER }) := by
      rw [← ht]
      exact ((igmpSend_quiet _ p _ _).trans (igmpStartTimer_quiet _ p _)).trans (delaying_quiet _ p)
    obtain ⟨hlinked, huses⟩ := h.count (f := fun g => { g with use := g.use + 1 })
      (tell_kept.trans hquiet.toKept) (fun q => by rw [hquiet.use, tell_group])
      (fun q hq => hquiet.state q (by rwa [tell_group]))
      (by simp [State.modify]) (fun g => ⟨rfl, rfl, rfl⟩)
    refine ⟨hlinked, huses, fun m b => ?_⟩
    change (t.modify p fun g => { g with group_state := .DELAYING_MEMBER }).told m b = _
    rw [hquiet.told, tell_told, h.told]
    simp only [hno, and_true]
  · have hsome : s.uses n a ≠ none := fun hno => hmember (h.state.mpr hno)
    simp only [hmember, ne_eq, not_false_eq_true, if_true]
    obtain ⟨hlinked, huses⟩ := h.count (f := fun g => { g with use := g.use + 1 })
      (Quiet.refl s₁).toKept (fun _ => rfl) (fun _ hq => hq) hmember (fun g => ⟨rfl, rfl, rfl⟩)
    refine ⟨hlinked, huses, fun m b => ?_⟩
    change s₁.told m b = _
    rw [h.told, if_neg fun hno => hsome hno.2]

variable (ifs) in
/-- `igmp_start` joins the group of all systems, and tells the filter so each time. -/
theorem igmpStart_spec (h : Linked s) (hroom : s.uses n allsystems ≠ none ∨ mem.group n = true) :
    Linked (igmpStart ifs s n mem).2 ∧
      (∀ m b, (igmpStart ifs s n mem).2.uses m b =
        if (m, b) = (n, allsystems) then some ((s.uses n allsystems).getD 0 + 1) else s.uses m b) ∧
      ∀ m b, (igmpStart ifs s n mem).2.told m b =
        if (m, b) = (n, allsystems) ∧ (ifs.netif n).igmp_mac_filter = true then .ADD :: s.told m b
        else s.told m b := by
  obtain ⟨p, s₁, hlookup, hopen⟩ := igmpLookupGroup_some h hroom
  obtain ⟨hlinked, huses⟩ := hopen.count
    (f := fun g => { g with group_state := .IDLE_MEMBER, use := g.use + 1 })
    (Quiet.refl s₁).toKept (fun _ => rfl) (fun _ hq => hq) (fun h => by cases h)
    (fun g => ⟨rfl, rfl, rfl⟩)
  unfold igmpStart
  rw [hlookup]
  refine ⟨tell_linked hlinked, fun m b => ?_, fun m b => ?_⟩
  · rw [tell_uses, huses]
  · rw [tell_told]
    change (if _ then _ :: s₁.told m b else s₁.told m b) = _
    rw [hopen.told]

/-- The uses of a group that has lost one. -/
def left (u : Option UInt8) : Option UInt8 := u.bind fun u => if u ≤ 1 then none else some (u - 1)

variable (ifs mem) in
/-- An interface leaves a group. -/
theorem leaveGroup_spec {p : ℕ} (h : Linked s) (hp : p ∈ s.groups)
    (hkey : (s.group p).key = (n, a)) : Linked (leaveGroup ifs mem n a p s) ∧
      (∀ m b, (leaveGroup ifs mem n a p s).uses m b =
        if (m, b) = (n, a) then left (s.uses n a) else s.uses m b) ∧
      ∀ m b, (leaveGroup ifs mem n a p s).told m b =
        if ((m, b) = (n, a) ∧ (ifs.netif n).igmp_mac_filter = true) ∧ left (s.uses n a) = none then
          .DEL :: s.told m b
        else s.told m b := by
  have huse : s.uses n a = some (s.group p).use := h.links.uses_of_mem hp hkey
  unfold leaveGroup
  by_cases hlast : (s.group p).use ≤ 1
  · have hleft : left (s.uses n a) = none := by simp [left, huse, hlast]
    simp only [hlast, if_true]
    generalize ht : (if (s.group p).last_reporter_flag = true then
      igmpSend s p .LEAVE_GROUP (mem.pbuf p) else s) = t
    have hquiet : Quiet s t := by
      rw [← ht]
      split
      · exact igmpSend_quiet s p _ _
      · exact .refl s
    have hlinked : Linked (t.tell ifs n a .DEL) := tell_linked (hquiet.linked h)
    obtain ⟨hlinked', huses, htold⟩ := igmpRemoveGroup_spec hlinked (p := p) (n := n) (a := a)
      (by
        rw [tell_groups, hquiet.toKept.groups h.links]
        exact hp)
      (by rw [tell_group, hquiet.key, hkey])
    refine ⟨hlinked', fun m b => ?_, fun m b => ?_⟩
    · rw [huses, hleft, tell_uses, hquiet.uses h]
    · rw [htold, tell_told, hquiet.told]
      simp only [hleft, and_true]
  · have hleft : left (s.uses n a) = some ((s.group p).use - 1) := by simp [left, huse, hlast]
    simp only [hlast, if_false]
    have hopen : Opened s n a p s := .of_mem h hp hkey
    have hself : (s.modify p fun g => { g with use := g.use - 1 }).group p =
        { s.group p with use := (s.group p).use - 1 } := Function.update_self _ _ _
    have hother : ∀ q, q ≠ p →
      (s.modify p fun g => { g with use := g.use - 1 }).group q = s.group q :=
      fun q hq => Function.update_of_ne hq _ _
    have hkept : Kept s (s.modify p fun g => { g with use := g.use - 1 }) := by
      apply Kept.modify <;> intro g <;> rfl
    obtain ⟨hlinked, huses⟩ := hopen.close hkept
      (fun q hq => by rw [hother q hq])
      (fun q hq hmem => by rwa [hother q hq])
      (by
        rw [hself]
        exact h.member p hp)
    refine ⟨hlinked, fun m b => ?_, fun m b => ?_⟩
    · rw [huses, hself, hleft]
    · rw [hleft, if_neg fun h => by cases h.2]
      rfl

/-- A join has a group for the interface, or memory for one. -/
def Room (s : State) (mem : Memory) (a : IpAddr) (n : ℕ) : Prop :=
  s.uses n a ≠ none ∨ mem.group n = true

instance : Decidable (Room s mem a n) := inferInstanceAs (Decidable (_ ∨ _))

/-- The interfaces that a call with this address reaches. -/
def NetIfs.reached (ifs : NetIfs) (ifaddr : IpAddr) :
    List ℕ := ifs.netif_list.filter (ifs.covers ifaddr)

/-- The loop over the interfaces skips those that are not covered. -/
theorem igmpJoinLoop_filter (ifaddr : IpAddr) (ns : List ℕ) : ∀ (err : Err) (s : State),
    igmpJoinLoop ifs mem ifaddr a ns err s =
      igmpJoinLoop ifs mem ifaddr a (ns.filter (ifs.covers ifaddr)) err s := by
  induction ns with
  | nil => exact fun _ _ => rfl
  | cons n ns ih =>
    intro err s
    by_cases hn : ifs.covers ifaddr n
    · rw [List.filter_cons_of_pos hn, igmpJoinLoop, igmpJoinLoop, if_pos hn, if_pos hn]
      split
      · exact ih _ _
      · rfl
    · rw [List.filter_cons_of_neg hn, igmpJoinLoop, if_neg hn]
      exact ih err s

/-- The other loop over the interfaces skips those that are not covered. -/
theorem igmpLeaveLoop_filter (ifaddr : IpAddr) (ns : List ℕ) : ∀ (err : Err) (s : State),
    igmpLeaveLoop ifs mem ifaddr a ns err s =
      igmpLeaveLoop ifs mem ifaddr a (ns.filter (ifs.covers ifaddr)) err s := by
  induction ns with
  | nil => exact fun _ _ => rfl
  | cons n ns ih =>
    intro err s
    by_cases hn : ifs.covers ifaddr n
    · rw [List.filter_cons_of_pos hn, igmpLeaveLoop, igmpLeaveLoop, if_pos hn, if_pos hn]
      split
      · exact ih _ _
      · exact ih _ _
    · rw [List.filter_cons_of_neg hn, igmpLeaveLoop, if_neg hn]
      exact ih err s

variable {ifaddr : IpAddr} {ns : List ℕ} {err : Err}

variable (ns err) in
/-- One round of the join loop. -/
theorem igmpJoinLoop_cons (h : Linked s) (hn : ifs.covers ifaddr n = true)
    (hroom : Room s mem a n) :
    ∃ s', igmpJoinLoop ifs mem ifaddr a (n :: ns) err s = igmpJoinLoop ifs mem ifaddr a ns .OK s' ∧
      Linked s' ∧
      (∀ m b, s'.uses m b =
        if (m, b) = (n, a) then some ((s.uses n a).getD 0 + 1) else s.uses m b) ∧
      ∀ m b, s'.told m b =
        if ((m, b) = (n, a) ∧ (ifs.netif n).igmp_mac_filter = true) ∧ s.uses n a = none then
          .ADD :: s.told m b
        else s.told m b := by
  obtain ⟨p, s₁, hlookup, hopen⟩ := igmpLookupGroup_some h hroom
  refine ⟨_, ?_, joinGroup_spec ifs mem hopen⟩
  rw [igmpJoinLoop, if_pos hn, hlookup]

/-- The join loop stops at an interface without memory for its group. -/
theorem igmpJoinLoop_stops (hn : ifs.covers ifaddr n = true) (hroom : ¬ Room s mem a n) :
    igmpJoinLoop ifs mem ifaddr a (n :: ns) err s = (.MEM, s) := by
  obtain ⟨hno, hmem⟩ := not_or.mp hroom
  rw [igmpJoinLoop, if_pos hn, igmpLookupGroup_none s (not_not.mp hno) (Bool.not_eq_true _ ▸ hmem)]

variable (mem a) in
/-- A join leaves the interfaces alone that it does not come to, and fails if one of the others has
no memory. -/
theorem igmpJoinLoop_frame (hns : ∀ n ∈ ns, ifs.covers ifaddr n = true) : ∀ (err : Err) (s : State),
    ns.Nodup → Linked s →
    Linked (igmpJoinLoop ifs mem ifaddr a ns err s).2 ∧
      (∀ m ∉ ns, ∀ b, (igmpJoinLoop ifs mem ifaddr a ns err s).2.uses m b = s.uses m b) ∧
      ((∃ n ∈ ns, ¬ Room s mem a n) → (igmpJoinLoop ifs mem ifaddr a ns err s).1 = .MEM) := by
  induction ns with
  | nil => exact fun err s _ h => ⟨h, fun _ _ _ => rfl, by rintro ⟨n, ⟨⟩, -⟩⟩
  | cons n ns ih =>
    intro err s hnodup h
    obtain ⟨hn, hrest⟩ := List.forall_mem_cons.mp hns
    obtain ⟨hnotin, hnodup⟩ := List.nodup_cons.mp hnodup
    by_cases hroom : Room s mem a n
    · obtain ⟨s', hloop, hlinked, huses, -⟩ := igmpJoinLoop_cons ns err h hn hroom
      obtain ⟨hlinked', huses', herr'⟩ := ih hrest .OK s' hnodup hlinked
      rw [hloop]
      refine ⟨hlinked', fun m hm b => ?_, ?_⟩
      · rw [List.mem_cons, not_or] at hm
        obtain ⟨hne, hm⟩ := hm
        rw [huses' m hm b, huses m b, if_neg fun heq => hne (congrArg Prod.fst heq)]
      · rintro ⟨m, hm, hno⟩
        apply herr'
        rcases List.mem_cons.mp hm with rfl | hm
        · exact absurd hroom hno
        · have hne : m ≠ n := fun heq => hnotin (heq ▸ hm)
          refine ⟨m, hm, fun hroom' => hno ?_⟩
          unfold Room at hroom' ⊢
          rwa [huses m a, if_neg fun heq => hne (congrArg Prod.fst heq)] at hroom'
    · rw [igmpJoinLoop_stops hn hroom]
      exact ⟨h, fun _ _ _ => rfl, fun _ => rfl⟩

/-- A join that does not run out of memory. -/
theorem igmpJoinLoop_ok (hns : ∀ n ∈ ns, ifs.covers ifaddr n = true) : ∀ (err : Err) (s : State),
    ns.Nodup → Linked s → (∀ n ∈ ns, Room s mem a n) →
    (igmpJoinLoop ifs mem ifaddr a ns err s).1 = (if ns = [] then err else .OK) ∧
      (∀ m b, (igmpJoinLoop ifs mem ifaddr a ns err s).2.uses m b =
        if m ∈ ns ∧ b = a then some ((s.uses m a).getD 0 + 1) else s.uses m b) ∧
      ∀ m b, (igmpJoinLoop ifs mem ifaddr a ns err s).2.told m b =
        if ((m ∈ ns ∧ b = a) ∧ (ifs.netif m).igmp_mac_filter = true) ∧ s.uses m a = none then
          .ADD :: s.told m b
        else s.told m b := by
  induction ns with
  | nil => exact fun err s _ _ _ => ⟨rfl, fun m b => by simp [igmpJoinLoop],
      fun m b => by simp [igmpJoinLoop]⟩
  | cons n ns ih =>
    intro err s hnodup h hroom
    obtain ⟨hn, hrest⟩ := List.forall_mem_cons.mp hns
    obtain ⟨hnotin, hnodup⟩ := List.nodup_cons.mp hnodup
    obtain ⟨hroomn, hroom⟩ := List.forall_mem_cons.mp hroom
    obtain ⟨s', hloop, hlinked, huses, htold⟩ := igmpJoinLoop_cons ns err h hn hroomn
    -- The other interfaces are as they were.
    have hother : ∀ m, m ≠ n → ∀ b, s'.uses m b = s.uses m b := fun m hne b => by
      rw [huses m b, if_neg fun heq => hne (congrArg Prod.fst heq)]
    obtain ⟨herr', huses', htold'⟩ := ih hrest .OK s' hnodup hlinked fun m hm => by
      unfold Room
      rw [hother m (fun heq => hnotin (heq ▸ hm)) a]
      exact hroom m hm
    rw [hloop]
    refine ⟨?_, fun m b => ?_, fun m b => ?_⟩
    · rw [herr', ite_self, if_neg (List.cons_ne_nil n ns)]
    · rw [huses' m b]
      by_cases hm : m = n
      · subst hm
        simp only [hnotin, false_and, if_false, huses m b, Prod.mk.injEq, true_and,
          List.mem_cons_self]
      · simp only [hother m hm, List.mem_cons, hm, false_or]
    · rw [htold' m b, htold m b]
      by_cases hm : m = n
      · subst hm
        simp only [hnotin, false_and, if_false, Prod.mk.injEq, true_and, List.mem_cons_self]
      · simp only [hother m hm, List.mem_cons, hm, false_or, Prod.mk.injEq, false_and, if_false]

variable (mem a) in
/-- A leave takes a use from each interface that it comes to and that has joined the group. -/
theorem igmpLeaveLoop_spec (hns : ∀ n ∈ ns, ifs.covers ifaddr n = true) : ∀ (err : Err) (s : State),
    ns.Nodup → Linked s →
    Linked (igmpLeaveLoop ifs mem ifaddr a ns err s).2 ∧
      (igmpLeaveLoop ifs mem ifaddr a ns err s).1 =
      (if ∃ n ∈ ns, s.uses n a ≠ none then .OK else err) ∧
      (∀ m b, (igmpLeaveLoop ifs mem ifaddr a ns err s).2.uses m b =
        if m ∈ ns ∧ b = a then left (s.uses m a) else s.uses m b) ∧
      ∀ m b, (igmpLeaveLoop ifs mem ifaddr a ns err s).2.told m b =
        if ((m ∈ ns ∧ b = a) ∧ (ifs.netif m).igmp_mac_filter = true) ∧
            s.uses m a ≠ none ∧ left (s.uses m a) = none then
          .DEL :: s.told m b
        else s.told m b := by
  induction ns with
  | nil => exact fun err s _ h => ⟨h, by simp [igmpLeaveLoop], fun m b => by simp [igmpLeaveLoop],
      fun m b => by simp [igmpLeaveLoop]⟩
  | cons n ns ih =>
    intro err s hnodup h
    obtain ⟨hn, hrest⟩ := List.forall_mem_cons.mp hns
    obtain ⟨hnotin, hnodup⟩ := List.nodup_cons.mp hnodup
    -- One round, whether the interface has joined the group or not.
    obtain ⟨err', s', hloop, hlinked, herr, huses, htold⟩ : ∃ err' s',
        igmpLeaveLoop ifs mem ifaddr a (n :: ns) err s = igmpLeaveLoop ifs mem ifaddr a ns err' s' ∧
        Linked s' ∧ err' = (if s.uses n a ≠ none then .OK else err) ∧
        (∀ m b, s'.uses m b = if (m, b) = (n, a) then left (s.uses n a) else s.uses m b) ∧
        ∀ m b, s'.told m b =
          if ((m, b) = (n, a) ∧ (ifs.netif n).igmp_mac_filter = true) ∧
              s.uses n a ≠ none ∧ left (s.uses n a) = none then
            .DEL :: s.told m b
          else s.told m b := by
      cases hfind : igmpLookforGroup s n a with
      | none =>
        have hno : s.uses n a = none := uses_eq_none.mpr hfind
        refine ⟨err, s, ?_, h, by simp [hno], fun m b => ?_, fun m b => by simp [hno]⟩
        · rw [igmpLeaveLoop, if_pos hn, hfind]
        · split
          · next heq =>
            obtain ⟨rfl, rfl⟩ := Prod.mk.injEq _ _ _ _ ▸ heq
            rw [hno]
            rfl
          · rfl
      | some p =>
        obtain ⟨hp, hkey⟩ := h.links.lookfor.mp hfind
        have hsome : s.uses n a ≠ none := by rw [h.links.uses_of_mem hp hkey]; nofun
        obtain ⟨hlinked, huses, htold⟩ := leaveGroup_spec ifs mem h hp hkey
        refine ⟨.OK, _, ?_, hlinked, by simp [hsome], huses, fun m b => ?_⟩
        · rw [igmpLeaveLoop, if_pos hn, hfind]
        · simp only [htold m b, hsome, ne_eq, not_false_eq_true, true_and]
    have hother : ∀ m, m ≠ n → ∀ b, s'.uses m b = s.uses m b := fun m hne b => by
      rw [huses m b, if_neg fun heq => hne (congrArg Prod.fst heq)]
    obtain ⟨hlinked', herr', huses', htold'⟩ := ih hrest err' s' hnodup hlinked
    rw [hloop]
    refine ⟨hlinked', ?_, fun m b => ?_, fun m b => ?_⟩
    · have hiff : (∃ m ∈ ns, s'.uses m a ≠ none) ↔ ∃ m ∈ ns, s.uses m a ≠ none := by
        refine exists_congr fun m => and_congr_right fun hm => ?_
        rw [hother m (fun heq => hnotin (heq ▸ hm)) a]
      rw [herr', herr]
      simp only [hiff, List.mem_cons, exists_eq_or_imp]
      by_cases hfirst : s.uses n a ≠ none
      · simp [hfirst]
      · simp [hfirst]
    · rw [huses' m b]
      by_cases hm : m = n
      · subst hm
        simp only [hnotin, false_and, if_false, huses m b, Prod.mk.injEq, true_and,
          List.mem_cons_self]
      · simp only [hother m hm, List.mem_cons, hm, false_or]
    · rw [htold' m b, htold m b]
      by_cases hm : m = n
      · subst hm
        simp only [hnotin, false_and, if_false, Prod.mk.injEq, true_and, List.mem_cons_self]
      · simp only [hother m hm, List.mem_cons, hm, false_or, Prod.mk.injEq, false_and, if_false]

end Functions

/-! ## The ledger -/

/-- An address that a group can be joined at. -/
abbrev GroupAddr := { a : IpAddr // ipAddrIsmulticast a = true ∧ a ≠ allsystems }

/-- What has been counted of the calls since the interfaces were last stopped. -/
structure Ledger where
  /-- The joins that succeeded. -/
  joins : ℕ → IpAddr → ℕ := fun _ _ => 0
  /-- The leaves that succeeded and took one of them back. -/
  leaves : ℕ → IpAddr → ℕ := fun _ _ => 0
  /-- No failed join has changed the list or a counter. -/
  untouched : Bool := true

namespace Ledger

variable (ld : Ledger) (out : ℕ → IpAddr → Prop) [∀ n a, Decidable (out n a)]

/-- A join at some interfaces. -/
def join : Ledger :=
  { ld with joins := fun n a => if out n a then ld.joins n a + 1 else ld.joins n a }

/-- A leave at some interfaces: where there is no join that it could take back, it does not
count. -/
def leave : Ledger :=
  { ld with
    leaves := fun n a =>
      if out n a ∧ ld.leaves n a < ld.joins n a then ld.leaves n a + 1 else ld.leaves n a }

/-- An interface is stopped. -/
def stop (n : ℕ) : Ledger :=
  { ld with joins := fun m a => if m = n then 0 else ld.joins m a,
            leaves := fun m a => if m = n then 0 else ld.leaves m a }

end Ledger

/-- The list and its counters. -/
def State.counters (s : State) : List (ℕ × (ℕ × IpAddr) × UInt8) :=
  s.groups.map fun p => (p, (s.group p).key, (s.group p).use)

structure World where
  s : State := {}
  ledger : Ledger := {}

namespace World

variable (ifs : NetIfs) (w : World) (ifaddr a : IpAddr)

/-- The entry of a join. -/
def joined : Err × State → World
  | (.OK, s) => { s, ledger := w.ledger.join fun n b => n ∈ ifs.reached ifaddr ∧ b = a }
  | (_, s) =>
    { s, ledger := { w.ledger with
        untouched := w.ledger.untouched && decide (s.counters = w.s.counters) } }

/-- The entry of a leave. -/
def left : Err × State → World
  | (.OK, s) => { s, ledger := w.ledger.leave fun n b => n ∈ ifs.reached ifaddr ∧ b = a }
  | (_, s) => { w with s }

end World

inductive Event where
  | igmp_start (netif : ℕ) (mem : Memory)
  | igmp_stop (netif : ℕ)
  | igmp_joingroup (ifaddr : IpAddr) (groupaddr : GroupAddr) (mem : Memory)
  | igmp_leavegroup (ifaddr : IpAddr) (groupaddr : GroupAddr) (mem : Memory)
  | igmp_report_groups (netif : ℕ)
  | igmp_input (p : Packet) (inp : ℕ) (dest : IpAddr)
  | igmp_tmr (mem : Memory)

/-- A call of one of the functions, and its entry in the ledger. -/
def step (ifs : NetIfs) (w : World) : Event → Except Abort World
  | .igmp_start n mem => .ok { w with s := (igmpStart ifs w.s n mem).2 }
  | .igmp_stop n => .ok { s := (igmpStop ifs w.s n).2, ledger := w.ledger.stop n }
  | .igmp_joingroup ifaddr g mem => do
    return w.joined ifs ifaddr g.1 (← igmpJoingroup ifs w.s ifaddr g.1 mem)
  | .igmp_leavegroup ifaddr g mem => do
    return w.left ifs ifaddr g.1 (← igmpLeavegroup ifs w.s ifaddr g.1 mem)
  | .igmp_report_groups n => .ok { w with s := igmpReportGroups w.s n }
  | .igmp_input p inp dest => .ok { w with s := igmpInput w.s p inp dest }
  | .igmp_tmr mem => .ok { w with s := igmpTmr w.s mem }

/-- A MAC filter that has been told this, the latest call first, is on or off; none if it was told
the same twice, or `DEL` first. -/
def replay : List MacFilter → Option Bool
  | [] => some false
  | .ADD :: l => if replay l = some false then some true else none
  | .DEL :: l => if replay l = some true then some false else none

/-- The list, the use counters and the MAC filters are as the ledger says. -/
structure Books (ifs : NetIfs) (w : World) : Prop where
  /-- The loops over the list come to its end. -/
  ends : Walk (fun p => (w.s.group p).next) w.s.igmp_group_list w.s.groups
  /-- There is one group for an interface and an address. -/
  unique : ∀ p ∈ w.s.groups, ∀ q ∈ w.s.groups, (w.s.group p).interface = (w.s.group q).interface →
    (w.s.group p).group_address = (w.s.group q).group_address → p = q
  /-- It is on the list as long as somebody uses it. -/
  listed : ∀ n a, a ≠ allsystems →
    ((∃ p ∈ w.s.groups, (w.s.group p).interface = n ∧ (w.s.group p).group_address = a) ↔
      w.ledger.leaves n a < w.ledger.joins n a)
  /-- Its counter is the number of those who do. -/
  use : ∀ p ∈ w.s.groups, (w.s.group p).group_address ≠ allsystems →
    (w.s.group p).use.toNat +
        w.ledger.leaves (w.s.group p).interface (w.s.group p).group_address =
      w.ledger.joins (w.s.group p).interface (w.s.group p).group_address
  /-- The filter has been told `ADD` and `DEL` by turns, and is on for the groups on the list. -/
  filter : ∀ n a, (ifs.netif n).igmp_mac_filter = true → replay (w.s.told n a) = some (decide
    (∃ p ∈ w.s.groups, (w.s.group p).interface = n ∧ (w.s.group p).group_address = a))
  /-- No failed join has changed the list or a counter. -/
  untouched : w.ledger.untouched = true

/-- A join that does not fail at the first interface it comes to has memory for all of them, and
finds no counter full. -/
def SoundJoin (s : State) (mem : Memory) (a : IpAddr) : List ℕ → Prop
  | [] => True
  | n :: rest => Room s mem a n → ∀ m ∈ n :: rest, Room s mem a m ∧ s.uses m a ≠ some 255

/-- The steps that keep the books: an interface with a filter is not started again, and a join is a
sound one. -/
def Sound (ifs : NetIfs) (w : World) : Event → Prop
  | .igmp_start n _ => w.s.uses n allsystems ≠ none → (ifs.netif n).igmp_mac_filter = false
  | .igmp_joingroup ifaddr g mem => SoundJoin w.s mem g.1 (ifs.reached ifaddr)
  | _ => True

/-! ## The books as a table -/

/-- The entry of a group in the table is as the ledger says. -/
def Tally : Option UInt8 → ℕ → ℕ → Prop
  | none, joins, leaves => ¬ leaves < joins
  | some u, joins, leaves => leaves < joins ∧ u.toNat + leaves = joins

/-- The books, said of the table. -/
structure Table (ifs : NetIfs) (w : World) : Prop where
  tally : ∀ n a, a ≠ allsystems → Tally (w.s.uses n a) (w.ledger.joins n a) (w.ledger.leaves n a)
  filter : ∀ n a, (ifs.netif n).igmp_mac_filter = true →
    replay (w.s.told n a) = some (w.s.uses n a).isSome
  untouched : w.ledger.untouched = true

section Table

variable {ifs : NetIfs} {w : World} {s : State} {n : ℕ} {a : IpAddr}

/-- A group is on the list if it is in use. -/
theorem Linked.listed (h : Linked s) :
    (∃ p ∈ s.groups, (s.group p).interface = n ∧ (s.group p).group_address = a) ↔
      (s.uses n a).isSome = true := by
  constructor
  · rintro ⟨p, hp, hn, ha⟩
    rw [h.links.uses_of_mem hp (Prod.ext hn ha)]
    rfl
  · intro hsome
    cases hfind : igmpLookforGroup s n a with
    | none =>
      rw [uses_eq_none.mpr hfind] at hsome
      cases hsome
    | some p =>
      obtain ⟨hp, hkey⟩ := h.links.lookfor.mp hfind
      exact ⟨p, hp, congrArg Prod.fst hkey, congrArg Prod.snd hkey⟩

/-- The books are right if the table is. -/
theorem books_iff_table (h : Linked w.s) : Books ifs w ↔ Table ifs w := by
  constructor
  · intro hb
    refine ⟨fun n a ha => ?_, fun n a hf => ?_, hb.untouched⟩
    · have hlisted := hb.listed n a ha
      rw [h.listed] at hlisted
      cases hfind : igmpLookforGroup w.s n a with
      | none =>
        rw [uses_eq_none.mpr hfind] at hlisted ⊢
        exact fun hlt => by cases hlisted.mpr hlt
      | some p =>
        obtain ⟨hp, hkey⟩ := h.links.lookfor.mp hfind
        have huse := hb.use p hp
        rw [show (w.s.group p).interface = n from congrArg Prod.fst hkey,
          show (w.s.group p).group_address = a from congrArg Prod.snd hkey] at huse
        rw [h.links.uses_of_mem hp hkey] at hlisted ⊢
        exact ⟨hlisted.mp rfl, huse ha⟩
    · rw [hb.filter n a hf]
      simp only [h.listed, Bool.decide_eq_true]
  · intro ht
    refine ⟨h.links.walk, fun p hp q hq hn ha => h.links.unique p hp q hq (Prod.ext hn ha),
      fun n a ha => ?_, fun p hp ha => ?_, fun n a hf => ?_, ht.untouched⟩
    · have htally := ht.tally n a ha
      rw [h.listed]
      cases huse : w.s.uses n a with
      | none =>
        rw [huse] at htally
        exact iff_of_false nofun htally
      | some u =>
        rw [huse] at htally
        exact iff_of_true rfl htally.1
    · have htally := ht.tally (w.s.group p).interface _ ha
      rw [h.links.uses_of_mem hp rfl] at htally
      exact htally.2
    · rw [ht.filter n a hf]
      simp only [h.listed, Bool.decide_eq_true]

/-- The invariant: the list is well linked, and no more leaves have counted than joins. -/
structure Kempt (w : World) : Prop where
  linked : Linked w.s
  leaves : ∀ n a, w.ledger.leaves n a ≤ w.ledger.joins n a

/-- A call that keeps the table and the ledger keeps the books. -/
theorem Quiet.table {s' : State} (h : Quiet w.s s') (hl : Linked w.s) (ht : Table ifs w) :
    Table ifs { w with s := s' } where
  tally n a ha := by
    rw [h.uses hl]
    exact ht.tally n a ha
  filter n a hf := by
    rw [h.uses hl, h.told]
    exact ht.filter n a hf
  untouched := ht.untouched

/-- A quiet step keeps the table. -/
theorem Quiet.step {s' : State} (h : Quiet w.s s') (hk : Kempt w) (ht : Table ifs w) :
    Kempt { w with s := s' } ∧ Table ifs { w with s := s' } :=
  ⟨⟨h.linked hk.linked, hk.leaves⟩, h.table hk.linked ht⟩

/-- The address of a group passes the check. -/
theorem checkGroupaddr_ok (g : GroupAddr) : checkGroupaddr g.1 = .ok () := by
  unfold checkGroupaddr
  rw [if_neg (by rw [g.2.1]; nofun), if_neg g.2.2]

/-- `igmp_start` tells the filter of an interface that is started again what it knows. -/
theorem igmpStart_table (hk : Kempt w) (ht : Table ifs w) (n : ℕ) (mem : Memory) :
    Linked (igmpStart ifs w.s n mem).2 ∧
      (Table ifs { w with s := (igmpStart ifs w.s n mem).2 } ↔
        (w.s.uses n allsystems ≠ none → (ifs.netif n).igmp_mac_filter = false)) := by
  by_cases hroom : w.s.uses n allsystems ≠ none ∨ mem.group n = true
  · obtain ⟨hlinked, huses, htold⟩ := igmpStart_spec ifs hk.linked hroom
    refine ⟨hlinked, fun ht' hsome => ?_, fun hfilter =>
      ⟨fun m b hb => ?_, fun m b hf => ?_, ht.untouched⟩⟩
    · -- A filter that was on is told ADD.
      by_contra hf
      rw [Bool.not_eq_false] at hf
      have hon := ht.filter n allsystems hf
      have hon' := ht'.filter n allsystems hf
      rw [htold, if_pos ⟨rfl, hf⟩, replay, hon, Option.isSome_iff_ne_none.mpr hsome] at hon'
      cases hon'
    · rw [huses m b, if_neg fun heq => hb (congrArg Prod.snd heq)]
      exact ht.tally m b hb
    · rw [huses m b, htold m b]
      by_cases hmb : (m, b) = (n, allsystems)
      · obtain ⟨rfl, rfl⟩ := Prod.mk.injEq _ _ _ _ ▸ hmb
        have hno : w.s.uses m allsystems = none := by
          by_contra hsome
          rw [hfilter hsome] at hf
          cases hf
        rw [if_pos rfl, if_pos ⟨rfl, hf⟩, replay, ht.filter m _ hf, hno]
        rfl
      · rw [if_neg hmb, if_neg fun h => hmb h.1]
        exact ht.filter m b hf
  · obtain ⟨hno, hmem⟩ := not_or.mp hroom
    have heq : igmpStart ifs w.s n mem = (.MEM, w.s) := by
      unfold igmpStart
      rw [igmpLookupGroup_none w.s (not_not.mp hno) (Bool.not_eq_true _ ▸ hmem)]
    rw [heq]
    exact ⟨hk.linked, iff_of_true ht fun hsome => absurd hsome hno⟩

/-- `igmp_stop` closes the account of the interface. -/
theorem igmpStop_table (hk : Kempt w) (ht : Table ifs w) (n : ℕ) :
    Kempt { s := (igmpStop ifs w.s n).2, ledger := w.ledger.stop n } ∧
      Table ifs { s := (igmpStop ifs w.s n).2, ledger := w.ledger.stop n } := by
  obtain ⟨hlinked, huses, htold⟩ := igmpStop_spec ifs n hk.linked
  refine ⟨⟨hlinked, fun m b => ?_⟩, fun m b hb => ?_, fun m b hf => ?_, ht.untouched⟩
  · by_cases hm : m = n
    · simp [Ledger.stop, hm]
    · simpa [Ledger.stop, hm] using hk.leaves m b
  · by_cases hm : m = n
    · simp [Ledger.stop, huses, hm, Tally]
    · simpa [Ledger.stop, huses, hm] using ht.tally m b hb
  · have hfilter := ht.filter m b hf
    rw [huses, htold]
    by_cases hm : m = n
    · subst hm
      cases huse : w.s.uses m b with
      | none => simpa [huse] using hfilter
      | some u => simp [hf, replay, hfilter, huse]
    · simpa [hm] using hfilter

/-- An interface that is reached is covered. -/
theorem NetIfs.covers_of_reached (ifs : NetIfs) (ifaddr : IpAddr) :
    ∀ n ∈ ifs.reached ifaddr, ifs.covers ifaddr n = true :=
  fun _ hn => (List.mem_filter.mp hn).2

/-- No interface is reached twice. -/
theorem NetIfs.reached_nodup (ifs : NetIfs) (ifaddr : IpAddr) : (ifs.reached ifaddr).Nodup :=
  ifs.nodup.filter _

/-- A counter that is increased agrees with the ledger unless it was full. -/
theorem tally_join {u : Option UInt8} {joins leaves : ℕ} (h : Tally u joins leaves)
    (hle : leaves ≤ joins) : Tally (some (u.getD 0 + 1)) (joins + 1) leaves ↔ u ≠ some 255 := by
  cases u with
  | none =>
    have hlt : ¬ leaves < joins := h
    refine iff_of_true ⟨by omega, ?_⟩ nofun
    change (1 : UInt8).toNat + leaves = joins + 1
    rw [UInt8.toNat_one]
    omega
  | some u =>
    obtain ⟨hlt, hsum⟩ := h
    have hsucc : (u + 1).toNat = (u.toNat + 1) % 256 := by
      rw [UInt8.toNat_add, UInt8.toNat_one]
    have hfull : u ≠ 255 ↔ u.toNat ≠ 255 := by
      rw [Ne, ← UInt8.toNat_inj]
      rfl
    have hbound : u.toNat < 256 := u.toNat_lt
    rw [Option.getD_some, Ne, Option.some_inj, ← Ne, hfull]
    change (leaves < joins + 1 ∧ (u + 1).toNat + leaves = joins + 1) ↔ _
    rw [hsucc]
    omega

/-- A use that is given up. -/
theorem tally_left {u : Option UInt8} {joins leaves : ℕ} (h : Tally u joins leaves) :
    Tally (left u) joins (if leaves < joins then leaves + 1 else leaves) := by
  cases u with
  | none =>
    have hlt : ¬ leaves < joins := h
    rw [if_neg hlt]
    exact hlt
  | some u =>
    obtain ⟨hlt, hsum⟩ := h
    rw [if_pos hlt]
    have hle : u ≤ 1 ↔ u.toNat ≤ 1 := UInt8.le_iff_toNat_le
    by_cases hu : u ≤ 1
    · have hnone : left (some u) = none := by simp [left, hu]
      rw [hnone]
      change ¬ leaves + 1 < joins
      have := hle.mp hu
      omega
    · have hsome : left (some u) = some (u - 1) := by simp [left, hu]
      have hone : (1 : UInt8) ≤ u := by
        rw [UInt8.le_iff_toNat_le, UInt8.toNat_one]
        have := mt hle.mpr hu
        omega
      rw [hsome]
      change leaves + 1 < joins ∧ (u - 1).toNat + (leaves + 1) = joins
      rw [UInt8.toNat_sub_of_le _ _ hone, UInt8.toNat_one]
      have := mt hle.mpr hu
      omega

/-- The counters of a state determine the table. -/
theorem uses_of_counters {s s' : State} (h : Linked s) (h' : Linked s')
    (heq : s'.counters = s.counters) : s'.uses n a = s.uses n a := by
  have hentry : ∀ {s s' : State}, Linked s → Linked s' → s'.counters = s.counters →
      ∀ u, s.uses n a = some u → s'.uses n a = some u := by
    intro s s' h h' heq u hu
    obtain ⟨p, hfind, rfl⟩ := Option.map_eq_some_iff.mp hu
    obtain ⟨hp, hkey⟩ := h.links.lookfor.mp hfind
    have hmem : (p, (s.group p).key, (s.group p).use) ∈ s'.counters := by
      rw [heq]
      exact List.mem_map.mpr ⟨p, hp, rfl⟩
    obtain ⟨q, hq, hqp⟩ := List.mem_map.mp hmem
    obtain ⟨rfl, hkey', huse⟩ : q = p ∧ (s'.group q).key = (s.group p).key ∧
        (s'.group q).use = (s.group p).use := by simpa using hqp
    rw [h'.links.uses_of_mem hq (hkey'.trans hkey), huse]
  cases hu : s.uses n a with
  | some u => exact hentry h h' heq u hu
  | none =>
    cases hu' : s'.uses n a with
    | none => rfl
    | some u =>
      have := hentry h' h heq.symm u hu'
      rw [hu] at this
      cases this

section Entry

variable {ifaddr : IpAddr} {r : Err × State}

/-- A join that succeeds is entered in the ledger. -/
theorem World.joined_ok (h : r.1 = .OK) : w.joined ifs ifaddr a r =
    { s := r.2, ledger := w.ledger.join fun n b => n ∈ ifs.reached ifaddr ∧ b = a } := by
  obtain ⟨err, s⟩ := r
  subst h
  rfl

/-- A join that fails is entered for the interfaces before the failure. -/
theorem World.joined_err (h : r.1 ≠ .OK) : w.joined ifs ifaddr a r =
    { s := r.2, ledger := { w.ledger with
        untouched := w.ledger.untouched && decide (r.2.counters = w.s.counters) } } := by
  obtain ⟨err, s⟩ := r
  cases err with
  | OK => exact absurd rfl h
  | MEM | VAL | ARG => rfl

/-- A leave that succeeds is entered in the ledger. -/
theorem World.left_ok (h : r.1 = .OK) : w.left ifs ifaddr a r =
    { s := r.2, ledger := w.ledger.leave fun n b => n ∈ ifs.reached ifaddr ∧ b = a } := by
  obtain ⟨err, s⟩ := r
  subst h
  rfl

/-- A leave that fails is not entered. -/
theorem World.left_err (h : r.1 ≠ .OK) : w.left ifs ifaddr a r = { w with s := r.2 } := by
  obtain ⟨err, s⟩ := r
  cases err with
  | OK => exact absurd rfl h
  | MEM | VAL | ARG => rfl

end Entry

/-- A join. -/
theorem step_join (hk : Kempt w) (ht : Table ifs w) (ifaddr : IpAddr) (g : GroupAddr)
    (mem : Memory) : ∃ w', step ifs w (.igmp_joingroup ifaddr g mem) = .ok w' ∧ Kempt w' ∧
      (Table ifs w' ↔ Sound ifs w (.igmp_joingroup ifaddr g mem)) := by
  have hstep : step ifs w (.igmp_joingroup ifaddr g mem) = .ok (w.joined ifs ifaddr g.1
      (igmpJoinLoop ifs mem ifaddr g.1 (ifs.reached ifaddr) .VAL w.s)) := by
    simp only [step, igmpJoingroup, checkGroupaddr_ok]
    rw [igmpJoinLoop_filter ifaddr ifs.netif_list]
    rfl
  -- A call that fails and leaves the state as it was.
  have hsame : ∀ err, err ≠ .OK → Kempt (w.joined ifs ifaddr g.1 (err, w.s)) ∧
      Table ifs (w.joined ifs ifaddr g.1 (err, w.s)) := by
    intro err herr
    rw [World.joined_err herr]
    exact ⟨⟨hk.linked, hk.leaves⟩, ht.tally, ht.filter, by simp [ht.untouched]⟩
  have hcovers := ifs.covers_of_reached ifaddr
  have hnodup := ifs.reached_nodup ifaddr
  change ∃ w', _ ∧ Kempt w' ∧ (Table ifs w' ↔ SoundJoin w.s mem g.1 (ifs.reached ifaddr))
  refine ⟨_, hstep, ?_⟩
  cases hl : ifs.reached ifaddr with
  | nil =>
    obtain ⟨hk', ht'⟩ := hsame .VAL nofun
    exact ⟨hk', iff_of_true ht' trivial⟩
  | cons n rest =>
    rw [hl] at hcovers hnodup
    by_cases hroom : Room w.s mem g.1 n
    · by_cases hall : ∀ m ∈ n :: rest, Room w.s mem g.1 m
      · -- All interfaces join the group.
        obtain ⟨herr, huses, htold⟩ := igmpJoinLoop_ok hcovers .VAL w.s hnodup hk.linked hall
        obtain ⟨hlinked, -, -⟩ := igmpJoinLoop_frame mem g.1 hcovers .VAL w.s hnodup
          hk.linked
        rw [if_neg (List.cons_ne_nil n rest)] at herr
        rw [World.joined_ok herr, hl]
        refine ⟨⟨hlinked, fun m b => ?_⟩, fun ht' _ m hm => ⟨hall m hm, ?_⟩,
          fun hsound => ⟨fun m b hb => ?_, fun m b hf => ?_, ht.untouched⟩⟩
        · have hle := hk.leaves m b
          simp only [Ledger.join]
          split <;> omega
        · have htally := ht'.tally m g.1 g.2.2
          simp only [Ledger.join, huses, hm, and_self, if_true] at htally
          exact (tally_join (ht.tally m g.1 g.2.2) (hk.leaves m g.1)).mp htally
        · simp only [Ledger.join, huses]
          by_cases hmb : m ∈ n :: rest ∧ b = g.1
          · obtain ⟨hm, rfl⟩ := hmb
            simp only [hm, and_self, if_true]
            exact (tally_join (ht.tally m g.1 hb) (hk.leaves m g.1)).mpr (hsound hroom m hm).2
          · simp only [hmb, if_false]
            exact ht.tally m b hb
        · have hfilter := ht.filter m b hf
          rw [htold, huses]
          by_cases hmb : m ∈ n :: rest ∧ b = g.1
          · obtain ⟨hm, rfl⟩ := hmb
            cases huse : w.s.uses m g.1 with
            | none => simp [hm, hf, replay, hfilter, huse]
            | some u => simpa [hm, huse] using hfilter
          · simp only [hmb, false_and, if_false]
            exact hfilter
      · -- Some interface has no memory, behind the first one.
        have hno : ∃ m ∈ n :: rest, ¬ Room w.s mem g.1 m := by
          by_contra hno
          push Not at hno
          exact hall hno
        obtain ⟨hlinked, -, herr⟩ := igmpJoinLoop_frame mem g.1 hcovers .VAL w.s hnodup
          hk.linked
        rw [World.joined_err (r := igmpJoinLoop ifs mem ifaddr g.1 (n :: rest) .VAL w.s)
          (by rw [herr hno]; nofun)]
        refine ⟨⟨hlinked, hk.leaves⟩, iff_of_false (fun ht' => ?_) fun hsound =>
          hall fun m hm => (hsound hroom m hm).1⟩
        have huntouched := ht'.untouched
        simp only [Bool.and_eq_true, decide_eq_true_eq] at huntouched
        -- The first interface has one more use than before.
        obtain ⟨hn, hrest⟩ := List.forall_mem_cons.mp hcovers
        obtain ⟨hnotin, hnodup'⟩ := List.nodup_cons.mp hnodup
        obtain ⟨s', hloop, hlinked', huses', -⟩ :=
          igmpJoinLoop_cons rest .VAL hk.linked hn hroom
        obtain ⟨-, hframe, -⟩ := igmpJoinLoop_frame mem g.1 hrest .OK s' hnodup' hlinked'
        have hcount := uses_of_counters (n := n) (a := g.1) hk.linked hlinked huntouched.2
        rw [hloop, hframe n hnotin, huses', if_pos rfl] at hcount
        cases huse : w.s.uses n g.1 with
        | none =>
          rw [huse] at hcount
          cases hcount
        | some u =>
          rw [huse, Option.getD_some, Option.some_inj] at hcount
          simp at hcount
    · rw [igmpJoinLoop_stops (hcovers n List.mem_cons_self) hroom]
      obtain ⟨hk', ht'⟩ := hsame .MEM nofun
      exact ⟨hk', iff_of_true ht' fun h => absurd h hroom⟩

/-- A leave. -/
theorem step_leave (hk : Kempt w) (ht : Table ifs w) (ifaddr : IpAddr) (g : GroupAddr)
    (mem : Memory) :
    ∃ w', step ifs w (.igmp_leavegroup ifaddr g mem) = .ok w' ∧ Kempt w' ∧ Table ifs w' := by
  have hstep : step ifs w (.igmp_leavegroup ifaddr g mem) = .ok (w.left ifs ifaddr g.1
      (igmpLeaveLoop ifs mem ifaddr g.1 (ifs.reached ifaddr) .VAL w.s)) := by
    simp only [step, igmpLeavegroup, checkGroupaddr_ok]
    rw [igmpLeaveLoop_filter ifaddr ifs.netif_list]
    rfl
  refine ⟨_, hstep, ?_⟩
  obtain ⟨hlinked, herr, huses, htold⟩ := igmpLeaveLoop_spec mem g.1
    (ifs.covers_of_reached ifaddr) .VAL w.s (ifs.reached_nodup ifaddr) hk.linked
  -- The filter of a group that goes is told DEL.
  have hfilter : ∀ m b, (ifs.netif m).igmp_mac_filter = true →
      replay ((igmpLeaveLoop ifs mem ifaddr g.1 (ifs.reached ifaddr) .VAL w.s).2.told m b) =
      some ((igmpLeaveLoop ifs mem ifaddr g.1 (ifs.reached ifaddr) .VAL w.s).2.uses m
        b).isSome := by
    intro m b hf
    have hfilter := ht.filter m b hf
    rw [htold, huses]
    by_cases hmb : m ∈ ifs.reached ifaddr ∧ b = g.1
    · obtain ⟨hm, rfl⟩ := hmb
      cases huse : w.s.uses m g.1 with
      | none => simpa [hm, left, huse] using hfilter
      | some u =>
        cases hleft : left (some u) with
        | none => simp [hm, hf, replay, hfilter, huse]
        | some v => simpa [hm, hleft, huse] using hfilter
    · simpa [hmb] using hfilter
  by_cases hany : ∃ n ∈ ifs.reached ifaddr, w.s.uses n g.1 ≠ none
  · rw [if_pos hany] at herr
    rw [World.left_ok herr]
    refine ⟨⟨hlinked, fun m b => ?_⟩, fun m b hb => ?_, hfilter, ht.untouched⟩
    · have hle := hk.leaves m b
      simp only [Ledger.leave]
      split <;> omega
    · have htally := ht.tally m b hb
      simp only [Ledger.leave, huses]
      by_cases hmb : m ∈ ifs.reached ifaddr ∧ b = g.1
      · obtain ⟨hm, rfl⟩ := hmb
        simpa only [hm, and_self, if_true, true_and] using tally_left htally
      · simpa only [hmb, if_false, false_and] using htally
  · -- No interface had joined the group.
    rw [if_neg hany] at herr
    rw [World.left_err (by rw [herr]; nofun)]
    refine ⟨⟨hlinked, hk.leaves⟩, fun m b hb => ?_, hfilter, ht.untouched⟩
    have htally := ht.tally m b hb
    rw [huses]
    by_cases hmb : m ∈ ifs.reached ifaddr ∧ b = g.1
    · obtain ⟨hm, rfl⟩ := hmb
      have hno : w.s.uses m g.1 = none := by
        by_contra hsome
        exact hany ⟨m, hm, hsome⟩
      rw [if_pos ⟨hm, rfl⟩, hno]
      rw [hno] at htally
      exact htally
    · rw [if_neg hmb]
      exact htally

/-- A step keeps the books unless it is one of the three cases. -/
theorem step_table (e : Event) (hk : Kempt w) (ht : Table ifs w) :
    ∃ w', step ifs w e = .ok w' ∧ Kempt w' ∧ (Table ifs w' ↔ Sound ifs w e) := by
  cases e with
  | igmp_start n mem =>
    obtain ⟨hlinked, hiff⟩ := igmpStart_table hk ht n mem
    exact ⟨_, rfl, ⟨hlinked, hk.leaves⟩, hiff⟩
  | igmp_stop n =>
    obtain ⟨hk', ht'⟩ := igmpStop_table hk ht n
    exact ⟨_, rfl, hk', iff_of_true ht' trivial⟩
  | igmp_joingroup ifaddr g mem => exact step_join hk ht ifaddr g mem
  | igmp_leavegroup ifaddr g mem =>
    obtain ⟨w', hstep, hk', ht'⟩ := step_leave hk ht ifaddr g mem
    exact ⟨w', hstep, hk', iff_of_true ht' trivial⟩
  | igmp_report_groups n =>
    obtain ⟨hk', ht'⟩ := (igmpReportGroups_quiet w.s n).step hk ht
    exact ⟨_, rfl, hk', iff_of_true ht' trivial⟩
  | igmp_input p inp dest =>
    obtain ⟨hk', ht'⟩ := (igmpInput_quiet w.s p inp dest).step hk ht
    exact ⟨_, rfl, hk', iff_of_true ht' trivial⟩
  | igmp_tmr mem =>
    obtain ⟨hk', ht'⟩ := (igmpTmr_quiet w.s mem).step hk ht
    exact ⟨_, rfl, hk', iff_of_true ht' trivial⟩

end Table

/-- At first the list is empty. -/
theorem links_init : Links {} [] := ⟨.nil, nofun, nofun⟩

/-- At first the list is kept. -/
theorem kempt_init : Kempt {} where
  linked :=
    { links := links_init.self
      member := fun p hp => by
        rw [links_init.groups] at hp
        cases hp }
  leaves _ _ := Nat.le_refl 0

/-- At first the table is right. -/
theorem table_init (ifs : NetIfs) : Table ifs {} := by
  have huses : ∀ n a, ({} : State).uses n a = none := fun n a => links_init.uses_of_forall nofun
  refine ⟨fun n a _ => ?_, fun n a _ => ?_, rfl⟩
  · rw [huses]
    exact Nat.lt_irrefl 0
  · rw [huses]
    rfl

/-- All through a run the list, the use counters and the MAC filters are as the ledger of the calls
says, exactly if no event of the run fills a counter over, runs out of memory behind the first
interface of a join, or starts an interface again. -/
theorem books_iff (ifs : NetIfs) (es : List Event) :
    Always (step ifs) (Books ifs) {} es ↔ Along (step ifs) (Sound ifs) {} es := by
  refine always_iff_along (I := Kempt) (fun w e hk hb => ?_) kempt_init
    ((books_iff_table kempt_init.linked).mpr (table_init ifs))
  obtain ⟨w', hstep, hk', hiff⟩ := step_table e hk ((books_iff_table hk.linked).mp hb)
  exact ⟨w', hstep, hk', (books_iff_table hk'.linked).trans hiff⟩

/-- Two interfaces. -/
def twoInterfaces : NetIfs where
  netif n := { ip_addr := 0xc0a80000 + (n : IpAddr) }
  netif_list := [1, 0]
  nodup := by decide

/-- `239.0.0.1`. -/
def someGroup : GroupAddr := ⟨0xef000001, by decide⟩

/-- There is memory for a group on the interface 1 alone, which is the first of the two: the call
fails, and this interface has joined the group. -/
theorem join_fails_behind_first : ¬ ∀ (ifs : NetIfs) (es : List Event),
    Always (step ifs) (Books ifs) {} es := by
  intro h
  have hbooks := h twoInterfaces [.igmp_joingroup 0 someGroup { group := fun n => n = 1 }]
    [.igmp_joingroup 0 someGroup { group := fun n => n = 1 }] [] _ rfl rfl
  exact absurd hbooks.untouched (by decide +kernel)

end Lwip.Igmp
