import Lwip.Ip.Igmp

/-!
# The list of groups as a table

`Linked` is the invariant of `igmp_group_list`: the links lead through cells that have been handed
out to an end, no two cells are for one interface and address, and each has been joined. Over it the
list is read as a table of use counters, `uses`: what each function does to the list is what it does
to this table and to what the MAC filters were told.
-/

namespace Lwip.Igmp

open Netif (IpAddr)
open State

/-- The interface and the address of a group. -/
def IgmpGroup.key (g : IgmpGroup) : ℕ × IpAddr := (g.interface, g.group_address)

/-- The link of each cell. -/
def State.next (s : State) (p : ℕ) : Option ℕ := (s.group p).next

/-- The links lead through the cells of `l`, which have been handed out and are for different
interfaces and addresses. -/
structure Links (s : State) (l : List ℕ) : Prop where
  walk : Walk s.next s.igmp_group_list l
  lt : ∀ p ∈ l, p < s.fresh
  unique : ∀ p ∈ l, ∀ q ∈ l, (s.group p).key = (s.group q).key → p = q

/-- A loop over the list comes to its cells and ends, and the cells have been joined. -/
structure Linked (s : State) : Prop where
  links : Links s s.groups
  member : ∀ p ∈ s.groups, (s.group p).group_state ≠ .NON_MEMBER

/-- The use counter of the group on the list for an interface and an address. -/
def State.uses (s : State) (n : ℕ) (a : IpAddr) : Option UInt8 :=
  (igmpLookforGroup s n a).map fun p => (s.group p).use

section Links

variable {s s' : State} {l : List ℕ} {p : ℕ} {n : ℕ} {a : IpAddr}

/-- A loop comes to the cells of the links. -/
theorem Links.groups (h : Links s l) : s.groups = l := by
  have hw : Lwip.walk s.next s.fresh s.igmp_group_list = some l :=
    walk_eq_some.mpr ⟨h.walk, h.walk.length_le h.lt⟩
  have : s.groups = (Lwip.walk s.next s.fresh s.igmp_group_list).getD [] := rfl
  rw [this, hw, Option.getD_some]

/-- The links of the list lead through its groups. -/
theorem Links.self (h : Links s l) : Links s s.groups := by
  rw [h.groups]
  exact h

/-- The group that a search finds is the one on the list for this interface and address. -/
theorem Links.lookfor (h : Links s l) :
    igmpLookforGroup s n a = some p ↔ p ∈ l ∧ (s.group p).key = (n, a) := by
  unfold igmpLookforGroup
  rw [h.groups]
  constructor
  · intro hp
    have hkey := List.find?_some hp
    obtain ⟨hn, ha⟩ := of_decide_eq_true hkey
    exact ⟨List.mem_of_find?_eq_some hp, Prod.ext hn ha⟩
  · rintro ⟨hp, hkey⟩
    cases hfind : l.find? fun p => (s.group p).interface = n ∧ (s.group p).group_address = a with
    | none =>
      have hno := List.find?_eq_none.mp hfind p hp
      obtain ⟨hn, ha⟩ := Prod.mk.injEq _ _ _ _ ▸ hkey
      exact absurd (decide_eq_true ⟨hn, ha⟩) hno
    | some q =>
      have hfound := List.find?_some hfind
      obtain ⟨hn, ha⟩ := of_decide_eq_true hfound
      have hq : (s.group q).key = (s.group p).key := by
        rw [hkey]
        exact Prod.ext hn ha
      rw [h.unique q (List.mem_of_find?_eq_some hfind) p hp hq]

/-- A group is not found if it is not on the list. -/
theorem Links.lookfor_none (h : Links s l) :
    igmpLookforGroup s n a = none ↔ ∀ p ∈ l, (s.group p).key ≠ (n, a) := by
  rw [Option.eq_none_iff_forall_ne_some]
  constructor
  · exact fun hnone p hp hkey => hnone p (h.lookfor.mpr ⟨hp, hkey⟩)
  · intro hno p hp
    obtain ⟨hp, hkey⟩ := h.lookfor.mp hp
    exact hno p hp hkey

/-- The table at a cell of the list. -/
theorem Links.uses_of_mem (h : Links s l) (hp : p ∈ l) (hkey : (s.group p).key = (n, a)) :
    s.uses n a = some (s.group p).use := by
  unfold State.uses
  rw [h.lookfor.mpr ⟨hp, hkey⟩, Option.map_some]

/-- What is not on the list is not in use. -/
theorem Links.uses_of_forall (h : Links s l) (hno : ∀ p ∈ l, (s.group p).key ≠ (n, a)) :
    s.uses n a = none := by
  unfold State.uses
  rw [h.lookfor_none.mpr hno, Option.map_none]

/-- A group is in use if it is found. -/
theorem uses_eq_none : s.uses n a = none ↔ igmpLookforGroup s n a = none := Option.map_eq_none_iff

/-- Two lists with the same groups are the same table. -/
theorem uses_congr {l' : List ℕ} (h : Links s l) (h' : Links s' l')
    (hmem : ∀ p, p ∈ l' ∧ (s'.group p).key = (n, a) ↔ p ∈ l ∧ (s.group p).key = (n, a))
    (huse : ∀ p ∈ l, (s.group p).key = (n, a) → (s'.group p).use = (s.group p).use) :
    s'.uses n a = s.uses n a := by
  cases hl : igmpLookforGroup s n a with
  | none =>
    have hno : ∀ p ∈ l', (s'.group p).key ≠ (n, a) := by
      intro p hp hkey
      obtain ⟨hp, hkey⟩ := (hmem p).mp ⟨hp, hkey⟩
      exact h.lookfor_none.mp hl p hp hkey
    rw [h'.uses_of_forall hno, uses_eq_none.mpr hl]
  | some p =>
    obtain ⟨hp, hkey⟩ := h.lookfor.mp hl
    obtain ⟨hp', hkey'⟩ := (hmem p).mpr ⟨hp, hkey⟩
    rw [h'.uses_of_mem hp' hkey', h.uses_of_mem hp hkey, huse p hp hkey]

end Links

/-! ## Changes that leave the list as it is -/

/-- The list, and the interface and the address of each group, are as before. -/
structure Kept (s s' : State) : Prop where
  head : s'.igmp_group_list = s.igmp_group_list
  fresh : s'.fresh = s.fresh
  next : ∀ p, (s'.group p).next = (s.group p).next
  key : ∀ p, (s'.group p).key = (s.group p).key

/-- Beside them the use counters and what the filters were told are as before, and a member stays a
member. -/
structure Quiet (s s' : State) : Prop extends Kept s s' where
  use : ∀ p, (s'.group p).use = (s.group p).use
  state : ∀ p, (s.group p).group_state ≠ .NON_MEMBER → (s'.group p).group_state ≠ .NON_MEMBER
  told : s'.told = s.told

section Kept

variable {s s' s'' : State} {l : List ℕ} {p : ℕ}

/-- What two steps keep is kept. -/
theorem Kept.trans (h : Kept s s') (h' : Kept s' s'') : Kept s s'' :=
  ⟨h'.head.trans h.head, h'.fresh.trans h.fresh, fun p => (h'.next p).trans (h.next p),
    fun p => (h'.key p).trans (h.key p)⟩

/-- A state that keeps the groups keeps the links. -/
theorem Kept.links (h : Kept s s') (hs : Links s l) : Links s' l where
  walk := by
    rw [h.head]
    exact hs.walk.congr fun p _ => h.next p
  lt p hp := by
    rw [h.fresh]
    exact hs.lt p hp
  unique p hp q hq hkey := by
    rw [h.key, h.key] at hkey
    exact hs.unique p hp q hq hkey

/-- A state that keeps the groups has the same list. -/
theorem Kept.groups (h : Kept s s') (hs : Links s l) : s'.groups = s.groups := by
  rw [(h.links hs).groups, hs.groups]

/-- A change of one cell. -/
theorem Kept.modify {f : IgmpGroup → IgmpGroup} (hnext : ∀ g, (f g).next = g.next)
    (hkey : ∀ g, (f g).key = g.key) : Kept s (s.modify p f) where
  head := rfl
  fresh := rfl
  next q := by
    by_cases hq : q = p
    · subst hq
      simp [State.modify, hnext]
    · simp [State.modify, hq]
  key q := by
    by_cases hq : q = p
    · subst hq
      simp [State.modify, hkey]
    · simp [State.modify, hq]

/-- Nothing happens to the list where nothing happens. -/
theorem Quiet.refl (s : State) : Quiet s s :=
  ⟨⟨rfl, rfl, fun _ => rfl, fun _ => rfl⟩, fun _ => rfl, fun _ h => h, rfl⟩

/-- Two quiet steps are a quiet one. -/
theorem Quiet.trans (h : Quiet s s') (h' : Quiet s' s'') : Quiet s s'' :=
  ⟨h.toKept.trans h'.toKept, fun p => (h'.use p).trans (h.use p),
    fun p hp => h'.state p (h.state p hp), h'.told.trans h.told⟩

/-- A change of one cell that does not make a member a stranger. -/
theorem Quiet.modify {f : IgmpGroup → IgmpGroup} (hnext : ∀ g, (f g).next = g.next)
    (hkey : ∀ g, (f g).key = g.key) (huse : ∀ g, (f g).use = g.use)
    (hstate : ∀ g, g.group_state ≠ .NON_MEMBER → (f g).group_state ≠ .NON_MEMBER) :
    Quiet s (s.modify p f) where
  toKept := Kept.modify hnext hkey
  use q := by
    by_cases hq : q = p
    · subst hq
      simp [State.modify, huse]
    · simp [State.modify, hq]
  state q hmem := by
    by_cases hq : q = p
    · subst hq
      simpa [State.modify] using hstate _ hmem
    · simpa [State.modify, hq] using hmem
  told := rfl

/-- A quiet step keeps the list linked. -/
theorem Quiet.linked (h : Quiet s s') (hs : Linked s) : Linked s' where
  links := by
    rw [h.toKept.groups hs.links]
    exact h.toKept.links hs.links
  member p hp := by
    rw [h.toKept.groups hs.links] at hp
    exact h.state p (hs.member p hp)

/-- A quiet step keeps the use counters. -/
theorem Quiet.uses (h : Quiet s s') (hs : Linked s) : s'.uses = s.uses := by
  funext n a
  apply uses_congr hs.links (h.toKept.links hs.links)
  · intro p
    rw [h.key]
  · exact fun p _ _ => h.use p

/-- A loop of quiet steps. -/
theorem Quiet.foldl {f : State → ℕ → State} (hf : ∀ s p, Quiet s (f s p)) (l : List ℕ) (s : State) :
    Quiet s (l.foldl f s) := by
  induction l generalizing s with
  | nil => exact .refl s
  | cons p l ih => exact (hf s p).trans (ih (f s p))

end Kept

section Quiet

variable (s : State) (p : ℕ)

/-- A message leaves the list alone. -/
theorem igmpSend_quiet (type : MsgType) (pbuf : Bool) : Quiet s (igmpSend s p type pbuf) := by
  unfold igmpSend
  split
  · cases type with
    | V2_MEMB_REPORT =>
      have h : Quiet s (s.modify p fun g => { g with last_reporter_flag := true }) :=
        by apply Quiet.modify <;> intro g <;> first | rfl | exact id
      exact ⟨⟨h.head, h.fresh, h.next, h.key⟩, h.use, h.state, h.told⟩
    | LEAVE_GROUP => exact ⟨⟨rfl, rfl, fun _ => rfl, fun _ => rfl⟩, fun _ => rfl, fun _ h => h, rfl⟩
    | MEMB_QUERY => exact .refl s
    | other => exact .refl s
  · exact .refl s

/-- A timer leaves the list alone. -/
theorem igmpStartTimer_quiet (max_time : UInt8) : Quiet s (igmpStartTimer s p max_time) := by
  apply Quiet.modify <;> intro g <;> first | rfl | exact id

/-- A group becomes a delaying member. -/
theorem delaying_quiet : Quiet s
    (s.modify p fun g => { g with group_state := .DELAYING_MEMBER }) := by
  apply Quiet.modify <;> intro g <;> first | rfl | exact fun _ h => by cases h

/-- A delay leaves the list alone. -/
theorem igmpDelayingMember_quiet (maxresp : UInt8) : Quiet s (igmpDelayingMember s p maxresp) := by
  unfold igmpDelayingMember
  split
  · exact (igmpStartTimer_quiet s p _).trans (delaying_quiet _ p)
  · exact .refl s

/-- The reports leave the list alone. -/
theorem igmpReportGroups_quiet (n : ℕ) : Quiet s (igmpReportGroups s n) := by
  apply Quiet.foldl
  intro s p
  split
  · exact igmpDelayingMember_quiet s p _
  · exact .refl s

/-- A timeout leaves the list alone. -/
theorem igmpTimeout_quiet (mem : Memory) : Quiet s (igmpTimeout s p mem) := by
  unfold igmpTimeout
  split
  · exact igmpSend_quiet s p _ _
  · exact .refl s

/-- A tick leaves the list alone. -/
theorem igmpTmr_quiet (mem : Memory) : Quiet s (igmpTmr s mem) := by
  apply Quiet.foldl
  intro s p
  split
  · have htimer : Quiet s (s.modify p fun g => { g with timer := g.timer - 1 }) := by
      apply Quiet.modify <;> intro g <;> first | rfl | exact id
    apply htimer.trans
    dsimp only
    split
    · exact igmpTimeout_quiet _ p mem
    · exact .refl _
  · exact .refl s

/-- A message that comes in leaves the list alone. -/
theorem igmpInput_quiet (packet : Packet) (inp : ℕ) (dest : IpAddr) :
    Quiet s (igmpInput s packet inp dest) := by
  unfold igmpInput
  split
  · exact .refl s
  · split
    · exact .refl s
    · next group _ =>
      split
      · split
        · -- the general query
          apply Quiet.foldl
          intro s q
          split
          · exact igmpDelayingMember_quiet s q _
          · exact .refl s
        · split
          · split
            · exact igmpDelayingMember_quiet s _ _
            · exact .refl s
          · exact .refl s
      · split
        · apply Quiet.modify <;> intro g <;> first | rfl | exact fun _ h => by cases h
        · exact .refl s
      · exact .refl s

end Quiet

/-! ## A group is created -/

/-- The group `p` is on the list for an interface and an address, as it was before or new. -/
structure Opened (s : State) (n : ℕ) (a : IpAddr) (p : ℕ) (s₁ : State) : Prop where
  links : Links s₁ s₁.groups
  mem : p ∈ s₁.groups
  key : (s₁.group p).key = (n, a)
  use : (s₁.group p).use = (s.uses n a).getD 0
  state : (s₁.group p).group_state = .NON_MEMBER ↔ s.uses n a = none
  others : ∀ q ∈ s₁.groups, q ≠ p → (s₁.group q).group_state ≠ .NON_MEMBER
  old : ∀ q ∈ s₁.groups, q ≠ p → q ∈ s.groups
  kept : ∀ q ∈ s.groups, q ∈ s₁.groups ∧ s₁.group q = s.group q
  uses : ∀ m b, (m, b) ≠ (n, a) → s₁.uses m b = s.uses m b
  told : s₁.told = s.told
  sent : s₁.sent = s.sent

section Opened

variable {s s₁ s₂ : State} {n p : ℕ} {a : IpAddr} {mem : Memory}

/-- A group on the list. -/
theorem Opened.of_mem (h : Linked s) (hp : p ∈ s.groups) (hkey : (s.group p).key = (n, a)) :
    Opened s n a p s where
  links := h.links
  mem := hp
  key := hkey
  use := by rw [h.links.uses_of_mem hp hkey, Option.getD_some]
  state := by
    rw [h.links.uses_of_mem hp hkey]
    exact iff_of_false (h.member p hp) nofun
  others q hq _ := h.member q hq
  old q hq _ := hq
  kept q hq := ⟨hq, rfl⟩
  uses _ _ _ := rfl
  told := rfl
  sent := rfl

/-- A new group is put in front of the list. -/
theorem Opened.of_new (h : Linked s) (hno : s.uses n a = none) (group : IgmpGroup)
    (hnext : group.next = s.igmp_group_list) (hkey : group.key = (n, a)) (huse : group.use = 0)
    (hstate : group.group_state = .NON_MEMBER) :
    Opened s n a s.fresh
      { s with igmp_group_list := some s.fresh, group := Function.update s.group s.fresh group,
               fresh := s.fresh + 1 } := by
  let s₁ : State :=
    { s with igmp_group_list := some s.fresh, group := Function.update s.group s.fresh group,
             fresh := s.fresh + 1 }
  have hnew : s₁.group s.fresh = group := Function.update_self _ _ _
  -- The cell is not one of those on the list.
  have hold : ∀ q ∈ s.groups, s₁.group q = s.group q := fun q hq =>
    Function.update_of_ne (Nat.ne_of_lt (h.links.lt q hq)) _ _
  have hkeys : ∀ q ∈ s.groups, (s.group q).key ≠ (n, a) :=
    h.links.lookfor_none.mp (uses_eq_none.mp hno)
  have hlinks : Links s₁ (s.fresh :: s.groups) := by
    constructor
    · apply Walk.cons
      have hfirst : s₁.next s.fresh = s.igmp_group_list := by
        rw [State.next, hnew, hnext]
      rw [hfirst]
      exact h.links.walk.congr fun q hq => congrArg IgmpGroup.next (hold q hq)
    · intro q hq
      rcases List.mem_cons.mp hq with rfl | hq
      · exact Nat.lt_succ_self _
      · exact Nat.lt_succ_of_lt (h.links.lt q hq)
    · intro q hq q' hq' heq
      rcases List.mem_cons.mp hq with rfl | hq <;> rcases List.mem_cons.mp hq' with rfl | hq'
      · rfl
      · rw [hnew, hkey, hold q' hq'] at heq
        exact absurd heq.symm (hkeys q' hq')
      · rw [hnew, hkey, hold q hq] at heq
        exact absurd heq (hkeys q hq)
      · rw [hold q hq, hold q' hq'] at heq
        exact h.links.unique q hq q' hq' heq
  have hgroups : s₁.groups = s.fresh :: s.groups := hlinks.groups
  constructor
  · exact hlinks.self
  · rw [hgroups]
    exact List.mem_cons_self
  · rw [hnew, hkey]
  · rw [hnew, huse, hno, Option.getD_none]
  · rw [hnew]
    exact iff_of_true hstate hno
  · intro q hq hne
    rw [hgroups] at hq
    have hq : q ∈ s.groups := List.mem_of_ne_of_mem hne hq
    rw [hold q hq]
    exact h.member q hq
  · intro q hq hne
    rw [hgroups] at hq
    exact List.mem_of_ne_of_mem hne hq
  · intro q hq
    refine ⟨?_, hold q hq⟩
    rw [hgroups]
    exact List.mem_cons_of_mem _ hq
  · intro m b hne
    apply uses_congr h.links hlinks
    · intro q
      constructor
      · rintro ⟨hq, hqkey⟩
        rcases List.mem_cons.mp hq with rfl | hq
        · rw [hnew, hkey] at hqkey
          exact absurd hqkey.symm hne
        · rw [hold q hq] at hqkey
          exact ⟨hq, hqkey⟩
      · rintro ⟨hq, hqkey⟩
        refine ⟨List.mem_cons_of_mem _ hq, ?_⟩
        rw [hold q hq]
        exact hqkey
    · intro q hq _
      rw [hold q hq]
  · rfl
  · rfl

/-- A search that may create a group fails only where there is none, for want of memory. -/
theorem igmpLookupGroup_none (s : State) (hno : s.uses n a = none) (hmem : mem.group n = false) :
    igmpLookupGroup s n a mem = (none, s) := by
  unfold igmpLookupGroup
  rw [uses_eq_none.mp hno]
  simp [hmem]

/-- A group that is on the list or gets memory is found or created. -/
theorem igmpLookupGroup_some (h : Linked s) (hroom : s.uses n a ≠ none ∨ mem.group n = true) :
    ∃ p s₁, igmpLookupGroup s n a mem = (some p, s₁) ∧ Opened s n a p s₁ := by
  unfold igmpLookupGroup
  cases hfind : igmpLookforGroup s n a with
  | some p =>
    obtain ⟨hp, hkey⟩ := h.links.lookfor.mp hfind
    exact ⟨p, s, rfl, .of_mem h hp hkey⟩
  | none =>
    have hno : s.uses n a = none := uses_eq_none.mpr hfind
    have hmem : mem.group n = true := hroom.resolve_left fun hne => hne hno
    simp only [hmem, if_true]
    exact ⟨s.fresh, _, rfl, .of_new h hno _ rfl rfl rfl rfl⟩

/-- The open group becomes a member, and nothing else changes. -/
theorem Opened.close (h : Opened s n a p s₁) (hk : Kept s₁ s₂)
    (huse : ∀ q, q ≠ p → (s₂.group q).use = (s₁.group q).use)
    (hstate : ∀ q, q ≠ p → (s₁.group q).group_state ≠ .NON_MEMBER →
      (s₂.group q).group_state ≠ .NON_MEMBER)
    (hp : (s₂.group p).group_state ≠ .NON_MEMBER) :
    Linked s₂ ∧ ∀ m b, s₂.uses m b = if (m, b) = (n, a) then some (s₂.group p).use
    else s.uses m b := by
  have hlinks : Links s₂ s₁.groups := hk.links h.links
  refine ⟨⟨hlinks.self, fun q hq => ?_⟩, fun m b => ?_⟩
  · rw [hlinks.groups] at hq
    by_cases hqp : q = p
    · rwa [hqp]
    · exact hstate q hqp (h.others q hq hqp)
  · split
    · next heq =>
      exact hlinks.uses_of_mem h.mem (by rw [hk.key, h.key, heq])
    · next hne =>
      rw [← h.uses m b hne]
      apply uses_congr h.links hlinks
      · intro q
        rw [hk.key]
      · intro q _ hkey
        apply huse q
        rintro rfl
        exact hne (hkey.symm.trans h.key)

end Opened

/-! ## A group is taken from the list -/

/-- The cells say the same but for their links. -/
structure Same (s s' : State) : Prop where
  key : ∀ p, (s'.group p).key = (s.group p).key
  use : ∀ p, (s'.group p).use = (s.group p).use
  state : ∀ p, (s'.group p).group_state = (s.group p).group_state
  timer : ∀ p, (s'.group p).timer = (s.group p).timer
  sent : s'.sent = s.sent

section Remove

variable {s s' : State} {k l : List ℕ} {n p q : ℕ} {a : IpAddr}

/-- The same timers and messages after two steps. -/
theorem Same.trans {s'' : State} (h : Same s s') (h' : Same s' s'') : Same s s'' :=
  ⟨fun p => (h'.key p).trans (h.key p), fun p => (h'.use p).trans (h.use p),
    fun p => (h'.state p).trans (h.state p), fun p => (h'.timer p).trans (h.timer p),
    h'.sent.trans h.sent⟩

/-- The same groups and messages. -/
theorem Same.of_group (hgroup : s'.group = s.group) (hsent : s'.sent = s.sent) : Same s s' := by
  constructor
  · exact fun p => by rw [hgroup]
  · exact fun p => by rw [hgroup]
  · exact fun p => by rw [hgroup]
  · exact fun p => by rw [hgroup]
  · exact hsent

/-- A link is no timer. -/
theorem Same.relink (s : State) (q : ℕ) (next : Option ℕ) :
    Same s (s.modify q fun g => { g with next := next }) := by
  have hcell : ∀ p, (s.modify q fun g => { g with next := next }).group p =
      { s.group p with next := if p = q then next else (s.group p).next } := by
    intro p
    by_cases hp : p = q
    · simp [State.modify, hp]
    · simp [State.modify, hp]
  constructor
  · exact fun p => by rw [hcell]; rfl
  · exact fun p => by rw [hcell]
  · exact fun p => by rw [hcell]
  · exact fun p => by rw [hcell]
  · rfl

/-- The first group is passed over by the head of the list. -/
theorem Links.behead (h : Links s (p :: l)) :
    Links { s with igmp_group_list := (s.group p).next } l where
  walk := Walk.drop (l := []) h.walk
  lt q hq := h.lt q (List.mem_cons_of_mem p hq)
  unique q hq q' hq' := h.unique q (List.mem_cons_of_mem p hq) q' (List.mem_cons_of_mem p hq')

/-- The groups that are left. -/
theorem Links.mem_relink {x : ℕ} (h : Links s (k ++ q :: p :: l)) :
    x ∈ k ++ q :: l ↔ x ∈ k ++ q :: p :: l ∧ x ≠ p := by
  have hnodup := h.walk.nodup
  rw [List.append_cons, List.nodup_middle, ← List.append_cons] at hnodup
  have hp : p ∉ k ++ q :: l := (List.nodup_cons.mp hnodup).1
  constructor
  · intro hx
    refine ⟨?_, fun heq => hp (heq ▸ hx)⟩
    rw [List.mem_append, List.mem_cons] at hx ⊢
    rw [List.mem_cons]
    tauto
  · rintro ⟨hx, hne⟩
    rw [List.mem_append, List.mem_cons] at hx ⊢
    rw [List.mem_cons] at hx
    tauto

/-- Another group is passed over by the group before it. -/
theorem Links.relink (h : Links s (k ++ q :: p :: l)) :
    Links (s.modify q fun g => { g with next := (s.group p).next }) (k ++ q :: l) := by
  have hsub : ∀ x ∈ k ++ q :: l, x ∈ k ++ q :: p :: l := fun x hx => (h.mem_relink.mp hx).1
  constructor
  · apply h.walk.unlink.congr
    intro x _
    by_cases hx : x = q
    · simp [State.next, State.modify, hx]
    · simp [State.next, State.modify, hx]
  · exact fun x hx => h.lt x (hsub x hx)
  · intro x hx y hy heq
    rw [(Same.relink s q _).key, (Same.relink s q _).key] at heq
    exact h.unique x (hsub x hx) y (hsub y hy) heq

/-- The table without the groups that are no longer on the list. -/
theorem Linked.remove {l' : List ℕ} (out : ℕ × IpAddr → Prop) [DecidablePred out] (h : Linked s)
    (h' : Links s' l') (hsame : Same s s')
    (hmem : ∀ p, p ∈ l' ↔ p ∈ s.groups ∧ ¬ out (s.group p).key) :
    Linked s' ∧ ∀ m b, s'.uses m b = if out (m, b) then none else s.uses m b := by
  refine ⟨⟨h'.self, fun p hp => ?_⟩, fun m b => ?_⟩
  · rw [h'.groups] at hp
    rw [hsame.state]
    exact h.member p ((hmem p).mp hp).1
  · split
    · next hout =>
      apply h'.uses_of_forall
      rintro p hp hkey
      rw [hsame.key] at hkey
      exact ((hmem p).mp hp).2 (hkey ▸ hout)
    · next hout =>
      apply uses_congr h.links h'
      · intro p
        rw [hsame.key, hmem]
        constructor
        · exact fun ⟨hp, hkey⟩ => ⟨hp.1, hkey⟩
        · exact fun ⟨hp, hkey⟩ => ⟨⟨hp, hkey ▸ hout⟩, hkey⟩
      · exact fun p _ _ => hsame.use p

/-- `igmp_remove_group` takes the group from the list. -/
theorem igmpRemoveGroup_links (h : Linked s) (hp : p ∈ s.groups) :
    ∃ l, Links (igmpRemoveGroup s p).2 l ∧ Same s (igmpRemoveGroup s p).2 ∧
      (∀ x, x ∈ l ↔ x ∈ s.groups ∧ x ≠ p) ∧ (igmpRemoveGroup s p).2.told = s.told := by
  unfold igmpRemoveGroup
  by_cases hhead : s.igmp_group_list = some p
  · rw [if_pos hhead]
    obtain ⟨l, hl⟩ : ∃ l, s.groups = p :: l := by
      have hw := h.links.walk
      rw [hhead] at hw
      generalize s.groups = l at hw
      cases hw with
      | cons _ => exact ⟨_, rfl⟩
    have hlinks : Links s (p :: l) := hl ▸ h.links
    have hnotin : p ∉ l := (List.nodup_cons.mp hlinks.walk.nodup).1
    refine ⟨l, hlinks.behead, .of_group rfl rfl, fun x => ?_, rfl⟩
    rw [hl, List.mem_cons]
    constructor
    · exact fun hx => ⟨.inr hx, fun heq => hnotin (heq ▸ hx)⟩
    · exact fun ⟨hx, hne⟩ => hx.resolve_left hne
  · rw [if_neg hhead]
    cases hfind : s.groups.find? fun q => (s.group q).next = some p with
    | none =>
      -- Some group links to it, as it is not the first one.
      obtain ⟨q, hq, hlink⟩ := (h.links.walk.pred hp).resolve_left hhead
      have := List.find?_eq_none.mp hfind q hq
      exact absurd (decide_eq_true hlink) this
    | some q =>
      have hlink := List.find?_some hfind
      obtain ⟨k, l, hl⟩ := h.links.walk.link_split (List.mem_of_find?_eq_some hfind)
        (of_decide_eq_true hlink)
      have hlinks : Links s (k ++ q :: p :: l) := hl ▸ h.links
      refine ⟨k ++ q :: l, hlinks.relink, Same.relink s q _, fun x => ?_, rfl⟩
      rw [hl]
      exact hlinks.mem_relink

/-- A group that is removed is in use no longer. -/
theorem igmpRemoveGroup_spec (h : Linked s) (hp : p ∈ s.groups) (hkey : (s.group p).key = (n, a)) :
    Linked (igmpRemoveGroup s p).2 ∧
      (∀ m b, (igmpRemoveGroup s p).2.uses m b = if (m, b) = (n, a) then none else s.uses m b) ∧
      (igmpRemoveGroup s p).2.told = s.told := by
  -- The other groups are those for another interface or address.
  have hother : ∀ x, x ∈ s.groups ∧ x ≠ p ↔ x ∈ s.groups ∧ ¬ (s.group x).key = (n, a) := by
    refine fun x => and_congr_right fun hx => not_congr ⟨fun heq => heq ▸ hkey, fun heq => ?_⟩
    exact h.links.unique x hx p hp (heq.trans hkey.symm)
  obtain ⟨l, hlinks, hsame, hmem, htold⟩ := igmpRemoveGroup_links h hp
  obtain ⟨hlinked, huses⟩ := h.remove (· = (n, a)) hlinks hsame fun x => by rw [hmem, hother]
  exact ⟨hlinked, huses, htold⟩

end Remove

end Lwip.Igmp
