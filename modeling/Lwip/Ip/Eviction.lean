import Lwip.Ip.Safety

/-!
# Which datagrams make room for a fragment

`Evicts` says what `ip_reass_remove_oldest_datagram` is for: it takes the oldest datagram that the
fragment does not belong to out of the list, one after the other, until enough pbufs are freed or
only the fragment's own datagram is left. The code does so exactly as long as the datagram to be
taken out is the last of the list (`evictsRight_iff`): the predecessor that it has found is always
that of the last one.
-/

namespace Lwip.Ip

/-- The datagrams hold fragments, and the pbufs of these are counted. -/
structure Stocked (s : Reass) : Prop where
  held : ∀ d ∈ s.datagrams, d.p ≠ []
  count : pbufs s.datagrams ≤ s.pbufcount

/-- `d` is a datagram of the list that the fragment does not belong to, and none of those is
older. -/
structure IsOldest (f : IpHdr) (l : List ReassData) (d : ReassData) : Prop where
  other : d.isOf f = false
  le : ∀ a ∈ l, a.isOf f = false → d.timer ≤ a.timer

/-- From a list, with so many pbufs freed, to the list and the number in the end. -/
inductive Evicts (f : IpHdr) (needed : ℕ) : List ReassData → ℕ → List ReassData → ℕ → Prop where
  /-- There is no other datagram. -/
  | none {l : List ReassData} {freed : ℕ} : (∀ a ∈ l, a.isOf f = true) →
    Evicts f needed l freed l freed
  /-- One is taken out. Enough are freed with it, or it was the only other one. -/
  | last {A C : List ReassData} {d : ReassData} {freed : ℕ} : IsOldest f (A ++ d :: C) d →
    (needed ≤ freed + heldPbufs d.p ∨ ∀ a ∈ A ++ C, a.isOf f = true) →
    Evicts f needed (A ++ d :: C) freed (A ++ C) (freed + heldPbufs d.p)
  /-- One is taken out, and another one has to go. -/
  | more {A C l : List ReassData} {d : ReassData} {freed freed' : ℕ} : IsOldest f (A ++ d :: C) d →
    freed + heldPbufs d.p < needed → (∃ a ∈ A ++ C, a.isOf f = false) →
    Evicts f needed (A ++ C) (freed + heldPbufs d.p) l freed' →
    Evicts f needed (A ++ d :: C) freed l freed'

/-- `ip_reass_remove_oldest_datagram` takes out the datagrams that have to go, and no others. -/
def EvictsRight (s : Reass) (f : IpHdr) (needed : ℕ) : Prop :=
  ∃ l freed, ipReassRemoveOldestDatagram s f needed = .ok (⟨l, s.pbufcount - freed⟩, freed) ∧
    Evicts f needed s.datagrams 0 l freed

/-- From the end of the list on, given from its last datagram to the first: as long as one has to
go, the last one is not the fragment's own, and no other one is older. -/
def OldestLast (f : IpHdr) (needed : ℕ) : ℕ → List ReassData → Prop
  | _, [] => True
  | freed, d :: rest => (∀ a ∈ d :: rest, a.isOf f = true) ∨
    (d.isOf f = false ∧ ∀ a ∈ rest, a.isOf f = false → d.timer ≤ a.timer) ∧
      (freed + heldPbufs d.p < needed → OldestLast f needed (freed + heldPbufs d.p) rest)

instance OldestLast.decidable (f : IpHdr) (needed : ℕ) :
    (freed : ℕ) → (l : List ReassData) → Decidable (OldestLast f needed freed l)
  | _, [] => .isTrue trivial
  | freed, d :: rest =>
    have := OldestLast.decidable f needed (freed + heldPbufs d.p) rest
    inferInstanceAs (Decidable (_ ∨ (_ ∧ _) ∧ (_ → _)))

section Evict

variable {f : IpHdr} {needed : ℕ}

/-- Where only the fragment's own datagram is left, nothing is to be taken out. -/
theorem OldestLast.of_own {freed : ℕ} {l : List ReassData} (h : ∀ a ∈ l, a.isOf f = true) :
    OldestLast f needed freed l := by
  cases l with
  | nil => trivial
  | cons d rest => exact .inl h

/-- The last of the oldest datagrams. -/
theorem exists_oldest {l : List ReassData} (h : ∃ a ∈ l, a.isOf f = false) :
    ∃ A d C, l = A ++ d :: C ∧ d.isOf f = false ∧ (∀ a ∈ A, a.isOf f = false → d.timer ≤ a.timer) ∧
      ∀ c ∈ C, c.isOf f = false → d.timer < c.timer := by
  induction l with
  | nil =>
    obtain ⟨a, ha, -⟩ := h
    cases ha
  | cons r l ih =>
    by_cases hl : ∃ a ∈ l, a.isOf f = false
    · obtain ⟨A, d, C, rfl, hd, hA, hC⟩ := ih hl
      by_cases hr : r.isOf f = false ∧ r.timer < d.timer
      · -- The first entry is older than all behind it.
        refine ⟨[], r, A ++ d :: C, rfl, hr.1, nofun, fun c hc hcf => ?_⟩
        rcases List.mem_append.mp hc with hc | hc
        · exact Nat.lt_of_lt_of_le hr.2 (hA c hc hcf)
        · rcases List.mem_cons.mp hc with rfl | hc
          · exact hr.2
          · exact Nat.lt_trans hr.2 (hC c hc hcf)
      · refine ⟨r :: A, d, C, rfl, hd, List.forall_mem_cons.mpr ⟨fun hrf => ?_, hA⟩, hC⟩
        exact Nat.le_of_not_lt fun hlt => hr ⟨hrf, hlt⟩
    · obtain ⟨a, ha, haf⟩ := h
      rcases List.mem_cons.mp ha with rfl | ha
      · exact ⟨[], a, l, rfl, haf, nofun, fun c hc hcf => absurd ⟨c, hc, hcf⟩ hl⟩
      · exact absurd ⟨a, ha, haf⟩ hl

/-- The oldest datagram is not the last of the list: the predecessor is that of another one. -/
theorem removeOldest_round_inner {n cnt freed : ℕ} {A C : List ReassData} {d : ReassData}
    (hd : d.isOf f = false) (hA : ∀ a ∈ A, a.isOf f = false → d.timer ≤ a.timer)
    (hC : ∀ c ∈ C, c.isOf f = false → d.timer < c.timer) (hne : C ≠ []) :
    ∃ e, removeOldestLoop f needed (n + 1) ⟨A ++ d :: C, cnt⟩ freed = .error e := by
  have hold : (findOldest f 0 {} (A ++ d :: C)).oldest = some (A.length, d.timer) := by
    have := findOldest_oldest 0 {} A C d hd hC hA nofun
    rwa [Nat.zero_add] at this
  have hpos : 0 < C.length := List.length_pos_iff.mpr hne
  have hprev : (findOldest f 0 {} (A ++ d :: C)).prev = some (A.length + C.length - 1) := by
    rw [findOldest_prev, List.length_append, List.length_cons, if_pos (by omega)]
    congr 1
    omega
  rw [removeOldestLoop]
  dsimp only
  rw [hold, hprev]
  dsimp only
  by_cases hself : A.length + C.length - 1 = A.length
  · rw [hself, ipReassFreeCompleteDatagram, lwipAssert, if_neg (not_not.mpr rfl)]
    exact ⟨_, rfl⟩
  · have hnot : ¬ ((some (A.length + C.length - 1)).all fun x => x + 1 = A.length) = true := by
      rw [Option.all_some, decide_eq_true_eq]
      omega
    rw [ipReassFreeCompleteDatagram, (lwipAssert_eq_ok (u := ())).mpr (by simpa using hself)]
    dsimp only [bind, Except.bind]
    rw [lwipAssert, if_neg hnot]
    exact ⟨_, rfl⟩

/-- The loop takes out the datagrams that have to go as long as these are at the end of the list,
and runs into an assertion otherwise. The induction is on the list, from its end. -/
theorem removeOldestLoop_evicts (f : IpHdr) (needed : ℕ) (l : List ReassData) :
    ∀ (n cnt freed : ℕ), l.length ≤ n → (∀ d ∈ l, d.p ≠ []) → pbufs l ≤ cnt →
    (OldestLast f needed freed l.reverse →
      ∃ l' freed', freed ≤ freed' ∧ Evicts f needed l freed l' freed' ∧
        removeOldestLoop f needed n ⟨l, cnt⟩ freed = .ok (⟨l', cnt - (freed' - freed)⟩, freed')) ∧
    (¬ OldestLast f needed freed l.reverse →
      ∃ e, removeOldestLoop f needed n ⟨l, cnt⟩ freed = .error e) := by
  -- Without another datagram there is nothing to do.
  have hown : ∀ {l : List ReassData} (n cnt freed : ℕ), (∀ a ∈ l, a.isOf f = true) →
      ∃ l' freed', freed ≤ freed' ∧ Evicts f needed l freed l' freed' ∧
        removeOldestLoop f needed n ⟨l, cnt⟩ freed =
        .ok (⟨l', cnt - (freed' - freed)⟩, freed') := by
    intro l n cnt freed h
    refine ⟨l, freed, Nat.le_refl _, .none h, ?_⟩
    rw [removeOldest_round_none h, Nat.sub_self, Nat.sub_zero]
  induction l using List.reverseRecOn with
  | nil => exact fun n cnt freed _ _ _ =>
    ⟨fun _ => hown n cnt freed nofun, fun h => absurd trivial h⟩
  | append_singleton l d ih =>
    intro n cnt freed hn hheld hcnt
    rw [List.reverse_append, List.reverse_singleton, List.singleton_append]
    rw [List.length_append, List.length_singleton] at hn
    obtain ⟨n, rfl⟩ : ∃ m, n = m + 1 := ⟨n - 1, by omega⟩
    by_cases hall : ∀ a ∈ l ++ [d], a.isOf f = true
    · refine ⟨fun _ => hown _ cnt freed hall, fun h => absurd (.inl ?_) h⟩
      intro a ha
      rw [List.mem_cons, List.mem_reverse] at ha
      exact hall a (List.mem_append.mpr (ha.symm.imp_right List.mem_singleton.mpr))
    have hnotall : ¬ ∀ a ∈ d :: l.reverse, a.isOf f = true := by
      intro h
      refine hall fun a ha => h a ?_
      rw [List.mem_cons, List.mem_reverse]
      exact (List.mem_append.mp ha).symm.imp_left List.mem_singleton.mp
    rw [OldestLast, or_iff_right hnotall]
    simp only [List.mem_reverse]
    by_cases hlast : d.isOf f = false ∧ ∀ a ∈ l, a.isOf f = false → d.timer ≤ a.timer
    · -- The last datagram is the oldest, and goes.
      rw [and_iff_right hlast]
      obtain ⟨hd, hle⟩ := hlast
      rw [pbufs_concat] at hcnt
      have holdest : IsOldest f (l ++ d :: []) d := by
        refine ⟨hd, fun a ha haf => ?_⟩
        rcases List.mem_append.mp ha with ha | ha
        · exact hle a ha haf
        · rw [List.mem_singleton.mp ha]
      rw [removeOldest_round hd hle (hheld d (by simp)) (by omega)]
      by_cases hgo : freed + heldPbufs d.p < needed ∧ 1 < l.countP (!·.isOf f) + 1
      · rw [if_pos hgo, forall_prop_of_true hgo.1]
        obtain ⟨hok, herr⟩ := ih n (cnt - heldPbufs d.p) (freed + heldPbufs d.p) (by omega)
          (fun a ha => hheld a (List.mem_append_left _ ha)) (by omega)
        refine ⟨fun h => ?_, herr⟩
        obtain ⟨l', freed', hfreed, hevicts, hloop⟩ := hok h
        have hother : ∃ a ∈ l ++ [], a.isOf f = false := by
          obtain ⟨a, ha, haf⟩ := List.countP_pos_iff.mp (by omega : 0 < l.countP (!·.isOf f))
          exact ⟨a, List.mem_append_left _ ha, by simpa using haf⟩
        refine ⟨l', freed', by omega, ?_, ?_⟩
        · refine .more holdest hgo.1 hother ?_
          rwa [List.append_nil]
        · rw [hloop]
          congr 3
          omega
      · rw [if_neg hgo]
        have hcount : freed + heldPbufs d.p < needed → ∀ a ∈ l, a.isOf f = true := by
          intro hlt a ha
          have hzero : l.countP (!·.isOf f) = 0 := by omega
          simpa using List.countP_eq_zero.mp hzero a ha
        refine ⟨fun _ => ⟨l, freed + heldPbufs d.p, by omega, ?_, ?_⟩,
          fun h => absurd (fun hlt => ?_) h⟩
        · have hstop := Evicts.last (C := []) holdest <| by
            rw [List.append_nil]
            by_cases hlt : freed + heldPbufs d.p < needed
            · exact .inr (hcount hlt)
            · exact .inl (Nat.le_of_not_lt hlt)
          rwa [List.append_nil] at hstop
        · congr 3
          omega
        · exact .of_own fun a ha => hcount hlt a (List.mem_reverse.mp ha)
    · refine ⟨fun h => absurd h.1 hlast, fun _ => ?_⟩
      have hsome : ∃ a ∈ l ++ [d], a.isOf f = false := by
        push Not at hall
        obtain ⟨a, ha, haf⟩ := hall
        exact ⟨a, ha, by simpa using haf⟩
      obtain ⟨A, d', C, hsplit, hd', hA, hC⟩ := exists_oldest hsome
      rw [hsplit]
      refine removeOldest_round_inner hd' hA hC ?_
      rintro rfl
      -- It would be the last one.
      obtain ⟨rfl, hdd⟩ := List.append_inj' hsplit rfl
      obtain rfl := List.singleton_inj.mp hdd
      exact hlast ⟨hd', hA⟩

end Evict

/-- The right datagrams make room for a fragment exactly if each of them is the last of the list
when it has to go. -/
theorem evictsRight_iff (s : Reass) (f : IpHdr) (needed : ℕ) (h : Stocked s) :
    EvictsRight s f needed ↔ OldestLast f needed 0 s.datagrams.reverse := by
  obtain ⟨hok, herr⟩ := removeOldestLoop_evicts f needed s.datagrams
    s.datagrams.length s.pbufcount 0 (Nat.le_refl _) h.held h.count
  constructor
  · rintro ⟨l, freed, hloop, -⟩
    by_contra hnot
    obtain ⟨e, he⟩ := herr hnot
    rw [ipReassRemoveOldestDatagram, he] at hloop
    cases hloop
  · intro hlast
    obtain ⟨l, freed, -, hevicts, hloop⟩ := hok hlast
    exact ⟨l, freed, hloop, hevicts⟩

/-- A datagram of which one fragment is held. -/
def heldOf (p : Frag) (timer : ℕ) : ReassData :=
  { p := [⟨0, 8, p.payload, p.clen⟩], iphdr := p.hdr, timer }

/-- Two other datagrams in front of which the fragment's own one was put. -/
theorem evictsRight_iff_last :
    let s : Reass := ⟨[heldOf (udpFrag 3 0 true [] 2) 3, heldOf (udpFrag 2 0 true [] 3) 3,
      heldOf (udpFrag 1 0 true [] 5) 2], 10⟩
    Stocked s ∧ EvictsRight s (udpFrag 3 1 true [] 6).hdr 6 := by
  intro s
  have hs : Stocked s := ⟨by decide +kernel, by decide +kernel⟩
  exact ⟨hs, (evictsRight_iff s _ 6 hs).mpr (by decide +kernel)⟩

/-- The fragment's own datagram is the last of the list: the other one is taken for its own
predecessor. -/
theorem own_last_not_evicted :
    ∃ s, run reassStep {} (ownOldestRun.take 2) = .ok s ∧
    ¬ EvictsRight s (udpFrag 1 1 true [] 1).hdr 1 := by
  refine ⟨_, rfl, ?_⟩
  rintro ⟨l, freed, h, -⟩
  cases h

end Lwip.Ip
