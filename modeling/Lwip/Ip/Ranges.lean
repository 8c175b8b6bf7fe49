import Lwip.Ip.Safety
import Mathlib.Order.Interval.Finset.Nat

/-!
# The ranges of the queued fragments

The bookkeeping of `ip_reass` over whole runs: the counter, the limits of the pools and the keys of
the datagrams are right in every run, and every queue is sorted. The queued ranges are disjoint as
long as no fragment ends beyond the last octet a `u16_t` can name, and none that goes to the front
of its queue reaches into the fragment behind it: the branch of
`ip_reass_chain_frag_into_datagram_and_validate` for the lowest offset has no test for an overlap,
which the branch for the middle of the queue has.
-/

namespace Lwip.Ip

/-! ## One queue -/

/-- The end of a fragment, without the wrap of `u16_t`. -/
def Held.limit (t : Held) : ℕ := t.start + u16sub t.stop t.start

/-- The octets of the datagram that a queued fragment holds. -/
def Held.range (t : Held) : Finset ℕ := Finset.Ico t.start t.limit

/-- A queue in order: sorted by the starts, every fragment ends where the next one starts or before,
and no end has wrapped. -/
structure InOrder (q : List Held) : Prop where
  sorted : q.Pairwise fun a b => a.start < b.start
  apart : q.Pairwise fun a b => a.stop ≤ b.start
  unwrapped : ∀ t ∈ q, t.start ≤ t.stop

/-- One fragment is in order. -/
theorem InOrder.singleton {t : Held} (h : t.start ≤ t.stop) : InOrder [t] where
  sorted := List.pairwise_singleton _ _
  apart := List.pairwise_singleton _ _
  unwrapped := by
    intro t' ht
    rw [List.mem_singleton.mp ht]
    exact h

/-- The ranges of a queue in order are disjoint. -/
theorem InOrder.disjoint {q : List Held} (h : InOrder q) :
    q.Pairwise fun a b => Disjoint a.range b.range := by
  refine h.apart.imp_of_mem fun {a b} ha hb hab => ?_
  have hlt : a.limit ≤ b.start := by
    have hua := h.unwrapped a ha
    simp only [Held.limit, u16sub]
    omega
  rw [Finset.disjoint_left]
  intro x hxa hxb
  have hxa' := (Finset.mem_Ico.mp hxa).2
  have hxb' := (Finset.mem_Ico.mp hxb).1
  omega

/-- The new fragment ends before the front of the queue, if it goes there. -/
def ClearFront (iprh : Held) (q : List Held) : Prop :=
  ∀ t ∈ q.head?, iprh.start < t.start → iprh.stop ≤ t.start

instance (iprh : Held) (q : List Held) : Decidable (ClearFront iprh q) :=
  inferInstanceAs (Decidable (∀ t ∈ q.head?, _ → _))

/-- The strict order by the starts does not depend on the test for an overlap. -/
theorem sorted_queueWith {iprh : Held} {q : List Held}
    (h : q.Pairwise fun a b => a.start < b.start) (hq : Queued iprh q) :
    (queueWith iprh q).Pairwise fun a b => a.start < b.start := by
  have hbefore : ∀ a ∈ before iprh q, a.start < iprh.start := by
    intro a ha
    have hpass := List.mem_takeWhile_imp ha
    simp only [Held.passes, Bool.and_eq_true, decide_eq_true_eq] at hpass
    exact hpass.1
  rw [← before_append_behind iprh q, List.pairwise_append] at h
  obtain ⟨hl, hr, hlr⟩ := h
  have hbehind : ∀ b ∈ behind iprh q, iprh.start < b.start := by
    intro b hb
    cases hcut : behind iprh q with
    | nil =>
      rw [hcut] at hb
      cases hb
    | cons t rest =>
      have ht : iprh.start < t.start := (hq t (by rw [hcut]; rfl)).1
      rw [hcut] at hb hr
      rcases List.mem_cons.mp hb with rfl | hb
      · exact ht
      · exact ht.trans ((List.pairwise_cons.mp hr).1 b hb)
  rw [queueWith, List.pairwise_append, List.pairwise_cons]
  refine ⟨hl, ⟨hbehind, hr⟩, fun a ha b hb => ?_⟩
  rcases List.mem_cons.mp hb with rfl | hb
  · exact hbefore a ha
  · exact hlr a ha b hb

/-- A fragment that does not wrap and is clear of the front leaves the queue in order. -/
theorem InOrder.queueWith {iprh : Held} {q : List Held} (h : InOrder q) (hq : Queued iprh q)
    (hwrap : iprh.start ≤ iprh.stop) (hfront : ClearFront iprh q) : InOrder (queueWith iprh q) := by
  have hsplit := before_append_behind iprh q
  have hsorted := h.sorted
  have hapart := h.apart
  rw [← hsplit, List.pairwise_append] at hsorted hapart
  obtain ⟨hl, hr, hlr⟩ := hapart
  have hbehind : ∀ b ∈ behind iprh q, iprh.stop ≤ b.start := by
    intro b hb
    cases hcut : behind iprh q with
    | nil =>
      rw [hcut] at hb
      cases hb
    | cons t rest =>
      obtain ⟨hlt, hend⟩ := hq t (by rw [hcut]; rfl)
      have ht : iprh.stop ≤ t.start := by
        rcases hend with hnil | hle
        · -- The loop has passed nothing, so `t` is the front of the queue.
          apply hfront t _ hlt
          rw [← hsplit, hnil, hcut]
          rfl
        · exact hle
      rw [hcut] at hb hsorted
      rcases List.mem_cons.mp hb with rfl | hb
      · exact ht
      · exact ht.trans ((List.pairwise_cons.mp hsorted.2.1).1 b hb).le
  constructor
  · exact sorted_queueWith h.sorted hq
  · rw [Ip.queueWith, List.pairwise_append, List.pairwise_cons]
    refine ⟨hl, ⟨hbehind, hr⟩, fun a ha b hb => ?_⟩
    rcases List.mem_cons.mp hb with rfl | hb
    · exact stop_le_of_mem_before ha
    · exact hlr a ha b hb
  · intro t ht
    rw [Ip.queueWith, List.mem_append, List.mem_cons] at ht
    rcases ht with ht | rfl | ht
    · exact h.unwrapped t (hsplit ▸ List.mem_append_left _ ht)
    · exact hwrap
    · exact h.unwrapped t (hsplit ▸ List.mem_append_right _ ht)

/-! ## The queues after a fragment -/

/-- Where the queue of an entry comes from when the fragment `p` has been taken: it is an old queue,
the queue of the datagram of `p` with `p` in it, or `p` alone. -/
def QueueFrom (s : Reass) (p : Frag) (q : List Held) : Prop :=
  (∃ d ∈ s.datagrams, q = d.p) ∨
  (∃ own ∈ s.datagrams, own.isOf p.hdr = true ∧ heldPbufs own.p + p.clen ≤ IP_REASS_MAX_PBUFS ∧
    Queued p.held own.p ∧ q = queueWith p.held own.p) ∨
  q = [p.held]

/-- The timer does not touch the queues it keeps. -/
theorem exists_of_mem_aged {l : List ReassData} {d : ReassData} (h : d ∈ aged l) :
    ∃ d' ∈ l, d.p = d'.p := by
  obtain ⟨d', hd', rfl⟩ := List.mem_map.mp h
  exact ⟨d', List.mem_of_mem_filter hd', rfl⟩

/-- Every queue after a fragment comes from one before. -/
theorem ipReass_queues {s s' : Reass} {p : Frag} {out : Option Datagram} (h : Inv s)
    (hhl : p.hdr.hl * 4 = IP_HLEN) (hr : ipReass s p = .ok (s', out)) :
    ∀ d ∈ s'.datagrams, QueueFrom s p d.p := by
  intro d hd
  obtain hd | ⟨ipr, rfl | ⟨own, hown, hof, hfit, rfl⟩, hx⟩ := ipReass_entries h hhl hr d hd
  · exact .inl ⟨d, hd, rfl⟩
  · obtain ⟨hq, -⟩ | ⟨-, rfl⟩ := hx
    · -- Into an empty queue the fragment always goes.
      exact absurd (fun t ht => by cases ht) hq
    · exact .inr (.inr rfl)
  · rw [noteFirstHdr_p] at hx
    obtain ⟨-, rfl⟩ | ⟨hq, rfl⟩ := hx
    · exact .inl ⟨own, hown, by rw [noteLastFrag_p, noteFirstHdr_p]⟩
    · exact .inr (.inl ⟨own, hown, hof, hfit, hq, rfl⟩)

/-! ## The number of datagrams -/

section Length

variable {s s' : Reass}

/-- An entry that is taken out does not make the list longer. -/
theorem ipReassDequeueDatagram_length {l l' : List ReassData} {ipr : ℕ} {prev : Option ℕ}
    (hprev : prev.all (· + 1 = ipr)) (h : ipReassDequeueDatagram l ipr prev = .ok l') :
    l'.length ≤ l.length := by
  unfold ipReassDequeueDatagram at h
  split at h
  · cases h
    rw [List.length_tail]
    exact Nat.sub_le _ _
  · split at h
    · cases h
    · rename_i k
      cases h
      have hk : k + 1 = ipr := by simpa using hprev
      rw [List.length_append, List.length_take, List.length_drop]
      omega

/-- A datagram that is freed does not make the list longer. -/
theorem ipReassFreeCompleteDatagram_length {ipr freed : ℕ} {prev : Option ℕ}
    (h : ipReassFreeCompleteDatagram s ipr prev = .ok (s', freed)) :
    s'.datagrams.length ≤ s.datagrams.length := by
  unfold ipReassFreeCompleteDatagram at h
  obtain ⟨-, -, h⟩ := bind_eq_ok.mp h
  obtain ⟨u, hnext, h⟩ := bind_eq_ok.mp h
  split at h
  · cases h
  · obtain ⟨-, -, h⟩ := bind_eq_ok.mp h
    obtain ⟨l, hl, h⟩ := bind_eq_ok.mp h
    obtain ⟨-, -, h⟩ := bind_eq_ok.mp h
    cases h
    exact ipReassDequeueDatagram_length (lwipAssert_eq_ok.mp hnext) hl

/-- The loop that makes room does not make the list longer. -/
theorem removeOldestLoop_length {f : IpHdr} {needed n freed freed' : ℕ}
    (h : removeOldestLoop f needed n s freed = .ok (s', freed')) :
    s'.datagrams.length ≤ s.datagrams.length := by
  induction n generalizing s freed with
  | zero =>
    cases h
    exact le_rfl
  | succ n ih =>
    rw [removeOldestLoop] at h
    obtain ⟨⟨s₁, freed₁⟩, h₁, h⟩ := bind_eq_ok.mp h
    have hle : s₁.datagrams.length ≤ s.datagrams.length := by
      split at h₁
      · cases h₁
        exact le_rfl
      · exact ipReassFreeCompleteDatagram_length h₁
    split at h
    · exact (ih h).trans hle
    · cases h
      exact hle

/-- A fragment in its datagram does not make the list longer. -/
theorem ipReassInto_length {i : ℕ} {prev : Option ℕ} {ipr : ReassData} {p : Frag}
    {out : Option Datagram} (hprev : prev.all (· + 1 = i))
    (h : ipReassInto s i prev ipr p = .ok (s', out)) :
    s'.datagrams.length ≤ s.datagrams.length := by
  unfold ipReassInto at h
  obtain ⟨x, -, h⟩ := bind_eq_ok.mp h
  match x, h with
  | none, h =>
    cases h
    exact (List.length_set ..).le
  | some (q, false), h =>
    cases h
    exact (List.length_set ..).le
  | some (q, true), h =>
    obtain ⟨l, hl, h⟩ := bind_eq_ok.mp h
    cases h
    exact ipReassDequeueDatagram_length hprev hl

/-- A new entry is taken only from a pool that is not empty. -/
theorem ipReassEnqueueNewDatagram_length {f : IpHdr} {clen : ℕ} {ipr : Option ReassData}
    (hs : s.datagrams.length ≤ MEMP_NUM_REASSDATA)
    (h : ipReassEnqueueNewDatagram s f clen = .ok (s', ipr)) :
    s'.datagrams.length ≤ MEMP_NUM_REASSDATA := by
  unfold ipReassEnqueueNewDatagram at h
  split at h
  · cases h
    rename_i hlt
    exact hlt
  · obtain ⟨⟨s₁, freed⟩, h₁, h⟩ := bind_eq_ok.mp h
    have hle := removeOldestLoop_length h₁
    split at h
    · cases h
      rename_i hgot
      exact hgot.2
    · cases h
      exact hle.trans hs

/-- The list is not longer than its pool. -/
theorem ipReassFind_length {p : Frag} {out : Option Datagram}
    (hs : s.datagrams.length ≤ MEMP_NUM_REASSDATA) (h : ipReassFind s p = .ok (s', out)) :
    s'.datagrams.length ≤ MEMP_NUM_REASSDATA := by
  unfold ipReassFind at h
  split at h
  · obtain ⟨⟨s₁, ipr⟩, h₁, h⟩ := bind_eq_ok.mp h
    have hle := ipReassEnqueueNewDatagram_length hs h₁
    split at h
    · cases h
      exact hle
    · exact (ipReassInto_length (by rfl) h).trans hle
  · rename_i i _
    split at h
    · cases h
    · have hprev : (if i = 0 then none else some (i - 1) : Option ℕ).all (· + 1 = i) := by
        split
        · rfl
        · rw [Option.all_some, decide_eq_true_eq]
          omega
      exact (ipReassInto_length hprev h).trans hs

/-- There are never more datagrams than the pool has entries. -/
theorem ipReass_length {p : Frag} {out : Option Datagram}
    (hs : s.datagrams.length ≤ MEMP_NUM_REASSDATA) (h : ipReass s p = .ok (s', out)) :
    s'.datagrams.length ≤ MEMP_NUM_REASSDATA := by
  unfold ipReass at h
  split at h
  · cases h
    exact hs
  · split at h
    · obtain ⟨⟨s₁, freed⟩, h₁, h⟩ := bind_eq_ok.mp h
      have hle : s₁.datagrams.length ≤ MEMP_NUM_REASSDATA := (removeOldestLoop_length h₁).trans hs
      split at h
      · cases h
        exact hle
      · exact ipReassFind_length hle h
    · exact ipReassFind_length hs h

end Length

/-! ## Runs -/

/-- A fragment without options whose total length covers its header. -/
def Frag.WithHeader (p : Frag) : Prop := p.hdr.hl * 4 = IP_HLEN ∧ IP_HLEN ≤ p.hdr.len.toNat

instance (p : Frag) : Decidable p.WithHeader := inferInstanceAs (Decidable (_ ∧ _))

/-- The fragments among the events have such a header. -/
def Event.WithHeader : Event → Prop
  | .frag p => p.WithHeader
  | .tick => True

instance : (e : Event) → Decidable e.WithHeader
  | .frag p => inferInstanceAs (Decidable p.WithHeader)
  | .tick => inferInstanceAs (Decidable True)

/-- The books of reassembly are right. -/
structure Booked (s : Reass) : Prop where
  /-- The counter counts the pbufs in the queues. -/
  count : s.pbufcount = pbufs s.datagrams
  le_max : s.pbufcount ≤ IP_REASS_MAX_PBUFS
  held : ∀ d ∈ s.datagrams, d.p ≠ []
  sorted : ∀ d ∈ s.datagrams, d.p.Pairwise fun a b => a.start < b.start
  disjoint : ∀ d ∈ s.datagrams, d.p.Pairwise fun a b => Disjoint a.range b.range
  /-- No two datagrams have the same addresses and identification. -/
  keys : s.datagrams.Pairwise fun a b => a.isOf b.iphdr = false
  length_le : s.datagrams.length ≤ MEMP_NUM_REASSDATA

/-- The fragment does not end beyond the last octet of the largest datagram, and when its datagram
has room for it and holds only fragments that start later, it does not reach into the first of
them. -/
def NoOverlap (s : Reass) : Event → Prop
  | .frag p => p.hdr.fragOffset + p.hdr.fragLen < 2^16 ∧
      ∀ own ∈ s.datagrams, own.isOf p.hdr = true →
        heldPbufs own.p + p.clen ≤ IP_REASS_MAX_PBUFS → ClearFront p.held own.p
  | .tick => True

instance (s : Reass) : (e : Event) → Decidable (NoOverlap s e)
  | .frag _ => inferInstanceAs (Decidable (_ ∧ ∀ own ∈ s.datagrams, _ → _ → _))
  | .tick => inferInstanceAs (Decidable True)

/-- What every step keeps, whatever the fragments are. -/
structure Kept (s : Reass) : Prop extends Inv s where
  sorted : ∀ d ∈ s.datagrams, d.p.Pairwise fun a b => a.start < b.start
  length_le : s.datagrams.length ≤ MEMP_NUM_REASSDATA

/-- What every step keeps while no fragment overlaps. -/
structure Ranged (s : Reass) : Prop extends Kept s where
  inOrder : ∀ d ∈ s.datagrams, InOrder d.p

/-- At first nothing is queued. -/
theorem Ranged.empty : Ranged {} where
  toInv := .empty
  sorted _ hd := (List.not_mem_nil hd).elim
  length_le := Nat.zero_le _
  inOrder _ hd := (List.not_mem_nil hd).elim

/-- Where the ranges are right the books are. -/
theorem Ranged.booked {s : Reass} (h : Ranged s) : Booked s where
  count := h.count
  le_max := h.le_max
  held := h.wf.held
  sorted := h.sorted
  disjoint d hd := (h.inOrder d hd).disjoint
  keys := h.wf.keys
  length_le := h.length_le

/-- Every step keeps the books. -/
theorem Kept.step {s s' : Reass} {e : Event} (h : Kept s) (he : e.WithHeader)
    (hr : reassStep s e = .ok s') : Kept s' := by
  cases e with
  | frag p =>
    obtain ⟨x, hx, hr⟩ := bind_eq_ok.mp hr
    cases hr
    refine ⟨ipReass_inv h.toInv he.1 hx, fun d hd => ?_, ipReass_length h.length_le hx⟩
    obtain ⟨d₀, hd₀, hq⟩ | ⟨own, hown, -, -, hin, hq⟩ | hq :=
      ipReass_queues h.toInv he.1 hx d hd
    · rw [hq]
      exact h.sorted d₀ hd₀
    · rw [hq]
      exact sorted_queueWith (h.sorted own hown) hin
    · rw [hq]
      exact List.pairwise_singleton _ _
  | tick =>
    obtain ⟨s₁, hs₁, hl, hinv⟩ := ipReassTmr_ok h.toInv
    obtain rfl : s₁ = s' := Except.ok.inj (hs₁.symm.trans hr)
    refine ⟨hinv, fun d hd => ?_, ?_⟩
    · obtain ⟨d', hd', hq⟩ := exists_of_mem_aged (hl ▸ hd)
      rw [hq]
      exact h.sorted d' hd'
    · rw [hl, aged, List.length_map]
      exact (List.length_filter_le _ _).trans h.length_le

/-- A step without an overlap keeps the ranges disjoint. -/
theorem Ranged.step {s s' : Reass} {e : Event} (h : Ranged s) (he : e.WithHeader)
    (hno : NoOverlap s e) (hr : reassStep s e = .ok s') : Ranged s' := by
  refine ⟨h.toKept.step he hr, fun d hd => ?_⟩
  cases e with
  | frag p =>
    obtain ⟨x, hx, hr⟩ := bind_eq_ok.mp hr
    cases hr
    have hwrap : p.held.start ≤ p.held.stop := by
      have hlt := hno.1
      simp only [Frag.held, u16]
      omega
    obtain ⟨d₀, hd₀, hq⟩ | ⟨own, hown, hof, hfit, hin, hq⟩ | hq :=
      ipReass_queues h.toInv he.1 hx d hd
    · rw [hq]
      exact h.inOrder d₀ hd₀
    · rw [hq]
      exact (h.inOrder own hown).queueWith hin hwrap (hno.2 own hown hof hfit)
    · rw [hq]
      exact .singleton hwrap
  | tick =>
    obtain ⟨s₁, hs₁, hl, -⟩ := ipReassTmr_ok h.toInv
    obtain rfl : s₁ = s' := Except.ok.inj (hs₁.symm.trans hr)
    obtain ⟨d', hd', hq⟩ := exists_of_mem_aged (hl ▸ hd)
    rw [hq]
    exact h.inOrder d' hd'

/-- In every run in which no fragment overlaps where the code does not look, the books are right in
every state. -/
theorem reass_booked (es : List Event) (he : ∀ e ∈ es, e.WithHeader)
    (hno : Along reassStep NoOverlap {} es) : Always reassStep Booked {} es := by
  intro es' es'' s' hes hr
  subst hes
  have hwith : Along reassStep (fun _ e => Event.WithHeader e) {} es' :=
    Along.of_forall _ fun e h => he e (List.mem_append_left _ h)
  have hranged : Ranged s' :=
    run_invariant (fun _ _ _ hs hC hr => Ranged.step hs hC.1 hC.2 hr) Ranged.empty
      (hwith.and hno.left) hr
  exact hranged.booked

/-- `swappedRun` has no overlap. -/
theorem reass_booked_swappedRun : Always reassStep Booked {} swappedRun :=
  reass_booked swappedRun (by decide +kernel) (by decide +kernel)

/-- A fragment from octet 8 on, and one from octet 0 to octet 16. -/
def overFrontRun : List Event :=
  [.frag (udpFrag 1 1 true [8, 9, 10, 11, 12, 13, 14, 15] 1),
    .frag (udpFrag 1 0 true [0, 1, 2, 3, 4, 5, 6, 7, 8, 9, 10, 11, 12, 13, 14, 15] 1)]

/-- Both are queued, without an assertion. -/
theorem overFrontRun_overlaps :
    (∀ e ∈ overFrontRun, e.WithHeader) ∧
    ∃ s, run reassStep {} overFrontRun = .ok s ∧ ¬Booked s := by
  refine ⟨by decide +kernel, ?_⟩
  obtain ⟨s, hrun, d, hd, hnot⟩ : ∃ s, run reassStep {} overFrontRun = .ok s ∧
      ∃ d ∈ s.datagrams, ¬d.p.Pairwise fun a b => Disjoint a.range b.range :=
    exists_of_any (by decide +kernel)
  exact ⟨s, hrun, fun hb => hnot (hb.disjoint d hd)⟩

end Lwip.Ip
