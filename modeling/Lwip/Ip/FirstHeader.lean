import Lwip.Ip.Safety

/-!
# Whose header a datagram keeps

`ip_reass` keeps one header for a datagram, and copies it back to the first fragment of the queue,
for an ICMP message if that starts the datagram, or for the datagram when it is complete. A fragment
at the offset zero is queued if there is none yet, and the header is replaced by its own then. So it
is its own header that the fragment gets back (`run_firstKnown`), in every run, whatever the
fragments are.
-/

namespace Lwip.Ip

/-- The entry has the header of the fragment that starts the datagram, if it has that fragment. -/
structure FirstKnown (es : List Event) (d : ReassData) : Prop where
  own : ∀ t ∈ d.p.head?, t.start = 0 → ∃ p, Event.frag p ∈ es ∧ p.held = t ∧ p.hdr = d.iphdr
  queued : d.iphdr.offBits = 0 → ∃ t ∈ d.p.head?, t.start = 0

/-- The offset is 0 if its bits are. -/
theorem IpHdr.fragOffset_eq_zero_iff (h : IpHdr) : h.fragOffset = 0 ↔ h.offBits = 0 := by
  rw [fragOffset, ← BitVec.toNat_inj, Nat.mul_eq_zero]
  exact or_iff_left (by decide)

/-- What is known stays known as more fragments come. -/
theorem FirstKnown.mono {es es' : List Event} {d : ReassData} (h : FirstKnown es d)
    (hs : es ⊆ es') : FirstKnown es' d where
  own t ht h₀ := by
    obtain ⟨p, hp, hheld⟩ := h.own t ht h₀
    exact ⟨p, hs hp, hheld⟩
  queued := h.queued

section Entry

variable {es : List Event} {iprh t : Held} {q : List Held} {p : Frag} {ipr own : ReassData}

/-- The loop stops at once with a fragment that starts the datagram. -/
theorem cut_of_start (h : iprh.start = 0) (q : List Held) :
    before iprh q = [] ∧ behind iprh q = q := by
  have hpass : ∀ t, iprh.passes t = false := by
    intro t
    rw [Held.passes, h, decide_eq_false (Nat.not_lt_zero _), Bool.false_and]
  cases q with
  | nil => exact ⟨rfl, rfl⟩
  | cons t q =>
    have hneg : ¬ iprh.passes t = true := by rw [hpass]; exact Bool.false_ne_true
    exact ⟨List.takeWhile_cons_of_neg hneg, List.dropWhile_cons_of_neg hneg⟩

/-- It is queued if there is none. -/
theorem queued_of_start (h : iprh.start = 0) : Queued iprh q ↔ ∀ t ∈ q.head?, t.start ≠ 0 := by
  obtain ⟨hbefore, hbehind⟩ := cut_of_start h q
  rw [Queued, hbefore, hbehind, h]
  refine forall₂_congr fun t _ => ?_
  rw [and_iff_left (.inl rfl), Nat.pos_iff_ne_zero]

/-- Another fragment does not come in front of it. -/
theorem head_queueWith (h : iprh.start ≠ 0) (ht : t ∈ (queueWith iprh q).head?)
    (h₀ : t.start = 0) : t ∈ q.head? := by
  rw [queueWith] at ht
  cases hb : before iprh q with
  | nil =>
    rw [hb] at ht
    obtain rfl := Option.some_inj.mp ht
    exact absurd h₀ h
  | cons a l =>
    rw [hb] at ht
    rw [← before_append_behind iprh q, hb]
    exact ht

/-- The first fragment stays in front of others. -/
theorem head_queueWith_of_head (hq : Queued iprh q) (ht : t ∈ q.head?)
    (h₀ : t.start = 0) : t ∈ (queueWith iprh q).head? := by
  rw [queueWith]
  cases hb : before iprh q with
  | nil =>
    -- The loop has stopped at `t`, which starts later then.
    have hcut := before_append_behind iprh q
    rw [hb, List.nil_append] at hcut
    have hlt := (hq t (by rwa [hcut])).1
    omega
  | cons a l =>
    rw [← before_append_behind iprh q, hb] at ht
    exact ht

/-- The header is replaced if there is no such fragment. -/
theorem noteFirstHdr_iphdr (hown : FirstKnown es own) (p : Frag) :
    (noteFirstHdr own p).iphdr =
      if p.held.start = 0 ∧ ∀ t ∈ own.p.head?, t.start ≠ 0 then p.hdr else own.iphdr := by
  have hstart : p.held.start = 0 ↔ p.hdr.offBits = 0 := p.hdr.fragOffset_eq_zero_iff
  have hfirst : own.iphdr.offBits ≠ 0 ↔ ∀ t ∈ own.p.head?, t.start ≠ 0 := by
    constructor
    · intro hne t ht h₀
      obtain ⟨f, -, hheld, hhdr⟩ := hown.own t ht h₀
      rw [← hheld] at h₀
      rw [← hhdr] at hne
      exact hne (f.hdr.fragOffset_eq_zero_iff.mp h₀)
    · intro hall hzero
      obtain ⟨t, ht, h₀⟩ := hown.queued hzero
      exact hall t ht h₀
  rw [noteFirstHdr]
  split
  · next h => rw [if_pos ⟨hstart.mpr h.1, hfirst.mp h.2⟩]
  · next h => rw [if_neg fun h' => h ⟨hstart.mp h'.1, hfirst.mpr h'.2⟩]

/-- A new entry takes the header of its first fragment. -/
theorem FirstKnown.new (p : Frag) (hp : Event.frag p ∈ es) :
    FirstKnown es { noteLastFrag (newDatagram p.hdr) p with p := [p.held] } where
  own t ht h₀ := by
    obtain rfl := Option.some_inj.mp ht
    exact ⟨p, hp, rfl, (noteLastFrag_iphdr (newDatagram p.hdr) p).symm⟩
  queued hzero := by
    refine ⟨p.held, rfl, p.hdr.fragOffset_eq_zero_iff.mpr ?_⟩
    dsimp only at hzero
    rwa [noteLastFrag_iphdr] at hzero

/-- The fragment is thrown away, so it is not the first. -/
theorem FirstKnown.thrown (hown : FirstKnown es own) (hq : ¬Queued p.held own.p) :
    FirstKnown es (noteLastFrag (noteFirstHdr own p) p) := by
  have hhdr : (noteLastFrag (noteFirstHdr own p) p).iphdr = own.iphdr := by
    rw [noteLastFrag_iphdr, noteFirstHdr_iphdr hown, if_neg]
    rintro ⟨hstart, hall⟩
    exact hq ((queued_of_start hstart).mpr hall)
  have hp : (noteLastFrag (noteFirstHdr own p) p).p = own.p := by
    rw [noteLastFrag_p, noteFirstHdr_p]
  refine ⟨?_, ?_⟩
  · rw [hp, hhdr]
    exact hown.own
  · rw [hp, hhdr]
    exact hown.queued

/-- The fragment is queued, in front if it is the first. -/
theorem FirstKnown.kept (hown : FirstKnown es own) (hp : Event.frag p ∈ es)
    (hq : Queued p.held own.p) :
    FirstKnown es { noteLastFrag (noteFirstHdr own p) p with p := queueWith p.held own.p } := by
  have hhdr : (noteLastFrag (noteFirstHdr own p) p).iphdr =
      if p.held.start = 0 ∧ ∀ t ∈ own.p.head?, t.start ≠ 0 then p.hdr else own.iphdr := by
    rw [noteLastFrag_iphdr, noteFirstHdr_iphdr hown]
  by_cases hstart : p.held.start = 0
  · -- The fragment comes in front, with its own header.
    obtain ⟨hbefore, hbehind⟩ := cut_of_start hstart own.p
    rw [if_pos ⟨hstart, (queued_of_start hstart).mp hq⟩] at hhdr
    have hhead : (queueWith p.held own.p).head? = some p.held := by
      rw [queueWith, hbefore]
      rfl
    refine ⟨fun t ht h₀ => ?_, fun _ => ⟨p.held, hhead, hstart⟩⟩
    obtain rfl := Option.some_inj.mp (hhead.symm.trans ht)
    exact ⟨p, hp, rfl, hhdr.symm⟩
  · -- The front stays what it is, or starts later than at zero.
    rw [if_neg fun h => hstart h.1] at hhdr
    refine ⟨fun t ht h₀ => ?_, fun hzero => ?_⟩
    · dsimp only
      rw [hhdr]
      exact hown.own t (head_queueWith hstart ht h₀) h₀
    · dsimp only at hzero
      rw [hhdr] at hzero
      obtain ⟨t, ht, h₀⟩ := hown.queued hzero
      exact ⟨t, head_queueWith_of_head hq ht h₀, h₀⟩

/-- A fragment keeps what is known of the entries. -/
theorem firstKnown_frag {s s' : Reass} {out : Option Datagram} (h : Inv s)
    (hs : ∀ d ∈ s.datagrams, FirstKnown es d) (hhl : p.hdr.hl * 4 = IP_HLEN)
    (hr : ipReass s p = .ok (s', out)) : ∀ d ∈ s'.datagrams, FirstKnown (es ++ [.frag p]) d := by
  have hsub : es ⊆ es ++ [.frag p] := List.subset_append_left _ _
  have hp : Event.frag p ∈ es ++ [.frag p] := List.mem_append_right _ List.mem_cons_self
  intro d hd
  obtain hd | ⟨ipr, rfl | ⟨own, hmem, -, -, rfl⟩, hcases⟩ := ipReass_entries h hhl hr d hd
  · exact (hs d hd).mono hsub
  · obtain ⟨hq, -⟩ | ⟨-, rfl⟩ := hcases
    · exact absurd (fun t ht => by cases ht) hq
    · exact .new p hp
  · have hown := (hs own hmem).mono hsub
    rw [noteFirstHdr_p] at hcases
    obtain ⟨hq, rfl⟩ | ⟨hq, rfl⟩ := hcases
    · exact hown.thrown hq
    · exact hown.kept hp hq

end Entry

/-- In every run, the header of a datagram is that of the fragment that starts it. -/
theorem run_firstKnown {es : List Event} {s : Reass} (hr : run reassStep {} es = .ok s) :
    Inv s ∧ ∀ d ∈ s.datagrams, FirstKnown es d := by
  induction es using List.reverseRecOn generalizing s with
  | nil =>
    cases hr
    exact ⟨Inv.empty, fun d hd => (List.not_mem_nil hd).elim⟩
  | append_singleton es e ih =>
    rw [run_append] at hr
    obtain ⟨s₁, hs₁, hr⟩ := bind_eq_ok.mp hr
    obtain ⟨s₂, hs₂, hr⟩ := bind_eq_ok.mp hr
    cases hr
    obtain ⟨hinv, hent⟩ := ih hs₁
    cases e with
    | frag p =>
      obtain ⟨⟨s₃, out⟩, hx, hr⟩ := bind_eq_ok.mp hs₂
      cases hr
      by_cases hhl : p.hdr.hl * 4 = IP_HLEN
      · exact ⟨ipReass_inv hinv hhl hx, firstKnown_frag hinv hent hhl hx⟩
      · -- Fragments with options are dropped.
        rw [ipReass, if_pos hhl] at hx
        cases hx
        exact ⟨hinv, fun d hd => (hent d hd).mono (List.subset_append_left _ _)⟩
    | tick =>
      obtain ⟨s₃, hs₃, haged, hinv'⟩ := ipReassTmr_ok hinv
      rw [reassStep, hs₃] at hs₂
      cases hs₂
      refine ⟨hinv', fun d hd => ?_⟩
      rw [haged] at hd
      obtain ⟨d', hd', rfl⟩ := List.mem_map.mp hd
      have hold := (hent d' (List.mem_of_mem_filter hd')).mono (List.subset_append_left es [.tick])
      exact ⟨hold.own, hold.queued⟩

end Lwip.Ip
