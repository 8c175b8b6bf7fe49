import Lwip.Ip.Step

/-!
# When reassembly runs into an assertion

The reassembly code as a machine that is fed with fragments and ticks of the timer. Two of its
assertions can be reached by fragments that `ip_input` lets through:

* `prev != ipr`, when a datagram has to be thrown away to make room and the datagram of the fragment
  itself is the oldest one that is left;
* `validate_datagram:datagram end!=datagram len`, when the fragments of a datagram do not agree on
  where it ends.

The others are never reached, and these two are reached by exactly the fragments that do not meet
`RoomOk` and `EndOk`.
-/

namespace Lwip.Ip

/-- What can happen to the reassembly code. -/
inductive Event where
  /-- `ip_input` passes a fragment to `ip_reass`. -/
  | frag (p : Frag)
  /-- `ip_reass_tmr` is called. -/
  | tick
  deriving DecidableEq, Repr

/-- The state after an event. -/
def reassStep (s : Reass) : Event → Except Abort Reass
  | .frag p => ipReass s p >>= fun x => .ok x.1
  | .tick => ipReassTmr s

/-- A packet that `ip_input` passes to `ip_reass`: the pbufs are trimmed to the total length of the
header, and the packet is a fragment. Headers with options are left out, `ip_reass` drops them. -/
def FromInput (p : Frag) : Prop :=
  p.hdr.hl * 4 = IP_HLEN ∧ p.payload.length + IP_HLEN = p.hdr.len.toNat ∧
    p.hdr.offset &&& (IP_OFFMASK ||| IP_MF) ≠ 0

instance (p : Frag) : Decidable (FromInput p) := inferInstanceAs (Decidable (_ ∧ _ ∧ _))

/-- The fragments among the events are from `ip_input`. -/
def Event.FromInput : Event → Prop
  | .frag p => Ip.FromInput p
  | .tick => True

instance : (e : Event) → Decidable e.FromInput
  | .frag p => inferInstanceAs (Decidable (Ip.FromInput p))
  | .tick => inferInstanceAs (Decidable True)

/-- A fragment that starts its datagram is not the last one. -/
theorem FromInput.lastFrag_eq_false {p : Frag} (h : FromInput p) (h₀ : p.hdr.fragOffset = 0) :
    p.hdr.lastFrag = false := by
  have hoff : p.hdr.offset &&& IP_OFFMASK = 0 := by
    apply BitVec.eq_of_toNat_eq
    rw [IpHdr.fragOffset, IpHdr.offBits] at h₀
    change _ = 0
    omega
  rw [IpHdr.lastFrag, decide_eq_false_iff_not]
  intro hmf
  apply h.2.2
  rw [BitVec.and_or_distrib_left, hoff, hmf]
  rfl

/-! ## The timer -/

/-- The list is as well-formed when it gets older. -/
theorem Wf.aged {l : List ReassData} (h : Wf l) : Wf (aged l) := by
  have hf := h.sublist (List.filter_sublist (p := fun d : ReassData => decide (0 < d.timer)))
  refine ⟨List.pairwise_map.mpr hf.keys, List.pairwise_map.mpr (hf.timers.imp ?_), ?_, ?_⟩
  · intro a b hab
    dsimp only
    omega
  · intro d hd
    obtain ⟨d', hd', rfl⟩ := List.mem_map.mp hd
    exact (Nat.sub_le _ _).trans (hf.timer_le d' hd')
  · intro d hd
    obtain ⟨d', hd', rfl⟩ := List.mem_map.mp hd
    exact hf.held d' hd'

/-- The timer does not run into an assertion. -/
theorem ipReassTmr_ok {s : Reass} (h : Inv s) :
    ∃ s', ipReassTmr s = .ok s' ∧ s'.datagrams = aged s.datagrams ∧ Inv s' := by
  obtain ⟨freed, hsum, hloop⟩ := tmrLoop_eq [] s.datagrams s.pbufcount h.wf.held h.count.ge
  refine ⟨_, hloop, rfl, h.wf.aged, ?_, ?_⟩
  · have hcount := h.count
    dsimp only [List.nil_append]
    omega
  · exact (Nat.sub_le _ _).trans h.le_max

/-! ## The fragments -/

/-- The end of the datagram as known after the fragment `p`: that of the fragment if it is a last
one, otherwise that of the last fragment before. -/
def announcedLen (d : ReassData) (p : Frag) : ℕ :=
  if p.hdr.lastFrag then p.held.stop else d.datagram_len

/-- When the fragment fits and completes the queue of its datagram, the queue ends where the
datagram is known to end. -/
def EndOk (s : Reass) (p : Frag) : Prop :=
  ∀ own ∈ s.datagrams, own.isOf p.hdr = true → heldPbufs own.p + p.clen ≤ IP_REASS_MAX_PBUFS →
    Queued p.held own.p → Passes (noteLastFrag own p) p.held →
    (lastWith p.held own.p).stop = announcedLen own p

instance (s : Reass) (p : Frag) : Decidable (EndOk s p) :=
  inferInstanceAs (Decidable (∀ own ∈ s.datagrams, _ → _ → _ → _ → _))

/-- The length of the datagram is the one announced. -/
theorem noteLastFrag_datagram_len (d : ReassData) (p : Frag) :
    (noteLastFrag d p).datagram_len = announcedLen d p := by
  unfold noteLastFrag announcedLen
  split <;> rfl

/-- The last fragment is known when it comes. -/
theorem noteLastFrag_lastfrag (d : ReassData) (p : Frag) :
    (noteLastFrag d p).lastfrag = (d.lastfrag || p.hdr.lastFrag) := by
  unfold noteLastFrag
  split <;> simp_all

/-- The header of an entry has no part in the completeness test. -/
theorem passes_congr {d d' : ReassData} {iprh : Held} (hp : d.p = d'.p)
    (hl : d.lastfrag = d'.lastfrag) : Passes d iprh ↔ Passes d' iprh := by
  rw [Passes, Passes, hp, hl]

/-- An entry takes a fragment without an assertion if and only if the queue it completes ends where
the datagram ends. -/
theorem ipReassInto_isOk_iff (A C : List ReassData) (d ipr : ReassData) (cnt : ℕ) (p : Frag) :
    (∃ r, ipReassInto ⟨A ++ d :: C, cnt⟩ A.length (predIdx A.length) ipr p = .ok r) ↔
      (Queued p.held ipr.p → Passes (noteLastFrag ipr p) p.held →
        ipr.p ≠ [] ∧ (lastWith p.held ipr.p).stop = announcedLen ipr p) := by
  have hiff := chain_isOk_iff (noteLastFrag ipr p) p.held
  rw [noteLastFrag_p, noteLastFrag_datagram_len] at hiff
  rw [← hiff, ipReassInto_eq]
  constructor
  · rintro ⟨r, hr⟩
    obtain ⟨x, hx, -⟩ := bind_eq_ok.mp hr
    exact ⟨x, hx⟩
  · rintro ⟨x, hx⟩
    rw [hx]
    exact ⟨_, rfl⟩

/-- A fragment is taken without an assertion if and only if it meets the two conditions. -/
theorem ipReass_isOk_iff {s : Reass} {p : Frag} (h : Inv s) (hp : FromInput p) :
    (∃ r, ipReass s p = .ok r) ↔ RoomOk s p ∧ EndOk s p := by
  by_cases hroom : RoomOk s p
  · rw [and_iff_right hroom]
    have hloc := ipReass_located h hp.1 hroom
    generalize ipReass s p = r at hloc ⊢
    cases hloc with
    | dropped inv sub full =>
      refine ⟨fun _ own hown hof hle => ?_, fun _ => ⟨_, rfl⟩⟩
      exact absurd (full own hown hof) (by omega)
    | @queued A C own cnt target isOf sub =>
      have hmem : own ∈ s.datagrams := sub.subset (by simp)
      have hcongr : Passes (noteLastFrag (noteFirstHdr own p) p) p.held ↔
          Passes (noteLastFrag own p) p.held :=
        passes_congr (by simp) (by simp [noteLastFrag_lastfrag])
      have hlen : announcedLen (noteFirstHdr own p) p = announcedLen own p := by
        simp [announcedLen]
      rw [ipReassInto_isOk_iff, noteFirstHdr_p, hcongr, hlen]
      constructor
      · intro hend own' hown' hof' _ hq hpass
        rw [h.wf.eq_of_isOf hown' hmem hof' isOf] at hq hpass ⊢
        exact (hend hq hpass).2
      · intro hend hq hpass
        have hfit : heldPbufs own.p + p.clen ≤ IP_REASS_MAX_PBUFS := by
          have hcount := target.count
          rw [noteFirstHdr_p] at hcount
          exact le_trans (by omega) target.room
        exact ⟨h.wf.held own hmem, hend own hmem isOf hfit hq hpass⟩
    | created target sub none =>
      -- A single fragment is not complete: it starts the datagram or ends it.
      rw [ipReassInto_isOk_iff]
      refine iff_of_true ?_ fun own hown hof => ?_
      · rintro - ⟨hlast, -, -, -, hfirst⟩
        rw [noteLastFrag_p] at hfirst
        have hstart : p.hdr.fragOffset = 0 := hfirst p.held rfl
        rw [noteLastFrag_lastfrag, hp.lastFrag_eq_false hstart] at hlast
        cases hlast
      · rw [none own hown] at hof
        cases hof
  · rw [ipReass_abort h hp.1 hroom]
    exact iff_of_false (fun ⟨r, hr⟩ => nomatch hr) fun hand => hroom hand.1

/-! ## Runs -/

/-- Every step keeps the invariant. -/
theorem reassStep_inv {s s' : Reass} {e : Event} (h : Inv s) (he : e.FromInput)
    (hr : reassStep s e = .ok s') : Inv s' := by
  cases e with
  | frag p =>
    obtain ⟨x, hx, hr⟩ := bind_eq_ok.mp hr
    cases hr
    exact ipReass_inv h he.1 hx
  | tick =>
    obtain ⟨s₁, hs₁, -, hinv⟩ := ipReassTmr_ok h
    rw [reassStep, hs₁] at hr
    cases hr
    exact hinv

/-- The event meets the two conditions, if it is a fragment. -/
def Event.Sound (s : Reass) : Event → Prop
  | .frag p => RoomOk s p ∧ EndOk s p
  | .tick => True

instance (s : Reass) : (e : Event) → Decidable (e.Sound s)
  | .frag p => inferInstanceAs (Decidable (RoomOk s p ∧ EndOk s p))
  | .tick => inferInstanceAs (Decidable True)

/-- A step does not abort exactly if it is sound. -/
theorem reassStep_isOk_iff {s : Reass} {e : Event} (h : Inv s) (he : e.FromInput) :
    (∃ s', reassStep s e = .ok s') ↔ e.Sound s := by
  cases e with
  | frag p =>
    rw [Event.Sound, ← ipReass_isOk_iff h he]
    constructor
    · rintro ⟨s', hr⟩
      obtain ⟨x, hx, -⟩ := bind_eq_ok.mp hr
      exact ⟨x, hx⟩
    · rintro ⟨x, hx⟩
      exact ⟨x.1, by rw [reassStep, hx]; rfl⟩
  | tick =>
    obtain ⟨s₁, hs₁, -⟩ := ipReassTmr_ok h
    exact iff_of_true ⟨s₁, hs₁⟩ trivial

/-- No assertion fails in a run if and only if its fragments all meet the two conditions. -/
theorem reass_no_abort_iff (es : List Event) (h : ∀ e ∈ es, e.FromInput) :
    (∃ s, run reassStep {} es = .ok s) ↔ Along reassStep (fun s e => e.Sound s) {} es :=
  run_isOk_iff (fun _ _ _ hs he hr => reassStep_inv hs he hr)
    (fun _ _ hs he => reassStep_isOk_iff hs he) Inv.empty (Along.of_forall _ h)

/-- A fragment of the datagram `id` from 10.0.0.1 to 10.0.0.2, with its offset in units of eight
octets. -/
def udpFrag (id off : ℕ) (mf : Bool) (payload : List UInt8) (clen : ℕ) : Frag :=
  let hdr : IpHdr :=
    { v_hl_tos := 0x4500, len := BitVec.ofNat 16 (20 + payload.length), id := BitVec.ofNat 16 id,
      offset := BitVec.ofNat 16 (off + if mf then 0x2000 else 0), ttl_proto := 0x4011,
      chksum := 0#16, src := 0x0a000001, dest := 0x0a000002 }
  ⟨{ hdr with chksum := inetChksum hdr.octets }, payload, clen⟩

/-- Two fragments in the wrong order and a tick between them. -/
def swappedRun : List Event :=
  [.frag (udpFrag 1 1 false [8, 9, 10, 11] 1), .tick,
    .frag (udpFrag 1 0 true [0, 1, 2, 3, 4, 5, 6, 7] 1)]

/-- Two fragments in the wrong order do not abort. -/
theorem reass_no_abort_iff_swappedRun :
    (∀ e ∈ swappedRun, e.FromInput) ∧ ∃ s, run reassStep {} swappedRun = .ok s :=
  ⟨by decide +kernel, (reass_no_abort_iff swappedRun (by decide +kernel)).mpr (by decide +kernel)⟩

/-- A last fragment, a fragment behind it and the first fragment. -/
def behindLastRun : List Event :=
  [.frag (udpFrag 1 2 false [0, 0, 0, 0, 0, 0, 0, 0] 1),
    .frag (udpFrag 1 3 true [0, 0, 0, 0, 0, 0, 0, 0] 1),
    .frag (udpFrag 1 0 true [0, 0, 0, 0, 0, 0, 0, 0, 0, 0, 0, 0, 0, 0, 0, 0] 1)]

/-- A fragment of one datagram, a fragment of a second one, and another of the first when all pbufs
are in use. -/
def ownOldestRun : List Event :=
  [.frag (udpFrag 1 0 true [0, 0, 0, 0, 0, 0, 0, 0] 5),
    .frag (udpFrag 2 0 true [0, 0, 0, 0, 0, 0, 0, 0] 5),
    .frag (udpFrag 1 1 true [0, 0, 0, 0, 0, 0, 0, 0] 1)]

/-- Both assertions are reached. -/
theorem fragments_reach_assertions :
    ((∀ e ∈ behindLastRun, e.FromInput) ∧
      run reassStep {} behindLastRun = .error .datagramEndNotLen) ∧
    (∀ e ∈ ownOldestRun, e.FromInput) ∧ run reassStep {} ownOldestRun = .error .prevIsIpr := by
  decide +kernel

end Lwip.Ip
