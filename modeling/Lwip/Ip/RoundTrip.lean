import Lwip.Ip.Fragment
import Lwip.Ip.Safety

/-!
# Fragmentation and reassembly

The fragments of `ip_frag` passed to `ip_reass` in the order they are sent, with fragments of other
datagrams in between. As long as no limit is hit, the fragments that arrived wait in one entry in
that order and without a hole, and the last one completes the datagram (`Waits`). The two halves
meet at `Outgoing.fragmentsFrom`.
-/

namespace Lwip.Ip

/-- The fragment hits no limit: its pbufs may be queued and, when it is the first of its datagram to
arrive, there is an entry for it. -/
def HasRoom (s : Reass) (p : Frag) : Prop :=
  s.pbufcount + p.clen ≤ IP_REASS_MAX_PBUFS ∧
    ((∀ d ∈ s.datagrams, d.isOf p.hdr = false) → s.datagrams.length < MEMP_NUM_REASSDATA)

instance (s : Reass) (p : Frag) : Decidable (HasRoom s p) :=
  inferInstanceAs (Decidable (_ ∧ ((∀ d ∈ s.datagrams, d.isOf p.hdr = false) → _)))

/-- Where there is room nothing has to make room. -/
theorem HasRoom.roomOk {s : Reass} {p : Frag} (h : HasRoom s p) : RoomOk s p :=
  fun hfull => absurd h.1 (by omega)

/-- With room for the fragment no entry is removed: the fragment goes to the entry of its datagram
or to a new one. -/
theorem ipReass_eq {s : Reass} {p : Frag} (h : Inv s) (hhl : p.hdr.hl * 4 = IP_HLEN)
    (hroom : HasRoom s p) :
    (∃ A own C, s.datagrams = A ++ own :: C ∧ own.isOf p.hdr = true ∧
      ipReass s p = ipReassInto ⟨A ++ own :: C, s.pbufcount⟩ A.length (predIdx A.length)
        (noteFirstHdr own p) p) ∨
    ((∀ d ∈ s.datagrams, d.isOf p.hdr = false) ∧
      ipReass s p = ipReassInto ⟨[] ++ newDatagram p.hdr :: s.datagrams, s.pbufcount⟩
        ([] : List ReassData).length (predIdx ([] : List ReassData).length)
        (newDatagram p.hdr) p) := by
  have hfind : ipReass s p = ipReassFind s p := by
    rw [ipReass, if_neg (not_not.mpr hhl), if_neg (Nat.not_lt.mpr hroom.1)]
  rw [hfind]
  obtain hnone | ⟨own, hl, hown, -⟩ := h.wf.split p.hdr
  · refine .inr ⟨hnone, ?_⟩
    have hidx : s.datagrams.findIdx? (·.isOf p.hdr) = none := List.findIdx?_eq_none_iff.mpr hnone
    rw [ipReassFind, hidx]
    dsimp only
    rw [ipReassEnqueueNewDatagram, if_pos (hroom.2 hnone)]
    rfl
  · refine .inl ⟨_, own, _, hl, hown, ?_⟩
    have hnewer : ∀ a ∈ newer p.hdr s.datagrams, a.isOf p.hdr = false := by
      intro a ha
      simpa using List.mem_takeWhile_imp ha
    rw [← ipReassFind_eq hnewer hown, ← hl]

/-- With room for the fragment the entries of other datagrams stay. -/
theorem ipReass_others {s s' : Reass} {p : Frag} {out : Option Datagram} (h : Inv s)
    (hhl : p.hdr.hl * 4 = IP_HLEN) (hroom : HasRoom s p) (hr : ipReass s p = .ok (s', out))
    {e : ReassData} (he : e.isOf p.hdr = false) : e ∈ s'.datagrams ↔ e ∈ s.datagrams := by
  -- An entry that got the fragment is of the datagram of the fragment.
  have hinto : ∀ {A C : List ReassData} {d ipr : ReassData} {cnt : ℕ}, ipr.isOf p.hdr = true →
      ipReassInto ⟨A ++ d :: C, cnt⟩ A.length (predIdx A.length) ipr p = .ok (s', out) →
      (e ∈ s'.datagrams ↔ e ∈ A ++ C) := by
    intro A C d ipr cnt hof hi
    have hne : ∀ q, e ≠ { noteLastFrag ipr p with p := q } := by
      rintro q rfl
      rw [ReassData.isOf, noteLastFrag_iphdr, ← ReassData.isOf, hof] at he
      cases he
    rw [ipReassInto_eq] at hi
    obtain ⟨y, hy, hi⟩ := bind_eq_ok.mp hi
    obtain ⟨-, rfl⟩ | ⟨-, rfl⟩ | ⟨-, -, -, rfl⟩ := chain_cases hy
    · cases hi
      have hne : e ≠ noteLastFrag ipr p := hne (noteLastFrag ipr p).p
      simp only [List.mem_append, List.mem_cons, hne, false_or]
    · cases hi
      simp only [List.mem_append, List.mem_cons, hne, false_or]
    · cases hi
      rfl
  obtain ⟨A, own, C, hl, hown, heq⟩ | ⟨-, heq⟩ := ipReass_eq h hhl hroom
  · have hne : e ≠ own := by
      rintro rfl
      rw [hown] at he
      cases he
    rw [heq] at hr
    rw [hinto (noteFirstHdr_isOf hown) hr, hl]
    simp [hne]
  · rw [heq] at hr
    exact hinto (isOf_iff.mpr ⟨rfl, rfl, rfl⟩) hr

/-! ## The fragments of a packet -/

namespace Outgoing

variable {p : Outgoing} {mtu : ℕ}

/-- The entry is of the datagram if it matches the header of the packet. -/
theorem isOf_fragment (d : ReassData) (k : ℕ) :
    d.isOf (p.fragment mtu k).hdr = d.isOf p.iphdr := rfl

/-- A part is not longer than the payload. -/
theorem length_part_le (p : Outgoing) (mtu k : ℕ) :
    (p.part mtu k).length ≤ p.payload.length := by
  rw [part]
  split
  · rw [List.length_take, List.length_drop]
    omega
  · rw [List.length_drop]
    omega

namespace TooBig

variable (h : p.TooBig mtu)

include h

/-- The packet is not longer than a length field can tell. -/
theorem payload_le : p.payload.length + IP_HLEN ≤ 0xffff := by
  have := h.fits
  rw [tot_len_eq] at this
  omega

/-- The offset field of a fragment. -/
theorem offBits_fragment {k : ℕ} (hk : k ≤ p.full mtu) :
    (p.fragment mtu k).hdr.offBits.toNat = k * ((mtu - IP_HLEN) / 8) := by
  have hlt := h.cuttable.mul_unit_lt hk
  have hle := h.payload_le
  have hunit : k * unit mtu = k * ((mtu - IP_HLEN) / 8) * 8 := (Nat.mul_assoc _ _ 8).symm
  have hzero : p.iphdr.offBits.toNat = 0 := by rw [IpHdr.offBits, h.whole.1, BitVec.toNat_zero]
  change (p.partOffset mtu k &&& IP_OFFMASK).toNat = _
  rw [← h.offsetAt_eq, h.cuttable.offBits_offsetAt hk, hzero, Nat.zero_add,
    Nat.mod_eq_of_lt (by omega)]

/-- The offset of a fragment. -/
theorem fragOffset_fragment {k : ℕ} (hk : k ≤ p.full mtu) :
    (p.fragment mtu k).hdr.fragOffset = k * unit mtu := by
  rw [IpHdr.fragOffset, h.offBits_fragment hk]
  exact Nat.mul_assoc _ _ 8

/-- The last fragment is the one without the flag. -/
theorem lastFrag_fragment {k : ℕ} (hk : k ≤ p.full mtu) :
    (p.fragment mtu k).hdr.lastFrag = decide (k = p.full mtu) := by
  have hlast : p.iphdr.lastFrag = true := decide_eq_true h.whole.2
  change decide (p.partOffset mtu k &&& IP_MF = 0) = _
  rw [decide_eq_decide, ← h.offsetAt_eq, lastFrag_offsetAt, and_iff_left hlast]
  omega

/-- The fragment is one that `ip_input` passes to `ip_reass`. -/
theorem fromInput_fragment {k : ℕ} (hk : k ≤ p.full mtu) : FromInput (p.fragment mtu k) := by
  have hle := h.payload_le
  refine ⟨h.hl, ?_, ?_⟩
  · have hpart := p.length_part_le mtu k
    change (p.part mtu k).length + IP_HLEN = (BitVec.ofNat 16 _).toNat
    rw [BitVec.toNat_ofNat, Nat.mod_eq_of_lt (by omega)]
  · intro hzero
    rw [BitVec.and_or_distrib_left] at hzero
    obtain ⟨hoff, hmf⟩ := BitVec.or_eq_zero_iff.mp hzero
    have hlast : (p.fragment mtu k).hdr.lastFrag = true := decide_eq_true hmf
    rw [h.lastFrag_fragment hk, decide_eq_true_eq] at hlast
    have hbits := h.offBits_fragment hk
    rw [IpHdr.offBits, hoff, hlast] at hbits
    have hpos : 0 < p.full mtu * ((mtu - IP_HLEN) / 8) := by
      have hunit := h.cuttable.unit_pos
      unfold unit at hunit
      exact Nat.mul_pos h.full_pos (by omega)
    exact absurd hbits hpos.ne

/-- A fragment starts where the one before it ends. -/
theorem held_start {k : ℕ} (hk : k ≤ p.full mtu) :
    (p.fragment mtu k).held.start = k * unit mtu :=
  h.fragOffset_fragment hk

/-- A fragment ends a unit further, or at the end of the payload. -/
theorem held_stop {k : ℕ} (hk : k ≤ p.full mtu) :
    (p.fragment mtu k).held.stop =
      if k < p.full mtu then (k + 1) * unit mtu else p.payload.length := by
  have hle := h.payload_le
  have hlt := h.cuttable.mul_unit_lt hk
  have hlen := (h.fromInput_fragment hk).2.1
  have hfrag : (p.fragment mtu k).hdr.fragLen = (p.part mtu k).length := by
    rw [IpHdr.fragLen, u16sub, (h.fromInput_fragment hk).1, ← hlen]
    change (_ + (2^16 - 20 % 2^16)) % 2^16 = _
    have : (p.fragment mtu k).payload.length = (p.part mtu k).length := rfl
    have hpart := p.length_part_le mtu k
    unfold IP_HLEN at *
    omega
  change u16 ((p.fragment mtu k).hdr.fragOffset + (p.fragment mtu k).hdr.fragLen) = _
  rw [h.fragOffset_fragment hk, hfrag, u16]
  split
  · next hfull =>
    have hfits : (k + 1) * unit mtu < p.payload.length := h.cuttable.mul_unit_lt hfull
    have hsucc : (k + 1) * unit mtu = k * unit mtu + unit mtu := by ring
    rw [h.cuttable.length_part hfull]
    omega
  · next hfull =>
    obtain rfl : k = p.full mtu := by omega
    rw [Cuttable.length_part_full]
    omega

end TooBig

/-! ## The queue of the fragments that arrived -/

/-- The first `k` fragments as they wait. -/
def queued (p : Outgoing) (mtu k : ℕ) : List Held :=
  (List.range k).map fun i => (p.fragment mtu i).held

/-- One more fragment waits. -/
theorem queued_succ (k : ℕ) :
    p.queued mtu (k + 1) = p.queued mtu k ++ [(p.fragment mtu k).held] := by
  rw [queued, List.range_succ, List.map_append, List.map_singleton]
  rfl

/-- The last fragment that waits. -/
theorem getLast?_queued (k : ℕ) :
    (p.queued mtu (k + 1)).getLast? = some (p.fragment mtu k).held := by
  rw [queued_succ, List.getLast?_concat]

/-- What `d` has of the packet. -/
structure Restored (p : Outgoing) (d : Datagram) : Prop where
  payload : d.payload = p.payload
  src : d.hdr.src = p.iphdr.src
  dest : d.hdr.dest = p.iphdr.dest
  id : d.hdr.id = p.iphdr.id
  ttl_proto : d.hdr.ttl_proto = p.iphdr.ttl_proto
  len : d.hdr.len.toNat = p.tot_len

namespace TooBig

variable (h : p.TooBig mtu)

include h

/-- The fragments that wait have no hole. -/
theorem gapless_queued {k : ℕ} (hk : k ≤ p.full mtu + 1) : Gapless (p.queued mtu k) := by
  induction k with
  | zero => exact List.isChain_nil
  | succ k ih =>
    rw [queued_succ, gapless_concat]
    refine ⟨ih (by omega), fun x hx => ?_⟩
    cases k with
    | zero => cases hx
    | succ k =>
      rw [getLast?_queued] at hx
      cases hx
      rw [h.held_stop (by omega), if_pos (by omega), h.held_start (by omega)]

/-- The loop passes all the fragments that were sent before. -/
theorem cut_queued {k : ℕ} (hk : k ≤ p.full mtu) :
    before (p.fragment mtu k).held (p.queued mtu k) = p.queued mtu k ∧
      behind (p.fragment mtu k).held (p.queued mtu k) = [] := by
  have hpasses : ∀ t ∈ p.queued mtu k, (p.fragment mtu k).held.passes t = true := by
    intro t ht
    obtain ⟨i, hi, rfl⟩ := List.mem_map.mp ht
    rw [List.mem_range] at hi
    have hpos := h.cuttable.unit_pos
    have hle : (i + 1) * unit mtu ≤ k * unit mtu := Nat.mul_le_mul_right _ hi
    have hsucc : (i + 1) * unit mtu = i * unit mtu + unit mtu := by ring
    rw [Held.passes, h.held_start hk, h.held_start (by omega), h.held_stop (by omega),
      if_pos (by omega), Bool.and_eq_true, decide_eq_true_eq, decide_eq_true_eq]
    exact ⟨by omega, hle⟩
  exact ⟨List.takeWhile_eq_self_iff.mpr hpasses, List.dropWhile_eq_nil_iff.mpr hpasses⟩

/-- The next fragment is put behind the others. -/
theorem queueWith_queued {k : ℕ} (hk : k ≤ p.full mtu) :
    queueWith (p.fragment mtu k).held (p.queued mtu k) = p.queued mtu (k + 1) := by
  rw [queueWith, (h.cut_queued hk).1, (h.cut_queued hk).2, queued_succ]

omit h in
/-- All fragments hold the payload. -/
theorem flatten_queued_full :
    ((p.queued mtu (p.full mtu + 1)).map Held.payload).flatten = p.payload := by
  have hparts : (p.queued mtu (p.full mtu + 1)).map Held.payload =
      (List.range (p.full mtu + 1)).map (p.part mtu) := by
    rw [queued, List.map_map]
    rfl
  rw [hparts, ← List.flatMap_def, flatMap_parts]

section Entry

variable {k cnt : ℕ} {A C : List ReassData} {d ipr : ReassData}

/-- The queue takes the next fragment. -/
theorem queued_next (hk : k ≤ p.full mtu) (hp : ipr.p = p.queued mtu k) :
    Queued (p.fragment mtu k).held ipr.p := by
  intro t ht
  rw [hp, (h.cut_queued hk).2] at ht
  cases ht

/-- A fragment that is not the last one is put behind those that wait. -/
theorem into_fragment (hk : k < p.full mtu) (hp : ipr.p = p.queued mtu k)
    (hlast : ipr.lastfrag = false) :
    ipReassInto ⟨A ++ d :: C, cnt⟩ A.length (predIdx A.length) ipr (p.fragment mtu k) =
      .ok (⟨A ++ { ipr with p := p.queued mtu (k + 1) } :: C, u16 (cnt + 1)⟩, none) := by
  have hmore : (p.fragment mtu k).hdr.lastFrag = false := by
    rw [h.lastFrag_fragment hk.le, decide_eq_false_iff_not]
    omega
  have hnote : noteLastFrag ipr (p.fragment mtu k) = ipr := by
    rw [noteLastFrag, if_neg (by rw [hmore]; exact Bool.false_ne_true)]
  have hno : ¬Passes ipr (p.fragment mtu k).held := by
    rintro ⟨hl, -⟩
    rw [hlast] at hl
    cases hl
  rw [ipReassInto_eq, hnote, chain_not_passes (h.queued_next hk.le hp) hno, hp,
    h.queueWith_queued hk.le]
  rfl

/-- The last fragment completes the datagram. -/
theorem into_last (hp : ipr.p = p.queued mtu (p.full mtu))
    (hhdr : ipr.iphdr = (p.fragment mtu 0).hdr) :
    ∃ s' out, p.Restored out ∧
      ipReassInto ⟨A ++ d :: C, cnt⟩ A.length (predIdx A.length) ipr (p.fragment mtu (p.full mtu)) =
        .ok (s', some out) := by
  have hle := h.payload_le
  have hlast : (p.fragment mtu (p.full mtu)).hdr.lastFrag = true := by
    rw [h.lastFrag_fragment le_rfl, decide_eq_true_eq]
  have hstop : (p.fragment mtu (p.full mtu)).held.stop = p.payload.length := by
    rw [h.held_stop le_rfl, if_neg (lt_irrefl _)]
  have hlen : (noteLastFrag ipr (p.fragment mtu (p.full mtu))).datagram_len = p.payload.length := by
    rw [noteLastFrag_datagram_len, announcedLen, if_pos hlast, hstop]
  have hnote : (noteLastFrag ipr (p.fragment mtu (p.full mtu))).p = p.queued mtu (p.full mtu) := by
    rw [noteLastFrag_p, hp]
  obtain ⟨hbefore, hbehind⟩ := h.cut_queued le_rfl
  have hpasses : Passes (noteLastFrag ipr (p.fragment mtu (p.full mtu)))
      (p.fragment mtu (p.full mtu)).held := by
    refine ⟨by rw [noteLastFrag_lastfrag, hlast, Bool.or_true], ?_, ?_, fun _ => ?_, ?_⟩
    · rw [hnote, hbefore]
      exact h.gapless_queued (Nat.le_succ _)
    · rw [hnote, hbehind]
      exact List.isChain_singleton _
    · rw [hnote, hbefore, ← queued_succ]
      exact h.gapless_queued le_rfl
    · rw [hnote, h.queueWith_queued le_rfl, queued, List.range_succ_eq_map, List.map_cons]
      intro t ht
      cases ht
      rw [h.held_start (Nat.zero_le _), Nat.zero_mul]
  have hne : (noteLastFrag ipr (p.fragment mtu (p.full mtu))).p ≠ [] := by
    rw [hnote]
    intro hnil
    have hcount := congrArg List.length hnil
    rw [queued, List.length_map, List.length_range] at hcount
    exact absurd hcount h.full_pos.ne'
  have hend : (lastWith (p.fragment mtu (p.full mtu)).held
      (noteLastFrag ipr (p.fragment mtu (p.full mtu))).p).stop =
        (noteLastFrag ipr (p.fragment mtu (p.full mtu))).datagram_len := by
    rw [hnote, hlen, lastWith, ← hstop]
    congr 1
    simp only [hbehind, List.getLast_singleton]
  rw [ipReassInto_eq, chain_passes (h.queued_next le_rfl hnote) hpasses,
    (lwipAssert_eq_ok (u := ())).mpr hne, (lwipAssert_eq_ok (u := ())).mpr hend, hnote,
    h.queueWith_queued le_rfl]
  refine ⟨_, _, ⟨?_, ?_, ?_, ?_, ?_, ?_⟩, rfl⟩
  · exact flatten_queued_full
  · change (noteLastFrag ipr _).iphdr.src = _
    rw [noteLastFrag_iphdr, hhdr]
    rfl
  · change (noteLastFrag ipr _).iphdr.dest = _
    rw [noteLastFrag_iphdr, hhdr]
    rfl
  · change (noteLastFrag ipr _).iphdr.id = _
    rw [noteLastFrag_iphdr, hhdr]
    rfl
  · change (noteLastFrag ipr _).iphdr.ttl_proto = _
    rw [noteLastFrag_iphdr, hhdr]
    rfl
  · change (BitVec.ofNat 16 ((noteLastFrag ipr _).datagram_len + IP_HLEN)).toNat = _
    rw [BitVec.toNat_ofNat, hlen, tot_len_eq, Nat.mod_eq_of_lt (by omega), Nat.add_comm]

end Entry

end TooBig

/-! ## All fragments -/

/-- The first `k` fragments of the packet wait in one entry, and no entry is of its datagram before
one has arrived. -/
def Waits (p : Outgoing) (mtu : ℕ) (s : Reass) : ℕ → Prop
  | 0 => ∀ d ∈ s.datagrams, d.isOf p.iphdr = false
  | k + 1 => ∃ own ∈ s.datagrams, own.p = p.queued mtu (k + 1) ∧ own.lastfrag = false ∧
      own.iphdr = (p.fragment mtu 0).hdr

/-- A fragment of a datagram with other addresses or another identification. -/
def Other (p : Outgoing) (f : Frag) : Prop :=
  FromInput f ∧ f.hdr.addressesAndIdMatch p.iphdr = false

instance (p : Outgoing) (f : Frag) : Decidable (p.Other f) := inferInstanceAs (Decidable (_ ∧ _))

/-- An entry with the header of the first fragment is of the packet. -/
theorem isOf_of_iphdr {d : ReassData} (hd : d.iphdr = (p.fragment mtu 0).hdr) :
    d.isOf p.iphdr = true := by
  rw [isOf_iff, hd]
  exact ⟨rfl, rfl, rfl⟩

/-- An entry of the packet is not of another datagram. -/
theorem Other.isOf_eq_false {f : Frag} (hf : p.Other f) {d : ReassData}
    (hd : d.isOf p.iphdr = true) : d.isOf f.hdr = false := by
  have hne := hf.2
  rw [← Bool.not_eq_true] at hne ⊢
  rw [isOf_iff] at hd ⊢
  rintro ⟨hsrc, hdest, hid⟩
  apply hne
  rw [IpHdr.addressesAndIdMatch, ← hsrc, ← hdest, ← hid]
  simp [hd]

/-- Fragments of other datagrams leave those of the packet where they are. -/
theorem Waits.other {s s' : Reass} {k : ℕ} {f : Frag} {out : Option Datagram} (hw : p.Waits mtu s k)
    (hinv : Inv s) (hf : p.Other f) (hroom : HasRoom s f) (hr : ipReass s f = .ok (s', out)) :
    p.Waits mtu s' k := by
  have hothers : ∀ {d : ReassData}, d.isOf p.iphdr = true → (d ∈ s'.datagrams ↔ d ∈ s.datagrams) :=
    fun hd => ipReass_others hinv hf.1.1 hroom hr (hf.isOf_eq_false hd)
  cases k with
  | zero =>
    intro d hd
    by_contra hof
    rw [Bool.not_eq_false] at hof
    have hnone := hw d ((hothers hof).mp hd)
    rw [hof] at hnone
    cases hnone
  | succ k =>
    obtain ⟨own, hown, hp, hlast, hhdr⟩ := hw
    exact ⟨own, (hothers (isOf_of_iphdr hhdr)).mpr hown, hp, hlast, hhdr⟩

namespace TooBig

variable (h : p.TooBig mtu)

include h

/-- The next fragment goes to the entry of those that wait, or to a new one. -/
theorem ipReass_fragment {s : Reass} {k : ℕ} (hk : k ≤ p.full mtu) (hinv : Inv s)
    (hw : p.Waits mtu s k) (hroom : HasRoom s (p.fragment mtu k)) :
    ∃ A C d ipr, ipReass s (p.fragment mtu k) =
        ipReassInto ⟨A ++ d :: C, s.pbufcount⟩ A.length (predIdx A.length) ipr (p.fragment mtu k) ∧
      ipr.p = p.queued mtu k ∧ ipr.lastfrag = false ∧ ipr.iphdr = (p.fragment mtu 0).hdr := by
  have hinto := ipReass_eq hinv (h.fromInput_fragment hk).1 hroom
  cases k with
  | zero =>
    obtain ⟨A, own, C, hl, hown, -⟩ | ⟨-, heq⟩ := hinto
    · have hmem : own ∈ s.datagrams := by
        rw [hl]
        simp
      have hnone := hw own hmem
      rw [isOf_fragment, hnone] at hown
      cases hown
    · exact ⟨_, _, _, _, heq, rfl, rfl, rfl⟩
  | succ k =>
    obtain ⟨own, hmem, hp, hlast, hhdr⟩ := hw
    have hof : own.isOf (p.fragment mtu (k + 1)).hdr = true := isOf_of_iphdr hhdr
    obtain ⟨A, own', C, hl, hown', heq⟩ | ⟨hnone, -⟩ := hinto
    · -- There is only one entry of the datagram, and it has the first header.
      have hmem' : own' ∈ s.datagrams := by
        rw [hl]
        simp
      obtain rfl : own' = own := hinv.wf.eq_of_isOf hmem' hmem hown' hof
      have hoff : own'.iphdr.offBits = 0 := by
        apply BitVec.eq_of_toNat_eq
        rw [hhdr, h.offBits_fragment (Nat.zero_le _), Nat.zero_mul]
        rfl
      have hnote : noteFirstHdr own' (p.fragment mtu (k + 1)) = own' :=
        if_neg fun hc => hc.2 hoff
      rw [hnote] at heq
      exact ⟨_, _, _, _, heq, hp, hlast, hhdr⟩
    · have := hnone own hmem
      rw [hof] at this
      cases this

/-- `ip_reass` returns `NULL` for every fragment but the last. -/
theorem ipReass_next {s : Reass} {k : ℕ} (hk : k < p.full mtu) (hinv : Inv s)
    (hw : p.Waits mtu s k) (hroom : HasRoom s (p.fragment mtu k)) :
    ∃ s', ipReass s (p.fragment mtu k) = .ok (s', none) ∧ Inv s' ∧ p.Waits mtu s' (k + 1) := by
  obtain ⟨A, C, d, ipr, heq, hp, hlast, hhdr⟩ := h.ipReass_fragment hk.le hinv hw hroom
  rw [h.into_fragment hk hp hlast] at heq
  exact ⟨_, heq, ipReass_inv hinv (h.fromInput_fragment hk.le).1 heq, _,
    List.mem_append_right _ List.mem_cons_self, rfl, hlast, hhdr⟩

/-- On the last fragment it returns the datagram. -/
theorem ipReass_last {s : Reass} (hinv : Inv s) (hw : p.Waits mtu s (p.full mtu))
    (hroom : HasRoom s (p.fragment mtu (p.full mtu))) :
    ∃ s' d, ipReass s (p.fragment mtu (p.full mtu)) = .ok (s', some d) ∧ p.Restored d := by
  obtain ⟨A, C, d, ipr, heq, hp, -, hhdr⟩ := h.ipReass_fragment le_rfl hinv hw hroom
  rw [heq]
  obtain ⟨s', out, hout, hinto⟩ := h.into_last hp hhdr
  exact ⟨s', out, hinto, hout⟩

end TooBig

end Outgoing

/-! ## All fragments -/

/-- The event is a fragment that hits no limit. -/
def Event.HasRoom (s : Reass) : Event → Prop
  | .frag f => Ip.HasRoom s f
  | .tick => False

instance (s : Reass) : (e : Event) → Decidable (e.HasRoom s)
  | .frag f => inferInstanceAs (Decidable (Ip.HasRoom s f))
  | .tick => inferInstanceAs (Decidable False)

/-- The fragments `fs` with the fragments `gaps i` in front of the fragment `i`. -/
def interleave (gaps : ℕ → List Frag) : List Frag → List Event
  | [] => []
  | f :: fs => (gaps 0).map .frag ++ .frag f :: interleave (fun i => gaps (i + 1)) fs

/-- What `ip_reass` returns for the fragments `fs` when it gets the fragments `gaps i` in front of
the fragment `i`. -/
def deliver (gaps : ℕ → List Frag) (s : Reass) : List Frag → Except Abort (List (Option Datagram))
  | [] => .ok []
  | f :: fs =>
    run reassStep s ((gaps 0).map .frag) >>= fun s =>
    ipReass s f >>= fun x =>
    deliver (fun i => gaps (i + 1)) x.1 fs >>= fun out => .ok (x.2 :: out)

/-- The first fragment and the rest. -/
theorem deliver_cons {gaps : ℕ → List Frag} {s : Reass} {f : Frag} {fs : List Frag}
    {out : List (Option Datagram)} :
    deliver gaps s (f :: fs) = .ok out ↔
      ∃ s₁ x out', run reassStep s ((gaps 0).map .frag) = .ok s₁ ∧ ipReass s₁ f = .ok x ∧
        deliver (fun i => gaps (i + 1)) x.1 fs = .ok out' ∧ x.2 :: out' = out := by
  rw [deliver]
  constructor
  · intro hd
    obtain ⟨s₁, hs₁, hd⟩ := bind_eq_ok.mp hd
    obtain ⟨x, hx, hd⟩ := bind_eq_ok.mp hd
    obtain ⟨out', hout', hd⟩ := bind_eq_ok.mp hd
    exact ⟨s₁, x, out', hs₁, hx, hout', Except.ok.inj hd⟩
  · rintro ⟨s₁, x, out', hs₁, hx, hout', rfl⟩
    exact bind_eq_ok.mpr ⟨s₁, hs₁, bind_eq_ok.mpr ⟨x, hx, bind_eq_ok.mpr ⟨out', hout', rfl⟩⟩⟩

namespace Outgoing

variable {p : Outgoing} {mtu : ℕ}

/-- A fragment of another datagram that completes it ends it. -/
def OthersEnd (p : Outgoing) (s : Reass) : Event → Prop
  | .frag f => p.Other f → EndOk s f
  | .tick => True

instance (p : Outgoing) (s : Reass) : (e : Event) → Decidable (p.OthersEnd s e)
  | .frag f => inferInstanceAs (Decidable (p.Other f → EndOk s f))
  | .tick => inferInstanceAs (Decidable True)

/-- Fragments of other datagrams that hit no limit get through if and only if those that complete a
datagram end it. -/
theorem run_others {s : Reass} {k : ℕ} (hinv : Inv s) (hw : p.Waits mtu s k) {fs : List Frag}
    (hfs : ∀ f ∈ fs, p.Other f)
    (hroom : Along reassStep (fun s e => e.HasRoom s) s (fs.map .frag)) :
    ((∃ s', run reassStep s (fs.map .frag) = .ok s') ↔
      Along reassStep p.OthersEnd s (fs.map .frag)) ∧
    ∀ s', run reassStep s (fs.map .frag) = .ok s' → Inv s' ∧ p.Waits mtu s' k := by
  have hother : Along reassStep (fun _ e => ∃ f, e = .frag f ∧ p.Other f) s (fs.map .frag) := by
    refine Along.of_forall s fun e he => ?_
    obtain ⟨f, hf, rfl⟩ := List.mem_map.mp he
    exact ⟨f, rfl, hfs f hf⟩
  have hC := hroom.and hother
  have hstep : ∀ (s : Reass) (e : Event) (s' : Reass), Inv s ∧ p.Waits mtu s k →
      e.HasRoom s ∧ (∃ f, e = .frag f ∧ p.Other f) → reassStep s e = .ok s' →
      Inv s' ∧ p.Waits mtu s' k := by
    rintro s e s' ⟨hinv, hw⟩ ⟨hroom, f, rfl, hf⟩ hr
    obtain ⟨x, hx, hr⟩ := bind_eq_ok.mp hr
    cases hr
    exact ⟨ipReass_inv hinv hf.1.1 hx, hw.other hinv hf hroom hx⟩
  refine ⟨run_isOk_iff hstep ?_ ⟨hinv, hw⟩ hC, fun s' hr => run_invariant hstep ⟨hinv, hw⟩ hC hr⟩
  rintro s e ⟨hinv, hw⟩ ⟨hroom, f, rfl, hf⟩
  have hiff := reassStep_isOk_iff (e := .frag f) hinv hf.1
  rw [hiff]
  exact ⟨fun hsound _ => hsound.2, fun hend => ⟨HasRoom.roomOk hroom, hend hf⟩⟩

/-- The first fragment of the rest. -/
theorem fragmentsFrom_cons {k : ℕ} (hk : k ≤ p.full mtu) :
    p.fragmentsFrom mtu k = p.fragment mtu k :: p.fragmentsFrom mtu (k + 1) := by
  have hcount : p.full mtu + 1 - k = (p.full mtu + 1 - (k + 1)) + 1 := by omega
  rw [fragmentsFrom, hcount, List.range'_succ, List.map_cons]
  rfl

/-- Behind the last fragment there is none. -/
theorem fragmentsFrom_full : p.fragmentsFrom mtu (p.full mtu + 1) = [] := by
  rw [fragmentsFrom, Nat.sub_self]
  rfl

/-- The values returned for the fragments of the packet: `NULL` for all but the last, and the
datagram for that. -/
def Answers (p : Outgoing) (out : List (Option Datagram)) : Prop :=
  ∃ n d, out = List.replicate n none ++ [some d] ∧ p.Restored d

/-- For a fragment that is not the last, nothing is returned. -/
theorem answers_none {out : List (Option Datagram)} :
    p.Answers (none :: out) ↔ p.Answers out := by
  constructor
  · rintro ⟨n, d, heq, hd⟩
    cases n with
    | zero => cases heq
    | succ n =>
      rw [List.replicate_succ, List.cons_append, List.cons.injEq] at heq
      exact ⟨n, d, heq.2, hd⟩
  · rintro ⟨n, d, rfl, hd⟩
    exact ⟨n + 1, d, rfl, hd⟩

namespace TooBig

variable (h : p.TooBig mtu) {gaps : ℕ → List Frag} {s : Reass} {k : ℕ}

include h

omit h in
/-- One fragment and those in front of it. -/
theorem deliver_fragment {fs : List Frag} (hinv : Inv s) (hw : p.Waits mtu s k)
    (hgaps : ∀ f ∈ gaps 0, p.Other f)
    (hroom : Along reassStep (fun s e => e.HasRoom s) s (interleave gaps (p.fragment mtu k :: fs)))
    (hnext : ∀ s₁, Inv s₁ → p.Waits mtu s₁ k → HasRoom s₁ (p.fragment mtu k) →
      ∃ x, ipReass s₁ (p.fragment mtu k) = .ok x ∧
        (Along reassStep (fun s e => e.HasRoom s) x.1 (interleave (fun i => gaps (i + 1)) fs) →
          ((∃ out, deliver (fun i => gaps (i + 1)) x.1 fs = .ok out ∧ p.Answers (x.2 :: out)) ↔
            Along reassStep p.OthersEnd x.1 (interleave (fun i => gaps (i + 1)) fs)))) :
    (∃ out, deliver gaps s (p.fragment mtu k :: fs) = .ok out ∧ p.Answers out) ↔
      Along reassStep p.OthersEnd s (interleave gaps (p.fragment mtu k :: fs)) := by
  have hown : ∀ s, p.OthersEnd s (.frag (p.fragment mtu k)) := by
    intro s hother
    have hmatch : (p.fragment mtu k).hdr.addressesAndIdMatch p.iphdr = true := by
      simp [IpHdr.addressesAndIdMatch, fragment, fragHdr]
    rw [hother.2] at hmatch
    cases hmatch
  obtain ⟨hgap, hkeep⟩ := run_others hinv hw hgaps hroom.left
  constructor
  · rintro ⟨out, hd, hout⟩
    obtain ⟨s₁, x, out', hs₁, hx, hout', rfl⟩ := deliver_cons.mp hd
    refine (hgap.mp ⟨s₁, hs₁⟩).append fun s₂ hs₂ => ⟨hown s₂, fun s₃ hs₃ => ?_⟩
    cases hs₁.symm.trans hs₂
    obtain ⟨hinv₁, hw₁⟩ := hkeep s₁ hs₁
    obtain ⟨hroom₁, hrest⟩ := hroom.right hs₁
    obtain ⟨x', hx', hiff⟩ := hnext s₁ hinv₁ hw₁ hroom₁
    cases hx.symm.trans hx'
    have hstep : reassStep s₁ (.frag (p.fragment mtu k)) = .ok x.1 := by
      rw [reassStep, hx]
      rfl
    cases hstep.symm.trans hs₃
    exact (hiff (hrest _ hstep)).mp ⟨out', hout', hout⟩
  · intro hend
    obtain ⟨s₁, hs₁⟩ := hgap.mpr hend.left
    obtain ⟨hinv₁, hw₁⟩ := hkeep s₁ hs₁
    obtain ⟨hroom₁, hrest⟩ := hroom.right hs₁
    obtain ⟨x, hx, hiff⟩ := hnext s₁ hinv₁ hw₁ hroom₁
    have hstep : reassStep s₁ (.frag (p.fragment mtu k)) = .ok x.1 := by
      rw [reassStep, hx]
      rfl
    obtain ⟨out, hd, hout⟩ := (hiff (hrest _ hstep)).mpr ((hend.right hs₁).2 _ hstep)
    exact ⟨_, deliver_cons.mpr ⟨s₁, x, out, hs₁, hx, hd, rfl⟩, hout⟩

/-- The fragments from `k` on are put together to the packet if and only if the other fragments that
complete a datagram end it. -/
theorem deliver_iff (hk : k ≤ p.full mtu) (hinv : Inv s) (hw : p.Waits mtu s k)
    (hgaps : ∀ i, ∀ f ∈ gaps i, p.Other f)
    (hroom : Along reassStep (fun s e => e.HasRoom s) s (interleave gaps (p.fragmentsFrom mtu k))) :
    (∃ out, deliver gaps s (p.fragmentsFrom mtu k) = .ok out ∧ p.Answers out) ↔
      Along reassStep p.OthersEnd s (interleave gaps (p.fragmentsFrom mtu k)) := by
  obtain ⟨j, hj⟩ : ∃ j, p.full mtu = k + j := Nat.exists_eq_add_of_le hk
  induction j generalizing gaps s k with
  | zero =>
    obtain rfl : k = p.full mtu := by omega
    rw [fragmentsFrom_cons le_rfl, fragmentsFrom_full] at hroom ⊢
    refine deliver_fragment hinv hw (hgaps 0) hroom fun s₁ hinv₁ hw₁ hroom₁ => ?_
    obtain ⟨s₂, d, hx, hd⟩ := h.ipReass_last hinv₁ hw₁ hroom₁
    exact ⟨_, hx, fun _ => iff_of_true ⟨[], rfl, 0, d, rfl, hd⟩ trivial⟩
  | succ j ih =>
    have hlt : k < p.full mtu := by omega
    rw [fragmentsFrom_cons hk] at hroom ⊢
    refine deliver_fragment hinv hw (hgaps 0) hroom fun s₁ hinv₁ hw₁ hroom₁ => ?_
    obtain ⟨s₂, hx, hinv₂, hw₂⟩ := h.ipReass_next hlt hinv₁ hw₁ hroom₁
    refine ⟨_, hx, fun hrest => ?_⟩
    simp only [answers_none]
    exact ih hlt hinv₂ hw₂ (fun i => hgaps (i + 1)) hrest (by omega)

end TooBig

/-- The packet is sent in fragments, and comes out of `ip_reass` on the last of them and not
before. -/
def RoundTrip (p : Outgoing) (mtu : ℕ) (s : Reass) (gaps : ℕ → List Frag) : Prop :=
  ∃ sent out, ipFrag p mtu = .ok sent ∧
    deliver gaps s (sent.map Rambuf.received) = .ok out ∧ p.Answers out

end Outgoing

/-- A packet that does not fit in the MTU comes back from its fragments, received in order and with
fragments of other datagrams in between, if and only if every check of `ip_frag` finds room for a
header and the other fragments that complete a datagram end it. -/
theorem frag_reass_round_trip_iff (p : Outgoing) (mtu : ℕ) (h : p.TooBig mtu) (es : List Event)
    (hes : ∀ e ∈ es, e.FromInput) {s : Reass} (hs : run reassStep {} es = .ok s)
    (hnew : ∀ d ∈ s.datagrams, d.isOf p.iphdr = false) (gaps : ℕ → List Frag)
    (hgaps : ∀ i, ∀ f ∈ gaps i, p.Other f)
    (hroom : Along reassStep (fun s e => e.HasRoom s) s (interleave gaps (p.fragmentsFrom mtu 0))) :
    p.RoundTrip mtu s gaps ↔
      p.Whole mtu ∧ Along reassStep p.OthersEnd s (interleave gaps (p.fragmentsFrom mtu 0)) := by
  have hinv : Inv s := run_invariant (C := fun _ e => e.FromInput)
    (fun _ _ _ hI he hr => reassStep_inv hI he hr) Inv.empty (Along.of_forall _ hes) hs
  have hfrag := h.ipFrag_eq
  rw [← h.deliver_iff (Nat.zero_le _) hinv hnew hgaps hroom]
  split at hfrag
  · next hwhole =>
    obtain ⟨sent, hsent, hmap⟩ := hfrag
    rw [and_iff_right hwhole, ← hmap]
    constructor
    · rintro ⟨sent', out, hsent', hd, hout⟩
      cases hsent.symm.trans hsent'
      exact ⟨out, hd, hout⟩
    · rintro ⟨out, hd, hout⟩
      exact ⟨sent, out, hsent, hd, hout⟩
  · next hwhole =>
    refine iff_of_false ?_ fun hc => hwhole hc.1
    rintro ⟨sent, out, hsent, -⟩
    rw [hfrag] at hsent
    cases hsent

/-- A packet in one pbuf, with this many octets of payload. -/
def onePbuf (n : ℕ) : Outgoing where
  iphdr := (udpFrag 1 0 false [] 1).hdr
  first := (List.range n).map UInt8.ofNat
  rest := []

/-- A fragment of another datagram in front of the second one. -/
def otherInFront (i : ℕ) : List Frag :=
  if i = 1 then [udpFrag 2 0 true [0, 0, 0, 0, 0, 0, 0, 0] 1] else []

/-- A packet of a hundred octets, with a fragment of another one between. -/
theorem frag_reass_round_trip_hundred :
    (onePbuf 100).RoundTrip 60 {} otherInFront := by
  refine (frag_reass_round_trip_iff (onePbuf 100) 60 (by decide +kernel) []
    (fun e he => (List.not_mem_nil he).elim) rfl (fun d hd => (List.not_mem_nil hd).elim)
    otherInFront ?_ (by decide +kernel)).mpr (by decide +kernel)
  intro i f hf
  unfold otherInFront at hf
  split at hf
  · cases List.mem_singleton.mp hf
    decide +kernel
  · exact (List.not_mem_nil hf).elim

/-- Twenty octets are sent eight at a time. The third round finds twelve in the pbuf. -/
theorem twenty_octets_abort :
    (onePbuf 20).TooBig 28 ∧
    Along reassStep (fun s e => e.HasRoom s) {}
      (interleave (fun _ => []) ((onePbuf 20).fragmentsFrom 28 0)) ∧
    ipFrag (onePbuf 20) 28 = .error .notInOnePiece ∧
    ¬(onePbuf 20).RoundTrip 28 {} fun _ => [] := by
  have habort : ipFrag (onePbuf 20) 28 = .error .notInOnePiece := by decide +kernel
  refine ⟨by decide +kernel, by decide +kernel, habort, ?_⟩
  rintro ⟨sent, out, hsent, -⟩
  rw [habort] at hsent
  cases hsent

end Lwip.Ip
