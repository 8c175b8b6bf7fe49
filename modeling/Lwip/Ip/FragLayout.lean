import Lwip.Ip.RoundTrip

/-!
# The fragments of a packet

What `ip_frag` sends when the packet may be a fragment itself: the parts of the payload one after
the other, with their offsets counted from that of the packet, and no last fragment unless the
packet is one. `ipFrag_right_iff` says for which packets this is so. The loop must find room for a
header in each pbuf it goes on in (`Outgoing.Whole`), and the offsets must fit in their 13 bits.
-/

namespace Lwip.Ip

/-- The octets behind the header. -/
def Rambuf.data (r : Rambuf) : List UInt8 := r.refs.flatten

namespace Outgoing

/-- Where the payload of the fragment `k` starts in that of the packet. -/
def position (sent : List Rambuf) (k : ℕ) : ℕ := ((sent.take k).flatMap Rambuf.data).length

/-- The fragment `k` of those that were sent is as it should be. -/
structure FragRight (p : Outgoing) (mtu : ℕ) (sent : List Rambuf) (k : ℕ) (r : Rambuf) : Prop where
  mtu : IP_HLEN + r.data.length ≤ mtu
  len : r.iphdr.len.toNat = IP_HLEN + r.data.length
  chksum : inetChksum r.iphdr.octets = 0
  aligned : 8 ∣ position sent k
  offset : r.iphdr.offBits.toNat = p.iphdr.offBits.toNat + position sent k / 8
  lastFrag : r.iphdr.lastFrag = true ↔ k + 1 = sent.length ∧ p.iphdr.lastFrag = true

/-- `ip_frag` sends the payload in fragments that are as they should be. -/
def CutRight (p : Outgoing) (mtu : ℕ) : Prop :=
  ∃ sent, ipFrag p mtu = .ok sent ∧ sent.flatMap Rambuf.data = p.payload ∧
    ∀ k r, sent[k]? = some r → p.FragRight mtu sent k r

namespace Cuttable

variable {p : Outgoing} {mtu : ℕ} {sent : List Rambuf} (h : p.Cuttable mtu)

include h

/-- A fragment fits into the MTU. -/
theorem length_part_le_mtu {k : ℕ} (hk : k ≤ p.full mtu) :
    IP_HLEN + (p.part mtu k).length ≤ mtu := by
  have hmtu := h.mtu_ge
  rcases hk.lt_or_eq with hk | rfl
  · have hle : unit mtu ≤ mtu - IP_HLEN := Nat.div_mul_le_self _ 8
    rw [h.length_part hk]
    omega
  · have hlast := mt h.lt_full_iff.mpr (Nat.lt_irrefl (p.full mtu))
    rw [length_part_full]
    omega

omit h in
/-- What is known of the fragments that were sent. -/
theorem data_of_sent (hsent : sent.map Rambuf.received = p.cutsFrom mtu 0) :
    sent.map Rambuf.data = (List.range (p.full mtu + 1)).map (p.part mtu) := by
  have hdata := congrArg (List.map Frag.payload) hsent
  rw [List.map_map, cutsFrom, List.map_map, Nat.sub_zero, ← List.range_eq_range'] at hdata
  exact hdata

omit h in
/-- What is sent as number `k` is the part `k`. -/
theorem of_sent (hsent : sent.map Rambuf.received = p.cutsFrom mtu 0) {k : ℕ} {r : Rambuf}
    (hr : sent[k]? = some r) : k ≤ p.full mtu ∧ r.data = p.part mtu k ∧
      r.iphdr = fragHdr p.iphdr (p.offsetAt mtu k) (p.part mtu k).length := by
  have hget := congrArg (fun l => l[k]?) hsent
  rw [List.getElem?_map, hr, cutsFrom, List.getElem?_map, Nat.sub_zero,
    ← List.range_eq_range'] at hget
  obtain ⟨i, hi, hcut⟩ := Option.map_eq_some_iff.mp hget.symm
  obtain ⟨hlt, rfl⟩ := List.getElem?_eq_some_iff.mp hi
  rw [List.length_range] at hlt
  rw [List.getElem_range] at hcut
  exact ⟨Nat.le_of_lt_succ hlt, (congrArg Frag.payload hcut).symm, (congrArg Frag.hdr hcut).symm⟩

/-- The parts start at multiples of the unit. -/
theorem position_of_sent (hsent : sent.map Rambuf.received = p.cutsFrom mtu 0) {k : ℕ}
    (hk : k ≤ p.full mtu) : position sent k = k * unit mtu := by
  have hlt := h.mul_unit_lt hk
  have hmap : (sent.take k).flatMap Rambuf.data = (List.range k).flatMap (p.part mtu) := by
    rw [List.flatMap_def, List.map_take, data_of_sent hsent, ← List.map_take, List.take_range,
      Nat.min_eq_left (by omega), ← List.flatMap_def]
  rw [position, hmap, flatMap_part hk, List.length_take, Nat.min_eq_left hlt.le]

omit h in
/-- The number of fragments. -/
theorem length_sent (hsent : sent.map Rambuf.received = p.cutsFrom mtu 0) :
    sent.length = p.full mtu + 1 := by
  have hlen := congrArg List.length hsent
  rwa [List.length_map, cutsFrom, List.length_map, List.length_range', Nat.sub_zero] at hlen

/-- A fragment is as it should be but for the offset, which may be too large for its field. -/
theorem fragRight_iff (hsent : sent.map Rambuf.received = p.cutsFrom mtu 0) {k : ℕ} {r : Rambuf}
    (hr : sent[k]? = some r) :
    p.FragRight mtu sent k r ↔ p.iphdr.offBits.toNat + k * ((mtu - IP_HLEN) / 8) < 2^13 := by
  obtain ⟨hk, hdata, hhdr⟩ := of_sent hsent hr
  have hpos := h.position_of_sent hsent hk
  have hunit : k * unit mtu = k * ((mtu - IP_HLEN) / 8) * 8 := (Nat.mul_assoc _ _ 8).symm
  have hoff : r.iphdr.offBits.toNat =
      (p.iphdr.offBits.toNat + k * ((mtu - IP_HLEN) / 8)) % 2^13 := by
    rw [hhdr]
    exact h.offBits_offsetAt hk
  constructor
  · intro hright
    -- The field holds the offset modulo `2^13`.
    have := hright.offset
    rw [hoff, hpos, hunit, Nat.mul_div_cancel _ (by decide)] at this
    rw [← this]
    exact Nat.mod_lt _ (by decide)
  · intro hlt
    have hmtu := h.length_part_le_mtu hk
    have hpart := p.length_part_le mtu k
    have hfits := h.fits
    rw [tot_len_eq] at hfits
    refine ⟨by rw [hdata]; exact hmtu, ?_, ?_, ?_, ?_, ?_⟩
    · rw [hhdr, hdata]
      change (BitVec.ofNat 16 ((p.part mtu k).length + IP_HLEN)).toNat = _
      rw [BitVec.toNat_ofNat]
      omega
    · rw [hhdr]
      exact IpHdr.chksum_valid _
    · rw [hpos, hunit]
      exact Nat.dvd_mul_left 8 _
    · rw [hoff, hpos, hunit, Nat.mul_div_cancel _ (by decide), Nat.mod_eq_of_lt hlt]
    · have hflag : r.iphdr.lastFrag = true ↔ p.offsetAt mtu k &&& IP_MF = 0 := by
        rw [hhdr]
        exact decide_eq_true_iff
      rw [hflag, lastFrag_offsetAt, length_sent hsent]
      refine and_congr_left fun _ => ?_
      omega

end Cuttable

/-- A packet is cut up as it should be exactly if each pbuf in which the loop goes on has room for a
header, and the offset of the last fragment fits in its field. -/
theorem ipFrag_right_iff (p : Outgoing) (mtu : ℕ) (h : p.Cuttable mtu) :
    p.CutRight mtu ↔
      p.Whole mtu ∧ p.iphdr.offBits.toNat + p.full mtu * ((mtu - IP_HLEN) / 8) < 2^13 := by
  have hcut := h.ipFrag_cut
  split at hcut
  · next hwhole =>
    rw [and_iff_right hwhole]
    obtain ⟨sent, hok, hsent⟩ := hcut
    have hlen := Cuttable.length_sent hsent
    -- The fragments that were sent are the cuts of the payload.
    constructor
    · rintro ⟨sent', hok', -, hright⟩
      obtain rfl : sent' = sent := Except.ok.inj (hok'.symm.trans hok)
      -- The last fragment is farthest out.
      have hlast : sent'[p.full mtu]? = some (sent'.get ⟨p.full mtu, by omega⟩) :=
        List.getElem?_eq_getElem _
      exact (h.fragRight_iff hsent hlast).mp (hright _ _ hlast)
    · intro hlt
      refine ⟨sent, hok, ?_, fun k r hr => (h.fragRight_iff hsent hr).mpr ?_⟩
      · rw [List.flatMap_def, Cuttable.data_of_sent hsent, ← List.flatMap_def, flatMap_parts]
      · have hk := (Cuttable.of_sent hsent hr).1
        have hle : k * ((mtu - IP_HLEN) / 8) ≤ p.full mtu * ((mtu - IP_HLEN) / 8) :=
          Nat.mul_le_mul_right _ hk
        omega
  · next hwhole =>
    refine iff_of_false ?_ fun hc => hwhole hc.1
    rintro ⟨sent, hok, -⟩
    rw [hcut] at hok
    cases hok

/-- The second half of a datagram in two pbufs, the last one empty. -/
def secondHalf : Outgoing :=
  { onePbuf 100 with iphdr := { (onePbuf 100).iphdr with offset := 0x2010 }, rest := [[]] }

/-- The second half of a packet is cut up as it should be. -/
theorem ipFrag_right_iff_secondHalf : secondHalf.Cuttable 60 ∧ secondHalf.CutRight 60 := by
  have h : secondHalf.Cuttable 60 := ⟨by decide +kernel, by decide +kernel, by decide +kernel⟩
  exact ⟨h, (ipFrag_right_iff secondHalf 60 h).mpr (by decide +kernel)⟩

/-- Twenty octets are not sent eight at a time. -/
theorem twenty_octets_not_cut : (onePbuf 20).Cuttable 28 ∧ ¬ (onePbuf 20).CutRight 28 := by
  refine ⟨⟨by decide +kernel, by decide +kernel, by decide +kernel⟩, ?_⟩
  rintro ⟨sent, hsent, -⟩
  have habort : ipFrag (onePbuf 20) 28 = .error .notInOnePiece := by decide +kernel
  rw [habort] at hsent
  cases hsent

end Outgoing

end Lwip.Ip
