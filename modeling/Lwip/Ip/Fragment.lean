import Lwip.Ip.Reass
import Mathlib.Data.List.Range
import Mathlib.Tactic.Ring

/-!
# IP fragmentation

`ip_frag` of `ip_frag.c` without the static buffer (`IP_FRAG_USES_STATIC_BUF` is 0), as long as no
allocation fails. A pbuf of the chain that is cut up is the list of the octets it has left, the
first one starts with the header. A fragment is the header in `rambuf` with the `PBUF_REF`s behind
it.

The loop checks in every round that the pbuf it is in holds an IP header, although it copies the
header from where it was before the first round. `Whole` says which packets get through, and
`ipFrag_eq` what they are cut up to.
-/

namespace Lwip.Ip

/-- What stops `ip_frag`. -/
inductive FragAbort where
  /-- `this needs a pbuf in one piece!` -/
  | notInOnePiece
  /-- Not an assertion: the end of the chain is read. -/
  | nullPointer
  deriving DecidableEq, Repr

/-- A packet as `ip_frag` gets it, in a chain whose first pbuf holds the header. -/
structure Outgoing where
  iphdr : IpHdr
  /-- The octets behind the header in the first pbuf. -/
  first : List UInt8
  /-- The other pbufs. -/
  rest : List (List UInt8)
  deriving DecidableEq, Repr

/-- `rambuf` as it is passed to `netif->output`. -/
structure Rambuf where
  iphdr : IpHdr
  /-- The octets of each `PBUF_REF`. -/
  refs : List (List UInt8)
  deriving DecidableEq, Repr

/-- The fragment received in a single pbuf. -/
def Rambuf.received (rambuf : Rambuf) : Frag := ⟨rambuf.iphdr, rambuf.refs.flatten, 1⟩

namespace Outgoing

/-- The pbuf chain `p`. -/
def chain (p : Outgoing) : List (List UInt8) := (p.iphdr.octets ++ p.first) :: p.rest

/-- `p->tot_len`. -/
def tot_len (p : Outgoing) : ℕ := p.chain.flatten.length

end Outgoing

/-- The inner loop of `ip_frag`, from the pbuf `p` on with something left to copy. It ends with the
`PBUF_REF`s, the chain from the pbuf it ended in and `newpbuflen`. -/
def mirrorLoop (left_to_copy : ℕ) :
    List (List UInt8) → Except FragAbort (List (List UInt8) × List (List UInt8) × ℕ)
  | [] => .error .nullPointer
  | p :: next =>
    let newpbuflen := if left_to_copy < p.length then left_to_copy else p.length
    if newpbuflen = 0 then mirrorLoop left_to_copy next
    else if left_to_copy - newpbuflen ≠ 0 then
      mirrorLoop (left_to_copy - newpbuflen) next >>= fun x =>
      .ok (p.take newpbuflen :: x.1, x.2)
    else .ok ([p.take newpbuflen], p :: next, newpbuflen)

/-- The header of a fragment. -/
def fragHdr (original_iphdr : IpHdr) (tmp : BitVec 16) (cop : ℕ) : IpHdr :=
  let iphdr := { original_iphdr with
    offset := tmp, len := BitVec.ofNat 16 (cop + IP_HLEN), chksum := 0#16 }
  { iphdr with chksum := inetChksum iphdr.octets }

/-- The outer loop of `ip_frag`. The first argument bounds the number of rounds. -/
def fragLoop (original_iphdr : IpHdr) (omf : BitVec 16) (mtu nfb : ℕ) :
    ℕ → List (List UInt8) → ℕ → ℕ → BitVec 16 → Except FragAbort (List Rambuf)
  | 0, _, _, _, _ => .ok []
  | n + 1, p, poff, left, ofo =>
    if left = 0 then .ok []
    else
      let last := left ≤ mtu - IP_HLEN
      let tmp := omf ||| (IP_OFFMASK &&& ofo)
      let tmp := if last then tmp else tmp ||| IP_MF
      let cop := if last then left else nfb * 8
      match p with
      | [] => .error .nullPointer
      | p :: next =>
        lwipAssert .notInOnePiece (IP_HLEN ≤ p.length) >>= fun _ =>
        mirrorLoop cop (p.drop poff :: next) >>= fun x =>
        fragLoop original_iphdr omf mtu nfb n x.2.1 x.2.2 (left - cop) (ofo + BitVec.ofNat 16 nfb)
          >>= fun sent =>
        .ok (⟨fragHdr original_iphdr tmp cop, x.1⟩ :: sent)

/-- `ip_frag(p, netif, dest)`, with what it passes to `netif->output`. It comes to an end when there
is room for eight octets behind a header, and then needs no more rounds than there are octets. -/
def ipFrag (p : Outgoing) (mtu : ℕ) : Except FragAbort (List Rambuf) :=
  let tmp := p.iphdr.offset
  let left := p.tot_len - IP_HLEN
  fragLoop p.iphdr (tmp &&& IP_MF) mtu ((mtu - IP_HLEN) / 8) left p.chain IP_HLEN left
    (tmp &&& IP_OFFMASK)

/-! ## What the packet is cut up to -/

namespace Outgoing

variable (p : Outgoing) (mtu : ℕ)

/-- The payload of the packet. -/
def payload : List UInt8 := (p.first :: p.rest).flatten

/-- The octets in a fragment that is not the last one. -/
def unit (mtu : ℕ) : ℕ := (mtu - IP_HLEN) / 8 * 8

/-- The number of fragments in front of the last one. -/
def full : ℕ := (p.payload.length - (mtu - IP_HLEN) + unit mtu - 1) / unit mtu

/-- The octets of the payload in the fragment `k`. -/
def part (k : ℕ) : List UInt8 :=
  if k < p.full mtu then (p.payload.drop (k * unit mtu)).take (unit mtu)
  else p.payload.drop (k * unit mtu)

/-- The offset field of the fragment `k`. -/
def partOffset (k : ℕ) : BitVec 16 :=
  let ofo := IP_OFFMASK &&& BitVec.ofNat 16 (k * ((mtu - IP_HLEN) / 8))
  if k < p.full mtu then ofo ||| IP_MF else ofo

/-- The fragment `k`, received in a single pbuf. -/
def fragment (k : ℕ) : Frag :=
  ⟨fragHdr p.iphdr (p.partOffset mtu k) (p.part mtu k).length, p.part mtu k, 1⟩

/-- The offset field of the fragment `k` of a packet that may be a fragment itself. -/
def offsetAt (k : ℕ) : BitVec 16 :=
  let ofo := (p.iphdr.offset &&& IP_OFFMASK) + BitVec.ofNat 16 (k * ((mtu - IP_HLEN) / 8))
  let tmp := p.iphdr.offset &&& IP_MF ||| (IP_OFFMASK &&& ofo)
  if k < p.full mtu then tmp ||| IP_MF else tmp

/-- The fragment `k` of such a packet. -/
def cut (k : ℕ) : Frag :=
  ⟨fragHdr p.iphdr (p.offsetAt mtu k) (p.part mtu k).length, p.part mtu k, 1⟩

/-- The fragments from `k` on. -/
def cutsFrom (k : ℕ) : List Frag := (List.range' k (p.full mtu + 1 - k)).map (p.cut mtu)

/-- The fragments of a whole datagram from `k` on. -/
def fragmentsFrom (k : ℕ) : List Frag :=
  (List.range' k (p.full mtu + 1 - k)).map (p.fragment mtu)

/-- Where each pbuf of a chain starts and ends, for a chain that starts at `i`. -/
def spans (i : ℕ) : List (List UInt8) → List (ℕ × ℕ)
  | [] => []
  | b :: next => (i, i + b.length) :: spans (i + b.length) next

/-- The pbuf in which the fragment in front of the fragment `k` ended holds `IP_HLEN` octets from
where that fragment or the pbuf started. -/
def HoldsHdr (k : ℕ) : Prop :=
  ∀ x ∈ spans 0 (p.first :: p.rest), x.1 < k * unit mtu → k * unit mtu ≤ x.2 →
    IP_HLEN ≤ x.2 - max x.1 ((k - 1) * unit mtu)

instance (k : ℕ) : Decidable (p.HoldsHdr mtu k) :=
  inferInstanceAs (Decidable (∀ x ∈ spans 0 (p.first :: p.rest), _ → _ → _))

/-- At every fragment but the first. -/
def Whole : Prop := ∀ k < p.full mtu, p.HoldsHdr mtu (k + 1)

instance : Decidable (p.Whole mtu) :=
  inferInstanceAs (Decidable (∀ k < p.full mtu, p.HoldsHdr mtu (k + 1)))

/-- A packet with some payload, and an MTU with room for eight octets of it. -/
structure Cuttable : Prop where
  pos : 0 < p.payload.length
  fits : p.tot_len ≤ 0xffff
  mtu_ge : IP_HLEN + 8 ≤ mtu

/-- A whole datagram with a header without options that does not fit in the MTU. -/
structure TooBig : Prop where
  hl : p.iphdr.hl * 4 = IP_HLEN
  not_frag : p.iphdr.offset &&& (IP_OFFMASK ||| IP_MF) = 0
  fits : p.tot_len ≤ 0xffff
  mtu_ge : IP_HLEN + 8 ≤ mtu
  mtu_lt : mtu < p.tot_len

instance : Decidable (p.TooBig mtu) :=
  decidable_of_iff (p.iphdr.hl * 4 = IP_HLEN ∧ p.iphdr.offset &&& (IP_OFFMASK ||| IP_MF) = 0 ∧
      p.tot_len ≤ 0xffff ∧ IP_HLEN + 8 ≤ mtu ∧ mtu < p.tot_len)
    ⟨fun ⟨h₁, h₂, h₃, h₄, h₅⟩ => ⟨h₁, h₂, h₃, h₄, h₅⟩,
      fun h => ⟨h.hl, h.not_frag, h.fits, h.mtu_ge, h.mtu_lt⟩⟩

/-! ## The pbufs of the chain -/

/-- A pbuf lies inside of the chain. -/
theorem le_of_mem_spans {i : ℕ} {l : List (List UInt8)} {x : ℕ × ℕ} (h : x ∈ spans i l) :
    i ≤ x.1 ∧ x.2 ≤ i + l.flatten.length := by
  induction l generalizing i with
  | nil => cases h
  | cons b l ih =>
    rw [List.flatten_cons, List.length_append]
    rcases List.mem_cons.mp h with rfl | h
    · exact ⟨le_rfl, by dsimp only; omega⟩
    · obtain ⟨hle, hge⟩ := ih h
      exact ⟨by omega, by omega⟩

/-- Where the pbufs of two chains lie. -/
theorem spans_append (i : ℕ) (l l' : List (List UInt8)) :
    spans i (l ++ l') = spans i l ++ spans (i + l.flatten.length) l' := by
  induction l generalizing i with
  | nil => rfl
  | cons b l ih =>
    rw [List.cons_append, spans, spans, ih, List.flatten_cons, List.length_append, Nat.add_assoc]
    rfl

variable {p mtu}

/-- Only one pbuf has the last octet of a fragment in it. -/
theorem holdsHdr_iff {pre post : List (List UInt8)} {b : List UInt8} {k : ℕ}
    (h : p.first :: p.rest = pre ++ b :: post) (hlt : pre.flatten.length < k * unit mtu)
    (hle : k * unit mtu ≤ pre.flatten.length + b.length) :
    p.HoldsHdr mtu k ↔
      IP_HLEN ≤ pre.flatten.length + b.length - max pre.flatten.length ((k - 1) * unit mtu) := by
  have hspans : spans 0 (p.first :: p.rest) = spans 0 pre ++
      (pre.flatten.length, pre.flatten.length + b.length) ::
        spans (pre.flatten.length + b.length) post := by
    rw [h, spans_append, Nat.zero_add]
    rfl
  rw [HoldsHdr, hspans]
  constructor
  · intro hall
    exact hall _ (List.mem_append_right _ List.mem_cons_self) hlt hle
  · intro hhdr x hx hxlt hxle
    rcases List.mem_append.mp hx with hx | hx
    · have := (le_of_mem_spans hx).2
      omega
    · rcases List.mem_cons.mp hx with rfl | hx
      · exact hhdr
      · have := (le_of_mem_spans hx).1
        omega

/-- What is left of the chain from the octet `c` of the payload on: `b` in the pbuf that `c` is in
or that ends there, and the pbufs `next`. -/
def Left (p : Outgoing) (c : ℕ) (b : List UInt8) (next : List (List UInt8)) : Prop :=
  ∃ pre whole, p.first :: p.rest = pre ++ whole :: next ∧ pre.flatten.length ≤ c ∧
    c ≤ pre.flatten.length + whole.length ∧ b = whole.drop (c - pre.flatten.length)

/-- What is left is the rest of the payload. -/
theorem Left.payload {c : ℕ} {b : List UInt8} {next : List (List UInt8)} (h : p.Left c b next) :
    (b :: next).flatten = p.payload.drop c := by
  obtain ⟨pre, whole, heq, hle, hge, rfl⟩ := h
  rw [Outgoing.payload, heq, List.flatten_append, List.flatten_cons, List.flatten_cons,
    List.drop_append, List.drop_append, List.drop_eq_nil_of_le hle, List.nil_append]
  rw [Nat.sub_eq_zero_of_le (by omega : c - pre.flatten.length ≤ whole.length), List.drop_zero]

end Outgoing

/-- The inner loop ends in the pbuf that has the last octet to copy. -/
theorem mirrorLoop_eq {left_to_copy : ℕ} {p : List (List UInt8)} (hpos : 0 < left_to_copy)
    (hle : left_to_copy ≤ p.flatten.length) :
    ∃ refs pre b next, p = pre ++ b :: next ∧ pre.flatten.length < left_to_copy ∧
      left_to_copy ≤ pre.flatten.length + b.length ∧
      mirrorLoop left_to_copy p = .ok (refs, b :: next, left_to_copy - pre.flatten.length) ∧
      refs.flatten = p.flatten.take left_to_copy := by
  induction p generalizing left_to_copy with
  | nil =>
    rw [List.flatten_nil, List.length_nil] at hle
    omega
  | cons b next ih =>
    rw [List.flatten_cons, List.length_append] at hle
    rw [mirrorLoop]
    by_cases hlt : b.length < left_to_copy
    · -- The whole pbuf is copied, if there is anything in it.
      obtain ⟨refs, pre, b', next', heq, hlt', hle', hloop, hrefs⟩ :=
        ih (Nat.sub_pos_of_lt hlt) (by omega : left_to_copy - b.length ≤ _)
      have hcopy : (if left_to_copy < b.length then left_to_copy else b.length) = b.length :=
        if_neg (by omega)
      have hcut : (b :: next).flatten.take left_to_copy =
          b ++ next.flatten.take (left_to_copy - b.length) := by
        rw [List.flatten_cons, List.take_append, List.take_of_length_le hlt.le]
      have hpoff : left_to_copy - b.length - pre.flatten.length =
          left_to_copy - (b :: pre).flatten.length := by
        rw [List.flatten_cons, List.length_append]
        omega
      rw [hpoff] at hloop
      rw [hcopy]
      by_cases hempty : b.length = 0
      · rw [hempty, Nat.sub_zero] at hloop hcut
        rw [if_pos hempty, hloop]
        refine ⟨refs, b :: pre, b', next', by rw [heq]; rfl, ?_, ?_, rfl, ?_⟩
        · rw [List.flatten_cons, List.length_append]
          omega
        · rw [List.flatten_cons, List.length_append]
          omega
        · rw [hcut, hrefs, hempty, List.length_eq_zero_iff.mp hempty]
          rfl
      · rw [if_neg hempty, if_pos (by omega), hloop, List.take_length]
        refine ⟨b :: refs, b :: pre, b', next', by rw [heq]; rfl, ?_, ?_, rfl, ?_⟩
        · rw [List.flatten_cons, List.length_append]
          omega
        · rw [List.flatten_cons, List.length_append]
          omega
        · rw [hcut, List.flatten_cons, hrefs]
    · -- The loop ends in this pbuf.
      have hcopy : (if left_to_copy < b.length then left_to_copy else b.length) = left_to_copy := by
        split <;> omega
      rw [hcopy, if_neg (by omega), if_neg (by omega)]
      refine ⟨[b.take left_to_copy], [], b, next, rfl, hpos, ?_, rfl, ?_⟩
      · rw [List.flatten_nil, List.length_nil]
        omega
      · rw [List.flatten_singleton, List.flatten_cons, List.take_append_of_le_length (by omega)]

namespace Outgoing

variable {p : Outgoing} {mtu : ℕ}

/-- A round of the outer loop copies the next octets of the payload, and goes on where they end. -/
theorem Left.mirror {c cop : ℕ} {b : List UInt8} {next : List (List UInt8)} (h : p.Left c b next)
    (hpos : 0 < cop) (hle : c + cop ≤ p.payload.length) :
    ∃ refs b' next' poff, mirrorLoop cop (b :: next) = .ok (refs, b' :: next', poff) ∧
      refs.flatten = (p.payload.drop c).take cop ∧ p.Left (c + cop) (b'.drop poff) next' ∧
      ∀ k, c = k * unit mtu → cop = unit mtu →
        (IP_HLEN ≤ b'.length ↔ p.HoldsHdr mtu (k + 1)) := by
  have hpayload := h.payload
  have hlen : cop ≤ (b :: next).flatten.length := by
    rw [hpayload, List.length_drop]
    omega
  obtain ⟨refs, pre, b', next', heq, hlt, hge, hloop, hrefs⟩ := mirrorLoop_eq hpos hlen
  obtain ⟨front, whole, hchain, hfront, hwhole, hb⟩ := h
  refine ⟨refs, b', next', _, hloop, by rw [hrefs, hpayload], ?_⟩
  cases pre with
  | nil =>
    -- The fragment ends in the pbuf it starts in.
    obtain ⟨rfl, rfl⟩ := List.cons_eq_cons.mp heq
    rw [List.flatten_nil, List.length_nil] at hge ⊢
    have hblen : b.length = whole.length - (c - front.flatten.length) := by
      rw [hb, List.length_drop]
    refine ⟨⟨front, whole, hchain, by omega, by omega, ?_⟩, fun k hc hcop => ?_⟩
    · rw [hb, List.drop_drop]
      congr 1
      omega
    · have hnext : (k + 1) * unit mtu = c + cop := by rw [hc, hcop]; ring
      rw [holdsHdr_iff hchain (by omega) (by omega), Nat.add_sub_cancel, ← hc]
      omega
  | cons b₀ pre =>
    obtain ⟨rfl, rfl⟩ := List.cons_eq_cons.mp heq
    have hblen : b.length = whole.length - (c - front.flatten.length) := by
      rw [hb, List.length_drop]
    have hstart : (front ++ whole :: pre).flatten.length = c + (b :: pre).flatten.length := by
      simp only [List.flatten_append, List.flatten_cons, List.length_append]
      omega
    have hchain' : p.first :: p.rest = (front ++ whole :: pre) ++ b' :: next' := by
      rw [hchain]
      simp
    refine ⟨⟨_, b', hchain', by omega, by omega, ?_⟩, fun k hc hcop => ?_⟩
    · congr 1
      omega
    · have hnext : (k + 1) * unit mtu = c + cop := by rw [hc, hcop]; ring
      rw [holdsHdr_iff hchain' (by omega) (by omega), Nat.add_sub_cancel, ← hc]
      omega

/-! ## The fragments -/

/-- The total length of a packet. -/
theorem tot_len_eq : p.tot_len = IP_HLEN + p.payload.length := by
  rw [tot_len, chain, payload, List.flatten_cons, List.flatten_cons, List.append_assoc,
    List.length_append, IpHdr.length_octets]

/-- The outer loop at the fragment `k`, in the chain `q`. -/
def loopAt (p : Outgoing) (mtu n k : ℕ) (q : List (List UInt8)) (poff : ℕ) :
    Except FragAbort (List Rambuf) :=
  fragLoop p.iphdr (p.iphdr.offset &&& IP_MF) mtu ((mtu - IP_HLEN) / 8) n q poff
    (p.payload.length - k * unit mtu)
    ((p.iphdr.offset &&& IP_OFFMASK) + BitVec.ofNat 16 (k * ((mtu - IP_HLEN) / 8)))

namespace Cuttable

variable (h : p.Cuttable mtu)

include h

/-- A fragment carries eight octets at least. -/
theorem unit_pos : 0 < unit mtu := by
  have := h.mtu_ge
  unfold unit
  omega

/-- The loop takes a fragment for the last one when the rest of the payload fits in the MTU. -/
theorem lt_full_iff {k : ℕ} :
    k < p.full mtu ↔ k * unit mtu + (mtu - IP_HLEN) < p.payload.length := by
  have hpos := h.unit_pos
  have hsucc : (k + 1) * unit mtu = k * unit mtu + unit mtu := by ring
  rw [← Nat.succ_le_iff, full, Nat.le_div_iff_mul_le hpos, Nat.succ_eq_add_one, hsucc]
  omega

/-- There is something left for the last fragment. -/
theorem mul_unit_lt {k : ℕ} (hk : k ≤ p.full mtu) : k * unit mtu < p.payload.length := by
  cases k with
  | zero => exact (Nat.zero_mul _).trans_lt h.pos
  | succ k =>
    have hfits := h.lt_full_iff.mp hk
    have hle : unit mtu ≤ mtu - IP_HLEN := Nat.div_mul_le_self _ 8
    have hsucc : (k + 1) * unit mtu = k * unit mtu + unit mtu := by ring
    omega

/-- Every fragment but the last has room for as many octets. -/
theorem length_part {k : ℕ} (hk : k < p.full mtu) : (p.part mtu k).length = unit mtu := by
  have hfits : (k + 1) * unit mtu < p.payload.length := h.mul_unit_lt hk
  have hsucc : (k + 1) * unit mtu = k * unit mtu + unit mtu := by ring
  rw [part, if_pos hk, List.length_take, List.length_drop]
  omega

omit h in
/-- The last fragment has the rest. -/
theorem length_part_full :
    (p.part mtu (p.full mtu)).length = p.payload.length - p.full mtu * unit mtu := by
  rw [part, if_neg (lt_irrefl _), List.length_drop]

/-- What a round copies is a part of the payload, and goes on with the check that the next round
makes. -/
theorem mirror_part {k : ℕ} (hk : k ≤ p.full mtu) {b : List UInt8} {next : List (List UInt8)}
    (hl : p.Left (k * unit mtu) b next) :
    ∃ refs b' next' poff,
      mirrorLoop (p.part mtu k).length (b :: next) = .ok (refs, b' :: next', poff) ∧
      refs.flatten = p.part mtu k ∧
      (k < p.full mtu → p.Left ((k + 1) * unit mtu) (b'.drop poff) next' ∧
        (IP_HLEN ≤ b'.length ↔ p.HoldsHdr mtu (k + 1))) := by
  have hlt := h.mul_unit_lt hk
  have hpos := h.unit_pos
  have hlen : 0 < (p.part mtu k).length ∧
      k * unit mtu + (p.part mtu k).length ≤ p.payload.length := by
    rcases hk.lt_or_eq with hk | rfl
    · have hfits : (k + 1) * unit mtu < p.payload.length := h.mul_unit_lt hk
      have hsucc : (k + 1) * unit mtu = k * unit mtu + unit mtu := by ring
      rw [h.length_part hk]
      omega
    · rw [length_part_full]
      omega
  obtain ⟨refs, b', next', poff, hloop, hrefs, hleft, hhdr⟩ := hl.mirror hlen.1 hlen.2
  refine ⟨refs, b', next', poff, hloop, ?_, fun hk => ?_⟩
  · rw [hrefs]
    rcases hk.lt_or_eq with hk | rfl
    · rw [h.length_part hk, part, if_pos hk]
    · rw [length_part_full, part, if_neg (lt_irrefl _), ← List.length_drop, List.take_length]
  · have hsucc : (k + 1) * unit mtu = k * unit mtu + unit mtu := by ring
    refine ⟨?_, hhdr k rfl (h.length_part hk)⟩
    rw [h.length_part hk] at hleft
    rw [hsucc]
    exact hleft

/-- A round with the check passed, in the pbuf `b` of which `poff` octets are used up. -/
theorem loopAt_succ {n k poff : ℕ} {b : List UInt8} {next : List (List UInt8)}
    (hk : k ≤ p.full mtu) (hl : p.Left (k * unit mtu) (b.drop poff) next)
    (hroom : IP_HLEN ≤ b.length) :
    ∃ rambuf b' next' poff', rambuf.received = p.cut mtu k ∧
      (k < p.full mtu → p.Left ((k + 1) * unit mtu) (b'.drop poff') next' ∧
        (IP_HLEN ≤ b'.length ↔ p.HoldsHdr mtu (k + 1))) ∧
      p.loopAt mtu (n + 1) k (b :: next) poff =
        if k < p.full mtu then
          p.loopAt mtu n (k + 1) (b' :: next') poff' >>= fun sent => .ok (rambuf :: sent)
        else .ok [rambuf] := by
  have hlt := h.mul_unit_lt hk
  have hlast : p.payload.length - k * unit mtu ≤ mtu - IP_HLEN ↔ ¬k < p.full mtu := by
    rw [h.lt_full_iff]
    omega
  have hcop : (if p.payload.length - k * unit mtu ≤ mtu - IP_HLEN then
      p.payload.length - k * unit mtu else (mtu - IP_HLEN) / 8 * 8) = (p.part mtu k).length := by
    by_cases hfull : k < p.full mtu
    · rw [if_neg (fun hle => hlast.mp hle hfull), h.length_part hfull]
      rfl
    · obtain rfl : k = p.full mtu := by omega
      rw [if_pos (hlast.mpr hfull), length_part_full]
  have htmp : (if p.payload.length - k * unit mtu ≤ mtu - IP_HLEN then
      p.iphdr.offset &&& IP_MF ||| (IP_OFFMASK &&& ((p.iphdr.offset &&& IP_OFFMASK) +
        BitVec.ofNat 16 (k * ((mtu - IP_HLEN) / 8))))
      else p.iphdr.offset &&& IP_MF ||| (IP_OFFMASK &&& ((p.iphdr.offset &&& IP_OFFMASK) +
        BitVec.ofNat 16 (k * ((mtu - IP_HLEN) / 8)))) ||| IP_MF) = p.offsetAt mtu k := by
    rw [offsetAt]
    by_cases hfull : k < p.full mtu
    · rw [if_neg (fun hle => hlast.mp hle hfull)]
      exact (if_pos hfull).symm
    · rw [if_pos (hlast.mpr hfull)]
      exact (if_neg hfull).symm
  obtain ⟨refs, b', next', poff', hloop, hrefs, hgo⟩ := h.mirror_part hk hl
  refine ⟨⟨fragHdr p.iphdr (p.offsetAt mtu k) (p.part mtu k).length, refs⟩, b', next', poff',
    by rw [Rambuf.received, hrefs]; rfl, hgo, ?_⟩
  rw [loopAt, fragLoop, if_neg (by omega)]
  dsimp only
  rw [hcop, htmp, (lwipAssert_eq_ok (u := ())).mpr hroom, hloop]
  by_cases hfull : k < p.full mtu
  · have hleft : p.payload.length - k * unit mtu - (p.part mtu k).length =
        p.payload.length - (k + 1) * unit mtu := by
      have hsucc : (k + 1) * unit mtu = k * unit mtu + unit mtu := by ring
      rw [h.length_part hfull]
      omega
    have hofo : (p.iphdr.offset &&& IP_OFFMASK) + BitVec.ofNat 16 (k * ((mtu - IP_HLEN) / 8)) +
        BitVec.ofNat 16 ((mtu - IP_HLEN) / 8) =
          (p.iphdr.offset &&& IP_OFFMASK) + BitVec.ofNat 16 ((k + 1) * ((mtu - IP_HLEN) / 8)) := by
      rw [BitVec.add_assoc, ← BitVec.ofNat_add]
      congr 2
      ring
    rw [if_pos hfull, loopAt, ← hleft, ← hofo]
    rfl
  · -- Nothing is left behind the last fragment.
    have hleft : p.payload.length - k * unit mtu - (p.part mtu k).length = 0 := by
      obtain rfl : k = p.full mtu := by omega
      rw [length_part_full, Nat.sub_self]
    have hend : ∀ q i ofo, fragLoop p.iphdr (p.iphdr.offset &&& IP_MF) mtu ((mtu - IP_HLEN) / 8) n q
        i 0 ofo = .ok [] := by
      intro q i ofo
      cases n <;> rfl
    rw [if_neg hfull, hleft]
    change (fragLoop p.iphdr _ mtu ((mtu - IP_HLEN) / 8) n _ _ 0 _ >>= fun sent => _) = _
    rw [hend]
    rfl

/-- A round with the check failed. -/
theorem loopAt_abort {n k poff : ℕ} {b : List UInt8} {next : List (List UInt8)}
    (hk : k ≤ p.full mtu) (hroom : ¬IP_HLEN ≤ b.length) :
    p.loopAt mtu (n + 1) k (b :: next) poff = .error .notInOnePiece := by
  have hlt := h.mul_unit_lt hk
  rw [loopAt, fragLoop, if_neg (by omega)]
  dsimp only
  rw [lwipAssert, if_neg hroom]
  rfl

/-- The loop from the fragment `k` on gets to its end if and only if every further check finds room
for a header. -/
theorem loopAt_eq {n k poff : ℕ} {b : List UInt8} {next : List (List UInt8)}
    (hk : k ≤ p.full mtu) (hn : p.full mtu - k < n)
    (hl : p.Left (k * unit mtu) (b.drop poff) next) (hroom : IP_HLEN ≤ b.length) :
    if ∀ i < p.full mtu, k ≤ i → p.HoldsHdr mtu (i + 1) then
      ∃ sent, p.loopAt mtu n k (b :: next) poff = .ok sent ∧
        sent.map Rambuf.received = p.cutsFrom mtu k
    else p.loopAt mtu n k (b :: next) poff = .error .notInOnePiece := by
  obtain ⟨j, hj⟩ : ∃ j, p.full mtu = k + j := Nat.exists_eq_add_of_le hk
  induction j generalizing n k poff b next with
  | zero =>
    obtain ⟨n, rfl⟩ : ∃ n', n = n' + 1 := Nat.exists_eq_succ_of_ne_zero (by omega)
    obtain ⟨rambuf, b', next', poff', hrec, -, hloop⟩ := h.loopAt_succ (n := n) hk hl hroom
    rw [if_pos (fun i hi hki => by omega), hloop, if_neg (by omega)]
    refine ⟨[rambuf], rfl, ?_⟩
    have hone : p.full mtu + 1 - k = 1 := by omega
    rw [cutsFrom, hone, List.map_singleton, hrec]
    rfl
  | succ j ih =>
    obtain ⟨n, rfl⟩ : ∃ n', n = n' + 1 := Nat.exists_eq_succ_of_ne_zero (by omega)
    obtain ⟨rambuf, b', next', poff', hrec, hgo, hloop⟩ := h.loopAt_succ (n := n) hk hl hroom
    have hfull : k < p.full mtu := by omega
    obtain ⟨hleft, hhdr⟩ := hgo hfull
    rw [hloop, if_pos hfull]
    by_cases hnext : p.HoldsHdr mtu (k + 1)
    · have hih := ih (n := n) hfull (by omega) hleft (hhdr.mpr hnext) (by omega)
      have hall : (∀ i < p.full mtu, k ≤ i → p.HoldsHdr mtu (i + 1)) ↔
          ∀ i < p.full mtu, k + 1 ≤ i → p.HoldsHdr mtu (i + 1) := by
        constructor
        · exact fun hall i hi hki => hall i hi (by omega)
        · intro hall i hi hki
          rcases hki.eq_or_lt with rfl | hki
          · exact hnext
          · exact hall i hi hki
      rw [if_congr hall rfl rfl]
      split at hih
      · next hc =>
        obtain ⟨sent, hsent, hmap⟩ := hih
        rw [if_pos hc, hsent]
        refine ⟨rambuf :: sent, rfl, ?_⟩
        have hcount : p.full mtu + 1 - k = (p.full mtu + 1 - (k + 1)) + 1 := by omega
        rw [cutsFrom, hcount, List.range'_succ, List.map_cons, List.map_cons, hrec, hmap]
        rfl
      · next hc =>
        rw [if_neg hc, hih]
        rfl
    · obtain ⟨n, rfl⟩ : ∃ n', n = n' + 1 := Nat.exists_eq_succ_of_ne_zero (by omega)
      rw [if_neg (fun hall => hnext (hall k hfull le_rfl)),
        h.loopAt_abort hfull (fun hle => hnext (hhdr.mp hle))]
      rfl

/-- The packet is cut up to its fragments, or runs into the assertion. -/
theorem ipFrag_cut :
    if p.Whole mtu then ∃ sent, ipFrag p mtu = .ok sent ∧
    sent.map Rambuf.received = p.cutsFrom mtu 0
    else ipFrag p mtu = .error .notInOnePiece := by
  have hleft : p.tot_len - IP_HLEN = p.payload.length := by
    rw [tot_len_eq, Nat.add_sub_cancel_left]
  have heq : ipFrag p mtu = p.loopAt mtu p.payload.length 0 p.chain IP_HLEN := by
    rw [ipFrag, loopAt, Nat.zero_mul, Nat.zero_mul, Nat.sub_zero, hleft, BitVec.add_zero]
  have hfirst : p.Left (0 * unit mtu) ((p.iphdr.octets ++ p.first).drop IP_HLEN) p.rest := by
    rw [Nat.zero_mul, ← IpHdr.length_octets p.iphdr, List.drop_left]
    exact ⟨[], p.first, rfl, le_rfl, Nat.zero_le _, rfl⟩
  have hroom : IP_HLEN ≤ (p.iphdr.octets ++ p.first).length := by
    rw [List.length_append, IpHdr.length_octets]
    omega
  have hbound : p.full mtu - 0 < p.payload.length := by
    have hfits := h.mul_unit_lt le_rfl
    have hle : p.full mtu * 1 ≤ p.full mtu * unit mtu := Nat.mul_le_mul_left _ h.unit_pos
    omega
  have hloop := h.loopAt_eq (Nat.zero_le _) hbound hfirst hroom
  have hwhole : (∀ i < p.full mtu, 0 ≤ i → p.HoldsHdr mtu (i + 1)) ↔ p.Whole mtu :=
    forall_congr' fun i => forall_congr' fun _ => forall_prop_of_true (Nat.zero_le i)
  rw [heq]
  rwa [if_congr hwhole rfl rfl] at hloop

end Cuttable

/-! ## The fields and the parts of a fragment -/

section Fields

variable {k : ℕ}

/-- The offset as a number. -/
theorem toNat_offmask (x : BitVec 16) : (IP_OFFMASK &&& x).toNat = x.toNat % 2^13 := by
  have hmask : IP_OFFMASK.toNat = 2^13 - 1 := rfl
  rw [BitVec.and_comm, BitVec.toNat_and, hmask, Nat.and_two_pow_sub_one_eq_mod]

/-- The offset bits are not the flag. -/
theorem offmask_mf (x : BitVec 16) : IP_OFFMASK &&& x &&& IP_MF = 0#16 := by
  have hmf : IP_MF &&& IP_OFFMASK = 0#16 := by decide
  rw [BitVec.and_comm, ← BitVec.and_assoc, hmf, BitVec.zero_and]

/-- The flag is not an offset bit. -/
theorem mf_offmask (x : BitVec 16) : x &&& IP_MF &&& IP_OFFMASK = 0#16 := by
  have hmf : IP_MF &&& IP_OFFMASK = 0#16 := by decide
  rw [BitVec.and_assoc, hmf, BitVec.and_zero]

/-- The offset of a fragment, as far as it fits in the field. -/
theorem Cuttable.offBits_offsetAt (h : p.Cuttable mtu) (hk : k ≤ p.full mtu) :
    (p.offsetAt mtu k &&& IP_OFFMASK).toNat =
      (p.iphdr.offBits.toNat + k * ((mtu - IP_HLEN) / 8)) % 2^13 := by
  have hlt := h.mul_unit_lt hk
  have hfits := h.fits
  have hunit : k * unit mtu = k * ((mtu - IP_HLEN) / 8) * 8 := (Nat.mul_assoc _ _ 8).symm
  have hmf : IP_MF &&& IP_OFFMASK = 0#16 := by decide
  have hofo : p.offsetAt mtu k &&& IP_OFFMASK =
      IP_OFFMASK &&& (p.iphdr.offBits + BitVec.ofNat 16 (k * ((mtu - IP_HLEN) / 8))) := by
    rw [offsetAt]
    split
    · rw [BitVec.and_or_distrib_right, hmf, BitVec.or_zero, BitVec.and_or_distrib_right, mf_offmask,
        BitVec.zero_or, BitVec.and_comm, ← BitVec.and_assoc, BitVec.and_self]
      rfl
    · rw [BitVec.and_or_distrib_right, mf_offmask, BitVec.zero_or, BitVec.and_comm,
        ← BitVec.and_assoc, BitVec.and_self]
      rfl
  have hlt' : p.iphdr.offBits.toNat < 2^13 := by
    rw [IpHdr.offBits, BitVec.and_comm, toNat_offmask]
    exact Nat.mod_lt _ (by decide)
  rw [tot_len_eq] at hfits
  rw [hofo, toNat_offmask, BitVec.toNat_add, BitVec.toNat_ofNat]
  omega

/-- The flag of a fragment. -/
theorem lastFrag_offsetAt (p : Outgoing) (mtu k : ℕ) :
    p.offsetAt mtu k &&& IP_MF = 0 ↔ ¬ k < p.full mtu ∧ p.iphdr.lastFrag = true := by
  have hlast : p.iphdr.lastFrag = true ↔ p.iphdr.offset &&& IP_MF = 0 := decide_eq_true_iff
  rw [hlast, offsetAt]
  split
  · next hlt =>
    rw [BitVec.and_or_distrib_right, BitVec.and_self]
    refine iff_of_false (fun hc => ?_) (fun hc => hc.1 hlt)
    exact absurd (BitVec.or_eq_zero_iff.mp hc).2 (by decide)
  · next hlt =>
    rw [BitVec.and_or_distrib_right, offmask_mf, BitVec.or_zero, BitVec.and_assoc, BitVec.and_self]
    exact (and_iff_right hlt).symm

/-- The parts in front of the fragment `k` are the front of the payload. -/
theorem flatMap_part (hk : k ≤ p.full mtu) :
    (List.range k).flatMap (p.part mtu) = p.payload.take (k * unit mtu) := by
  induction k with
  | zero => rw [Nat.zero_mul, List.take_zero, List.range_zero, List.flatMap_nil]
  | succ k ih =>
    have hsucc : (k + 1) * unit mtu = k * unit mtu + unit mtu := by ring
    have hlt : k < p.full mtu := hk
    rw [List.range_succ, List.flatMap_append, ih (Nat.le_of_succ_le hk), List.flatMap_singleton,
      part, if_pos hlt, hsucc, List.take_add]

/-- All parts are the payload. -/
theorem flatMap_parts : (List.range (p.full mtu + 1)).flatMap (p.part mtu) = p.payload := by
  rw [List.range_succ, List.flatMap_append, flatMap_part (Nat.le_refl _), List.flatMap_singleton,
    part, if_neg (Nat.lt_irrefl _), List.take_append_drop]

end Fields

namespace TooBig

variable (h : p.TooBig mtu)

include h

/-- A packet that is too long has more payload than the MTU has room for. -/
theorem lt_payload : mtu - IP_HLEN < p.payload.length := by
  have := h.mtu_ge
  have := h.mtu_lt
  rw [tot_len_eq] at this
  omega

/-- A whole datagram can be cut up. -/
theorem cuttable : p.Cuttable mtu := ⟨Nat.zero_lt_of_lt h.lt_payload, h.fits, h.mtu_ge⟩

/-- There is a full fragment. -/
theorem full_pos : 0 < p.full mtu := by
  rw [h.cuttable.lt_full_iff, Nat.zero_mul, Nat.zero_add]
  exact h.lt_payload

/-- A whole datagram starts at the offset 0 and is its own last fragment. -/
theorem whole : p.iphdr.offset &&& IP_OFFMASK = 0#16 ∧ p.iphdr.offset &&& IP_MF = 0#16 := by
  have hor : p.iphdr.offset &&& (IP_OFFMASK ||| IP_MF) = 0#16 := h.not_frag
  rwa [BitVec.and_or_distrib_left, BitVec.or_eq_zero_iff] at hor

/-- The offset of a fragment of a whole datagram. -/
theorem offsetAt_eq (k : ℕ) : p.offsetAt mtu k = p.partOffset mtu k := by
  rw [offsetAt, partOffset, h.whole.1, h.whole.2, BitVec.zero_add, BitVec.zero_or]

/-- A packet that does not fit in the MTU is cut up to its fragments, or runs into the assertion. -/
theorem ipFrag_eq :
    if p.Whole mtu then
      ∃ sent, ipFrag p mtu = .ok sent ∧ sent.map Rambuf.received = p.fragmentsFrom mtu 0
    else ipFrag p mtu = .error .notInOnePiece := by
  have hcuts : p.cutsFrom mtu 0 = p.fragmentsFrom mtu 0 := by
    refine List.map_congr_left fun k _ => ?_
    rw [cut, h.offsetAt_eq, fragment]
  rw [← hcuts]
  exact h.cuttable.ipFrag_cut

end TooBig

end Outgoing

end Lwip.Ip
