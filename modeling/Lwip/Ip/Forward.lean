import Lwip.Ip.ChksumPbuf

/-!
# Forwarding

`ip_route` and `ip_forward` of `ip.c`. A router takes one off the TTL of a packet, and adds to its
checksum what that took from the sum of the header, with the end-around carry. The checksum of the
source is in network byte order, so on a little-endian machine the TTL is the low octet of its word,
and one is added to the number that the machine reads. This is right unless the TTL is 0 at first:
it is taken for 255 then.
-/

namespace Lwip.Ip

namespace IpHdr

/-- `IPH_TTL(hdr)`. -/
def ttl (h : IpHdr) : ℕ := h.ttl_proto.toNat / 2^8

/-- `IPH_PROTO(hdr)`. -/
def proto (h : IpHdr) : ℕ := h.ttl_proto.toNat % 2^8

/-- `IPH_TTL_SET(hdr, ttl)`. -/
def setTtl (h : IpHdr) (ttl : ℕ) : IpHdr :=
  { h with ttl_proto := BitVec.ofNat 16 (h.proto + u16 ttl * 2^8) }

end IpHdr

/-- `IP_PROTO_ICMP`. -/
def IP_PROTO_ICMP : ℕ := 1

/-- A header with its options. -/
structure FullHdr where
  /-- The fixed part. -/
  hdr : IpHdr
  /-- The octets behind it. -/
  options : List UInt8
  deriving DecidableEq, Repr

namespace FullHdr

/-- The octets of the whole header. -/
def octets (h : FullHdr) : List UInt8 := h.hdr.octets ++ h.options

/-- What `ip_input` tests before anything else. -/
structure Valid (h : FullHdr) : Prop where
  version : h.hdr.v_hl_tos.toNat / 2^12 = 4
  length : h.octets.length = h.hdr.hl * 4
  chksum : inetChksum h.octets = 0

end FullHdr

/-- What `ip_route` reads of a `struct netif`. -/
structure RouteNetif where
  /-- The pointer to the structure. -/
  ptr : ℕ
  /-- `ip_addr`. -/
  ip_addr : BitVec 32
  /-- `netmask`. -/
  netmask : BitVec 32
  /-- `NETIF_FLAG_UP`. -/
  up : Bool
  deriving DecidableEq, Repr

/-- The network interfaces. -/
structure Netifs where
  /-- `netif_list`. -/
  list : List RouteNetif
  /-- `netif_default`. -/
  default : Option RouteNetif
  deriving DecidableEq, Repr

/-- `ip_route(dest)`. -/
def ipRoute (n : Netifs) (dest : BitVec 32) : Option RouteNetif :=
  match n.list.find? fun netif => netif.up && dest &&& netif.netmask =
    netif.ip_addr &&& netif.netmask with
  | some netif => some netif
  | none => n.default.filter (·.up)

/-- The update of a stored checksum for a word of the header that gets smaller by `d`: with
`chksum >= htons(0xffff - d)`, `htons(d) + 1` is added, and else `htons(d)`. -/
def addChksum (d c : ℕ) : ℕ :=
  u16 (if c ≥ swapBytesInWord (0xffff - d) then c + swapBytesInWord d + 1
    else c + swapBytesInWord d)

/-- The checksum that `ip_forward` sets, computed with the stored numbers. -/
def forwardChksum (chksum : BitVec 16) : BitVec 16 :=
  BitVec.ofNat 16 (swapBytesInWord (addChksum 0x100 (swapBytesInWord chksum.toNat)))

/-- The incremental update of the checksum. -/
def IpHdr.updateChksum (h : IpHdr) : IpHdr := { h with chksum := forwardChksum h.chksum }

/-- What becomes of a packet. -/
inductive Forwarded where
  /-- There is no route to its destination. -/
  | noRoute
  /-- The route leads back to the interface it came from. -/
  | bounced
  /-- Its TTL is used up, and an ICMP message may be sent. -/
  | expired (icmp : Bool)
  /-- It goes out with this header. -/
  | sent (netif : RouteNetif) (h : FullHdr)
  deriving DecidableEq, Repr

/-- `ip_forward(p, iphdr, inp)`. -/
def ipForward (n : Netifs) (inp : ℕ) (h : FullHdr) : Forwarded :=
  match ipRoute n h.hdr.dest with
  | none => .noRoute
  | some netif =>
    if netif.ptr = inp then .bounced
    else
      let hdr := h.hdr.setTtl (u16sub h.hdr.ttl 1)
      if hdr.ttl = 0 then .expired (hdr.proto ≠ IP_PROTO_ICMP)
      else .sent netif ⟨hdr.updateChksum, h.options⟩

/-- `h'` is `h` with a TTL that is one less, and has a checksum. -/
structure OneHop (h h' : FullHdr) : Prop where
  options : h'.options = h.options
  fields : h'.hdr = { h.hdr with ttl_proto := h'.hdr.ttl_proto, chksum := h'.hdr.chksum }
  proto : h'.hdr.proto = h.hdr.proto
  ttl : h.hdr.ttl = h'.hdr.ttl + 1
  pos : 2 ≤ h.hdr.ttl
  chksum : inetChksum h'.octets = 0

/-- What `ip_forward` sends is one hop on, and a packet at its last hop is not sent. -/
def ForwardsRight (n : Netifs) (inp : ℕ) (h : FullHdr) : Prop :=
  (∀ netif h', ipForward n inp h = .sent netif h' → OneHop h h') ∧
    (h.hdr.ttl ≤ 1 → ∀ netif h', ipForward n inp h ≠ .sent netif h')

/-! ## The checksum -/

section Checksum

variable {data : List UInt8} {h : IpHdr} {c : BitVec 16}

/-- The test of `inet_chksum` is passed by octets that stand for the second zero. -/
theorem inetChksum_eq_zero_iff (hlen : data.length ≤ 0xffff) :
    inetChksum data = 0 ↔ Rep 0xffff (value data) 0xffff := by
  have hrep := lwipStandardChksum1_rep hlen
  have hle := lwipStandardChksum1_le data
  have hlt : (lwipStandardChksum data).toNat < 2^16 := BitVec.isLt _
  rw [inetChksum, ← BitVec.toNat_inj, BitVec.toNat_not]
  have hzero : (0 : BitVec 16).toNat = 0 := rfl
  have hswap : swapBytesInWord 0xffff = 0xffff := rfl
  constructor
  · intro h
    have hfull : (lwipStandardChksum data).toNat = 0xffff := by omega
    rw [lwipStandardChksum1, hfull, hswap] at hrep
    exact hrep.symm
  · intro h
    have hfull := (hrep.trans h).unique (.refl _ _) hle (Nat.le_refl _)
    rw [← swapBytesInWord_self hlt, ← lwipStandardChksum1, hfull, hswap, hzero]

/-- The octets of some words stand for the sum of the swapped words. -/
theorem rep_flatMap_be16 (ws : List (BitVec 16)) :
    Rep 0xffff (value (ws.flatMap be16)) (ws.map fun w => swapBytesInWord w.toNat).sum := by
  induction ws with
  | nil => exact .refl _ _
  | cons w ws ih =>
    rw [List.flatMap_cons, List.map_cons, List.sum_cons]
    have heven : (be16 w).length % 2 = 0 := by simp [be16]
    refine (rep_append_even heven _).trans (.add ?_ ih)
    rw [value_be16]
    exact .refl _ _

/-- The words of a header other than the checksum and the one with the TTL. -/
def IpHdr.otherWords (h : IpHdr) : List (BitVec 16) :=
  [h.v_hl_tos, h.len, h.id, h.offset, h.src.extractLsb' 16 16, h.src.extractLsb' 0 16,
    h.dest.extractLsb' 16 16, h.dest.extractLsb' 0 16]

/-- A header has 15 words at most. -/
theorem IpHdr.hl_le (h : IpHdr) : h.hl ≤ 15 := by
  rw [IpHdr.hl, BitVec.toNat_and]
  exact Nat.and_le_right

/-- A header has 60 octets at most. -/
theorem FullHdr.Valid.length_le {h : FullHdr} (hv : h.Valid) : h.octets.length ≤ 60 := by
  have hhl := h.hdr.hl_le
  rw [hv.length]
  omega

/-- What a header stands for, by the words that change. -/
theorem FullHdr.rep_value (h : FullHdr) :
    Rep 0xffff (value h.octets) ((h.hdr.otherWords.map fun w => swapBytesInWord w.toNat).sum +
      value h.options + swapBytesInWord h.hdr.ttl_proto.toNat +
      swapBytesInWord h.hdr.chksum.toNat) := by
  have heven : h.hdr.octets.length % 2 = 0 := by rw [IpHdr.length_octets, IP_HLEN]
  have hwords := rep_flatMap_be16 h.hdr.words
  refine (rep_append_even heven _).trans ?_
  refine (hwords.add (.refl _ _)).trans ?_
  convert Rep.refl _ _ using 1
  simp only [IpHdr.words, IpHdr.otherWords, List.map_cons, List.map_nil, List.sum_cons,
    List.sum_nil]
  omega

/-- The word with a new TTL. -/
theorem IpHdr.toNat_setTtl {t : ℕ} (ht : t < 2^8) :
    (h.setTtl t).ttl_proto.toNat = h.proto + t * 2^8 := by
  have hp : h.proto < 2^8 := Nat.mod_lt _ (by decide)
  rw [IpHdr.setTtl, BitVec.toNat_ofNat, u16, Nat.mod_eq_of_lt (a := t) (by omega),
    Nat.mod_eq_of_lt (by omega)]

/-- The TTL that was set is read. -/
@[simp] theorem IpHdr.ttl_setTtl {t : ℕ} (ht : t < 2^8) : (h.setTtl t).ttl = t := by
  have hp : h.proto < 2^8 := Nat.mod_lt _ (by decide)
  rw [IpHdr.ttl, IpHdr.toNat_setTtl ht]
  omega

/-- The protocol stays when the TTL is set. -/
@[simp] theorem IpHdr.proto_setTtl {t : ℕ} (ht : t < 2^8) : (h.setTtl t).proto = h.proto := by
  have hp : h.proto < 2^8 := Nat.mod_lt _ (by decide)
  rw [IpHdr.proto, IpHdr.toNat_setTtl ht]
  omega

/-- The checksum does not touch the TTL. -/
@[simp] theorem IpHdr.ttl_updateChksum : h.updateChksum.ttl = h.ttl := rfl

/-- The checksum does not touch the protocol. -/
@[simp] theorem IpHdr.proto_updateChksum : h.updateChksum.proto = h.proto := rfl

/-- As the machine reads it, the TTL is the low octet of its word. -/
theorem IpHdr.swap_ttl_proto (h : IpHdr) :
    swapBytesInWord h.ttl_proto.toNat = h.proto * 2^8 + h.ttl := by
  have hlt : h.ttl_proto.toNat < 2^16 := h.ttl_proto.isLt
  rw [swapBytesInWord, IpHdr.proto, IpHdr.ttl, Nat.mod_eq_of_lt (a := _ / 2^8) (by omega)]

/-- The update adds with the end-around carry. -/
theorem addChksum_spec {d c : ℕ} (hd : d ≤ 0xffff) (hc : c ≤ 0xffff) :
    (c + swapBytesInWord d < 0xffff ∧ addChksum d c = c + swapBytesInWord d) ∨
      (0xffff ≤ c + swapBytesInWord d ∧ addChksum d c + 0xffff = c + swapBytesInWord d) := by
  have hle := swapBytesInWord_le d
  have hsub : swapBytesInWord (0xffff - d) = 0xffff - swapBytesInWord d := by
    unfold swapBytesInWord
    omega
  rw [addChksum, hsub, u16]
  split <;> omega

/-- The new checksum is a word. -/
theorem addChksum_le (d c : ℕ) : addChksum d c ≤ 0xffff := Nat.le_of_lt_succ
    (Nat.mod_lt _ (by decide))

/-- One is added to the stored checksum. -/
theorem swap_forwardChksum (c : BitVec 16) :
    swapBytesInWord (forwardChksum c).toNat = swapBytesInWord c.toNat + 1 ∨
      swapBytesInWord (forwardChksum c).toNat + 0xffff = swapBytesInWord c.toNat + 1 := by
  have hone : swapBytesInWord 0x100 = 1 := rfl
  have hle := addChksum_le 0x100 (swapBytesInWord c.toNat)
  have hswap := swapBytesInWord_le (addChksum 0x100 (swapBytesInWord c.toNat))
  have hspec := addChksum_spec (d := 0x100) (by decide) (swapBytesInWord_le c.toNat)
  rw [hone] at hspec
  rw [forwardChksum, BitVec.toNat_ofNat, Nat.mod_eq_of_lt (by omega),
    swapBytesInWord_self (by omega)]
  exact hspec.imp And.right And.right

end Checksum

section Forward

variable {n : Netifs} {inp : ℕ} {h : FullHdr}

/-- The word with the version is not zero, whatever the others are. -/
theorem FullHdr.Valid.pos (hv : h.Valid) :
    0 < (h.hdr.otherWords.map fun w => swapBytesInWord w.toNat).sum := by
  have hversion := hv.version
  have hlt : h.hdr.v_hl_tos.toNat < 2^16 := h.hdr.v_hl_tos.isLt
  have hswap := swapBytesInWord_self hlt
  rw [IpHdr.otherWords, List.map_cons, List.sum_cons]
  refine Nat.add_pos_left (Nat.pos_of_ne_zero fun hzero => ?_) _
  rw [hzero, swapBytesInWord] at hswap
  omega

/-- The header that is sent verifies: one is taken from a word, and added to another. -/
theorem forward_chksum (hv : h.Valid) (ht : h.hdr.ttl ≠ 0) :
    inetChksum (FullHdr.octets ⟨(h.hdr.setTtl (h.hdr.ttl - 1)).updateChksum, h.options⟩) = 0 := by
  have hlt : h.hdr.ttl < 2^8 := Nat.div_lt_of_lt_mul h.hdr.ttl_proto.isLt
  have hlen := hv.length_le
  have hpos := hv.pos
  have hsum := h.rep_value
  have hvalid := (inetChksum_eq_zero_iff (by omega)).mp hv.chksum
  have hsum' := FullHdr.rep_value ⟨(h.hdr.setTtl (h.hdr.ttl - 1)).updateChksum, h.options⟩
  have hlen' : (FullHdr.octets ⟨(h.hdr.setTtl (h.hdr.ttl - 1)).updateChksum, h.options⟩).length =
      h.octets.length := by
    rw [FullHdr.octets, FullHdr.octets, List.length_append, List.length_append, IpHdr.length_octets,
      IpHdr.length_octets]
  have httl := h.hdr.swap_ttl_proto
  have httl' := (h.hdr.setTtl (h.hdr.ttl - 1)).swap_ttl_proto
  rw [IpHdr.proto_setTtl (by omega), IpHdr.ttl_setTtl (by omega)] at httl'
  refine (inetChksum_eq_zero_iff (by omega)).mpr (hsum'.trans (.trans ?_ (hsum.symm.trans hvalid)))
  have hother : (h.hdr.setTtl (h.hdr.ttl - 1)).updateChksum.otherWords = h.hdr.otherWords := rfl
  have htp : (h.hdr.setTtl (h.hdr.ttl - 1)).updateChksum.ttl_proto =
    (h.hdr.setTtl (h.hdr.ttl - 1)).ttl_proto := rfl
  have hck : (h.hdr.setTtl (h.hdr.ttl - 1)).updateChksum.chksum = forwardChksum h.hdr.chksum := rfl
  dsimp only
  rw [hother, htp, hck, httl, httl']
  generalize (h.hdr.otherWords.map fun w => swapBytesInWord w.toNat).sum = rest at *
  refine ⟨?_, by omega⟩
  rcases swap_forwardChksum h.hdr.chksum with hc | hc
  · refine congrArg (· % 0xffff) ?_
    omega
  · -- The carry has gone around.
    refine (Nat.add_mod_right _ 0xffff).symm.trans (congrArg (· % 0xffff) ?_)
    omega

/-- A TTL that is not 0 is one less. -/
theorem ttl_decrement (ht : h.hdr.ttl ≠ 0) : u16sub h.hdr.ttl 1 = h.hdr.ttl - 1 := by
  have hlt : h.hdr.ttl < 2^8 := Nat.div_lt_of_lt_mul h.hdr.ttl_proto.isLt
  unfold u16sub
  omega

/-- A packet is sent if there is a route, and its TTL is not 1. -/
theorem ipForward_sent_iff {netif : RouteNetif} {h' : FullHdr} :
    ipForward n inp h = .sent netif h' ↔
      ipRoute n h.hdr.dest = some netif ∧ netif.ptr ≠ inp ∧
      (h.hdr.setTtl (u16sub h.hdr.ttl 1)).ttl ≠ 0 ∧
        h' = ⟨(h.hdr.setTtl (u16sub h.hdr.ttl 1)).updateChksum, h.options⟩ := by
  rw [ipForward]
  cases hroute : ipRoute n h.hdr.dest with
  | none => simp
  | some r =>
    dsimp only
    split
    · next hptr =>
      refine ⟨nofun, ?_⟩
      rintro ⟨hr, hne, -⟩
      exact absurd (Option.some_inj.mp hr ▸ hptr) hne
    · next hptr =>
      split
      · next hzero =>
        refine ⟨nofun, ?_⟩
        rintro ⟨-, -, hne, -⟩
        exact absurd hzero hne
      · next hne =>
        constructor
        · intro hsent
          cases hsent
          exact ⟨rfl, hptr, hne, rfl⟩
        · rintro ⟨hr, -, -, rfl⟩
          rw [Option.some_inj.mp hr]

/-- Packets are forwarded right exactly if none is sent that comes with a TTL of 0. -/
theorem forwardsRight_iff (n : Netifs) (inp : ℕ) (h : FullHdr) (hv : h.Valid) :
    ForwardsRight n inp h ↔
      (h.hdr.ttl = 0 → ∀ netif, ipRoute n h.hdr.dest = some netif → netif.ptr = inp) := by
  have hlt : h.hdr.ttl < 2^8 := Nat.div_lt_of_lt_mul h.hdr.ttl_proto.isLt
  constructor
  · intro hright hzero netif hroute
    by_contra hne
    -- The TTL wraps around to 255.
    have hp : h.hdr.proto < 2^8 := Nat.mod_lt _ (by decide)
    have hwrap : (h.hdr.setTtl (u16sub h.hdr.ttl 1)).ttl = 255 := by
      rw [hzero, u16sub, IpHdr.ttl, IpHdr.setTtl, BitVec.toNat_ofNat, u16]
      omega
    refine hright.2 (by omega) netif _ (ipForward_sent_iff.mpr ⟨hroute, hne, ?_, rfl⟩)
    rw [hwrap]
    decide
  · intro hcond
    have hpos : ∀ netif h', ipForward n inp h = .sent netif h' → h.hdr.ttl ≠ 0 := by
      intro netif h' hsent hzero
      obtain ⟨hroute, hne, -⟩ := ipForward_sent_iff.mp hsent
      exact hne (hcond hzero netif hroute)
    have htwo : ∀ netif h', ipForward n inp h = .sent netif h' → 2 ≤ h.hdr.ttl := by
      intro netif h' hsent
      have ht := hpos netif h' hsent
      obtain ⟨-, -, hne, -⟩ := ipForward_sent_iff.mp hsent
      rw [ttl_decrement ht, IpHdr.ttl_setTtl (by omega)] at hne
      omega
    -- Whatever is sent came with a TTL of at least 2.
    refine ⟨fun netif h' hsent => ?_, fun hle netif h' hsent => ?_⟩
    · have ht := htwo netif h' hsent
      obtain ⟨-, -, -, rfl⟩ := ipForward_sent_iff.mp hsent
      rw [ttl_decrement (by omega)]
      refine ⟨rfl, rfl, IpHdr.proto_setTtl (by omega), ?_, ht, forward_chksum hv (by omega)⟩
      rw [IpHdr.ttl_updateChksum, IpHdr.ttl_setTtl (by omega)]
      omega
    · have := htwo netif h' hsent
      omega

end Forward

/-- Two interfaces, 10.0.0.1/8 and 192.168.0.1/16. -/
def twoNetifs : Netifs :=
  ⟨[⟨1, 0x0a000001, 0xff000000, true⟩, ⟨2, 0xc0a80001, 0xffff0000, true⟩], none⟩

/-- A UDP header from 10.0.0.2 to 192.168.0.2, with one word of options. -/
def udpHdr (ttl : ℕ) : FullHdr :=
  let hdr : IpHdr :=
    { v_hl_tos := 0x4600, len := 32, id := 1, offset := 0,
      ttl_proto := BitVec.ofNat 16 (ttl * 2^8 + 17), chksum := 0#16, src := 0x0a000002,
      dest := 0xc0a80002 }
  ⟨{ hdr with chksum := inetChksum (hdr.octets ++ [1, 1, 1, 0]) }, [1, 1, 1, 0]⟩

/-- A packet with the TTL 64 is forwarded as it should be. -/
theorem forwardsRight_iff_udp : (udpHdr 64).Valid ∧ ForwardsRight twoNetifs 1 (udpHdr 64) := by
  have hv : (udpHdr 64).Valid := ⟨by decide +kernel, by decide +kernel, by decide +kernel⟩
  exact ⟨hv, (forwardsRight_iff twoNetifs 1 _ hv).mpr fun hzero => absurd hzero (by decide +kernel)⟩

/-- A packet with a TTL of 0 is sent with a TTL of 255. -/
theorem ttl_zero_sent : (udpHdr 0).Valid ∧ ¬ ForwardsRight twoNetifs 1 (udpHdr 0) := by
  refine ⟨⟨by decide +kernel, by decide +kernel, by decide +kernel⟩, fun hright => ?_⟩
  exact hright.2 (by decide +kernel) ⟨2, 0xc0a80001, 0xffff0000, true⟩
    ⟨((udpHdr 0).hdr.setTtl (u16sub (udpHdr 0).hdr.ttl 1)).updateChksum, (udpHdr 0).options⟩
    (by decide +kernel)

end Lwip.Ip
