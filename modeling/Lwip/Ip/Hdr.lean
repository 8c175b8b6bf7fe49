import Lwip.Arch
import Mathlib.Data.BitVec
import Mathlib.Algebra.BigOperators.Group.List.Basic

/-!
# The IP header and its checksum

`struct ip_hdr` of `lwip/ip.h`, the macros that read it, and the checksum of `inet_chksum.c` in the
version this build compiles (`LWIP_CHKSUM_ALGORITHM` is 1). The fields are kept in host order, so
the `htons` and `ntohs` of the source do not appear. The octets are in the order of the wire.
-/

namespace Lwip.Ip

/-- `struct ip_hdr`, a header without options. -/
structure IpHdr where
  /-- Version, header length and type of service. -/
  v_hl_tos : BitVec 16
  /-- Total length. -/
  len : BitVec 16
  /-- Identification. -/
  id : BitVec 16
  /-- Fragment offset field. -/
  offset : BitVec 16
  /-- Time to live and protocol. -/
  ttl_proto : BitVec 16
  /-- Checksum. -/
  chksum : BitVec 16
  /-- Source address. -/
  src : BitVec 32
  /-- Destination address. -/
  dest : BitVec 32
  deriving DecidableEq, Repr

/-- `IP_HLEN`. -/
def IP_HLEN : ℕ := 20

/-- `IP_MF`, the more fragments flag. -/
def IP_MF : BitVec 16 := 0x2000

/-- `IP_OFFMASK`, the mask for the offset bits. -/
def IP_OFFMASK : BitVec 16 := 0x1fff

namespace IpHdr

/-- `IPH_HL(hdr)`, the length of the header in 32-bit words. -/
def hl (h : IpHdr) : ℕ := (h.v_hl_tos >>> 8 &&& 0x0f).toNat

/-- `IPH_OFFSET(hdr) & IP_OFFMASK`, the fragment offset in units of eight octets. -/
def offBits (h : IpHdr) : BitVec 16 := h.offset &&& IP_OFFMASK

/-- `(IPH_OFFSET(hdr) & IP_OFFMASK) * 8`. -/
def fragOffset (h : IpHdr) : ℕ := h.offBits.toNat * 8

/-- `IPH_LEN(hdr) - IPH_HL(hdr) * 4`, as a `u16_t`. -/
def fragLen (h : IpHdr) : ℕ := u16sub h.len.toNat (h.hl * 4)

/-- `(IPH_OFFSET(hdr) & IP_MF) == 0`: no more fragments. -/
def lastFrag (h : IpHdr) : Bool := h.offset &&& IP_MF = 0

/-- `IP_ADDRESSES_AND_ID_MATCH(a, b)`. -/
def addressesAndIdMatch (a b : IpHdr) : Bool := a.src = b.src && a.dest = b.dest && a.id = b.id

/-- The 16-bit words of the header. -/
def words (h : IpHdr) : List (BitVec 16) :=
  [h.v_hl_tos, h.len, h.id, h.offset, h.ttl_proto, h.chksum, h.src.extractLsb' 16 16,
    h.src.extractLsb' 0 16, h.dest.extractLsb' 16 16, h.dest.extractLsb' 0 16]

end IpHdr

/-- A 16-bit word as octets, the most significant first. -/
def be16 (w : BitVec 16) : List UInt8 := [UInt8.ofNat (w.toNat / 2^8), UInt8.ofNat (w.toNat % 2^8)]

/-- The `IP_HLEN` octets of a header. -/
def IpHdr.octets (h : IpHdr) : List UInt8 := h.words.flatMap be16

/-- A header has 20 octets. -/
theorem IpHdr.length_octets (h : IpHdr) : h.octets.length = IP_HLEN := by
  simp [IpHdr.octets, IpHdr.words, be16, IP_HLEN]

/-! ## `inet_chksum` -/

/-- The loop of `lwip_standard_chksum`, with the remaining octet behind it. -/
def chksumLoop (acc : ℕ) : List UInt8 → ℕ
  | a :: b :: rest => chksumLoop ((acc + (a.toNat * 2^8 + b.toNat)) % 2^32) rest
  | [a] => (acc + a.toNat * 2^8) % 2^32
  | [] => acc

/-- `FOLD_U32T(u)`. -/
def foldU32 (u : ℕ) : ℕ := u / 2^16 + u % 2^16

/-- `lwip_standard_chksum(dataptr, len)`. -/
def lwipStandardChksum (data : List UInt8) : BitVec 16 :=
  let acc := foldU32 (chksumLoop 0 data)
  BitVec.ofNat 16 (if acc / 2^16 ≠ 0 then foldU32 acc else acc)

/-- `inet_chksum(dataptr, len)`. -/
def inetChksum (data : List UInt8) : BitVec 16 := ~~~ lwipStandardChksum data

/-- The low octet of a word. -/
theorem toNat_low_octet (w : ℕ) : (UInt8.ofNat (w % 2^8)).toNat = w % 2^8 :=
  UInt8.toNat_ofNat_of_lt (Nat.mod_lt w (by decide))

/-- The high octet of a word. -/
theorem toNat_high_octet {w : ℕ} (hw : w < 2^16) : (UInt8.ofNat (w / 2^8)).toNat = w / 2^8 :=
  UInt8.toNat_ofNat_of_lt (by rw [UInt8.size]; omega)

/-- One round of the loop adds one word. -/
theorem chksumLoop_be16 (acc : ℕ) (w : BitVec 16) (rest : List UInt8) :
    chksumLoop acc (be16 w ++ rest) = chksumLoop ((acc + w.toNat) % 2^32) rest := by
  have hw : w.toNat < 2^16 := w.isLt
  have hsplit : w.toNat / 2^8 * 2^8 + w.toNat % 2^8 = w.toNat := by omega
  rw [be16, List.cons_append, List.cons_append, List.nil_append, chksumLoop, toNat_high_octet hw,
    toNat_low_octet, hsplit]

/-- The loop adds up the words, as long as the sum fits in the 32 bits of the accumulator. -/
theorem chksumLoop_words (ws : List (BitVec 16)) (acc : ℕ)
    (h : acc + (ws.map BitVec.toNat).sum < 2^32) :
    chksumLoop acc (ws.flatMap be16) = acc + (ws.map BitVec.toNat).sum := by
  induction ws generalizing acc with
  | nil => rfl
  | cons w ws ih =>
    rw [List.map_cons, List.sum_cons] at h ⊢
    rw [List.flatMap_cons, chksumLoop_be16, Nat.mod_eq_of_lt (by omega), ih _ (by omega)]
    omega

/-- The sum of the header's words. -/
def IpHdr.sum (h : IpHdr) : ℕ := (h.words.map BitVec.toNat).sum

/-- The sum of the header's words other than the checksum. -/
theorem IpHdr.sum_set_chksum (h : IpHdr) (c : BitVec 16) :
    ({ h with chksum := c } : IpHdr).sum = ({ h with chksum := 0#16 } : IpHdr).sum + c.toNat := by
  simp only [IpHdr.sum, IpHdr.words, List.map_cons, List.map_nil, List.sum_cons, List.sum_nil,
    BitVec.toNat_ofNat, Nat.zero_mod]
  omega

/-- Ten words of sixteen bits. -/
theorem IpHdr.sum_le (h : IpHdr) : h.sum ≤ 10 * (2^16 - 1) := by
  simp only [IpHdr.sum, IpHdr.words, List.map_cons, List.map_nil, List.sum_cons, List.sum_nil]
  omega

/-- The checksum of a header is the inverted sum, folded twice. -/
theorem IpHdr.toNat_inetChksum (h : IpHdr) :
    (inetChksum h.octets).toNat = 2^16 - 1 - foldU32 (foldU32 h.sum) := by
  have hle := h.sum_le
  have hsum : chksumLoop 0 h.octets = h.sum := by
    rw [IpHdr.octets, chksumLoop_words, Nat.zero_add, IpHdr.sum]
    rw [← IpHdr.sum]
    omega
  have hfold : (if foldU32 h.sum / 2^16 ≠ 0 then foldU32 (foldU32 h.sum) else foldU32 h.sum) =
      foldU32 (foldU32 h.sum) := by
    unfold foldU32
    split <;> omega
  rw [inetChksum, BitVec.toNat_not, lwipStandardChksum, hsum]
  rw [hfold, BitVec.toNat_ofNat, Nat.mod_eq_of_lt]
  unfold foldU32
  omega

/-- A header that carries the checksum computed over it with a zero in the checksum's place passes
the test of `ip_input`. -/
theorem IpHdr.chksum_valid (h : IpHdr) :
    inetChksum ({ h with chksum := inetChksum ({ h with chksum := 0#16 } : IpHdr).octets } :
      IpHdr).octets = 0 := by
  apply BitVec.eq_of_toNat_eq
  have hle := ({ h with chksum := 0#16 } : IpHdr).sum_le
  rw [IpHdr.toNat_inetChksum, IpHdr.sum_set_chksum, IpHdr.toNat_inetChksum]
  generalize ({ h with chksum := 0#16 } : IpHdr).sum = n at hle ⊢
  -- Adding the complement makes the sum a positive multiple of `2^16 - 1`, which folds to it.
  unfold foldU32
  change _ = 0
  omega

end Lwip.Ip
