import Lwip.Ip.Chksum

/-!
# Checksums of pbuf chains

`inet_chksum_pbuf` and `inet_chksum_pseudo` add up the checksums of the pbufs one by one. A pbuf of
an odd length moves the octets behind it from one half of the words to the other. The sum is swapped
then, and swapped back at the end, so what it stands for in between is the value of the octets so
far or that value shifted by one octet (`chksumRound_spec`). How the octets are split into pbufs
does not matter then (`inetChksum_split`).
-/

namespace Lwip.Ip

/-- The body of the loop over the pbufs, with `acc` and `swapped`. `LWIP_CHKSUM` is algorithm 1
unless something else is defined. -/
def chksumRound (st : ℕ × Bool) (q : List UInt8) : ℕ × Bool :=
  let acc := foldU32 ((st.1 + lwipStandardChksum1 q) % 2^32)
  if q.length % 2 ≠ 0 then (swapBytesInWord acc, !st.2) else (acc, st.2)

/-- The loop over the pbufs, and the swap behind it. -/
def chksumChain (p : List (List UInt8)) : ℕ :=
  let (acc, swapped) := p.foldl chksumRound (0, false)
  if swapped then swapBytesInWord acc else acc

/-- `inet_chksum_pbuf(p)`. -/
def inetChksumPbuf (p : List (List UInt8)) : BitVec 16 := ~~~ BitVec.ofNat 16 (chksumChain p)

/-- `inet_chksum_pseudo(p, src, dest, proto, proto_len)`, the addresses in network byte order. -/
def inetChksumPseudo (p : List (List UInt8)) (src dest : BitVec 32) (proto : UInt8)
    (protoLen : BitVec 16) : BitVec 16 :=
  let acc := chksumChain p
  let acc := acc + src.toNat % 2^16 + src.toNat / 2^16 % 2^16
  let acc := acc + dest.toNat % 2^16 + dest.toNat / 2^16 % 2^16
  let acc := (acc + swapBytesInWord proto.toNat + swapBytesInWord protoLen.toNat) % 2^32
  ~~~ BitVec.ofNat 16 (foldU32 (foldU32 acc) % 2^16)

/-! ## What they are for -/

/-- A `u32_t` as a little-endian machine stores it. -/
def store32 (a : BitVec 32) : List UInt8 := store16 (a.toNat % 2^16) ++ store16 (a.toNat / 2^16)

/-- The octets of the pseudo header. -/
def pseudoHeader (src dest : BitVec 32) (proto : UInt8) (protoLen : BitVec 16) : List UInt8 :=
  store32 src ++ store32 dest ++ [0, proto] ++ be16 protoLen

/-- The checksum of RFC 1071, over words in network byte order. -/
def rfc1071 (data : List UInt8) : ℕ := 0xffff - onesSum 0xffff (bigWords data)

/-- One message in two chains: its checksum field, which starts at an even offset, is zero in the
first, and holds `c` in the second. -/
def Filled (c : BitVec 16) (ps qs : List (List UInt8)) : Prop :=
  ∃ front back : List UInt8, front.length % 2 = 0 ∧ ps.flatten = front ++ [0, 0] ++ back ∧
    qs.flatten = front ++ store16 c.toNat ++ back

/-! ## The values -/

/-- A number, shifted by one octet if that is odd. -/
def shift (odd : Bool) (n : ℕ) : ℕ := if odd then 2^8 * n else n

section Shift

variable {odd : Bool} {a b n : ℕ} {data : List UInt8}

/-- A shift keeps what a number stands for. -/
theorem Rep.shift (odd : Bool) (h : Rep 0xffff a b) : Rep 0xffff (shift odd a) (shift odd b) := by
  cases odd
  · exact h
  · exact h.mul_left _

/-- Two octets more do not matter. -/
theorem shift_not (odd : Bool) (n : ℕ) : Rep 0xffff (shift (!odd) n) (shift odd (2^8 * n)) := by
  cases odd
  · exact .refl _ _
  · have heq : shift true (2^8 * n) = 2^16 * n := by
      rw [shift, if_pos rfl]
      ring
    rw [heq]
    exact (rep_shift n).symm

/-- Whole words more do not matter either. -/
theorem rep_pow (k n : ℕ) : Rep 0xffff (256^k * n) (shift (decide (k % 2 = 1)) n) := by
  induction k using Nat.twoStepInduction with
  | zero =>
    rw [Nat.pow_zero, Nat.one_mul]
    exact .refl _ _
  | one =>
    rw [Nat.pow_one]
    exact .refl _ _
  | more k ih _ =>
    have heq : 256^(k + 2) * n = 2^16 * (256^k * n) := by ring
    rw [heq, Nat.add_mod_right]
    exact (rep_shift _).trans ih

/-- Behind an odd number of octets the others are shifted. -/
theorem rep_append (data data' : List UInt8) :
    Rep 0xffff (value (data ++ data'))
    (value data + shift (decide (data.length % 2 = 1)) (value data')) := by
  rw [value_append]
  exact (Rep.refl _ _).add (rep_pow _ _)

/-- Behind an even number of octets. -/
theorem rep_append_even {data : List UInt8} (h : data.length % 2 = 0) (data' : List UInt8) :
    Rep 0xffff (value (data ++ data')) (value data + value data') := by
  have hrep := rep_append data data'
  rwa [h] at hrep

/-- A word that is stored has its value. -/
theorem value_store16 (h : n < 2^16) : value (store16 n) = n := by
  rw [store16, value_cons, value_cons, value_nil, toNat_low_octet, toNat_high_octet h]
  omega

/-- A double word stands for the sum of its two words. -/
theorem rep_store32 (a : BitVec 32) :
    Rep 0xffff (value (store32 a)) (a.toNat % 2^16 + a.toNat / 2^16 % 2^16) := by
  have ha : a.toNat < 2^32 := a.isLt
  have heven : (store16 (a.toNat % 2^16)).length % 2 = 0 := by simp [store16]
  have hrep := rep_append_even heven (store16 (a.toNat / 2^16))
  rw [value_store16 (Nat.mod_lt _ (by decide)), value_store16 (by omega)] at hrep
  rwa [Nat.mod_eq_of_lt (a := a.toNat / 2^16) (by omega)]

/-- A word in network byte order has the swapped value. -/
theorem value_be16 (w : BitVec 16) : value (be16 w) = swapBytesInWord w.toNat := by
  have hw : w.toNat < 2^16 := w.isLt
  rw [be16, value_cons, value_cons, value_nil, toNat_low_octet, toNat_high_octet hw,
    swapBytesInWord, Nat.mod_eq_of_lt (a := w.toNat / 2^8) (by omega)]
  omega

/-- The pseudo header stands for the sum of its words. -/
theorem rep_pseudoHeader (src dest : BitVec 32) (proto : UInt8) (protoLen : BitVec 16) :
    Rep 0xffff (value (pseudoHeader src dest proto protoLen))
      (src.toNat % 2^16 + src.toNat / 2^16 % 2^16 + (dest.toNat % 2^16 + dest.toNat / 2^16 % 2^16) +
        swapBytesInWord proto.toNat + swapBytesInWord protoLen.toNat) := by
  have hp := proto.toNat_lt
  have hproto : value [0, proto] = swapBytesInWord proto.toNat := by
    rw [value_cons, value_cons, value_nil, swapBytesInWord, Nat.mod_eq_of_lt hp,
      Nat.div_eq_of_lt hp]
    simp only [UInt8.toNat_zero]
    omega
  rw [← value_be16, ← hproto]
  have heven : ∀ a, (store32 a).length % 2 = 0 := by simp [store32, store16]
  have heven₂ : (store32 src ++ store32 dest).length % 2 = 0 := by simp [store32, store16]
  have heven₃ : (store32 src ++ store32 dest ++ [0, proto]).length % 2 = 0 := by
    simp [store32, store16]
  refine (rep_append_even heven₃ _).trans (.add ?_ (.refl _ _))
  refine (rep_append_even heven₂ _).trans (.add ?_ (.refl _ _))
  exact (rep_append_even (heven src) _).trans ((rep_store32 src).add (rep_store32 dest))

end Shift

/-! ## The loop -/

section Loop

variable {p ps qs : List (List UInt8)} {c : BitVec 16}

/-- A round adds the octets of its pbuf, at the place where the pbufs so far have ended. -/
theorem chksumRound_spec {acc : ℕ} {q : List UInt8} (swapped : Bool) (hacc : acc ≤ 0xffff)
    (hq : q.length ≤ 0xffff) (n : ℕ) :
    (chksumRound (acc, swapped) q).1 ≤ 0xffff ∧
      Rep 0xffff (shift (chksumRound (acc, swapped) q).2 ((chksumRound (acc, swapped) q).1 + n))
        (shift swapped (acc + (value q + shift (decide (q.length % 2 = 1)) n))) := by
  have hle := lwipStandardChksum1_le q
  have hfold : foldU32 (acc + lwipStandardChksum1 q) ≤ 0xffff :=
    foldCarry_le (m := 0xffff) (by omega)
  have hrep : Rep 0xffff (foldU32 (acc + lwipStandardChksum1 q)) (acc + value q) :=
    (foldCarry_rep 0xffff _).trans ((Rep.refl _ _).add (lwipStandardChksum1_rep hq))
  have hlt : acc + lwipStandardChksum1 q < 2^32 := by omega
  rw [chksumRound, ← Nat.add_assoc]
  dsimp only
  rw [Nat.mod_eq_of_lt hlt]
  by_cases hodd : q.length % 2 = 1
  · -- What follows is shifted by one octet, and so is the sum.
    rw [if_pos (by omega), decide_eq_true hodd]
    refine ⟨swapBytesInWord_le _, ?_⟩
    have hswap := (rep_swap (by omega)).trans (hrep.mul_left (2^8))
    refine (Rep.shift _ (hswap.add (.refl _ n))).trans ((shift_not _ _).trans (Rep.shift _ ?_))
    rw [Nat.mul_add, ← Nat.mul_assoc]
    exact (rep_shift _).add (.refl _ _)
  · rw [if_neg (by omega), decide_eq_false hodd]
    exact ⟨hfold, Rep.shift _ (hrep.add (.refl _ n))⟩

/-- The loop adds the octets of all pbufs. -/
theorem chksumRounds_spec (hp : ∀ q ∈ p, q.length ≤ 0xffff) {acc : ℕ} (swapped : Bool)
    (hacc : acc ≤ 0xffff) : (p.foldl chksumRound (acc, swapped)).1 ≤ 0xffff ∧
      Rep 0xffff
        (shift (p.foldl chksumRound (acc, swapped)).2 (p.foldl chksumRound (acc, swapped)).1)
        (shift swapped (acc + value p.flatten)) := by
  induction p generalizing acc swapped with
  | nil => exact ⟨hacc, .refl _ _⟩
  | cons q p ih =>
    obtain ⟨hq, hp⟩ := List.forall_mem_cons.mp hp
    obtain ⟨hacc', hround⟩ := chksumRound_spec swapped hacc hq (value p.flatten)
    obtain ⟨hle, hrep⟩ := ih hp (chksumRound (acc, swapped) q).2 hacc'
    refine ⟨hle, hrep.trans (hround.trans (Rep.shift _ ?_))⟩
    rw [List.flatten_cons]
    exact (Rep.refl _ _).add (rep_append q p.flatten).symm

/-- The loop over the pbufs returns what stands for the octets. -/
theorem chksumChain_spec (hp : ∀ q ∈ p, q.length ≤ 0xffff) :
    chksumChain p ≤ 0xffff ∧ Rep 0xffff (chksumChain p) (value p.flatten) := by
  obtain ⟨hle, hrep⟩ := chksumRounds_spec hp false (Nat.zero_le _)
  rw [Nat.zero_add] at hrep
  rw [chksumChain]
  generalize p.foldl chksumRound (0, false) = st at *
  obtain ⟨acc, swapped⟩ := st
  cases swapped with
  | false => exact ⟨hle, hrep⟩
  | true =>
    dsimp only at hle hrep ⊢
    rw [if_pos rfl]
    exact ⟨swapBytesInWord_le _, (rep_swap (by omega)).trans hrep⟩

/-- The complement of a word. -/
theorem toNat_not_ofNat {n : ℕ} (hn : n ≤ 0xffff) : (~~~ BitVec.ofNat 16 n).toNat = 0xffff - n := by
  rw [BitVec.toNat_not, BitVec.toNat_ofNat, Nat.mod_eq_of_lt (by omega)]

/-- The checksum is the complement of what stands for the pseudo header and the octets. -/
theorem inetChksumPseudo_spec (hp : ∀ q ∈ p, q.length ≤ 0xffff) (src dest : BitVec 32)
    (proto : UInt8) (protoLen : BitVec 16) :
    ∃ sum ≤ 0xffff, (inetChksumPseudo p src dest proto protoLen).toNat = 0xffff - sum ∧
      Rep 0xffff sum (value (pseudoHeader src dest proto protoLen) + value p.flatten) := by
  obtain ⟨hle, hrep⟩ := chksumChain_spec hp
  have hproto := swapBytesInWord_le proto.toNat
  have hlen := swapBytesInWord_le protoLen.toNat
  have hhdr := (rep_pseudoHeader src dest proto protoLen).symm.add hrep
  rw [inetChksumPseudo]
  generalize hn : chksumChain p + src.toNat % 2^16 + src.toNat / 2^16 % 2^16 + dest.toNat % 2^16 +
    dest.toNat / 2^16 % 2^16 + swapBytesInWord proto.toNat + swapBytesInWord protoLen.toNat = n
  have hfold : foldU32 (foldU32 n) ≤ 0xffff := foldCarry_foldCarry_le (m := 0xffff) (by omega)
  rw [Nat.mod_eq_of_lt (a := n) (by omega), Nat.mod_eq_of_lt (a := foldU32 _) (by omega)]
  refine ⟨_, hfold, toNat_not_ofNat hfold, ?_⟩
  refine ((foldCarry_rep 0xffff _).trans (foldCarry_rep 0xffff n)).trans ?_
  convert hhdr using 1
  omega

/-- The inverted sum, in the order in which it is stored. -/
theorem eq_swap_rfc1071 {sum : ℕ} {data : List UInt8} (hsum : sum ≤ 0xffff)
    (hrep : Rep 0xffff sum (value data)) : 0xffff - sum = swapBytesInWord (rfc1071 data) := by
  have hle := onesSum_le (bigWords_le data)
  have hones := (onesSum_rep (bigWords_le data)).mul_left (2^8)
  have hswap : Rep 0xffff (swapBytesInWord (onesSum 0xffff (bigWords data))) (value data) :=
    (rep_swap (by omega)).trans (hones.trans (rep_bigWords data))
  rw [hrep.unique hswap hsum (swapBytesInWord_le _), rfc1071]
  unfold swapBytesInWord
  omega

/-- Another value in the checksum field. -/
theorem Filled.rep (h : Filled c ps qs) :
    Rep 0xffff (value qs.flatten) (value ps.flatten + c.toNat) := by
  obtain ⟨front, back, heven, hps, hqs⟩ := h
  rw [hps, hqs, List.append_assoc, List.append_assoc]
  refine (rep_append_even heven _).trans ?_
  refine .trans ?_ ((rep_append_even heven _).add (.refl _ _)).symm
  rw [Nat.add_assoc]
  refine (Rep.refl _ _).add ?_
  have hzero : Rep 0xffff (value ([0, 0] ++ back)) (value [0, 0] + value back) :=
    rep_append_even rfl back
  have hstore : (store16 c.toNat).length % 2 = 0 := by simp [store16]
  have hc := rep_append_even hstore back
  -- The field adds its value to the octets behind it.
  rw [value_store16 c.isLt, Nat.add_comm] at hc
  refine hc.trans (.add ?_ (.refl _ _))
  refine .symm (hzero.trans ?_)
  rw [value_cons, value_cons, value_nil]
  simp only [UInt8.toNat_zero, Nat.mul_zero, Nat.zero_add]
  exact .refl _ _

end Loop

/-- The checksums of a chain are those of its octets, however these are split, and a message with a
checksum passes the test with every split. -/
theorem inetChksum_split (ps qs : List (List UInt8)) (hps : ∀ q ∈ ps, q.length ≤ 0xffff)
    (hqs : ∀ q ∈ qs, q.length ≤ 0xffff) (src dest : BitVec 32) (proto : UInt8)
    (protoLen : BitVec 16) : (inetChksumPseudo ps src dest proto protoLen).toNat =
        swapBytesInWord (rfc1071 (pseudoHeader src dest proto protoLen ++ ps.flatten)) ∧
      (inetChksumPbuf ps).toNat = swapBytesInWord (rfc1071 ps.flatten) ∧
      ∀ c : BitVec 16, c = inetChksumPseudo ps src dest proto protoLen ∨
          c = 0xffff ∧ inetChksumPseudo ps src dest proto protoLen = 0 → Filled c ps qs →
        inetChksumPseudo qs src dest proto protoLen = 0 := by
  obtain ⟨sum, hsum, hps', hrep⟩ := inetChksumPseudo_spec hps src dest proto protoLen
  have heven : (pseudoHeader src dest proto protoLen).length % 2 = 0 := by
    simp [pseudoHeader, store32, store16, be16]
  refine ⟨?_, ?_, ?_⟩
  · rw [hps']
    exact eq_swap_rfc1071 hsum (hrep.trans (rep_append_even heven _).symm)
  · obtain ⟨hle, hchain⟩ := chksumChain_spec hps
    rw [inetChksumPbuf, toNat_not_ofNat hle]
    exact eq_swap_rfc1071 hle hchain
  · intro c hc hfilled
    obtain ⟨sum', hsum', hqs', hrep'⟩ := inetChksumPseudo_spec hqs src dest proto protoLen
    -- With its complement, the sum of the first chain becomes a zero of the second kind.
    have hadd : Rep 0xffff sum' (sum + c.toNat) := by
      refine hrep'.trans (((Rep.refl _ _).add hfilled.rep).trans ?_)
      rw [← Nat.add_assoc]
      exact hrep.symm.add (.refl _ _)
    have hones : Rep 0xffff (sum + c.toNat) 0xffff := by
      rcases hc with rfl | ⟨rfl, hzero⟩
      · rw [hps', Nat.add_sub_cancel' hsum]
        exact .refl _ _
      · have hfull : sum = 0xffff := by
          rw [hzero] at hps'
          have hz : (0 : BitVec 16).toNat = 0 := rfl
          omega
        rw [hfull]
        exact ⟨by decide, by decide⟩
    have hfull := (hadd.trans hones).unique (.refl _ _) hsum' (Nat.le_refl _)
    apply BitVec.eq_of_toNat_eq
    rw [hqs', hfull]
    rfl

/-- Six octets in four pbufs, and with their checksum in two. -/
theorem inetChksum_split_odd :
    let ps : List (List UInt8) := [[0x12, 0x34], [0, 0, 7], [], [9]]
    let qs : List (List UInt8) := [[0x12, 0x34, 0xd2], [0xa8, 7, 9]]
    (∀ q ∈ ps, q.length ≤ 0xffff) ∧ (∀ q ∈ qs, q.length ≤ 0xffff) ∧ Filled 0xa8d2 ps qs ∧
      inetChksumPseudo qs 0x0100000a 0x0200000a 17 6 = 0 := by
  intro ps qs
  have hps : ∀ q ∈ ps, q.length ≤ 0xffff := by decide
  have hqs : ∀ q ∈ qs, q.length ≤ 0xffff := by decide
  have hfilled : Filled 0xa8d2 ps qs := ⟨[0x12, 0x34], [7, 9], rfl, rfl, rfl⟩
  have hsplit := inetChksum_split ps qs hps hqs 0x0100000a 0x0200000a 17 6
  exact ⟨hps, hqs, hfilled, hsplit.2.2 _ (.inl (by decide +kernel)) hfilled⟩

end Lwip.Ip
