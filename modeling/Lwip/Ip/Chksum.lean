import Lwip.Ip.Hdr
import Lwip.Lib.OnesComplement
import Mathlib.Data.Nat.Digits.Defs

/-!
# The three versions of `lwip_standard_chksum`

`LWIP_CHKSUM_ALGORITHM` of `inet_chksum.c` selects one of three functions. The first adds up pairs
of octets as they are on the wire. The other two add up what a little-endian machine reads from
memory, two and four octets at a time, and so depend on the address: an odd first octet is read as a
second one, and the sum is swapped at the end. Each of the three returns the number of at most 16
bits that stands for the octets as the digits of one number (`Rep`), hence the same one.
-/

namespace Lwip.Ip

/-- `SWAP_BYTES_IN_WORD(w)`, which is also what `htons` does on a little-endian machine. -/
def swapBytesInWord (w : ℕ) : ℕ := w % 2^8 * 2^8 + w / 2^8 % 2^8

/-- A `u16_t` that a little-endian machine reads. -/
def read16 (a b : UInt8) : ℕ := a.toNat + b.toNat * 2^8

/-- A `u32_t` that a little-endian machine reads. -/
def read32 (a b c d : UInt8) : ℕ := read16 a b + read16 c d * 2^16

/-- A `u16_t` as a little-endian machine stores it. -/
def store16 (w : ℕ) : List UInt8 := [UInt8.ofNat (w % 2^8), UInt8.ofNat (w / 2^8)]

/-- The words of RFC 1071: pairs of octets in network byte order, with a zero octet added if need
be. -/
def bigWords : List UInt8 → List ℕ
  | a :: b :: rest => (a.toNat * 2^8 + b.toNat) :: bigWords rest
  | [a] => [a.toNat * 2^8]
  | [] => []

/-! ## Algorithm 1 -/

/-- `lwip_standard_chksum(dataptr, len)`, algorithm 1: the sum in network byte order goes through
`htons`. -/
def lwipStandardChksum1 (data : List UInt8) : ℕ := swapBytesInWord (lwipStandardChksum data).toNat

/-! ## Algorithm 2 -/

/-- Gets aligned to `u16_t`: an octet at an odd address goes into the second octet of `t`. The
address and the octets from there on follow. -/
def alignOdd (addr : ℕ) : List UInt8 → ℕ × ℕ × List UInt8
  | a :: rest => if addr % 2 = 1 then (a.toNat * 2^8, addr + 1, rest) else (0, addr, a :: rest)
  | [] => (0, addr, [])

/-- `sum += *ps++` as long as there are two octets, and the left-over one, which goes into the first
octet of `t`. -/
def addHalfWords (sum : ℕ) : List UInt8 → ℕ × ℕ
  | a :: b :: rest => addHalfWords ((sum + read16 a b) % 2^32) rest
  | [a] => (sum, a.toNat)
  | [] => (sum, 0)

/-- The end of algorithms 2 and 3: the end octets are added, the sum is folded, and swapped if the
alignment was odd. -/
def finish (addr sum t : ℕ) : ℕ :=
  let sum := foldU32 (foldU32 ((sum + t) % 2^32))
  u16 (if addr % 2 = 1 then swapBytesInWord sum else sum)

/-- `lwip_standard_chksum(dataptr, len)`, algorithm 2. -/
def lwipStandardChksum2 (addr : ℕ) (data : List UInt8) : ℕ :=
  let (t₁, _, data) := alignOdd addr data
  let (sum, t₀) := addHalfWords 0 data
  finish addr sum (t₁ + t₀)

/-! ## Algorithm 3 -/

/-- Adds up a half-word if `ps` is not aligned to `u32_t`. -/
def alignWord (addr : ℕ) : List UInt8 → ℕ × List UInt8
  | a :: b :: rest => if addr % 4 ≠ 0 then (read16 a b, rest) else (0, a :: b :: rest)
  | data => (0, data)

/-- `tmp = sum + w; if (tmp < sum) tmp++`: the carry out of 32 bits is added back. -/
def addBack (sum w : ℕ) : ℕ :=
  let tmp := (sum + w) % 2^32
  if tmp < sum then (tmp + 1) % 2^32 else tmp

/-- The loop over eight octets at a time, ping and pong. -/
def pingPong (sum : ℕ) : List UInt8 → ℕ × List UInt8
  | a :: b :: c :: d :: a' :: b' :: c' :: d' :: rest =>
    pingPong (addBack (addBack sum (read32 a b c d)) (read32 a' b' c' d')) rest
  | data => (sum, data)

/-- `lwip_standard_chksum(dataptr, len)`, algorithm 3. -/
def lwipStandardChksum3 (addr : ℕ) (data : List UInt8) : ℕ :=
  let (t₁, addr', data) := alignOdd addr data
  let (sum, data) := alignWord addr' data
  let (sum, data) := pingPong sum data
  let (sum, t₀) := addHalfWords (foldU32 sum) data
  finish addr sum (t₁ + t₀)

/-! ## What they stand for -/

/-- The octets as the digits of a number, the least significant first. -/
def value (data : List UInt8) : ℕ := Nat.ofDigits 256 (data.map UInt8.toNat)

section Value

variable {a b c d : UInt8} {data data' : List UInt8} {w sum t n addr : ℕ}

/-- No octets stand for 0. -/
@[simp] theorem value_nil : value [] = 0 := rfl

/-- The first octet is the low one. -/
@[simp] theorem value_cons (a : UInt8) (data : List UInt8) :
    value (a :: data) = a.toNat + 256 * value data := by
  rw [value, List.map_cons, Nat.ofDigits_cons]
  rfl

/-- The octets behind others are worth more. -/
theorem value_append (data data' : List UInt8) :
    value (data ++ data') = value data + 256 ^ data.length * value data' := by
  rw [value, List.map_append, Nat.ofDigits_append, List.length_map]
  rfl

/-- A word has 16 bits. -/
theorem read16_lt (a b : UInt8) : read16 a b < 2^16 := by
  have ha := a.toNat_lt
  have hb := b.toNat_lt
  unfold read16
  omega

/-- A double word has 32 bits. -/
theorem read32_lt (a b c d : UInt8) : read32 a b c d < 2^32 := by
  have hab := read16_lt a b
  have hcd := read16_lt c d
  unfold read32
  omega

/-- Sixteen bits more or less do not change what a number stands for. -/
theorem rep_shift (n : ℕ) : Rep 0xffff (2^16 * n) n :=
  Rep.mul_of_one (show 2^16 ≡ 1 [MOD 0xffff] by decide) (by decide) n

/-- A swapped word stands for the word shifted by an octet. -/
theorem rep_swap (hw : w < 2^16) : Rep 0xffff (swapBytesInWord w) (2^8 * w) := by
  have heq : swapBytesInWord w = w % 2^8 * 2^8 + w / 2^8 := by
    unfold swapBytesInWord
    rw [Nat.mod_eq_of_lt (a := w / 2^8) (by omega)]
  rw [heq]
  exact Rep.swapDigits rfl w

/-- A swapped word is a word. -/
theorem swapBytesInWord_le (w : ℕ) : swapBytesInWord w ≤ 0xffff := by
  unfold swapBytesInWord
  omega

/-- To swap twice changes nothing. -/
theorem swapBytesInWord_self (hw : w < 2^16) : swapBytesInWord (swapBytesInWord w) = w := by
  have hq : w / 2^8 < 2^8 := by omega
  have hr : w % 2^8 < 2^8 := Nat.mod_lt w (by decide)
  have hlow : (w % 2^8 * 2^8 + w / 2^8) % 2^8 = w / 2^8 := by omega
  have hhigh : (w % 2^8 * 2^8 + w / 2^8) / 2^8 = w % 2^8 := by omega
  rw [swapBytesInWord, swapBytesInWord, Nat.mod_eq_of_lt hq, hlow, hhigh, Nat.mod_eq_of_lt hr]
  omega

/-- A half-word in front. -/
theorem rep_cons₂ (a b : UInt8) (data : List UInt8) :
    Rep 0xffff (value (a :: b :: data)) (read16 a b + value data) := by
  have heq : value (a :: b :: data) = read16 a b + 2^16 * value data := by
    rw [value_cons, value_cons, read16]
    ring
  rw [heq]
  exact (Rep.refl _ _).add (rep_shift _)

/-- A word in front. -/
theorem rep_cons₄ (a b c d : UInt8) (data : List UInt8) :
    Rep 0xffff (value (a :: b :: c :: d :: data)) (read32 a b c d + value data) := by
  refine (rep_cons₂ a b _).trans ?_
  rw [read32, Nat.add_assoc]
  refine (Rep.refl _ _).add ((rep_cons₂ c d _).trans ((Rep.add ?_ (.refl _ _))))
  rw [Nat.mul_comm]
  exact (rep_shift _).symm

/-- The words of RFC 1071 are the half-words with their octets exchanged. -/
theorem rep_bigWords (data : List UInt8) : Rep 0xffff (2^8 * (bigWords data).sum) (value data) := by
  induction data using bigWords.induct with
  | case1 a b rest ih =>
    rw [bigWords, List.sum_cons, Nat.mul_add]
    refine .trans ?_ (rep_cons₂ a b rest).symm
    refine .add ?_ ih
    have heq : 2^8 * (a.toNat * 2^8 + b.toNat) = 2^16 * a.toNat + b.toNat * 2^8 := by ring
    rw [heq, read16]
    exact (rep_shift _).add (.refl _ _)
  | case2 a =>
    rw [bigWords, List.sum_singleton, value_cons, value_nil, ← Nat.mul_assoc, Nat.mul_comm,
      ← Nat.mul_assoc]
    exact rep_shift _
  | case3 => exact .refl _ _

/-- A pair of octets is a word. -/
theorem bigWords_le (data : List UInt8) : ∀ w ∈ bigWords data, w ≤ 0xffff := by
  induction data using bigWords.induct with
  | case1 a b rest ih =>
    have ha := a.toNat_lt
    have hb := b.toNat_lt
    rw [bigWords, List.forall_mem_cons]
    exact ⟨by omega, ih⟩
  | case2 a =>
    have ha := a.toNat_lt
    rw [bigWords, List.forall_mem_cons]
    exact ⟨by omega, nofun⟩
  | case3 => exact nofun

/-- A bound on the sum of the words. -/
theorem bigWords_sum_le (data : List UInt8) :
    2 * (bigWords data).sum ≤ (data.length + 1) * 0xffff := by
  induction data using bigWords.induct with
  | case1 a b rest ih =>
    have ha := a.toNat_lt
    have hb := b.toNat_lt
    rw [bigWords, List.sum_cons, List.length_cons, List.length_cons]
    omega
  | case2 a =>
    have ha := a.toNat_lt
    rw [bigWords, List.sum_singleton, List.length_singleton]
    omega
  | case3 => exact Nat.zero_le _

end Value

/-! ## Algorithm 1 -/

section First

variable {data : List UInt8}

/-- The loop adds up the words, as long as the accumulator does not overflow. -/
theorem chksumLoop_eq (data : List UInt8) (acc : ℕ) (h : acc + (bigWords data).sum < 2^32) :
    chksumLoop acc data = acc + (bigWords data).sum := by
  induction data using bigWords.induct generalizing acc with
  | case1 a b rest ih =>
    rw [bigWords, List.sum_cons, ← Nat.add_assoc] at h ⊢
    have hlt : acc + (a.toNat * 2^8 + b.toNat) < 2^32 := Nat.lt_of_le_of_lt (Nat.le_add_right _ _) h
    rw [chksumLoop, Nat.mod_eq_of_lt hlt]
    exact ih _ h
  | case2 a =>
    rw [bigWords, List.sum_singleton] at h ⊢
    rw [chksumLoop, Nat.mod_eq_of_lt h]
  | case3 => rfl

/-- The sum in network byte order is that of RFC 1071. -/
theorem toNat_lwipStandardChksum (h : data.length ≤ 0xffff) :
    (lwipStandardChksum data).toNat = onesSum 0xffff (bigWords data) := by
  have hsum := bigWords_sum_le data
  have hmul : (data.length + 1) * 0xffff ≤ 2^16 * 0xffff := Nat.mul_le_mul_right _ (by omega)
  have hlt : (bigWords data).sum < 2^31 := by omega
  have hfold : (if foldU32 (bigWords data).sum / 2^16 ≠ 0 then foldU32 (foldU32 (bigWords data).sum)
      else foldU32 (bigWords data).sum) =
        foldCarry 0xffff (foldCarry 0xffff (bigWords data).sum) := by
    unfold foldU32 foldCarry
    split <;> omega
  have hle : foldCarry 0xffff (foldCarry 0xffff (bigWords data).sum) ≤ 0xffff :=
    foldCarry_foldCarry_le (by omega)
  rw [lwipStandardChksum, chksumLoop_eq data 0 (by omega), Nat.zero_add, hfold, BitVec.toNat_ofNat,
    Nat.mod_eq_of_lt (by omega)]
  exact eq_onesSum (bigWords_le data) hle ((foldCarry_rep _ _).trans (foldCarry_rep _ _))

/-- The first algorithm adds up pairs of octets. -/
theorem lwipStandardChksum1_eq (h : data.length ≤ 0xffff) :
    lwipStandardChksum1 data = swapBytesInWord (onesSum 0xffff (bigWords data)) := by
  rw [lwipStandardChksum1, toNat_lwipStandardChksum h]

/-- The first algorithm returns a word. -/
theorem lwipStandardChksum1_le (data : List UInt8) : lwipStandardChksum1 data ≤ 0xffff :=
  swapBytesInWord_le _

/-- The first algorithm returns what stands for the octets. -/
theorem lwipStandardChksum1_rep (h : data.length ≤ 0xffff) :
    Rep 0xffff (lwipStandardChksum1 data) (value data) := by
  have hle := onesSum_le (bigWords_le data)
  rw [lwipStandardChksum1_eq h]
  refine (rep_swap (by omega)).trans (.trans ?_ (rep_bigWords data))
  exact (onesSum_rep (bigWords_le data)).mul_left _

end First

/-! ## Algorithms 2 and 3 -/

section Second

variable {data : List UInt8} {sum t n addr : ℕ}

/-- The half-words and the left-over octet. -/
theorem addHalfWords_spec (data : List UInt8) (sum : ℕ)
    (h : 2 * sum + data.length * 0xffff < 2^33) :
    2 * (addHalfWords sum data).1 ≤ 2 * sum + data.length * 0xffff ∧
    (addHalfWords sum data).2 < 2^8 ∧
      Rep 0xffff ((addHalfWords sum data).1 + (addHalfWords sum data).2) (sum + value data) := by
  induction data using bigWords.induct generalizing sum with
  | case1 a b rest ih =>
    have hab := read16_lt a b
    rw [List.length_cons, List.length_cons] at h ⊢
    -- The bound says that the `u32_t` does not overflow.
    rw [addHalfWords, Nat.mod_eq_of_lt (by omega)]
    obtain ⟨hle, hlt, hrep⟩ := ih (sum + read16 a b) (by omega)
    refine ⟨by omega, hlt, hrep.trans ?_⟩
    rw [Nat.add_assoc]
    exact (Rep.refl _ _).add (rep_cons₂ a b rest).symm
  | case2 a =>
    rw [addHalfWords, value_cons, value_nil, Nat.mul_zero, Nat.add_zero]
    exact ⟨Nat.le_add_right _ _, a.toNat_lt, .refl _ _⟩
  | case3 => exact ⟨Nat.le_add_right _ _, Nat.two_pow_pos 8, .refl _ _⟩

/-- The carry goes around the 32 bits. -/
theorem addBack_spec {w : ℕ} (hs : sum < 2^32) (hw : w < 2^32) :
    addBack sum w < 2^32 ∧ Rep 0xffff (addBack sum w) (sum + w) := by
  have heq : addBack sum w = endAround (2^32 - 1) sum w := by
    unfold addBack endAround
    dsimp only
    split <;> split <;> omega
  have hle : endAround (2^32 - 1) sum w ≤ 2^32 - 1 := endAround_le (by omega) (by omega)
  rw [heq]
  exact ⟨by omega, (endAround_rep _ sum w).of_dvd (by norm_num)⟩

/-- Two half-words in each round. -/
theorem pingPong_spec (data : List UInt8) (sum : ℕ) (hs : sum < 2^32) :
    (pingPong sum data).1 < 2^32 ∧ (pingPong sum data).2.length ≤ data.length ∧
      Rep 0xffff ((pingPong sum data).1 + value (pingPong sum data).2) (sum + value data) := by
  induction sum, data using pingPong.induct with
  | case1 sum a b c d a' b' c' d' rest ih =>
    obtain ⟨hping, hrep⟩ := addBack_spec hs (read32_lt a b c d)
    obtain ⟨hpong, hrep'⟩ := addBack_spec hping (read32_lt a' b' c' d')
    obtain ⟨hlt, hlen, hrest⟩ := ih hpong
    rw [pingPong]
    refine ⟨hlt, by simp only [List.length_cons]; omega, hrest.trans ?_⟩
    refine ((hrep'.trans (hrep.add (.refl _ _))).add (.refl _ _)).trans ?_
    rw [Nat.add_assoc, Nat.add_assoc]
    -- Two words are taken off the octets.
    refine (Rep.refl _ _).add (.symm ((rep_cons₄ a b c d _).trans ?_))
    exact (Rep.refl _ _).add (rep_cons₄ a' b' c' d' rest)
  | case2 sum data hno =>
    rw [pingPong]
    · exact ⟨hs, Nat.le_refl _, .refl _ _⟩
    · exact hno

/-- A half-word before the aligned ones. -/
theorem alignWord_spec (addr : ℕ) (data : List UInt8) :
    (alignWord addr data).1 < 2^16 ∧ (alignWord addr data).2.length ≤ data.length ∧
      Rep 0xffff ((alignWord addr data).1 + value (alignWord addr data).2) (value data) := by
  have hnone : ∀ data : List UInt8, (0 : ℕ) < 2^16 ∧ data.length ≤ data.length ∧
      Rep 0xffff (0 + value data) (value data) := by
    intro data
    rw [Nat.zero_add]
    exact ⟨by decide, Nat.le_refl _, .refl _ _⟩
  match data with
  | [] => exact hnone _
  | [a] => exact hnone _
  | a :: b :: rest =>
    rw [alignWord]
    split
    · exact ⟨read16_lt a b, by simp only [List.length_cons]; omega, (rep_cons₂ a b rest).symm⟩
    · exact hnone _

/-- After an odd first octet the sum stands for the octets shifted by one. -/
theorem alignOdd_spec (addr : ℕ) (data : List UInt8) (hn : data.length ≤ 0xffff) :
    (alignOdd addr data).1 + 2^8 ≤ 2^16 ∧ (alignOdd addr data).2.2.length ≤ data.length ∧
      Rep 0xffff ((alignOdd addr data).1 + value (alignOdd addr data).2.2)
        (if addr % 2 = 1 then 2^8 * value data else value data) := by
  match data with
  | [] =>
    refine ⟨show 0 + 2^8 ≤ 2^16 by decide, Nat.le_refl _, ?_⟩
    rw [value_nil, Nat.mul_zero, ite_self]
    exact .refl _ _
  | a :: rest =>
    have ha := a.toNat_lt
    rw [alignOdd]
    split
    · -- The first octet counts as the second one of its word.
      refine ⟨by omega, by simp, ?_⟩
      have heq : 2^8 * value (a :: rest) = a.toNat * 2^8 + 2^16 * value rest := by
        rw [value_cons]
        ring
      rw [heq]
      exact (Rep.refl _ _).add (rep_shift _).symm
    · refine ⟨by omega, Nat.le_refl _, ?_⟩
      dsimp only
      rw [Nat.zero_add]
      exact .refl _ _

/-- The end of the second and the third algorithm. -/
theorem finish_spec (hlt : sum + t < 2^32)
    (hrep : Rep 0xffff (sum + t) (if addr % 2 = 1 then 2^8 * n else n)) :
    finish addr sum t ≤ 0xffff ∧ Rep 0xffff (finish addr sum t) n := by
  have hfold : ∀ u, foldU32 u = foldCarry 0xffff u := fun u => rfl
  have hle : foldCarry 0xffff (foldCarry 0xffff (sum + t)) ≤ 0xffff :=
    foldCarry_foldCarry_le (by omega)
  have hsum : Rep 0xffff (foldCarry 0xffff (foldCarry 0xffff (sum + t)))
      (if addr % 2 = 1 then 2^8 * n else n) :=
    ((foldCarry_rep _ _).trans (foldCarry_rep _ _)).trans hrep
  unfold finish u16
  dsimp only
  rw [Nat.mod_eq_of_lt hlt, hfold, hfold]
  split
  · next hodd =>
    rw [if_pos hodd] at hsum
    have hswap := swapBytesInWord_le (foldCarry 0xffff (foldCarry 0xffff (sum + t)))
    rw [Nat.mod_eq_of_lt (by omega)]
    refine ⟨hswap, (rep_swap (by omega)).trans ((hsum.mul_left _).trans ?_)⟩
    -- The octets are shifted by two then.
    rw [← Nat.mul_assoc]
    exact rep_shift n
  · next heven =>
    rw [if_neg heven] at hsum
    rw [Nat.mod_eq_of_lt (by omega)]
    exact ⟨hle, hsum⟩

/-- The second algorithm returns what stands for the octets. -/
theorem lwipStandardChksum2_spec (addr : ℕ) (h : data.length ≤ 0xffff) :
    lwipStandardChksum2 addr data ≤ 0xffff ∧ Rep 0xffff (lwipStandardChksum2 addr data)
    (value data) := by
  obtain ⟨ht, hlen, hodd⟩ := alignOdd_spec addr data h
  rw [lwipStandardChksum2]
  generalize alignOdd addr data = x at *
  obtain ⟨t₁, addr', rest⟩ := x
  dsimp only at ht hlen hodd ⊢
  obtain ⟨hle, hlt, hrep⟩ := addHalfWords_spec rest 0 (by omega)
  generalize addHalfWords 0 rest = y at *
  obtain ⟨sum, t₀⟩ := y
  dsimp only at hle hlt hrep ⊢
  refine finish_spec (by omega) (.trans ?_ hodd)
  rw [Nat.zero_add] at hrep
  rw [Nat.add_left_comm]
  exact (Rep.refl _ _).add hrep

/-- The third algorithm returns what stands for the octets. -/
theorem lwipStandardChksum3_spec (addr : ℕ) (h : data.length ≤ 0xffff) :
    lwipStandardChksum3 addr data ≤ 0xffff ∧ Rep 0xffff (lwipStandardChksum3 addr data)
    (value data) := by
  obtain ⟨ht, hlen, hodd⟩ := alignOdd_spec addr data h
  rw [lwipStandardChksum3]
  generalize alignOdd addr data = x at *
  obtain ⟨t₁, addr', data₁⟩ := x
  dsimp only at ht hlen hodd ⊢
  obtain ⟨hword, hlen₂, halign⟩ := alignWord_spec addr' data₁
  generalize alignWord addr' data₁ = y at *
  obtain ⟨sum₂, data₂⟩ := y
  dsimp only at hword hlen₂ halign ⊢
  obtain ⟨hsum, hlen₃, hping⟩ := pingPong_spec data₂ sum₂ (by omega)
  generalize pingPong sum₂ data₂ = z at *
  obtain ⟨sum₃, data₃⟩ := z
  dsimp only at hsum hlen₃ hping ⊢
  -- The fold makes room for the rest.
  have hroom : foldU32 sum₃ ≤ 2 * 0xffff := by
    unfold foldU32
    omega
  have hfold : Rep 0xffff (foldU32 sum₃) sum₃ := foldCarry_rep 0xffff sum₃
  obtain ⟨hle, hlt, hrep⟩ := addHalfWords_spec data₃ (foldU32 sum₃) (by omega)
  generalize addHalfWords (foldU32 sum₃) data₃ = u at *
  obtain ⟨sum, t₀⟩ := u
  dsimp only at hle hlt hrep ⊢
  refine finish_spec (by omega) (.trans ?_ hodd)
  rw [Nat.add_left_comm]
  refine (Rep.refl _ _).add (hrep.trans ?_)
  exact (hfold.add (.refl _ _)).trans (hping.trans halign)

end Second

/-- A stored number, read as a word in network byte order. -/
theorem bigWords_store16 {w : ℕ} (hw : w ≤ 0xffff) :
    bigWords (store16 w) = [swapBytesInWord w] := by
  rw [store16, bigWords, bigWords, toNat_low_octet, toNat_high_octet (by omega), swapBytesInWord,
    Nat.mod_eq_of_lt (a := w / 2^8) (by omega)]

/-- The three versions return one number at any address, and this number is stored as the one's
complement sum of the words in network byte order. -/
theorem lwipStandardChksum_agree (addr : ℕ) (data : List UInt8) (h : data.length ≤ 0xffff) :
    lwipStandardChksum2 addr data = lwipStandardChksum1 data ∧
      lwipStandardChksum3 addr data = lwipStandardChksum1 data ∧
      bigWords (store16 (lwipStandardChksum1 data)) = [onesSum 0xffff (bigWords data)] := by
  obtain ⟨hle₂, hrep₂⟩ := lwipStandardChksum2_spec addr h
  obtain ⟨hle₃, hrep₃⟩ := lwipStandardChksum3_spec addr h
  have hle := lwipStandardChksum1_le data
  have hrep := lwipStandardChksum1_rep h
  -- All three stand for the octets, and there is one such number of 16 bits.
  refine ⟨hrep₂.unique hrep hle₂ hle, hrep₃.unique hrep hle₃ hle, ?_⟩
  have hsum := onesSum_le (bigWords_le data)
  rw [bigWords_store16 hle, lwipStandardChksum1_eq h, swapBytesInWord_self (by omega)]

/-- Eleven octets at an odd address. -/
theorem lwipStandardChksum_agree_odd :
    let data : List UInt8 := [0x45, 0xff, 0xff, 0x01, 0x80, 0, 0xfe, 0xff, 7, 0xff, 0x9c]
    data.length ≤ 0xffff ∧ lwipStandardChksum2 3 data = lwipStandardChksum1 data ∧
      lwipStandardChksum3 3 data = lwipStandardChksum1 data ∧
      bigWords (store16 (lwipStandardChksum1 data)) = [onesSum 0xffff (bigWords data)] :=
  ⟨by decide, lwipStandardChksum_agree 3 _ (by decide)⟩

end Lwip.Ip
