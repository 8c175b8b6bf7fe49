import Mathlib.Algebra.Group.Int.Defs
import Mathlib.Algebra.Group.Nat.Defs
import Mathlib.Data.List.Basic
import Mathlib.Order.Lattice
import Mathlib.Tactic.Common
import Mathlib.Tactic.SplitIfs

/-!
# Serial numbers of 32 bits

A serial number is a 32-bit word, read as a point of a circle. Two of them are compared by the sign
of their 32-bit difference, which is an order only on an arc shorter than half the circle. The
lemmas below fix an origin `r` and measure every number by its forward distance `dist r a` from it:
on the half circle that starts at `r`, the comparisons are those of the distances, and moving the
origin forward subtracts from them.
-/

namespace Lwip

/-- A 32-bit serial number. -/
abbrev Serial := BitVec 32

namespace Serial

/-- `a` moved forward by `n`, modulo `2^32`. -/
def adv (a : Serial) (n : ℕ) : Serial := a + BitVec.ofNat 32 n

/-- The forward distance from the origin `r` to `a`. -/
def dist (r a : Serial) : ℕ := (a - r).toNat

/-- `a` is strictly behind `b`: their signed difference is negative. -/
def lt (a b : Serial) : Prop := (a - b).toInt < 0

/-- `a` is behind or at `b`. -/
def leq (a b : Serial) : Prop := (a - b).toInt ≤ 0

/-- `a` is strictly ahead of `b`. -/
def gt (a b : Serial) : Prop := 0 < (a - b).toInt

/-- `a` is ahead of or at `b`. -/
def geq (a b : Serial) : Prop := 0 ≤ (a - b).toInt

/-- `b ≤ a ≤ c`, as two comparisons. -/
def between (a b c : Serial) : Prop := geq a b ∧ leq a c

instance (a b : Serial) : Decidable (lt a b) := inferInstanceAs (Decidable ((a - b).toInt < 0))
instance (a b : Serial) : Decidable (leq a b) := inferInstanceAs (Decidable ((a - b).toInt ≤ 0))
instance (a b : Serial) : Decidable (gt a b) := inferInstanceAs (Decidable (0 < (a - b).toInt))
instance (a b : Serial) : Decidable (geq a b) := inferInstanceAs (Decidable (0 ≤ (a - b).toInt))
instance (a b c : Serial) : Decidable (between a b c) :=
  inferInstanceAs (Decidable (geq a b ∧ leq a c))

/-! ## Distances -/

/-- A distance is less than the size of the circle. -/
theorem dist_lt (r a : Serial) : dist r a < 2^32 := (a - r).isLt

/-- A number is at no distance from itself. -/
@[simp] theorem dist_self (r : Serial) : dist r r = 0 := by simp [dist]

/-- To go no way is to stay. -/
@[simp] theorem adv_zero (a : Serial) : a.adv 0 = a := by simp [adv]

/-- Moving forward twice is moving forward by the sum. -/
theorem adv_adv (a : Serial) (m n : ℕ) : (a.adv m).adv n = a.adv (m + n) := by
  simp [adv, BitVec.add_assoc, BitVec.ofNat_add]

/-- The distance to a number moved forward, modulo the circle. -/
theorem dist_adv_mod (r a : Serial) (n : ℕ) : dist r (a.adv n) = (dist r a + n) % 2^32 := by
  simp only [dist, adv, BitVec.toNat_sub, BitVec.toNat_add, BitVec.toNat_ofNat]
  omega

/-- The distance to a number moved forward, when the move stays on the circle's first turn. -/
theorem dist_adv (r a : Serial) (n : ℕ) (h : dist r a + n < 2^32) :
    dist r (a.adv n) = dist r a + n := by
  rw [dist_adv_mod, Nat.mod_eq_of_lt h]

/-- The origin moved forward by the distance is the number itself. -/
@[simp] theorem adv_dist (r a : Serial) : r.adv (dist r a) = a := by
  apply BitVec.eq_of_toNat_eq
  have := a.isLt
  simp only [dist, adv, BitVec.toNat_sub, BitVec.toNat_add, BitVec.toNat_ofNat]
  omega

/-- A number is determined by its distance from the origin. -/
theorem eq_of_dist_eq {r a b : Serial} (h : dist r a = dist r b) : a = b := by
  rw [← adv_dist r a, ← adv_dist r b, h]

/-- Numbers at the same distance are equal. -/
theorem eq_iff_dist (r a b : Serial) : a = b ↔ dist r a = dist r b :=
  ⟨fun h => h ▸ rfl, eq_of_dist_eq⟩

/-- Only the origin is at distance zero. -/
theorem dist_eq_zero_iff (r a : Serial) : dist r a = 0 ↔ a = r := by
  rw [eq_iff_dist r a r, dist_self]

/-- The distance between two numbers is the difference of their distances from the origin. -/
theorem dist_eq_sub {r a b : Serial} (h : dist r a ≤ dist r b) :
    dist a b = dist r b - dist r a := by
  have ha := a.isLt
  have hb := b.isLt
  have hr := r.isLt
  simp only [dist, BitVec.toNat_sub] at h ⊢
  omega

/-- The distance between two numbers, when the second lies before the first. -/
theorem dist_eq_sub_wrap {r a b : Serial} (h : dist r b < dist r a) :
    dist a b = 2^32 - (dist r a - dist r b) := by
  have ha := a.isLt
  have hb := b.isLt
  have hr := r.isLt
  simp only [dist, BitVec.toNat_sub] at h ⊢
  omega

/-- Moving the origin forward shortens the distances of the numbers that stay ahead of it. -/
theorem dist_adv_left {r a : Serial} {n : ℕ} (h : n ≤ dist r a) :
    dist (r.adv n) a = dist r a - n := by
  have hn : dist r (r.adv n) = n := by
    have := dist_lt r a
    rw [dist_adv _ _ _ (by rw [dist_self]; omega), dist_self, Nat.zero_add]
  rw [dist_eq_sub (by rw [hn]; exact h), hn]

/-- The number before `a`, when `a` is not the origin. -/
theorem dist_sub_one {r a : Serial} (h : 0 < dist r a) : dist r (a - 1) = dist r a - 1 := by
  have ha := a.isLt
  have hr := r.isLt
  have h1 : (1 : Serial).toNat = 1 := rfl
  simp only [dist, BitVec.toNat_sub, h1] at h ⊢
  omega

/-- Moving the origin one back lengthens the distances by one, except that of the number before
it. -/
theorem dist_sub_one_left {r a : Serial} (h : dist r a < 2^32 - 1) :
    dist (r - 1) a = dist r a + 1 := by
  have ha := a.isLt
  have hr := r.isLt
  have h1 : (1 : Serial).toNat = 1 := rfl
  simp only [dist, BitVec.toNat_sub, h1] at h ⊢
  omega

/-- The distance from the origin to itself moved forward. -/
theorem dist_self_adv {r : Serial} {n : ℕ} (h : n < 2^32) : dist r (r.adv n) = n := by
  rw [dist_adv _ _ _ (by rw [dist_self]; omega), dist_self, Nat.zero_add]

/-! ## The comparisons by distances -/

/-- A number is less than another that lies up to half the circle ahead of it. -/
theorem lt_iff (a b : Serial) : lt a b ↔ 2^31 ≤ dist b a := by
  have := dist_lt b a
  simp only [lt, dist, BitVec.toInt_eq_toNat_cond] at *
  split_ifs <;> omega

/-- The comparison with `≥`, as a distance. -/
theorem geq_iff (a b : Serial) : geq a b ↔ dist b a < 2^31 := by
  have := dist_lt b a
  simp only [geq, dist, BitVec.toInt_eq_toNat_cond] at *
  split_ifs <;> omega

/-- The comparison with `>`, as a distance. -/
theorem gt_iff (a b : Serial) : gt a b ↔ 0 < dist b a ∧ dist b a < 2^31 := by
  have := dist_lt b a
  simp only [gt, dist, BitVec.toInt_eq_toNat_cond] at *
  split_ifs <;> omega

/-- The comparison with `≤`, as a distance. -/
theorem leq_iff (a b : Serial) : leq a b ↔ dist b a = 0 ∨ 2^31 ≤ dist b a := by
  have := dist_lt b a
  simp only [leq, dist, BitVec.toInt_eq_toNat_cond] at *
  split_ifs <;> omega

/-- Numbers at most `n` apart, in either direction. -/
theorem toInt_sub_le_iff {a b : Serial} {n : ℕ} (hn : n < 2^31) :
    (-(n : ℤ) ≤ (a - b).toInt ∧ (a - b).toInt ≤ n) ↔ dist b a ≤ n ∨ 2^32 - n ≤ dist b a := by
  have := dist_lt b a
  simp only [dist, BitVec.toInt_eq_toNat_cond] at *
  split_ifs <;> omega

section HalfCircle

variable {r a b : Serial} (ha : dist r a < 2^31) (hb : dist r b < 2^31)
include ha hb

/-- On the half circle ahead of the origin, `lt` is the order of the distances. -/
theorem lt_iff_dist : lt a b ↔ dist r a < dist r b := by
  rw [lt_iff]
  rcases le_or_gt (dist r b) (dist r a) with h | h
  · rw [dist_eq_sub h]; omega
  · rw [dist_eq_sub_wrap h]; omega

/-- Near an origin, `>` compares the distances from there. -/
theorem gt_iff_dist : gt a b ↔ dist r b < dist r a := by
  rw [gt_iff]
  rcases le_or_gt (dist r b) (dist r a) with h | h
  · rw [dist_eq_sub h]; omega
  · rw [dist_eq_sub_wrap h]; omega

/-- Near an origin, `≥` compares the distances from there. -/
theorem geq_iff_dist : geq a b ↔ dist r b ≤ dist r a := by
  rw [geq_iff]
  rcases le_or_gt (dist r b) (dist r a) with h | h
  · rw [dist_eq_sub h]; omega
  · rw [dist_eq_sub_wrap h]; omega

/-- Near an origin, `≤` compares the distances from there. -/
theorem leq_iff_dist : leq a b ↔ dist r a ≤ dist r b := by
  rw [leq_iff]
  rcases le_or_gt (dist r b) (dist r a) with h | h
  · rw [dist_eq_sub h]; omega
  · rw [dist_eq_sub_wrap h]; omega

end HalfCircle

/-! ## Numbers on a line

A run of a protocol moves its serial numbers forward without end. Measured on a line, from a fixed
`base`, they are natural numbers, and two of them compare as those do while they stay within half a
circle of each other. -/

section Line

variable {base : Serial} {a b : ℕ}

/-- The distance forward between two places of a line. -/
theorem dist_adv_adv (h : a ≤ b) (h' : b < a + 2^32) :
    dist (base.adv a) (base.adv b) = b - a := by
  obtain ⟨n, rfl⟩ := Nat.exists_eq_add_of_le h
  rw [← adv_adv, dist_self_adv (by omega)]
  omega

/-- The distance backward is the rest of the circle. -/
theorem dist_adv_adv_wrap (h : a < b) (h' : b < a + 2^32) :
    dist (base.adv b) (base.adv a) = 2^32 - (b - a) := by
  have hd : dist (base.adv a) (base.adv b) = b - a := dist_adv_adv h.le h'
  rw [dist_eq_sub_wrap (r := base.adv a) (by rw [dist_self, hd]; omega), dist_self, hd]
  omega

variable (h : a < b + 2^31) (h' : b < a + 2^31)
include h h'

/-- Near each other, `<` compares the places of a line. -/
theorem lt_adv_iff : lt (base.adv a) (base.adv b) ↔ a < b := by
  rw [lt_iff]
  rcases le_or_gt b a with hle | hgt
  · rw [dist_adv_adv hle (by omega)]; omega
  · rw [dist_adv_adv_wrap hgt (by omega)]; omega

/-- Near each other, `≤` compares the places of a line. -/
theorem leq_adv_iff : leq (base.adv a) (base.adv b) ↔ a ≤ b := by
  rw [leq_iff]
  rcases le_or_gt b a with hle | hgt
  · rw [dist_adv_adv hle (by omega)]; omega
  · rw [dist_adv_adv_wrap hgt (by omega)]; omega

/-- Near each other, `≥` compares the places of a line. -/
theorem geq_adv_iff : geq (base.adv a) (base.adv b) ↔ b ≤ a := by
  rw [geq_iff]
  rcases le_or_gt b a with hle | hgt
  · rw [dist_adv_adv hle (by omega)]; omega
  · rw [dist_adv_adv_wrap hgt (by omega)]; omega

/-- Near each other, two places of a line are the same if they are on the circle. -/
theorem adv_eq_iff : base.adv a = base.adv b ↔ a = b := by
  refine ⟨fun he => ?_, fun he => he ▸ rfl⟩
  have hd : dist (base.adv b) (base.adv a) = 0 := by rw [he, dist_self]
  rcases le_or_gt b a with hle | hgt
  · rw [dist_adv_adv hle (by omega)] at hd; omega
  · rw [dist_adv_adv_wrap hgt (by omega)] at hd; omega

end Line

end Serial

end Lwip
