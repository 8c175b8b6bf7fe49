import Mathlib.Algebra.BigOperators.Group.List.Basic
import Mathlib.Data.Nat.ModEq
import Mathlib.Tactic.Ring

/-!
# One's complement sums

Sums with an end-around carry, in numbers of some bits whose largest one is `m`. `0` and `m` stand
both for zero, but the sum of numbers is `0` only if all of them are. `Rep m r n` says that `r`
stands for `n` in this sense: they are congruent, and zero at the same time. A number that stands
for `n` and is at most `m` is the only one (`Rep.unique`), so all ways to add, to fold the carries,
and to swap bytes before or behind an addition come to the same number.
-/

namespace Lwip

/-- `r` stands for `n`. -/
def Rep (m r n : ℕ) : Prop := r ≡ n [MOD m] ∧ (r = 0 ↔ n = 0)

namespace Rep

variable {m a b c n k r : ℕ}

/-- A number stands for itself. -/
theorem refl (m n : ℕ) : Rep m n n := ⟨Nat.ModEq.refl n, Iff.rfl⟩

/-- What stands for the same is a symmetric relation. -/
theorem symm (h : Rep m a b) : Rep m b a := ⟨h.1.symm, h.2.symm⟩

/-- What stands for the same is a transitive relation. -/
theorem trans (h : Rep m a b) (h' : Rep m b c) : Rep m a c := ⟨h.1.trans h'.1, h.2.trans h'.2⟩

/-- Sums stand for sums. -/
theorem add (h : Rep m a n) (h' : Rep m b k) : Rep m (a + b) (n + k) := by
  refine ⟨h.1.add h'.1, ?_⟩
  rw [Nat.add_eq_zero_iff, Nat.add_eq_zero_iff, h.2, h'.2]

/-- Multiples stand for multiples. -/
theorem mul_left (c : ℕ) (h : Rep m a n) : Rep m (c * a) (c * n) := by
  refine ⟨h.1.mul_left c, ?_⟩
  rw [Nat.mul_eq_zero, Nat.mul_eq_zero, h.2]

/-- A factor that is 1 modulo `m`. -/
theorem mul_of_one (hc : c ≡ 1 [MOD m]) (hpos : 0 < c) (n : ℕ) : Rep m (c * n) n := by
  refine ⟨?_, ?_⟩
  · have h := hc.mul_right n
    rwa [Nat.one_mul] at h
  · rw [Nat.mul_eq_zero]
    exact or_iff_right hpos.ne'

/-- There is one representation of at most `m`. -/
theorem unique (h : Rep m a n) (h' : Rep m b n) (ha : a ≤ m) (hb : b ≤ m) : a = b := by
  have hzero : a = 0 ↔ b = 0 := h.2.trans h'.2.symm
  have hmod : a % m = b % m := h.1.trans h'.1.symm
  rcases Nat.lt_or_ge a m with halt | hage
  · rcases Nat.lt_or_ge b m with hblt | hbge
    · rwa [Nat.mod_eq_of_lt halt, Nat.mod_eq_of_lt hblt] at hmod
    · have hbm : b = m := Nat.le_antisymm hb hbge
      rw [hbm, Nat.mod_self, Nat.mod_eq_of_lt halt] at hmod
      omega
  · have ham : a = m := Nat.le_antisymm ha hage
    rcases Nat.lt_or_ge b m with hblt | hbge
    · rw [ham, Nat.mod_self, Nat.mod_eq_of_lt hblt] at hmod
      omega
    · omega

/-- A number of which `m` is a multiple. -/
theorem of_dvd {m' : ℕ} (hm : m' ∣ m) (h : Rep m a n) : Rep m' a n := ⟨h.1.of_dvd hm, h.2⟩

/-- To exchange the two digits of a number is to multiply it by the base. -/
theorem swapDigits {q : ℕ} (hq : q * q = m + 1) (w : ℕ) : Rep m (w % q * q + w / q) (q * w) := by
  have hpos : 0 < q := Nat.pos_of_ne_zero (by rintro rfl; omega)
  have hw : q * (w / q) + w % q = w := Nat.div_add_mod w q
  have hsplit : q * w = w % q * q + (m + 1) * (w / q) := by
    rw [← hq]
    nth_rewrite 1 [← hw]
    ring
  rw [hsplit]
  exact (Rep.refl m _).add (mul_of_one Nat.add_modEq_left (Nat.succ_pos m) _).symm

end Rep

/-! ## The sum -/

/-- The sum of two numbers with the end-around carry. -/
def endAround (m a b : ℕ) : ℕ := if a + b ≤ m then a + b else a + b - m

/-- The one's complement sum of a list of numbers. -/
def onesSum (m : ℕ) (ws : List ℕ) : ℕ := ws.foldl (endAround m) 0

section Sum

variable {m a b r : ℕ} {ws : List ℕ}

/-- An end-around sum of two words is a word. -/
theorem endAround_le (ha : a ≤ m) (hb : b ≤ m) : endAround m a b ≤ m := by
  unfold endAround
  split <;> omega

/-- An end-around sum stands for the sum. -/
theorem endAround_rep (m a b : ℕ) : Rep m (endAround m a b) (a + b) := by
  unfold endAround
  split
  · exact .refl m _
  · next h =>
    have hsplit : a + b = a + b - m + m := by omega
    refine ⟨?_, by omega⟩
    calc a + b - m ≡ a + b - m + m [MOD m] := (Nat.add_modEq_right).symm
      _ = a + b := hsplit.symm

/-- A loop of end-around sums ends in a word that stands for the sum. -/
theorem foldl_endAround (hws : ∀ w ∈ ws, w ≤ m) (ha : a ≤ m) :
    ws.foldl (endAround m) a ≤ m ∧ Rep m (ws.foldl (endAround m) a) (a + ws.sum) := by
  induction ws generalizing a with
  | nil => exact ⟨ha, .refl m a⟩
  | cons w ws ih =>
    obtain ⟨hw, hws⟩ := List.forall_mem_cons.mp hws
    obtain ⟨hle, hrep⟩ := ih hws (endAround_le ha hw)
    refine ⟨hle, hrep.trans ?_⟩
    rw [List.sum_cons, ← Nat.add_assoc]
    exact (endAround_rep m a w).add (.refl m _)

/-- The ones' complement sum of words is a word. -/
theorem onesSum_le (hws : ∀ w ∈ ws, w ≤ m) :
    onesSum m ws ≤ m := (foldl_endAround hws (Nat.zero_le m)).1

/-- The ones' complement sum stands for the sum. -/
theorem onesSum_rep (hws : ∀ w ∈ ws, w ≤ m) : Rep m (onesSum m ws) ws.sum := by
  have h := (foldl_endAround hws (Nat.zero_le m)).2
  rwa [Nat.zero_add] at h

/-- A number of at most `m` that stands for the sum is the one's complement sum. -/
theorem eq_onesSum (hws : ∀ w ∈ ws, w ≤ m) (hr : r ≤ m) (h : Rep m r ws.sum) : r = onesSum m ws :=
  h.unique (onesSum_rep hws) hr (onesSum_le hws)

end Sum

/-! ## Folding the carries -/

/-- The carries are added to the rest. -/
def foldCarry (m u : ℕ) : ℕ := u / (m + 1) + u % (m + 1)

section Fold

variable {m u : ℕ}

/-- A fold of the carry keeps what a number stands for. -/
theorem foldCarry_rep (m u : ℕ) : Rep m (foldCarry m u) u := by
  have hsplit : (m + 1) * (u / (m + 1)) + u % (m + 1) = u := Nat.div_add_mod u (m + 1)
  have hone : m + 1 ≡ 1 [MOD m] := Nat.add_modEq_left
  have hrep := (Rep.mul_of_one hone (Nat.succ_pos m) (u / (m + 1))).symm.add (.refl m (u % (m + 1)))
  rwa [hsplit] at hrep

/-- Two folded words fit in one, if their sum has one carry at most. -/
theorem foldCarry_le (h : u ≤ 2 * m) : foldCarry m u ≤ m := by
  unfold foldCarry
  rcases Nat.lt_or_ge u (m + 1) with hlt | hge
  · rw [Nat.div_eq_of_lt hlt, Nat.mod_eq_of_lt hlt]
    omega
  · have hdiv : u / (m + 1) = 1 := Nat.div_eq_of_lt_le (by omega) (by omega)
    have hmod := Nat.div_add_mod u (m + 1)
    rw [hdiv] at hmod ⊢
    omega

/-- Folding twice is enough for a number of twice the bits. -/
theorem foldCarry_foldCarry_le (h : u < (m + 1) * (m + 1)) : foldCarry m (foldCarry m u) ≤ m := by
  apply foldCarry_le
  have hdiv : u / (m + 1) < m + 1 := Nat.div_lt_of_lt_mul h
  have hmod : u % (m + 1) < m + 1 := Nat.mod_lt u (Nat.succ_pos m)
  unfold foldCarry
  omega

end Fold

end Lwip
