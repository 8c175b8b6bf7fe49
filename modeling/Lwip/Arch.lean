import Lwip.Lib.Run
import Mathlib.Algebra.Group.Int.Defs
import Mathlib.Algebra.GroupWithZero.Nat
import Mathlib.Data.Int.Order.Basic

/-!
# Machine integers and assertions

What `arch/cc.h` gives the code. The 16-bit variables of the source are natural numbers below `2^16`
here, and the reductions of its assignments are written where they can do something.

`LWIP_ASSERT` ends in `LWIP_PLATFORM_ASSERT`, which calls `abort()` in this build. A function with
assertions returns in `Except Abort`, where the type `Abort` of its source file names them.
-/

namespace Lwip

/-- `(u8_t)x`. -/
def u8 (x : ℕ) : ℕ := x % 2^8

/-- `(u16_t)x`. -/
def u16 (x : ℕ) : ℕ := x % 2^16

/-- A value that fits is stored as it is. -/
theorem u16_eq {x : ℕ} (h : x < 2^16) : u16 x = x := Nat.mod_eq_of_lt h

/-- `a - b` assigned to a `u16_t`. -/
def u16sub (a b : ℕ) : ℕ := (a + (2^16 - b % 2^16)) % 2^16

/-- A difference that does not wrap. -/
theorem u16sub_of_le {a b : ℕ} (ha : a ≤ 0xffff) (hb : b ≤ a) : u16sub a b = a - b := by
  unfold u16sub
  omega

/-- `x` assigned to an `s16_t`. -/
def s16 (x : ℤ) : ℤ := Int.bmod x (2^16)

variable {Abort : Type}

/-- `LWIP_ASSERT(message, assertion)`. -/
def lwipAssert (a : Abort) (p : Prop) [Decidable p] : Except Abort Unit :=
  if p then .ok () else .error a

/-- An assertion lets the code go on exactly when it holds. -/
theorem lwipAssert_eq_ok {a : Abort} {p : Prop} [Decidable p] {u : Unit} :
    lwipAssert a p = .ok u ↔ p := by
  simp [lwipAssert]

/-- An assertion of what holds lets the code go on. -/
theorem lwipAssert_ok {a : Abort} {p : Prop} [Decidable p] (h : p) : lwipAssert a p = .ok () :=
  lwipAssert_eq_ok.mpr h

/-- Assertions of equivalent conditions do the same. -/
theorem lwipAssert_congr {a : Abort} {p q : Prop} [Decidable p] [Decidable q] (h : p ↔ q) :
    lwipAssert a p = lwipAssert a q := by
  unfold lwipAssert
  by_cases hp : p
  · rw [if_pos hp, if_pos (h.mp hp)]
  · rw [if_neg hp, if_neg fun hq => hp (h.mpr hq)]

/-- After an assertion, its condition holds. -/
theorem lwipAssert_ends {a : Abort} {bad : Abort → Bool} (ha : bad a = false) (p : Prop)
    [Decidable p] : Ends bad (fun _ => p) (lwipAssert a p) := by
  unfold lwipAssert
  split
  · next h => exact .of_ok h
  · exact .of_error ha

end Lwip
