import Mathlib.Algebra.Group.Int.Defs
import Mathlib.Algebra.Group.Nat.Defs
import Mathlib.Logic.Function.Basic
import Mathlib.Tactic.Common

/-!
# Words in a memory of octets

A memory is a function from addresses to octets. `get16` reads two octets as a word, `set16` writes
them. A write is seen at its own address only (`get16_set16`), and `AgreeOn` carries what is known
of a range of addresses over writes outside of it.
-/

namespace Lwip

/-- A memory of octets. -/
def Ram : Type := ℕ → UInt8

namespace Ram

/-- The octet at `i` is replaced. -/
def set (m : Ram) (i : ℕ) (v : UInt8) : Ram := Function.update m i v

/-- The word at `i`, in the order of a little-endian machine. -/
def get16 (m : Ram) (i : ℕ) : ℕ := (m i).toNat + (m (i + 1)).toNat * 2^8

/-- The word at `i` is replaced. -/
def set16 (m : Ram) (i v : ℕ) : Ram :=
  (m.set i (UInt8.ofNat v)).set (i + 1) (UInt8.ofNat (v / 2^8))

/-- The two memories have the same octets from `i` to `j`. -/
def AgreeOn (m m' : Ram) (i j : ℕ) : Prop := ∀ k, i ≤ k → k < j → m k = m' k

variable {m m' m'' : Ram} {i j k v : ℕ}

/-- The byte that was stored is read. -/
theorem set_self (m : Ram) (i : ℕ) (v : UInt8) : m.set i v i = v := Function.update_self _ _ _

/-- All other bytes stay. -/
theorem set_of_ne {w : UInt8} (h : k ≠ i) : m.set i w k = m k := Function.update_of_ne h _ _

/-- A 16-bit store changes two bytes only. -/
theorem set16_of_ne (h : k ≠ i) (h' : k ≠ i + 1) : m.set16 i v k = m k := by
  rw [set16, set_of_ne h', set_of_ne h]

/-- A word that was written is read back. -/
theorem get16_set16 (m : Ram) (i : ℕ) (hv : v < 2^16) : (m.set16 i v).get16 i = v := by
  have hlo : m.set16 i v i = UInt8.ofNat v := by
    rw [set16, set_of_ne (by omega), set_self]
  have hhi : m.set16 i v (i + 1) = UInt8.ofNat (v / 2^8) := by
    rw [set16, set_self]
  rw [get16, hlo, hhi, UInt8.toNat_ofNat', UInt8.toNat_ofNat']
  omega

/-- A memory agrees with itself. -/
theorem AgreeOn.refl (m : Ram) (i j : ℕ) : AgreeOn m m i j := fun _ _ _ => rfl

/-- Agreement is passed on. -/
theorem AgreeOn.trans (h : AgreeOn m m' i j) (h' : AgreeOn m' m'' i j) : AgreeOn m m'' i j :=
  fun k hi hj => (h k hi hj).trans (h' k hi hj)

/-- Memories that agree on a range agree on each part of it. -/
theorem AgreeOn.mono (h : AgreeOn m m' i j) {i' j' : ℕ} (hi : i ≤ i') (hj : j' ≤ j) :
    AgreeOn m m' i' j' :=
  fun k hk hk' => h k (by omega) (by omega)

/-- A write of an octet outside of the range. -/
theorem AgreeOn.set {w : UInt8} (h : AgreeOn m m' i j) (hk : k < i ∨ j ≤ k) :
    AgreeOn m (m'.set k w) i j :=
  fun l hi hj => (h l hi hj).trans (set_of_ne (by omega)).symm

/-- A write of a word outside of the range. -/
theorem AgreeOn.set16 (h : AgreeOn m m' i j) (hk : k + 2 ≤ i ∨ j ≤ k) :
    AgreeOn m (m'.set16 k v) i j :=
  fun l hi hj => (h l hi hj).trans (set16_of_ne (by omega) (by omega)).symm

/-- The word in a range. -/
theorem AgreeOn.get16_eq (h : AgreeOn m m' i j) (hi : i ≤ k) (hj : k + 2 ≤ j) :
    m.get16 k = m'.get16 k := by
  rw [get16, get16, h k hi (by omega), h (k + 1) (by omega) (by omega)]

end Ram

end Lwip
