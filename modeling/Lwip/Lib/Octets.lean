import Mathlib.Algebra.Group.Int.Defs
import Mathlib.Algebra.Group.Nat.Defs
import Mathlib.Data.List.Basic

/-!
# Octets in network byte order
-/

namespace Lwip

/-- Memory, from some address on. -/
abbrev Mem := List UInt8

/-- A 16-bit value in network byte order. -/
def ntohs (a b : UInt8) : ℕ := a.toNat * 2^8 + b.toNat

/-- A 32-bit value in network byte order. -/
def ntohl (a b c d : UInt8) : ℕ := ntohs a b * 2^16 + ntohs c d

variable {ε α : Type}

/-- Reads that must not leave the memory, with the failure of one that does. -/
def inMemory (outside : ε) : Option α → Except ε α
  | some a => .ok a
  | none => .error outside

/-- A read succeeds exactly with what is in the memory. -/
theorem inMemory_eq_ok {outside : ε} {x : Option α} {a : α} :
    inMemory outside x = .ok a ↔ x = some a := by
  cases x with
  | none => exact iff_of_false nofun nofun
  | some b =>
    constructor
    · intro h
      cases h
      rfl
    · intro h
      cases h
      rfl

end Lwip
