import Mathlib.Data.List.Basic
import Mathlib.Tactic.Common

/-!
# Items of a code, a length and a value

A field holds items one behind the other: an octet with the code, one with the length, and the
value. The code `pad` stands alone, and `stop` ends the field. An item that is cut off by the end of
the field is none, and ends the items as well.
-/

namespace Lwip

/-- An item, with its place in the field. -/
structure Tlv where
  offset : ℕ
  code : UInt8
  value : List UInt8
  deriving DecidableEq, Repr

/-- The items of a field that begins at `offset`. -/
def tlvs (pad stop : UInt8) (offset : ℕ) : List UInt8 → List Tlv
  | [] => []
  | [_] => []
  | code :: n :: rest =>
    if code = stop then []
    else if code = pad then tlvs pad stop (offset + 1) (n :: rest)
    else if rest.length < n.toNat then []
    else ⟨offset, code, rest.take n.toNat⟩ :: tlvs pad stop (offset + 2 + n.toNat)
      (rest.drop n.toNat)
termination_by l => l.length
decreasing_by
  · exact Nat.lt_succ_self _
  · rw [List.length_drop, List.length_cons, List.length_cons]
    omega

variable {pad stop code n : UInt8} {offset : ℕ} {l : List UInt8}

/-- No octets hold no option. -/
@[simp] theorem tlvs_nil : tlvs pad stop offset [] = [] := by
  rw [tlvs]

/-- An option without a length octet is not one. -/
@[simp] theorem tlvs_singleton : tlvs pad stop offset [code] = [] := by
  rw [tlvs]

/-- The stop code ends the options. -/
@[simp] theorem tlvs_stop : tlvs pad stop offset (stop :: l) = [] := by
  cases l with
  | nil => exact tlvs_singleton
  | cons n l => rw [tlvs, if_pos rfl]

/-- A pad is one octet. -/
theorem tlvs_pad (h : pad ≠ stop) : tlvs pad stop offset (pad :: l) = tlvs pad stop
    (offset + 1) l := by
  cases l with
  | nil => rw [tlvs_singleton, tlvs_nil]
  | cons n l => rw [tlvs, if_neg h, if_pos rfl]

/-- An item whose value is cut off. -/
theorem tlvs_cut (hpad : code ≠ pad) (h : l.length < n.toNat) :
    tlvs pad stop offset (code :: n :: l) = [] := by
  rw [tlvs, if_neg hpad, if_pos h, ite_self]

/-- An item, and those behind it. -/
theorem tlvs_cons (hstop : code ≠ stop) (hpad : code ≠ pad) (h : n.toNat ≤ l.length) :
    tlvs pad stop offset (code :: n :: l) =
      ⟨offset, code, l.take n.toNat⟩ :: tlvs pad stop (offset + 2 + n.toNat) (l.drop n.toNat) := by
  rw [tlvs, if_neg hstop, if_neg hpad, if_neg (Nat.not_lt.mpr h)]

end Lwip
