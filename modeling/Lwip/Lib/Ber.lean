import Mathlib.Algebra.Group.Int.Defs
import Mathlib.Algebra.Group.Nat.Defs
import Mathlib.Data.List.Basic
import Mathlib.Tactic.Common

/-!
# Elements of a type, a length and a content

The basic encoding rules for elements of definite length. A length is one octet below 128, or the
number of its octets and these; octets begin with one element at most (`Element.unique`). An object
identifier is encoded as numbers in base `2^7`, of which the first one stands for two components.
-/

namespace Lwip

/-- The number of which these are the octets, the most significant one first. -/
def beNat (l : List UInt8) : ℕ := l.foldl (fun v b => v * 2^8 + b.toNat) 0

/-- A length field. -/
inductive LengthField : List UInt8 → ℕ → Prop where
  | short (b : UInt8) : b.toNat < 128 → LengthField [b] b.toNat
  | long (b : UInt8) (l : List UInt8) : b.toNat = 128 + l.length → l ≠ [] →
    LengthField (b :: l) (beNat l)

/-- An element with this type and content. -/
def Element (type : UInt8) (content octets : List UInt8) : Prop :=
  ∃ field, LengthField field content.length ∧ octets = type :: (field ++ content)

/-- The numbers that octets encode in base `2^7`; `part` is the part of the first one that was read
before. -/
def base128 : (part : Option ℕ) → List UInt8 → Option (List ℕ)
  | none, [] => some []
  | some _, [] => none
  | part, b :: l =>
    if b.toNat < 128 then (base128 none l).map ((part.getD 0 * 2^7 + b.toNat) :: ·)
    else base128 (some (part.getD 0 * 2^7 + (b.toNat - 128))) l

/-- The first two components. -/
def rootArcs (v : ℕ) : List ℕ :=
  if v < 40 then [0, v] else if v < 80 then [1, v - 40] else [2, v - 80]

/-- The components that are encoded by these numbers. -/
def arcs : List ℕ → List ℕ
  | [] => []
  | v :: vs => rootArcs v ++ vs

/-- The object identifier with this content. -/
def oidOf (content : List UInt8) : Option (List ℕ) := (base128 none content).map arcs

section Elements

variable {f f' content content' o o' l l' : List UInt8} {n n' : ℕ} {type type' b : UInt8}
  {part : Option ℕ}

/-- A length field has an octet. -/
theorem LengthField.length_pos (h : LengthField f n) : 0 < f.length := by
  cases h <;> exact Nat.succ_pos _

/-- A definite length does not start with the octet of the indefinite one. -/
theorem LengthField.head_ne (h : LengthField (b :: f) n) : b.toNat ≠ 128 := by
  cases h with
  | short _ hb => exact Nat.ne_of_lt hb
  | long _ _ hb hne =>
    have hpos := List.length_pos_iff.mpr hne
    omega

/-- Where a length field ends is clear from itself. -/
theorem LengthField.unique (h : LengthField f n) (h' : LengthField f' n')
    (heq : f ++ l = f' ++ l') : f = f' ∧ n = n' ∧ l = l' := by
  cases h with
  | short b hb =>
    cases h' with
    | short b' hb' =>
      obtain ⟨rfl, rfl⟩ := List.cons.inj heq
      exact ⟨rfl, rfl, rfl⟩
    | long b' d hb' hd =>
      obtain ⟨rfl, -⟩ := List.cons.inj heq
      omega
  | long b d hb hd =>
    cases h' with
    | short b' hb' =>
      obtain ⟨rfl, -⟩ := List.cons.inj heq
      omega
    | long b' d' hb' hd' =>
      obtain ⟨rfl, htail⟩ := List.cons.inj heq
      obtain ⟨rfl, rfl⟩ := List.append_inj htail (by omega)
      exact ⟨rfl, rfl, rfl⟩

/-- What octets begin with is one element at most. -/
theorem Element.unique (h : Element type content o) (h' : Element type' content' o')
    (heq : o ++ l = o' ++ l') : type = type' ∧ content = content' ∧ l = l' := by
  obtain ⟨f, hf, rfl⟩ := h
  obtain ⟨f', hf', rfl⟩ := h'
  rw [List.cons_append, List.cons_append, List.append_assoc, List.append_assoc] at heq
  obtain ⟨htype, htail⟩ := List.cons.inj heq
  obtain ⟨-, hlen, htail⟩ := hf.unique hf' htail
  obtain ⟨hcontent, hrest⟩ := List.append_inj htail hlen
  exact ⟨htype, hcontent, hrest⟩

/-- The last octet of a number completes it. -/
theorem base128_last (hb : b.toNat < 128) :
    base128 part (b :: l) = (base128 none l).map ((part.getD 0 * 2^7 + b.toNat) :: ·) := by
  cases part <;> rw [base128, if_pos hb]

/-- An octet with its high bit set adds seven bits to the number. -/
theorem base128_more (hb : 128 ≤ b.toNat) :
    base128 part (b :: l) = base128 (some (part.getD 0 * 2^7 + (b.toNat - 128))) l := by
  cases part <;> rw [base128, if_neg (Nat.not_lt.mpr hb)]

/-- A number that has begun is completed, and what follows does not depend on how it has begun. -/
theorem base128_some {v : ℕ} {vs : List ℕ} (h : base128 (some v) l = some vs) :
    ∃ w vs', vs = w :: vs' ∧ ∀ part, ∃ w', base128 part l = some (w' :: vs') := by
  induction l generalizing v with
  | nil => cases h
  | cons b l ih =>
    obtain hb | hb := Nat.lt_or_ge b.toNat 128
    · rw [base128_last hb] at h
      obtain ⟨vs', hvs', rfl⟩ := Option.map_eq_some_iff.mp h
      refine ⟨_, vs', rfl, fun part => ⟨part.getD 0 * 2^7 + b.toNat, ?_⟩⟩
      rw [base128_last hb, hvs', Option.map_some]
    · rw [base128_more hb] at h
      obtain ⟨w, vs', hvs', hpart⟩ := ih h
      refine ⟨w, vs', hvs', fun part => ?_⟩
      rw [base128_more hb]
      exact hpart _

/-- The first identifier octet stands for two arcs. -/
theorem rootArcs_length (v : ℕ) : (rootArcs v).length = 2 := by
  rw [rootArcs]
  split
  · rfl
  split
  · rfl
  · rfl

end Elements

end Lwip
