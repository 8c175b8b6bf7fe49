import Mathlib.Data.List.Basic
import Mathlib.Tactic.Common

/-!
# A piece of a list is replaced

`overlay l o a` is `l` with the elements from the place `o` on replaced by those of `a`. Pieces that
follow one another can be laid over a list one after the other (`overlay_overlay`), and a piece that
is within one part of a concatenation is laid over that part (`overlay_append`, `append_overlay`).
-/

namespace Lwip

variable {α : Type*}

/-- The elements of `l` from the place `o` on are replaced by those of `a`. -/
def overlay (l : List α) (o : ℕ) (a : List α) : List α := l.take o ++ a ++ l.drop (o + a.length)

variable {l m a b : List α} {o : ℕ}

/-- To write nothing changes nothing. -/
@[simp] theorem overlay_nil (l : List α) (o : ℕ) : overlay l o [] = l := by
  simp [overlay]

/-- What is written at the front replaces as much of the list. -/
theorem overlay_zero (l a : List α) : overlay l 0 a = a ++ l.drop a.length := by
  simp [overlay]

/-- A write inside of the list keeps its length. -/
theorem length_overlay (h : o + a.length ≤ l.length) : (overlay l o a).length = l.length := by
  simp only [overlay, List.length_append, List.length_take, List.length_drop]
  omega

/-- What is in front of a piece, and the piece. -/
theorem take_overlay (h : o + a.length ≤ l.length) :
    (overlay l o a).take (o + a.length) = l.take o ++ a := by
  have hlen : (l.take o ++ a).length = o + a.length := by
    rw [List.length_append, List.length_take, Nat.min_eq_left (by omega)]
  rw [overlay, List.take_left' hlen]

/-- Two pieces that follow one another. -/
theorem overlay_overlay (h : o + a.length ≤ l.length) :
    overlay (overlay l o a) (o + a.length) b = overlay l o (a ++ b) := by
  have hlen : (l.take o ++ a).length = o + a.length := by
    rw [List.length_append, List.length_take, Nat.min_eq_left (by omega)]
  unfold overlay
  rw [← hlen, List.take_left, List.drop_length_add_append, List.drop_drop, hlen, List.length_append,
    ← List.append_assoc, Nat.add_assoc]

/-- A piece before one that is there already. -/
theorem overlay_overlay_before (h : o + a.length + b.length ≤ l.length) :
    overlay (overlay l (o + a.length) b) o a = overlay l o (a ++ b) := by
  have hlen : (l.take (o + a.length)).length = o + a.length := by
    rw [List.length_take]
    omega
  have htake : (overlay l (o + a.length) b).take o = l.take o := by
    unfold overlay
    rw [List.append_assoc, List.take_append_of_le_length (by omega), List.take_take,
      Nat.min_eq_left (by omega)]
  have hdrop : (overlay l (o + a.length) b).drop (o + a.length) =
      b ++ l.drop (o + a.length + b.length) := by
    unfold overlay
    rw [List.append_assoc]
    exact List.drop_left' hlen
  calc overlay (overlay l (o + a.length) b) o a
      = l.take o ++ a ++ (b ++ l.drop (o + a.length + b.length)) := by
        rw [← htake, ← hdrop, overlay]
    _ = overlay l o (a ++ b) := by
        rw [overlay, List.length_append, ← Nat.add_assoc]
        simp only [List.append_assoc]

/-- A piece that is within the first part. -/
theorem overlay_append (h : o + a.length ≤ l.length) :
    overlay (l ++ m) o a = overlay l o a ++ m := by
  unfold overlay
  rw [List.take_append_of_le_length (by omega), List.drop_append_of_le_length h, List.append_assoc]
  simp only [List.append_assoc]

/-- A piece that is within the second part. -/
theorem append_overlay (l m a : List α) (o : ℕ) :
    overlay (l ++ m) (l.length + o) a = l ++ overlay m o a := by
  unfold overlay
  rw [List.take_length_add_append, Nat.add_assoc, List.drop_length_add_append]
  simp only [List.append_assoc]

/-- A piece that goes on from the end of the first part to the beginning of the second. -/
theorem overlay_append_overlay (h : o + a.length = l.length) (m b : List α) :
    overlay l o a ++ overlay m 0 b = overlay (l ++ m) o (a ++ b) := by
  calc overlay l o a ++ overlay m 0 b
      = overlay (overlay l o a ++ m) ((overlay l o a).length + 0) b :=
        (append_overlay _ m b 0).symm
    _ = overlay (overlay (l ++ m) o a) (o + a.length) b := by
        rw [overlay_append (Nat.le_of_eq h), length_overlay (Nat.le_of_eq h), h, Nat.add_zero]
    _ = overlay (l ++ m) o (a ++ b) :=
        overlay_overlay (by rw [List.length_append]; omega)

/-- Where it was written the new values are read, and the old ones elsewhere. -/
theorem getElem?_overlay (h : o + a.length ≤ l.length) (k : ℕ) :
    (overlay l o a)[k]? = if o ≤ k ∧ k < o + a.length then a[k - o]? else l[k]? := by
  have hlen : (l.take o ++ a).length = o + a.length := by
    rw [List.length_append, List.length_take, Nat.min_eq_left (by omega)]
  unfold overlay
  by_cases hlo : k < o
  · rw [if_neg (by omega), List.append_assoc,
      List.getElem?_append_left (by rw [List.length_take]; omega), List.getElem?_take_of_lt hlo]
  · by_cases hhi : k < o + a.length
    · rw [if_pos ⟨by omega, hhi⟩, List.getElem?_append_left (by omega),
        List.getElem?_append_right (by rw [List.length_take]; omega),
        List.length_take_of_le (by omega)]
    · rw [if_neg (by omega), List.getElem?_append_right (by omega), List.getElem?_drop, hlen]
      congr 1
      omega

end Lwip
