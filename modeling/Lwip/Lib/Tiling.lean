import Mathlib.Data.List.Basic
import Mathlib.Data.List.Forall2
import Mathlib.Data.List.Perm.Basic
import Mathlib.Data.List.TakeWhile
import Mathlib.Tactic.Common

/-!
# Ranges of natural numbers that tile an interval

A `Range` is a half-open interval of natural numbers, given by its start and its length. `Tiles b l
e` says that the ranges of `l`, in their order, cover `[b, e)` without a gap or an overlap. The
second part places a range into a list that is sorted by the starts, and the third relates a list of
anything to the list of the ranges that its elements stand at.
-/

namespace Lwip

/-- The numbers from `start` on, `len` of them. -/
structure Range where
  start : ℕ
  len : ℕ
  deriving DecidableEq, Repr

/-- The first number after the range. -/
def Range.stop (r : Range) : ℕ := r.start + r.len

/-- The ranges of the list are not empty, and each starts where the one before it stops, from `b` up
to `e`. -/
def Tiles : ℕ → List Range → ℕ → Prop
  | b, [], e => b = e
  | b, r :: l, e => r.start = b ∧ 0 < r.len ∧ Tiles r.stop l e

namespace Tiles

variable {b c e : ℕ} {l l' : List Range}

/-- Two tilings that meet make one. -/
theorem append (h : Tiles b l c) (h' : Tiles c l' e) : Tiles b (l ++ l') e := by
  induction l generalizing b with
  | nil => cases h; exact h'
  | cons r l ih => exact ⟨h.1, h.2.1, ih h.2.2⟩

/-- A tiling does not go back. -/
theorem le (h : Tiles b l e) : b ≤ e := by
  induction l generalizing b with
  | nil => exact Nat.le_of_eq h
  | cons r l ih =>
    have h1 := ih h.2.2
    have h2 := h.1
    unfold Range.stop at h1
    omega

/-- Every range of the list lies in the interval. -/
theorem mem (h : Tiles b l e) {r : Range} (hr : r ∈ l) : b ≤ r.start ∧ 0 < r.len ∧ r.stop ≤ e := by
  induction l generalizing b with
  | nil => cases hr
  | cons x l ih =>
    have h1 := h.1
    rcases List.mem_cons.mp hr with rfl | hr
    · exact ⟨Nat.le_of_eq h1.symm, h.2.1, h.2.2.le⟩
    · have h2 := ih h.2.2 hr
      refine ⟨?_, h2.2⟩
      have h3 := h2.1
      unfold Range.stop at h3
      omega

/-- The ranges come in the order of the line. -/
theorem pairwise (h : Tiles b l e) : l.Pairwise (fun x y => x.stop ≤ y.start) := by
  induction l generalizing b with
  | nil => exact .nil
  | cons x l ih => exact List.pairwise_cons.mpr ⟨fun y hy => (h.2.2.mem hy).1, ih h.2.2⟩

/-- No two ranges start at one place. -/
theorem nodup_start (h : Tiles b l e) : (l.map Range.start).Nodup := by
  induction l generalizing b with
  | nil => exact .nil
  | cons x l ih =>
    refine List.nodup_cons.mpr ⟨fun hx => ?_, ih h.2.2⟩
    obtain ⟨y, hy, hxy⟩ := List.mem_map.mp hx
    have h1 := (h.2.2.mem hy).1
    have h2 := h.2.1
    unfold Range.stop at h1
    omega

/-- A range that starts before another one stops there at the latest. -/
theorem stop_le_start (h : Tiles b l e) {x y : Range} (hx : x ∈ l) (hy : y ∈ l)
    (hxy : x.start < y.start) : x.stop ≤ y.start := by
  induction l generalizing b with
  | nil => cases hx
  | cons z l ih =>
    rcases List.mem_cons.mp hx with hxz | hxl <;> rcases List.mem_cons.mp hy with hyz | hyl
    · rw [hxz, hyz] at hxy; omega
    · rw [hxz]; exact (h.2.2.mem hyl).1
    · have := (h.2.2.mem hxl).1
      rw [hyz] at hxy
      unfold Range.stop at this
      omega
    · exact ih h.2.2 hxl hyl

/-- A range that stops where the interval ends is the last. -/
theorem eq_concat_of_stop_eq (h : Tiles b l e) {r : Range} (hr : r ∈ l) (hs : r.stop = e) :
    ∃ init, l = init ++ [r] := by
  induction l generalizing b with
  | nil => cases hr
  | cons x l ih =>
    rcases List.mem_cons.mp hr with rfl | hr
    · cases l with
      | nil => exact ⟨[], rfl⟩
      | cons y l =>
        have h1 := h.2.2
        have h2 := h1.2.2.le
        have h3 := h1.1
        have h4 := h1.2.1
        unfold Range.stop at h2 h3 hs
        omega
    · obtain ⟨init, rfl⟩ := ih h.2.2 hr
      exact ⟨x :: init, rfl⟩

/-- Without its last range the list tiles up to that range's start. -/
theorem of_concat {r : Range} (h : Tiles b (l ++ [r]) e) : Tiles b l r.start ∧ r.stop = e := by
  induction l generalizing b with
  | nil => exact ⟨h.1.symm, h.2.2⟩
  | cons x l ih =>
    have h1 := ih h.2.2
    exact ⟨⟨h.1, h.2.1, h1.1⟩, h1.2⟩

/-- The ranges that reach past `a` tile from `a`, or from before it, on. -/
theorem filter {a : ℕ} (h : Tiles b l e) (hb : b ≤ a) (he : a ≤ e) :
    ∃ b' ≤ a, Tiles b' (l.filter (fun r => decide (a < r.stop))) e := by
  induction l generalizing b with
  | nil => exact ⟨a, Nat.le_refl a, by cases h; exact Nat.le_antisymm he hb⟩
  | cons r l ih =>
    by_cases hr : a < r.stop
    · -- This range is the first that reaches past `a`, and all after it do.
      have hall : (r :: l).filter (fun r => decide (a < r.stop)) = r :: l := by
        refine List.filter_eq_self.mpr fun x hx => ?_
        rcases List.mem_cons.mp hx with rfl | hx
        · simpa using hr
        · have h1 := (h.2.2.mem hx).1
          simp only [decide_eq_true_eq]
          unfold Range.stop at *
          omega
      exact ⟨b, hb, by rw [hall]; exact h⟩
    · rw [List.filter_cons_of_neg (by simpa using hr)]
      exact ih h.2.2 (by omega)

end Tiles

/-! ## Lists sorted by the starts -/

/-- The list is sorted by the starts of its ranges. -/
def SortedByStart (l : List Range) : Prop := l.Pairwise (fun x y => x.start < y.start)

/-- The range `s` in front of the first one that does not start before it. -/
def insertByStart (s : Range) (l : List Range) : List Range :=
  l.takeWhile (fun x => decide (x.start < s.start)) ++
    s :: l.dropWhile (fun x => decide (x.start < s.start))

/-- An insertion adds just the new range. -/
theorem insertByStart_perm (s : Range) (l : List Range) : (insertByStart s l).Perm (s :: l) := by
  unfold insertByStart
  refine List.perm_middle.trans ?_
  rw [List.takeWhile_append_dropWhile]

/-- What a `takeWhile` leaves of a sorted list starts at `s` or later. -/
theorem SortedByStart.le_of_mem_dropWhile {l : List Range} (h : SortedByStart l) {n : ℕ} {x : Range}
    (hx : x ∈ l.dropWhile (fun x => decide (x.start < n))) : n ≤ x.start := by
  induction l with
  | nil => cases hx
  | cons y l ih =>
    obtain ⟨h1, h2⟩ := List.pairwise_cons.mp h
    by_cases hy : y.start < n
    · rw [List.dropWhile_cons_of_pos (by simpa using hy)] at hx
      exact ih h2 hx
    · rw [List.dropWhile_cons_of_neg (by simpa using hy)] at hx
      rcases List.mem_cons.mp hx with rfl | hx
      · omega
      · have := h1 x hx
        omega

/-- The placed range keeps the list sorted, if no other starts with it. -/
theorem SortedByStart.insertByStart {l : List Range} (h : SortedByStart l) {s : Range}
    (hs : ∀ x ∈ l, x.start ≠ s.start) : SortedByStart (insertByStart s l) := by
  have hsplit := List.takeWhile_append_dropWhile (p := fun x : Range => decide (x.start < s.start))
    (l := l)
  have hpw := h
  unfold SortedByStart at hpw
  rw [← hsplit] at hpw
  obtain ⟨h1, h2, h3⟩ := List.pairwise_append.mp hpw
  have hlt : ∀ x ∈ l.takeWhile (fun x => decide (x.start < s.start)), x.start < s.start :=
    fun x hx => by simpa using List.mem_takeWhile_imp hx
  have hgt : ∀ x ∈ l.dropWhile (fun x => decide (x.start < s.start)), s.start < x.start := by
    intro x hx
    have hle := h.le_of_mem_dropWhile hx
    have hne := hs x ((List.dropWhile_suffix _).mem hx)
    omega
  refine List.pairwise_append.mpr ⟨h1, List.pairwise_cons.mpr ⟨hgt, h2⟩, ?_⟩
  intro x hx y hy
  rcases List.mem_cons.mp hy with rfl | hy
  · exact hlt x hx
  · exact h3 x hx y hy

/-- In a sorted list of ranges that do not overlap, those that stop at `a` or before it come
first. -/
theorem SortedByStart.dropWhile_stop_le {l : List Range} (h : SortedByStart l) (a : ℕ)
    (hlen : ∀ x ∈ l, 0 < x.len)
    (hdisj : ∀ x ∈ l, ∀ y ∈ l, x.start < y.start → x.stop ≤ y.start) :
    l.dropWhile (fun r => decide (r.stop ≤ a)) = l.filter (fun r => decide (a < r.stop)) := by
  induction l with
  | nil => rfl
  | cons x l ih =>
    obtain ⟨h1, h2⟩ := List.pairwise_cons.mp h
    have ih' := ih h2 (fun y hy => hlen y (by simp [hy]))
      (fun y hy z hz => hdisj y (by simp [hy]) z (by simp [hz]))
    by_cases hx : x.stop ≤ a
    · rw [List.dropWhile_cons_of_pos (by simpa using hx),
        List.filter_cons_of_neg (by simpa using hx), ih']
    · rw [List.dropWhile_cons_of_neg (by simpa using hx)]
      refine (List.filter_eq_self.mpr fun y hy => ?_).symm
      simp only [decide_eq_true_eq]
      rcases List.mem_cons.mp hy with rfl | hy
      · omega
      · have h3 := hdisj x (by simp) y (by simp [hy]) (h1 y hy)
        unfold Range.stop at *
        omega

/-! ## Lists related element by element -/

section Related

variable {α β : Type*} {R : α → β → Prop} {l : List α} {l' : List β}

/-- Related lists have related prefixes, where the tests agree. -/
theorem forall₂_takeWhile {p : α → Bool} {q : β → Bool} (h : List.Forall₂ R l l')
    (hpq : ∀ x, ∀ y ∈ l', R x y → p x = q y) :
    List.Forall₂ R (l.takeWhile p) (l'.takeWhile q) := by
  induction h with
  | nil => exact .nil
  | @cons x y l l' hxy _ ih =>
    have hp := hpq x y (by simp) hxy
    have ih' := ih fun x y hy => hpq x y (by simp [hy])
    cases hq : q y with
    | true => rw [List.takeWhile_cons_of_pos (hp.trans hq), List.takeWhile_cons_of_pos hq]
              exact .cons hxy ih'
    | false =>
      rw [List.takeWhile_cons_of_neg (by simp [hp, hq]), List.takeWhile_cons_of_neg (by simp [hq])]
      exact .nil

/-- Related lists have related rests, where the tests agree. -/
theorem forall₂_dropWhile {p : α → Bool} {q : β → Bool} (h : List.Forall₂ R l l')
    (hpq : ∀ x, ∀ y ∈ l', R x y → p x = q y) :
    List.Forall₂ R (l.dropWhile p) (l'.dropWhile q) := by
  induction h with
  | nil => exact .nil
  | @cons x y l l' hxy hl ih =>
    have hp := hpq x y (by simp) hxy
    have ih' := ih fun x y hy => hpq x y (by simp [hy])
    cases hq : q y with
    | true =>
      rw [List.dropWhile_cons_of_pos (hp.trans hq), List.dropWhile_cons_of_pos hq]
      exact ih'
    | false =>
      rw [List.dropWhile_cons_of_neg (by simp [hp, hq]), List.dropWhile_cons_of_neg (by simp [hq])]
      exact .cons hxy hl

/-- The last elements of related lists are related. -/
theorem forall₂_concat_left {x : α} (h : List.Forall₂ R (l ++ [x]) l') :
    ∃ m y, l' = m ++ [y] ∧ List.Forall₂ R l m ∧ R x y := by
  induction l generalizing l' with
  | nil =>
    cases h with
    | cons hxy hl =>
      cases hl
      exact ⟨[], _, rfl, .nil, hxy⟩
  | cons z l ih =>
    cases h with
    | cons hzw hl =>
      obtain ⟨m, y, rfl, hm, hxy⟩ := ih hl
      exact ⟨_ :: m, y, rfl, .cons hzw hm, hxy⟩

/-- Every element of the first list has its partner. -/
theorem forall₂_mem_left (h : List.Forall₂ R l l') {x : α} (hx : x ∈ l) : ∃ y ∈ l', R x y := by
  induction h with
  | nil => cases hx
  | @cons z w l l' hzw _ ih =>
    rcases List.mem_cons.mp hx with rfl | hx
    · exact ⟨w, by simp, hzw⟩
    · obtain ⟨y, hy, hxy⟩ := ih hx
      exact ⟨y, by simp [hy], hxy⟩

end Related

end Lwip
