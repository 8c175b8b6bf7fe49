import Lwip.Lib.Tiling

/-!
# How far ranges reach

The numbers below `e` and those of a list of ranges are `Covered`. If the list is sorted by the
starts, `reach` runs through it once and finds the end of what is covered without a gap from 0 on
(`isReach_reach`); there is only one (`IsReach.unique`).
-/

namespace Lwip

/-- The number is below `e` or in one of the ranges. -/
def Covered (e : ℕ) (l : List Range) (k : ℕ) : Prop := k < e ∨ ∃ x ∈ l, x.start ≤ k ∧ k < x.stop

/-- The end of what is covered without a gap. -/
structure IsReach (e : ℕ) (l : List Range) (n : ℕ) : Prop where
  covered : ∀ k < n, Covered e l k
  ends : ¬ Covered e l n

/-- The end as one run finds it: it goes on with each range that starts at or before what it has. -/
def reach (e : ℕ) : List Range → ℕ
  | [] => e
  | x :: l => if x.start ≤ e then reach (max e x.stop) l else e

/-- There is one end. -/
theorem IsReach.unique {e m n : ℕ} {l : List Range} (hm : IsReach e l m)
    (hn : IsReach e l n) : m = n := by
  rcases Nat.lt_trichotomy m n with hlt | heq | hgt
  · exact absurd (hn.covered m hlt) hm.ends
  · exact heq
  · exact absurd (hm.covered n hgt) hn.ends

variable {e : ℕ} {l A : List Range}

/-- The run goes only forward. -/
theorem le_reach (e : ℕ) (l : List Range) : e ≤ reach e l := by
  induction l generalizing e with
  | nil => exact le_rfl
  | cons x l ih =>
    unfold reach
    split
    · exact (le_max_left e x.stop).trans (ih (max e x.stop))
    · exact le_rfl

/-- The run may skip ranges that it has passed. -/
theorem reach_append (hA : ∀ x ∈ A, x.stop ≤ e) : reach e (A ++ l) = reach e l := by
  induction A with
  | nil => rfl
  | cons x A ih =>
    have hx := hA x List.mem_cons_self
    have hstart : x.start ≤ e := (Nat.le_add_right x.start x.len).trans hx
    rw [List.cons_append, reach, if_pos hstart, max_eq_left hx]
    exact ih fun y hy => hA y (List.mem_cons_of_mem x hy)

/-- If all ranges have been passed, the run ends where it is. -/
theorem reach_of_le (hl : ∀ x ∈ l, x.stop ≤ e) : reach e l = e := by
  have h := reach_append (l := []) hl
  rwa [List.append_nil] at h

/-- The run goes no further than the ranges. -/
theorem reach_le {n : ℕ} (he : e ≤ n) (hl : ∀ x ∈ l, x.stop ≤ n) : reach e l ≤ n := by
  induction l generalizing e with
  | nil => exact he
  | cons x l ih =>
    unfold reach
    split
    · exact ih (max_le he (hl x List.mem_cons_self)) fun y hy => hl y (List.mem_cons_of_mem x hy)
    · exact he

/-- Everything before the end of the run is covered. -/
theorem covered_of_lt_reach {k : ℕ} (hk : k < reach e l) : Covered e l k := by
  induction l generalizing e with
  | nil => exact .inl hk
  | cons x l ih =>
    unfold reach at hk
    split at hk
    · next hstart =>
      rcases ih hk with hlt | ⟨y, hy, hin⟩
      · by_cases hke : k < e
        · exact .inl hke
        · -- What is new comes from `x`.
          have hstop : k < x.stop := by omega
          exact .inr ⟨x, List.mem_cons_self, hstart.trans (not_lt.mp hke), hstop⟩
      · exact .inr ⟨y, List.mem_cons_of_mem x hy, hin⟩
    · exact .inl hk

/-- A range that starts where the run has been lies before its end. -/
theorem stop_le_reach (hl : l.Pairwise fun x y => x.start ≤ y.start) {x : Range} (hx : x ∈ l)
    (hstart : x.start ≤ reach e l) : x.stop ≤ reach e l := by
  induction l generalizing e with
  | nil => cases hx
  | cons y l ih =>
    obtain ⟨hy, hl⟩ := List.pairwise_cons.mp hl
    by_cases hye : y.start ≤ e
    · rw [reach, if_pos hye] at hstart ⊢
      rcases List.mem_cons.mp hx with rfl | hx
      · exact (le_max_right e x.stop).trans (le_reach _ _)
      · exact ih hl hx hstart
    · -- The run ended before `y`, and `x` starts no earlier.
      rw [reach, if_neg hye] at hstart
      rcases List.mem_cons.mp hx with rfl | hx
      · exact absurd hstart hye
      · exact absurd ((hy x hx).trans hstart) hye

/-- The run finds the end. -/
theorem isReach_reach (hl : l.Pairwise fun x y => x.start ≤ y.start) : IsReach e l (reach e l) where
  covered _ hk := covered_of_lt_reach hk
  ends := by
    rintro (hlt | ⟨x, hx, hstart, hstop⟩)
    · exact absurd (le_reach e l) (not_le.mpr hlt)
    · exact absurd (stop_le_reach hl hx hstart) (not_le.mpr hstop)

end Lwip
