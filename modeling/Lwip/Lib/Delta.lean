import Mathlib.Data.List.Basic
import Mathlib.Tactic.Common

/-!
# Schedules as differences

A schedule is a list of times with something that is due then, in the order of the times. It can be
kept as the differences of each time to the one before (`List (ℕ × α)`, read by `expand`), so that
only the first entry changes as time goes by. `insert` and `erase` are the operations on
differences, and `expand_insert` and `expand_erase` say what they do to the schedule.
-/

universe u

namespace Lwip.Delta

variable {α : Type u} {d now t n : ℕ} {a b : α} {l : List (ℕ × α)} {p : α → Bool}

/-- The times of a list of differences, which begins at the time `now`. -/
def expand (now : ℕ) : List (ℕ × α) → List (ℕ × α)
  | [] => []
  | (t, a) :: rest => (now + t, a) :: expand (now + t) rest

/-- A new entry, `d` from the beginning, behind those that are due at the same time. -/
def insert (d : ℕ) (a : α) : List (ℕ × α) → List (ℕ × α)
  | [] => [(d, a)]
  | (t, b) :: rest => if d < t then (d, a) :: (t - d, b) :: rest
    else (t, b) :: insert (d - t) a rest

/-- The first entry is `t` later. -/
def delay (t : ℕ) : List (ℕ × α) → List (ℕ × α)
  | [] => []
  | (s, b) :: rest => (s + t, b) :: rest

/-- The first entry of the kind `p` is taken out. -/
def erase (p : α → Bool) : List (ℕ × α) → List (ℕ × α)
  | [] => []
  | (t, a) :: rest => if p a then delay t rest else (t, a) :: erase p rest

/-- Time goes by, but not beyond the first entry. -/
def elapse (d : ℕ) : List (ℕ × α) → List (ℕ × α)
  | [] => []
  | (t, a) :: rest => (t - d, a) :: rest

/-! ## The times -/

/-- No entry expires in the past. -/
theorem le_of_mem_expand {e : ℕ × α} (he : e ∈ expand now l) : now ≤ e.1 := by
  induction l generalizing now with
  | nil => cases he
  | cons x l ih =>
    rcases List.mem_cons.mp he with rfl | he
    · exact Nat.le_add_right _ _
    · exact Nat.le_trans (Nat.le_add_right _ _) (ih he)

/-- The times are in their order. -/
theorem expand_sorted (now : ℕ) (l : List (ℕ × α)) :
    (expand now l).Pairwise fun e e' => e.1 ≤ e'.1 := by
  induction l generalizing now with
  | nil => exact .nil
  | cons x l ih => exact .cons (fun e he => le_of_mem_expand he) (ih _)

/-- A delay of the list is a later start. -/
theorem expand_delay (now t : ℕ) (l : List (ℕ × α)) :
    expand now (delay t l) = expand (now + t) l := by
  cases l with
  | nil => rfl
  | cons x l =>
    have htime : now + (x.1 + t) = now + t + x.1 := by omega
    show (now + (x.1 + t), x.2) :: expand (now + (x.1 + t)) l = _
    rw [htime]
    rfl

/-- The new entry is behind those that are due no later, and in front of the others. -/
theorem expand_insert (now d : ℕ) (a : α) (l : List (ℕ × α)) :
    ∃ pre post, expand now l = pre ++ post ∧
    expand now (insert d a l) = pre ++ (now + d, a) :: post ∧
      (∀ e ∈ pre, e.1 ≤ now + d) ∧ ∀ e ∈ post, now + d < e.1 := by
  induction l generalizing now d with
  | nil => exact ⟨[], [], rfl, rfl, fun e he => (by cases he), fun e he => by cases he⟩
  | cons x l ih =>
    obtain ⟨t, b⟩ := x
    by_cases hlt : d < t
    · -- All entries are due later.
      have htime : now + d + (t - d) = now + t := by omega
      refine ⟨[], expand now ((t, b) :: l), rfl, ?_, fun e he => (by cases he), fun e he => ?_⟩
      · rw [insert, if_pos hlt, expand, expand, htime]
        rfl
      · rcases List.mem_cons.mp he with rfl | he
        · show now + d < now + t
          omega
        · exact Nat.lt_of_lt_of_le (by omega) (le_of_mem_expand he)
    · have htime : now + t + (d - t) = now + d := by omega
      obtain ⟨pre, post, hl, hins, hpre, hpost⟩ := ih (now + t) (d - t)
      rw [htime] at hins hpre hpost
      refine ⟨(now + t, b) :: pre, post, ?_, ?_, fun e he => ?_, hpost⟩
      · rw [expand, hl]
        rfl
      · rw [insert, if_neg hlt, expand, hins]
        rfl
      · rcases List.mem_cons.mp he with rfl | he
        · show now + t ≤ now + d
          omega
        · exact hpre e he

/-- The other entries are due when they were. -/
theorem expand_erase (now : ℕ) (p : α → Bool) (l : List (ℕ × α)) :
    expand now (erase p l) = (expand now l).eraseP fun e => p e.2 := by
  induction l generalizing now with
  | nil => rfl
  | cons x l ih =>
    rw [erase, expand]
    by_cases hp : p x.2 = true
    · rw [if_pos hp, expand_delay]
      exact (List.eraseP_cons_of_pos (a := (now + x.1, x.2)) (p := fun e : ℕ × α => p e.2) hp).symm
    · rw [if_neg hp, expand, ih]
      exact (List.eraseP_cons_of_neg (a := (now + x.1, x.2)) (p := fun e : ℕ × α => p e.2) hp).symm

/-! ## Schedules that end before a time -/

/-- All entries are due before `n`. -/
def Within (n now : ℕ) (l : List (ℕ × α)) : Prop := ∀ e ∈ expand now l, e.1 < n

/-- An insertion keeps the times in range. -/
theorem Within.insert (h : Within n now l) (hd : now + d < n) (a : α) :
    Within n now (insert d a l) := by
  obtain ⟨pre, post, hl, hins, -⟩ := expand_insert now d a l
  intro e he
  rw [hins] at he
  rcases List.mem_append.mp he with he | he
  · exact h e (by rw [hl]; exact List.mem_append_left _ he)
  · rcases List.mem_cons.mp he with rfl | he
    · exact hd
    · exact h e (by rw [hl]; exact List.mem_append_right _ he)

/-- An erasure keeps the times in range. -/
theorem Within.erase (h : Within n now l) (p : α → Bool) : Within n now (erase p l) := by
  intro e he
  rw [expand_erase] at he
  exact h e (List.mem_of_mem_eraseP he)

/-- Entries are due earlier from an earlier time on. -/
theorem Within.mono {now' : ℕ} (h : Within n now l) (hle : now' ≤ now) : Within n now' l := by
  induction l generalizing now now' with
  | nil => exact fun e he => by cases he
  | cons x l ih =>
    intro e he
    rcases List.mem_cons.mp he with rfl | he
    · exact Nat.lt_of_le_of_lt (Nat.add_le_add_right hle _) (h _ List.mem_cons_self)
    · exact ih (fun e he => h e (List.mem_cons_of_mem _ he)) (Nat.add_le_add_right hle _) e he

/-- The times stay in range when the first entry expires. -/
theorem Within.tail {x : ℕ × α} (h : Within n now (x :: l)) : Within n (now + x.1) l :=
  fun e he => h e (List.mem_cons_of_mem _ he)

/-- The times stay in range while time goes by. -/
theorem Within.elapse (h : Within n now l) (d : ℕ) : Within n now (elapse d l) := by
  cases l with
  | nil => exact h
  | cons x l =>
    have hle : now + (x.1 - d) ≤ now + x.1 := by omega
    intro e he
    rcases List.mem_cons.mp he with rfl | he
    · exact Nat.lt_of_le_of_lt hle (h _ List.mem_cons_self)
    · exact h.tail.mono hle e he

end Lwip.Delta
