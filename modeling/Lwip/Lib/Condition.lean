import Mathlib.Data.List.Perm.Basic
import Mathlib.Tactic.Common

/-!
# Condition variables of cooperative threads

A condition variable keeps the threads that are suspended on it, in the order in which they came. A
signal wakes the first of them and is lost if there is none: it has no memory. A thread that was
woken does not go on at once but when the scheduler gets to it, so it is kept apart until then.

What a thread does when it goes on is up to the program; here a thread is any value that says how it
continues.
-/

universe u

namespace Lwip

/-- A condition variable with its threads. -/
structure Condition (τ : Type u) where
  /-- The threads that wait for a signal. -/
  waiting : List τ := []
  /-- The threads that were woken and have not gone on yet. -/
  woken : List τ := []
  deriving DecidableEq, Repr

namespace Condition

variable {τ : Type u} (c : Condition τ)

/-- The threads that wait, and those that were woken. -/
def threads : List τ := c.waiting ++ c.woken

/-- The thread `t` suspends itself. -/
def wait (t : τ) : Condition τ := { c with waiting := c.waiting ++ [t] }

/-- The first thread that waits is woken. -/
def signal : Condition τ :=
  match c.waiting with
  | [] => c
  | t :: ts => { waiting := ts, woken := c.woken ++ [t] }

/-- The `n`-th of the woken threads goes on, if there is one. -/
def resume (n : ℕ) : Option (τ × Condition τ) :=
  c.woken[n]?.map fun t => (t, { c with woken := c.woken.eraseIdx n })

/-- A thread that waits is the last to be woken. -/
@[simp] theorem wait_waiting (t : τ) : (c.wait t).waiting = c.waiting ++ [t] := rfl

/-- A thread that waits has not been woken. -/
@[simp] theorem wait_woken (t : τ) : (c.wait t).woken = c.woken := rfl

/-- A signal takes the first thread off the queue. -/
@[simp] theorem signal_waiting : c.signal.waiting = c.waiting.tail := by
  unfold signal
  split
  · next h => simp [h]
  · next h => simp [h]

/-- A signal leaves the threads that wait or were woken. -/
theorem signal_threads : c.signal.threads.Perm c.threads := by
  unfold signal
  split
  · rfl
  · next t ts h =>
    unfold threads
    rw [h, ← List.append_assoc]
    exact List.perm_append_comm

/-- A signal is pending after a signal, unless nobody waited. -/
theorem signal_woken_ne_nil (h : c.waiting ≠ []) : c.signal.woken ≠ [] := by
  unfold signal
  split
  · next h' => exact absurd h' h
  · simp

/-- A thread that resumes had been woken, and is taken off the list. -/
theorem resume_eq_some {n : ℕ} {t : τ} {c' : Condition τ} (h : c.resume n = some (t, c')) :
    t ∈ c.woken ∧ c' = { c with woken := c.woken.eraseIdx n } := by
  unfold resume at h
  obtain ⟨t', ht, h⟩ := Option.map_eq_some_iff.mp h
  cases h
  exact ⟨List.mem_of_getElem? ht, rfl⟩

/-- The thread that goes on is one of the threads, and the others stay. -/
theorem resume_threads {n : ℕ} {t : τ} {c' : Condition τ} (h : c.resume n = some (t, c')) :
    c.threads.Perm (t :: c'.threads) := by
  unfold resume at h
  obtain ⟨t', ht, h⟩ := Option.map_eq_some_iff.mp h
  cases h
  obtain ⟨hn, rfl⟩ := List.getElem?_eq_some_iff.mp ht
  have herase : c.woken.Perm (c.woken[n] :: c.woken.eraseIdx n) :=
    (List.getElem_cons_eraseIdx_perm hn).symm
  exact (herase.append_left c.waiting).trans List.perm_middle

/-- Going on leaves the threads that wait. -/
theorem resume_waiting {n : ℕ} {t : τ} {c' : Condition τ} (h : c.resume n = some (t, c')) :
    c'.waiting = c.waiting := by
  obtain ⟨-, rfl⟩ := c.resume_eq_some h
  rfl

end Condition

end Lwip
