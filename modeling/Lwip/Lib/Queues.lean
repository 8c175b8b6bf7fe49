import Mathlib.Data.List.Basic
import Mathlib.Data.List.Count
import Mathlib.Data.List.Nodup
import Mathlib.Data.List.Range
import Mathlib.Logic.Function.Basic

/-!
# Queues by key

Items are taken into the queue of a key (`take`), where they wait until the queue is closed
(`close`), which ends all of its items in one way. An item is known by its number in the order of
taking. `InOrder` says that what was taken for a key is what ended for it, and after this what waits
for it, each in the order of taking; so an item either waits, or has ended once (`InOrder.once`).
-/

namespace Lwip

variable {κ ρ φ : Type*}

/-- The item `number`, taken for a key. -/
structure Item (κ ρ : Type*) where
  number : ℕ
  key : κ
  content : ρ
  deriving DecidableEq

/-- The items taken, those that wait, and those that ended, with how they did. -/
structure Queues (κ ρ φ : Type*) where
  taken : List (Item κ ρ) := []
  waiting : κ → List (Item κ ρ) := fun _ => []
  ended : List (Item κ ρ × φ) := []

namespace Queues

variable [DecidableEq κ] {Q : Queues κ ρ φ} {k : κ} {it : Item κ ρ}

/-- An item is taken. -/
def take (Q : Queues κ ρ φ) (k : κ) (r : ρ) : Queues κ ρ φ :=
  let it : Item κ ρ := ⟨Q.taken.length, k, r⟩
  { Q with taken := Q.taken ++ [it], waiting := Function.update Q.waiting k (Q.waiting k ++ [it]) }

/-- The queue of a key is closed. -/
def close (Q : Queues κ ρ φ) (k : κ) (f : φ) : Queues κ ρ φ :=
  { Q with
    waiting := Function.update Q.waiting k []
    ended := Q.ended ++ (Q.waiting k).map (·, f) }

/-- Queues are closed in the same way. -/
def closeAll (Q : Queues κ ρ φ) (ks : List κ) (f : φ) :
    Queues κ ρ φ := ks.foldl (fun Q k => Q.close k f) Q

/-- What was taken for a key is what ended, and then what waits. -/
structure InOrder (Q : Queues κ ρ φ) : Prop where
  numbers : Q.taken.map Item.number = List.range Q.taken.length
  order : ∀ k, (Q.ended.map Prod.fst).filter (·.key = k) ++ Q.waiting k = Q.taken.filter (·.key = k)

/-! ## What waits -/

/-- What is taken waits at the end of its queue. -/
@[simp] theorem take_waiting_self (r : ρ) :
    (Q.take k r).waiting k = Q.waiting k ++ [⟨Q.taken.length, k, r⟩] := Function.update_self ..

/-- The other queues stay as they are. -/
@[simp] theorem take_waiting_of_ne {k' : κ} (h : k' ≠ k) (r : ρ) :
    (Q.take k r).waiting k' = Q.waiting k' :=
  Function.update_of_ne h ..

/-- A queue that is closed is empty. -/
@[simp] theorem close_waiting_self (f : φ) : (Q.close k f).waiting k = [] := Function.update_self ..

/-- The other queues stay open. -/
@[simp] theorem close_waiting_of_ne {k' : κ} (h : k' ≠ k) (f : φ) :
    (Q.close k f).waiting k' = Q.waiting k' :=
  Function.update_of_ne h ..

/-- Exactly the queues of the list are closed. -/
theorem closeAll_waiting (ks : List κ) (f : φ) (k : κ) :
    (Q.closeAll ks f).waiting k = if k ∈ ks then [] else Q.waiting k := by
  induction ks generalizing Q with
  | nil => rfl
  | cons k' ks ih =>
    rw [closeAll, List.foldl_cons, ← closeAll, ih]
    by_cases hk : k = k'
    · rw [hk, close_waiting_self, if_pos List.mem_cons_self, ite_self]
    · rw [close_waiting_of_ne hk]
      by_cases hmem : k ∈ ks
      · rw [if_pos hmem, if_pos (List.mem_cons_of_mem _ hmem)]
      · rw [if_neg hmem, if_neg fun h => hmem ((List.mem_cons.mp h).resolve_left hk)]

/-- What ended, when queues are closed, ended before or waited for one of the keys. -/
theorem mem_closeAll_ended {ks : List κ} {f g : φ} (h : (it, g) ∈ (Q.closeAll ks f).ended) :
    (it, g) ∈ Q.ended ∨ g = f := by
  induction ks generalizing Q with
  | nil => exact .inl h
  | cons k ks ih =>
    obtain h | h := ih h
    · obtain h | h := List.mem_append.mp h
      · exact .inl h
      · obtain ⟨it', -, heq⟩ := List.mem_map.mp h
        exact .inr (Prod.mk.inj heq).2.symm
    · exact .inr h

/-! ## The order -/

/-- At first nothing waits. -/
theorem InOrder.init : InOrder ({} : Queues κ ρ φ) := ⟨rfl, fun _ => rfl⟩

/-- What waits for a key was taken for it. -/
theorem InOrder.mem_waiting (h : InOrder Q) (hit : it ∈ Q.waiting k) :
    it ∈ Q.taken ∧ it.key = k := by
  have hmem : it ∈ Q.taken.filter (·.key = k) := by
    rw [← h.order k]
    exact List.mem_append_right _ hit
  simpa using hmem

/-- To take something keeps the queues in order. -/
theorem InOrder.take (h : InOrder Q) (k : κ) (r : ρ) : InOrder (Q.take k r) where
  numbers := by
    show (Q.taken ++ [_]).map Item.number = List.range (Q.taken ++ [_]).length
    rw [List.map_append, h.numbers, List.length_append, List.length_singleton, List.range_succ]
    rfl
  order k' := by
    show _ = (Q.taken ++ [_]).filter _
    rw [List.filter_append, ← h.order k']
    by_cases hk : k' = k
    · subst hk
      rw [take_waiting_self, ← List.append_assoc]
      simp [Queues.take]
    · rw [take_waiting_of_ne hk]
      simp [Queues.take, Ne.symm hk]

/-- To close a queue keeps the others in order. -/
theorem InOrder.close (h : InOrder Q) (k : κ) (f : φ) : InOrder (Q.close k f) where
  numbers := h.numbers
  order k' := by
    have hended : (Q.close k f).ended.map Prod.fst = Q.ended.map Prod.fst ++ Q.waiting k := by
      simp [Queues.close, Function.comp_def]
    show _ = Q.taken.filter _
    rw [hended, List.filter_append, ← h.order k']
    by_cases hk : k' = k
    · subst hk
      rw [close_waiting_self, List.append_nil]
      have hall : (Q.waiting k').filter (·.key = k') = Q.waiting k' :=
        List.filter_eq_self.mpr fun it hit => decide_eq_true (h.mem_waiting hit).2
      rw [hall]
    · rw [close_waiting_of_ne hk]
      have hnone : (Q.waiting k).filter (·.key = k') = [] :=
        List.filter_eq_nil_iff.mpr fun it hit heq =>
          hk ((of_decide_eq_true heq).symm.trans (h.mem_waiting hit).2)
      rw [hnone, List.append_nil]

/-- To close several queues keeps the others in order. -/
theorem InOrder.closeAll (h : InOrder Q) (ks : List κ) (f : φ) : InOrder (Q.closeAll ks f) := by
  induction ks generalizing Q with
  | nil => exact h
  | cons k ks ih => exact ih (h.close k f)

/-- An item that was taken waits once, or has ended once. -/
theorem InOrder.once [DecidableEq ρ] (h : InOrder Q) (hit : it ∈ Q.taken) :
    (Q.ended.map Prod.fst).count it + (Q.waiting it.key).count it = 1 := by
  have hnodup : Q.taken.Nodup := by
    apply List.Nodup.of_map Item.number
    rw [h.numbers]
    exact List.nodup_range
  have hcount : ∀ l : List (Item κ ρ), (l.filter (·.key = it.key)).count it = l.count it :=
    fun l => List.count_filter (decide_eq_true rfl)
  calc (Q.ended.map Prod.fst).count it + (Q.waiting it.key).count it
      = ((Q.ended.map Prod.fst).filter (·.key = it.key) ++ Q.waiting it.key).count it := by
        rw [List.count_append, hcount]
    _ = Q.taken.count it := by rw [h.order, hcount]
    _ = 1 := List.count_eq_one_of_mem hnodup hit

end Queues

end Lwip
