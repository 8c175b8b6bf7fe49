import Mathlib.Logic.Function.Basic

/-!
# Tables with unique keys

A table `t : ι → α` of slots, some of which are live. No two live slots have the same key
(`UniqueKeys`). The rules say when a change of one slot, or of all, keeps this.
-/

universe u v w

namespace Lwip

variable {ι : Type u} {α : Type v} {κ : Type w} {live : α → Prop} {key : α → κ} {t : ι → α}

/-- No two live slots have the same key. -/
def UniqueKeys (live : α → Prop) (key : α → κ) (t : ι → α) : Prop :=
  ∀ i j, live (t i) → live (t j) → key (t i) = key (t j) → i = j

namespace UniqueKeys

/-- A slot may be filled with what is not live, or has a key of its own. -/
theorem update [DecidableEq ι] (h : UniqueKeys live key t) {i : ι} {x : α}
    (hx : live x → ∀ j, j ≠ i → live (t j) → key (t j) ≠ key x) :
    UniqueKeys live key (Function.update t i x) := by
  intro j k hj hk hkey
  by_cases hji : j = i
  · by_cases hki : k = i
    · exact hji.trans hki.symm
    · rw [hji, Function.update_self] at hj hkey
      rw [Function.update_of_ne hki] at hk hkey
      exact absurd hkey.symm (hx hj k hki hk)
  · rw [Function.update_of_ne hji] at hj hkey
    by_cases hki : k = i
    · rw [hki, Function.update_self] at hk hkey
      exact absurd hkey (hx hk j hji hj)
    · rw [Function.update_of_ne hki] at hk hkey
      exact h j k hj hk hkey

/-- Slots may lose their life, all at once. -/
theorem map (h : UniqueKeys live key t) {f : α → α} (hl : ∀ a, live (f a) → live a)
    (hk : ∀ a, key (f a) = key a) : UniqueKeys live key (fun i => f (t i)) := by
  intro i j hi hj hkey
  apply h i j (hl _ hi) (hl _ hj)
  rwa [hk, hk] at hkey

end UniqueKeys

end Lwip
