import Mathlib.Data.List.Basic
import Mathlib.Logic.Function.Basic
import Mathlib.Tactic.Common

/-!
# Tickets

Requests that wait in slots until they are served. A request is known by its number in the order in
which the requests were taken. `Balanced` says that every request taken is either served, once, or
in exactly one slot; taking a request into a free slot, and serving a request and freeing its slot,
keep it.
-/

namespace Lwip

variable {ι ρ : Type*}

/-- `asked` are the requests taken, `served` the numbers of those served, and `slot` is what
waits. -/
structure Balanced (asked : List ρ) (served : List ℕ) (slot : ι → Option (ℕ × ρ)) : Prop where
  nodup : served.Nodup
  served_lt : ∀ t ∈ served, t < asked.length
  slot_asked : ∀ i t r, slot i = some (t, r) → asked[t]? = some r
  slot_unserved : ∀ i t r, slot i = some (t, r) → t ∉ served
  slot_inj : ∀ i j t r r', slot i = some (t, r) → slot j = some (t, r') → i = j
  complete : ∀ t < asked.length, t ∈ served ∨ ∃ i r, slot i = some (t, r)

namespace Balanced

variable {asked : List ρ} {served : List ℕ} {slot slot' : ι → Option (ℕ × ρ)}

/-- No ticket was given out, and no slot holds one. -/
theorem init (h : ∀ i, slot i = none) : Balanced ([] : List ρ) [] slot where
  nodup := List.nodup_nil
  served_lt t ht := by cases ht
  slot_asked i t r hi := by rw [h i] at hi; cases hi
  slot_unserved i t r hi := by rw [h i] at hi; cases hi
  slot_inj i j t r r' hi := by rw [h i] at hi; cases hi
  complete t ht := by cases ht

/-- A request that was taken and not served waits. -/
theorem waits (h : Balanced asked served slot) {t : ℕ} {r : ρ} (hr : asked[t]? = some r)
    (ht : t ∉ served) : ∃ i, slot i = some (t, r) := by
  obtain ⟨hlt, -⟩ := List.getElem?_eq_some_iff.mp hr
  obtain hs | ⟨i, r', hi⟩ := h.complete t hlt
  · exact absurd hs ht
  · have hr' := h.slot_asked i t r' hi
    rw [hr] at hr'
    cases hr'
    exact ⟨i, hi⟩

variable [DecidableEq ι]

/-- A request is taken, and waits in a slot that was free. -/
theorem ask (h : Balanced asked served slot) {i : ι} {r : ρ} (hfree : slot i = none)
    (hi : slot' i = some (asked.length, r)) (hrest : ∀ j, j ≠ i → slot' j = slot j) :
    Balanced (asked ++ [r]) served slot' where
  nodup := h.nodup
  served_lt t ht := by
    have := h.served_lt t ht
    rw [List.length_append]
    omega
  slot_asked j t r' hj := by
    by_cases hji : j = i
    · subst hji
      rw [hi] at hj
      cases hj
      exact List.getElem?_concat_length
    · rw [hrest j hji] at hj
      have hold := h.slot_asked j t r' hj
      obtain ⟨hlt, -⟩ := List.getElem?_eq_some_iff.mp hold
      rw [List.getElem?_append_left hlt]
      exact hold
  slot_unserved j t r' hj hs := by
    by_cases hji : j = i
    · subst hji
      rw [hi] at hj
      cases hj
      exact absurd (h.served_lt _ hs) (Nat.lt_irrefl _)
    · rw [hrest j hji] at hj
      exact h.slot_unserved j t r' hj hs
  slot_inj j k t r₁ r₂ hj hk := by
    -- The new ticket is held nowhere else.
    have hnew : ∀ m r', m ≠ i → slot m = some (asked.length, r') → False := fun m r' _ hm => by
      obtain ⟨hlt, -⟩ := List.getElem?_eq_some_iff.mp (h.slot_asked m _ r' hm)
      exact Nat.lt_irrefl _ hlt
    by_cases hji : j = i <;> by_cases hki : k = i
    · rw [hji, hki]
    · subst hji
      rw [hi] at hj
      cases hj
      rw [hrest k hki] at hk
      exact absurd hk fun hk => hnew k r₂ hki hk
    · subst hki
      rw [hi] at hk
      cases hk
      rw [hrest j hji] at hj
      exact absurd hj fun hj => hnew j r₁ hji hj
    · rw [hrest j hji] at hj
      rw [hrest k hki] at hk
      exact h.slot_inj j k t r₁ r₂ hj hk
  complete t ht := by
    rw [List.length_append, List.length_singleton] at ht
    by_cases hlast : t = asked.length
    · exact .inr ⟨i, r, by rw [hi, hlast]⟩
    · obtain hs | ⟨j, r', hj⟩ := h.complete t (by omega)
      · exact .inl hs
      · refine .inr ⟨j, r', ?_⟩
        have hji : j ≠ i := fun hji => by
          rw [hji, hfree] at hj
          cases hj
        rw [hrest j hji]
        exact hj

/-- A request is served, and its slot is freed. -/
theorem serve (h : Balanced asked served slot) {i : ι} {t : ℕ} {r : ρ} (hi : slot i = some (t, r))
    (hfree : slot' i = none) (hrest : ∀ j, j ≠ i → slot' j = slot j) :
    Balanced asked (served ++ [t]) slot' := by
  have hne : ∀ j u r', slot' j = some (u, r') → j ≠ i ∧ slot j = some (u, r') := fun j u r' hj => by
    have hji : j ≠ i := fun hji => by
      rw [hji, hfree] at hj
      cases hj
    exact ⟨hji, hrest j hji ▸ hj⟩
  refine ⟨?_, ?_, ?_, ?_, ?_, ?_⟩
  · have hone : [t].Nodup := List.nodup_cons.mpr ⟨List.not_mem_nil, List.nodup_nil⟩
    refine List.nodup_append.mpr ⟨h.nodup, hone, fun u hu v hv huv => ?_⟩
    rw [List.mem_singleton.mp hv] at huv
    exact h.slot_unserved i t r hi (huv ▸ hu)
  · intro u hu
    obtain hu | hu := List.mem_append.mp hu
    · exact h.served_lt u hu
    · obtain ⟨hlt, -⟩ := List.getElem?_eq_some_iff.mp (h.slot_asked i t r hi)
      rwa [List.mem_singleton.mp hu]
  · exact fun j u r' hj => h.slot_asked j u r' (hne j u r' hj).2
  · intro j u r' hj hu
    obtain ⟨hji, hj⟩ := hne j u r' hj
    obtain hu | hu := List.mem_append.mp hu
    · exact h.slot_unserved j u r' hj hu
    · rw [List.mem_singleton.mp hu] at hj
      exact hji (h.slot_inj j i t r' r hj hi)
  · exact fun j k u r₁ r₂ hj hk => h.slot_inj j k u r₁ r₂ (hne j u r₁ hj).2 (hne k u r₂ hk).2
  · intro u hu
    obtain hs | ⟨j, r', hj⟩ := h.complete u hu
    · exact .inl (List.mem_append_left _ hs)
    · by_cases hji : j = i
      · rw [hji, hi] at hj
        cases hj
        exact .inl (List.mem_append_right _ List.mem_cons_self)
      · exact .inr ⟨j, r', by rw [hrest j hji]; exact hj⟩

end Balanced

end Lwip
