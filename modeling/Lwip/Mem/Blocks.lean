import Lwip.Mem.Heap
import Mathlib.Data.List.Chain
import Mathlib.Algebra.BigOperators.Group.List.Basic

/-!
# The heap as a list of blocks

What the heap is for, without its headers: a list of blocks that are used or free. The first block
starts at 0 and each one starts where the one in front of it ends. `lowFree` is the start of the
first free block, `allocs` are the areas behind the headers of the used blocks, and `Serves` says
that these are the areas a program was given.
-/

namespace Lwip.Mem

/-- A block, with its header. -/
structure Block where
  /-- The length of the block and its header. -/
  size : ℕ
  /-- The block is used. -/
  used : Bool
  deriving DecidableEq, Repr

/-- The length of all blocks. -/
def total (l : List Block) : ℕ := (l.map Block.size).sum

/-- No blocks take no room. -/
theorem total_nil : total [] = 0 := rfl

/-- The room of the first block and of the rest. -/
theorem total_cons (b : Block) (l : List Block) : total (b :: l) = b.size + total l := by
  simp [total]

/-- The room of two lists of blocks. -/
theorem total_append (l l' : List Block) : total (l ++ l') = total l + total l' := by
  simp [total]

/-- A list of blocks is empty or as long as a header. -/
theorem total_eq_zero_or_le {l : List Block} (h : ∀ b ∈ l, SIZEOF_STRUCT_MEM ≤ b.size) :
    total l = 0 ∨ SIZEOF_STRUCT_MEM ≤ total l := by
  cases l with
  | nil => exact .inl rfl
  | cons b l =>
    rw [total_cons]
    exact .inr ((h b List.mem_cons_self).trans (Nat.le_add_right _ _))

/-- The blocks are big enough for data and no two free blocks are neighbours. -/
structure Tiled (l : List Block) : Prop where
  total_eq : total l = MEM_SIZE_ALIGNED
  min_size : ∀ b ∈ l, SIZEOF_STRUCT_MEM + MIN_SIZE_ALIGNED ≤ b.size
  merged : l.IsChain fun a b => a.used = true ∨ b.used = true

/-- The start of the first free block of a list that starts at `p`, or the end of the list. -/
def lowFree (p : ℕ) : List Block → ℕ
  | [] => p
  | b :: l => if b.used then lowFree (p + b.size) l else p

/-- The address and the length of the data of each used block of a list that starts at `p`. -/
def allocs (p : ℕ) : List Block → List (ℕ × ℕ)
  | [] => []
  | b :: l =>
    if b.used then (p + SIZEOF_STRUCT_MEM, b.size - SIZEOF_STRUCT_MEM) :: allocs (p + b.size) l
    else allocs (p + b.size) l

/-! ## The first free block -/

/-- The first free block of two lists. -/
theorem lowFree_append (p : ℕ) (A C : List Block) :
    lowFree p (A ++ C) = if A.all Block.used then lowFree (p + total A) C else lowFree p A := by
  induction A generalizing p with
  | nil => rfl
  | cons b A ih =>
    rw [List.cons_append, lowFree, ih, lowFree, total_cons, Nat.add_assoc, List.all_cons]
    cases b.used <;> simp

/-- The first free block is not before the list. -/
theorem le_lowFree (p : ℕ) (l : List Block) : p ≤ lowFree p l := by
  induction l generalizing p with
  | nil => exact le_rfl
  | cons b l ih =>
    rw [lowFree]
    split
    · exact (Nat.le_add_right p b.size).trans (ih _)
    · exact le_rfl

/-- A free block is in front of the end. -/
theorem lowFree_lt {p : ℕ} {l : List Block} (hpos : ∀ b ∈ l, 0 < b.size)
    (h : l.all Block.used = false) : lowFree p l < p + total l := by
  induction l generalizing p with
  | nil => cases h
  | cons b l ih =>
    have hb := hpos b List.mem_cons_self
    rw [lowFree, total_cons]
    split
    · rename_i hu
      rw [List.all_cons, hu, Bool.true_and] at h
      have hlt : lowFree (p + b.size) l < p + b.size + total l :=
        ih (fun x hx => hpos x (List.mem_cons_of_mem _ hx)) h
      omega
    · omega

/-- The blocks in front of the first free one are used. -/
theorem exists_lowFree_eq (p : ℕ) (l : List Block) :
    ∃ A C, l = A ++ C ∧ (∀ b ∈ A, b.used = true) ∧ lowFree p l = p + total A := by
  induction l generalizing p with
  | nil => exact ⟨[], [], rfl, fun b hb => (List.not_mem_nil hb).elim, rfl⟩
  | cons b l ih =>
    cases hb : b.used with
    | false =>
      refine ⟨[], b :: l, rfl, fun x hx => (List.not_mem_nil hx).elim, ?_⟩
      rw [lowFree, hb, total_nil]
      rfl
    | true =>
      obtain ⟨A, C, rfl, hA, hlow⟩ := ih (p + b.size)
      refine ⟨b :: A, C, rfl, fun x hx => ?_, ?_⟩
      · rcases List.mem_cons.mp hx with rfl | hx
        · exact hb
        · exact hA x hx
      · rw [lowFree, hb, if_pos rfl, hlow, total_cons, Nat.add_assoc]

/-! ## The used blocks -/

/-- The used blocks of two lists. -/
theorem allocs_append (p : ℕ) (A C : List Block) :
    allocs p (A ++ C) = allocs p A ++ allocs (p + total A) C := by
  induction A generalizing p with
  | nil => rfl
  | cons b A ih =>
    rw [List.cons_append, allocs, allocs, ih, total_cons, Nat.add_assoc]
    split <;> rfl

/-- A used block is inside of its list. -/
theorem allocs_bounds {p : ℕ} {l : List Block} (hsize : ∀ b ∈ l, SIZEOF_STRUCT_MEM ≤ b.size)
    {x : ℕ × ℕ} (hx : x ∈ allocs p l) :
    p + SIZEOF_STRUCT_MEM ≤ x.1 ∧ x.1 + x.2 ≤ p + total l := by
  induction l generalizing p with
  | nil => cases hx
  | cons b l ih =>
    have hb := hsize b List.mem_cons_self
    have ih' : x ∈ allocs (p + b.size) l →
        p + SIZEOF_STRUCT_MEM ≤ x.1 ∧ x.1 + x.2 ≤ p + (b.size + total l) := by
      intro hx'
      obtain ⟨h₁, h₂⟩ := ih (fun y hy => hsize y (List.mem_cons_of_mem _ hy)) hx'
      exact ⟨by omega, by omega⟩
    rw [total_cons]
    rw [allocs] at hx
    split at hx
    · rcases List.mem_cons.mp hx with rfl | hx
      · exact ⟨le_rfl, by dsimp only; omega⟩
      · exact ih' hx
    · exact ih' hx

/-- The used blocks do not overlap, and there is a header between them. -/
theorem allocs_pairwise (p : ℕ) {l : List Block} (hsize : ∀ b ∈ l, SIZEOF_STRUCT_MEM ≤ b.size) :
    (allocs p l).Pairwise fun x y => x.1 + x.2 + SIZEOF_STRUCT_MEM ≤ y.1 := by
  induction l generalizing p with
  | nil => exact .nil
  | cons b l ih =>
    have hb := hsize b List.mem_cons_self
    have hl : ∀ y ∈ l, SIZEOF_STRUCT_MEM ≤ y.size := fun y hy => hsize y (List.mem_cons_of_mem _ hy)
    rw [allocs]
    split
    · refine .cons (fun y hy => ?_) (ih _ hl)
      have := (allocs_bounds hl hy).1
      dsimp only
      omega
    · exact ih _ hl

/-- The blocks are those a program was given: `live` maps an address to the size requested for
it. -/
structure Serves (live : ℕ → Option ℕ) (as : List (ℕ × ℕ)) : Prop where
  block : ∀ a s, live a = some s → ∃ n, (a, n) ∈ as ∧ s ≤ n
  request : ∀ x ∈ as, ∃ s, live x.1 = some s

/-- The blocks at one address are replaced by what the program now has there. -/
theorem Serves.update {live : ℕ → Option ℕ} {α γ mid mid' : List (ℕ × ℕ)} {a : ℕ} {v : Option ℕ}
    (h : Serves live (α ++ mid ++ γ)) (hα : ∀ x ∈ α, x.1 ≠ a) (hγ : ∀ x ∈ γ, x.1 ≠ a)
    (hmid : ∀ x ∈ mid, x.1 = a)
    (hv : (v = none ∧ mid' = []) ∨ ∃ s n, v = some s ∧ mid' = [(a, n)] ∧ s ≤ n) :
    Serves (Function.update live a v) (α ++ mid' ++ γ) := by
  have hother : ∀ x : ℕ × ℕ, x.1 ≠ a → (x ∈ α ++ mid' ++ γ ↔ x ∈ α ++ mid ++ γ) := by
    intro x hx
    have h₁ : x ∉ mid := fun hm => hx (hmid x hm)
    have h₂ : x ∉ mid' := by
      rcases hv with ⟨-, rfl⟩ | ⟨s, n, -, rfl, -⟩
      · exact List.not_mem_nil
      · intro hm
        rw [List.mem_singleton.mp hm] at hx
        exact hx rfl
    simp [h₁, h₂]
  constructor
  · intro b s hb
    by_cases hba : b = a
    · rw [hba, Function.update_self] at hb
      rcases hv with ⟨rfl, -⟩ | ⟨s', n, rfl, rfl, hle⟩
      · cases hb
      · cases hb
        exact ⟨n, by simp [hba], hle⟩
    · rw [Function.update_of_ne hba] at hb
      obtain ⟨n, hn, hle⟩ := h.block b s hb
      exact ⟨n, (hother (b, n) hba).mpr hn, hle⟩
  · intro x hx
    by_cases hxa : x.1 = a
    · rw [hxa, Function.update_self]
      rcases hv with ⟨-, rfl⟩ | ⟨s, n, rfl, -, -⟩
      · rw [List.append_nil] at hx
        rcases List.mem_append.mp hx with hx | hx
        · exact absurd hxa (hα x hx)
        · exact absurd hxa (hγ x hx)
      · exact ⟨s, rfl⟩
    · rw [Function.update_of_ne hxa]
      exact h.request x ((hother x hxa).mp hx)

/-- A program that has nothing leaves one free block. -/
theorem eq_single_of_allocs_eq_nil {l : List Block} (h : Tiled l) (hnil : allocs 0 l = []) :
    l = [⟨MEM_SIZE_ALIGNED, false⟩] := by
  have hfree : ∀ b ∈ l, b.used = false := by
    have : ∀ p : ℕ, ∀ l : List Block, allocs p l = [] → ∀ b ∈ l, b.used = false := by
      intro p l
      induction l generalizing p with
      | nil => exact fun _ b hb => (List.not_mem_nil hb).elim
      | cons c l ih =>
        intro hnil b hb
        rw [allocs] at hnil
        split at hnil
        · cases hnil
        · rename_i hc
          rcases List.mem_cons.mp hb with rfl | hb
          · exact Bool.eq_false_iff.mpr hc
          · exact ih _ hnil b hb
    exact this 0 l hnil
  match l, h, hfree with
  | [], h, _ => exact absurd h.total_eq (by decide)
  | [b], h, hfree =>
    have hsize : b.size = MEM_SIZE_ALIGNED := by
      have := h.total_eq
      rwa [total_cons, total_nil, Nat.add_zero] at this
    have hused : b.used = false := hfree b List.mem_cons_self
    rw [← hsize, ← hused]
  | b :: c :: l, h, hfree =>
    have hpair := (List.isChain_cons_cons.mp h.merged).1
    rw [hfree b (by simp), hfree c (by simp)] at hpair
    simp at hpair

end Lwip.Mem
