import Lwip.Mem.Free

/-!
# The heap of a program

A program that calls `mem_malloc`, `mem_free` and `mem_realloc` and writes to the blocks it was
given. It frees and shrinks only what it has. In every run no assertion fails, the blocks tile the
heap, and each block of the program stays where it is, as long as it was asked for.
-/

namespace Lwip.Mem

open Ram (AgreeOn)

/-- What a program does. -/
inductive Call where
  /-- `mem_malloc(size)`. -/
  | malloc (size : ℕ)
  /-- `mem_free(rmem)`. -/
  | free (rmem : ℕ)
  /-- `mem_realloc(rmem, newsize)`. -/
  | realloc (rmem newsize : ℕ)
  /-- `((u8_t *)rmem)[i] = v`. -/
  | store (rmem i : ℕ) (v : UInt8)

/-- The heap, and the blocks the program has, with the sizes it asked for. -/
structure Program where
  heap : Heap
  live : ℕ → Option ℕ

/-- One call. -/
def Program.step (s : Program) : Call → Except Abort Program
  | .malloc size =>
    memMalloc s.heap size >>= fun x =>
    .ok ⟨x.1, match x.2 with
      | none => s.live
      | some rmem => Function.update s.live rmem (some size)⟩
  | .free rmem =>
    memFree s.heap (some rmem) >>= fun h => .ok ⟨h, Function.update s.live rmem none⟩
  | .realloc rmem newsize =>
    memRealloc s.heap rmem newsize >>= fun x =>
    .ok ⟨x.1, match x.2 with
      | none => s.live
      | some rmem' => Function.update (Function.update s.live rmem none) rmem' (some newsize)⟩
  | .store rmem i v => .ok { s with heap := { s.heap with ram := s.heap.ram.set (rmem + i) v } }

/-- The program frees a block it has, shrinks a block it has and writes inside of a block it has.
The sizes are of the type `mem_size_t`. -/
def Program.Allowed (s : Program) : Call → Prop
  | .malloc size => size < 2^16
  | .free rmem => (s.live rmem).isSome = true
  | .realloc rmem newsize => (s.live rmem).any (newsize ≤ ·) = true
  | .store rmem i _ => (s.live rmem).any (i < ·) = true

instance (s : Program) : (c : Call) → Decidable (s.Allowed c)
  | .malloc size => inferInstanceAs (Decidable (size < 2^16))
  | .free rmem => inferInstanceAs (Decidable ((s.live rmem).isSome = true))
  | .realloc rmem newsize => inferInstanceAs (Decidable ((s.live rmem).any (newsize ≤ ·) = true))
  | .store rmem i _ => inferInstanceAs (Decidable ((s.live rmem).any (i < ·) = true))

/-- The starts of the blocks. -/
def starts (p : ℕ) : List Block → List ℕ
  | [] => []
  | b :: l => p :: starts (p + b.size) l

/-- What holds between two calls, for the blocks `l`. -/
structure Program.Sound (s : Program) (l : List Block) : Prop where
  /-- The blocks, linked by `next` from 0 on, cover the heap. -/
  linked : Seg s.heap.ram 0 0 l
  covers : total l = MEM_SIZE_ALIGNED
  /-- `next` and `prev` are inverse to each other. -/
  prev_next : ∀ p ∈ starts 0 l, next s.heap.ram p < MEM_SIZE_ALIGNED →
    next s.heap.ram p ∈ starts 0 l ∧ prev s.heap.ram (next s.heap.ram p) = p
  next_prev : ∀ p ∈ starts 0 l, p ≠ 0 →
    prev s.heap.ram p ∈ starts 0 l ∧ next s.heap.ram (prev s.heap.ram p) = p
  /-- Every block has room for data. -/
  min_size : ∀ b ∈ l, SIZEOF_STRUCT_MEM + MIN_SIZE_ALIGNED ≤ b.size
  /-- No two neighbours are free. -/
  merged : l.IsChain fun a b => a.used = true ∨ b.used = true
  /-- `lfree` is the lowest free block or `ram_end`. -/
  lfree : s.heap.lfree = lowFree 0 l
  /-- The blocks of the program are inside of the heap and as long as it asked for. -/
  inside : ∀ a size, s.live a = some size → ∃ n, (a, n) ∈ allocs 0 l ∧ memAlignSize size ≤ n ∧
    SIZEOF_STRUCT_MEM ≤ a ∧ a + n ≤ MEM_SIZE_ALIGNED
  /-- They do not overlap. -/
  disjoint : ∀ a b n k, (a, n) ∈ allocs 0 l → (b, k) ∈ allocs 0 l → a ≠ b → a + n ≤ b ∨ b + k ≤ a
  /-- Shrinking a block leaves it at its address. -/
  keeps : ∀ a size newsize, s.live a = some size → newsize ≤ size →
    ∃ h, memRealloc s.heap a newsize = .ok (h, some a)
  /-- `mem_malloc` returns `NULL` only if no free block is long enough. -/
  malloc_none : ∀ size h, size ≠ 0 → size < 2^16 → memMalloc s.heap size = .ok (h, none) →
    ∀ b ∈ l, b.used = false → b.size - SIZEOF_STRUCT_MEM < memAlignSize size
  /-- When the program has nothing left, the heap is one free block. -/
  all_freed : (∀ a, s.live a = none) → l = [⟨MEM_SIZE_ALIGNED, false⟩] ∧ s.heap.lfree = 0

/-! ## The blocks of the program -/

/-- The area of a used block. -/
theorem exists_of_mem_allocs {p : ℕ} {l : List Block} {x : ℕ × ℕ} (hx : x ∈ allocs p l) :
    ∃ A n C, l = A ++ ⟨n, true⟩ :: C ∧
      x = (p + total A + SIZEOF_STRUCT_MEM, n - SIZEOF_STRUCT_MEM) := by
  induction l generalizing p with
  | nil => cases hx
  | cons b l ih =>
    obtain ⟨n, u⟩ := b
    have htail : x ∈ allocs (p + n) l → ∃ A k C, ⟨n, u⟩ :: l = A ++ ⟨k, true⟩ :: C ∧
        x = (p + total A + SIZEOF_STRUCT_MEM, k - SIZEOF_STRUCT_MEM) := by
      intro hx'
      obtain ⟨A, k, C, rfl, rfl⟩ := ih hx'
      refine ⟨⟨n, u⟩ :: A, k, C, rfl, ?_⟩
      rw [total_cons, ← Nat.add_assoc]
    cases u with
    | true =>
      rw [allocs, if_pos rfl] at hx
      rcases List.mem_cons.mp hx with rfl | hx
      · exact ⟨[], n, l, rfl, rfl⟩
      · exact htail hx
    | false =>
      rw [allocs, if_neg Bool.false_ne_true] at hx
      exact htail hx

/-- A block of the program is a used block. -/
theorem Serves.exists_block {live : ℕ → Option ℕ} {l : List Block} (h : Serves live (allocs 0 l))
    {a size : ℕ} (ha : live a = some size) :
    ∃ A n C, l = A ++ ⟨n, true⟩ :: C ∧ a = total A + SIZEOF_STRUCT_MEM ∧
      size ≤ n - SIZEOF_STRUCT_MEM := by
  obtain ⟨k, hk, hle⟩ := h.block a size ha
  obtain ⟨A, n, C, hl, hx⟩ := exists_of_mem_allocs hk
  rw [Nat.zero_add, Prod.mk.injEq] at hx
  exact ⟨A, n, C, hl, hx.1, hx.2 ▸ hle⟩

/-- The blocks around an address have other addresses. -/
theorem allocs_ne {A C : List Block} {p : ℕ} (hA : ∀ b ∈ A, SIZEOF_STRUCT_MEM ≤ b.size)
    (hC : ∀ b ∈ C, SIZEOF_STRUCT_MEM ≤ b.size) {a : ℕ} (ha : total A < a)
    (hp : a < p + SIZEOF_STRUCT_MEM) :
    (∀ x ∈ allocs 0 A, x.1 ≠ a) ∧ ∀ x ∈ allocs p C, x.1 ≠ a := by
  constructor
  · intro x hx
    have := allocs_bounds hA hx
    omega
  · intro x hx
    have := allocs_bounds hC hx
    omega

/-- A write to the data of a used block does not change a header. -/
theorem Layout.store {h : Heap} {A C : List Block} {n i : ℕ} (hl : Layout h (A ++ ⟨n, true⟩ :: C))
    (hi : total A + SIZEOF_STRUCT_MEM ≤ i) (hn : i < total A + n) (v : UInt8) :
    Layout { h with ram := h.ram.set i v } (A ++ ⟨n, true⟩ :: C) := by
  have htot := hl.tiled.total_eq
  rw [total_append, total_cons] at htot
  dsimp only at htot
  obtain ⟨hsegA, hhdr, hsegC⟩ := seg_append.mp hl.linked
  rw [Nat.zero_add] at hhdr hsegC
  refine ⟨hl.tiled, ?_, ?_, hl.lfree⟩
  · rw [seg_append, Nat.zero_add]
    refine ⟨hsegA.congr (fun b hb => hl.tiled.size_le b (List.mem_append_left _ hb)) ?_,
      hhdr.congr ?_, hsegC.congr (fun b hb => hl.tiled.size_le b (by simp [hb])) ?_⟩
    · exact (AgreeOn.refl _ _ _).set (.inr (by omega))
    · exact (AgreeOn.refl _ _ _).set (.inr (by omega))
    · exact (AgreeOn.refl _ _ _).set (.inl hn)
  · exact (used_congr ((AgreeOn.refl _ _ _).set (.inl (by omega)))).trans hl.end_used

/-- The heap has the blocks `l`, and those of the program among them. -/
structure Program.Inv (s : Program) (l : List Block) : Prop where
  layout : Layout s.heap l
  serves : Serves s.live (allocs 0 l)

/-- The size of a block of the program is below that of the heap. -/
theorem Program.Inv.size_lt {s : Program} {l : List Block} (h : s.Inv l) {a size : ℕ}
    (ha : s.live a = some size) : size < 2^16 := by
  have hM := memSizeAligned_eq
  obtain ⟨A, n, C, rfl, rfl, hle⟩ := h.serves.exists_block ha
  have htot := h.layout.tiled.total_eq
  rw [total_append, total_cons] at htot
  dsimp only at htot
  omega

/-! ## One call -/

section Step

variable {s : Program} {l : List Block}

/-- A block that is given to the program. -/
theorem Program.Inv.malloc {size : ℕ} (h : s.Inv l) (hsize : size < 2^16) :
    ∃ s' l', s.step (.malloc size) = .ok s' ∧ s'.Inv l' := by
  have hS := sizeofStructMem_eq
  obtain ⟨h', A, n, C, rfl, hfit, hcall, hl'⟩ | ⟨hcall, -⟩ := memMalloc_cases h.layout hsize
  · have hsizes := h.layout.tiled.size_le
    obtain ⟨k, hk, hmid⟩ := allocs_taken (total A) hfit
    have hle : size ≤ max size MIN_SIZE_ALIGNED := le_max_left _ _
    have hold : allocs 0 (A ++ ⟨n, false⟩ :: C) =
        allocs 0 A ++ [] ++ allocs (total A + n) C := by
      rw [allocs_append, Nat.zero_add, List.append_nil]
      rfl
    have hnew : allocs 0 (A ++ taken n (max size MIN_SIZE_ALIGNED) ++ C) =
        allocs 0 A ++ [(total A + SIZEOF_STRUCT_MEM, k)] ++ allocs (total A + n) C := by
      rw [allocs_append, allocs_append, total_append, total_taken hfit, Nat.zero_add, Nat.zero_add,
        hmid]
    obtain ⟨hα, hγ⟩ := allocs_ne (A := A) (C := C) (p := total A + n)
      (a := total A + SIZEOF_STRUCT_MEM) (fun b hb => hsizes b (List.mem_append_left _ hb))
      (fun b hb => hsizes b (by simp [hb])) (by omega) (by omega)
    have hserves := h.serves
    rw [hold] at hserves
    refine ⟨_, _, by rw [Program.step, hcall]; rfl, hl', ?_⟩
    rw [hnew]
    exact hserves.update hα hγ (fun x hx => (List.not_mem_nil hx).elim)
      (.inr ⟨size, k, rfl, rfl, by omega⟩)
  · exact ⟨_, l, by rw [Program.step, hcall]; rfl, h.layout, h.serves⟩

/-- A block that the program gives back. -/
theorem Program.Inv.free {rmem : ℕ} (h : s.Inv l) (hlive : (s.live rmem).isSome = true) :
    ∃ s' l', s.step (.free rmem) = .ok s' ∧ s'.Inv l' := by
  have hS := sizeofStructMem_eq
  obtain ⟨size, ha⟩ := Option.isSome_iff_exists.mp hlive
  obtain ⟨A, n, C, rfl, rfl, -⟩ := h.serves.exists_block ha
  have hsizes := h.layout.tiled.size_le
  have hn : SIZEOF_STRUCT_MEM ≤ n := hsizes ⟨n, true⟩ (by simp)
  obtain ⟨h', A', xs, ys, C', rfl, rfl, hfree, hcall, hl'⟩ := memFree_ok h.layout
  have hxs : ∀ b ∈ xs, b.used = false := fun b hb => hfree b (List.mem_append_left _ hb)
  have hys : ∀ b ∈ ys, b.used = false := fun b hb => hfree b (List.mem_append_right _ hb)
  have hp : total (A' ++ xs) + n + total ys = total A' + (total xs + n + total ys) := by
    rw [total_append]
    omega
  -- The free blocks on both sides have no part in it.
  have hold : allocs 0 (A' ++ xs ++ ⟨n, true⟩ :: (ys ++ C')) =
      allocs 0 A' ++ [(total (A' ++ xs) + SIZEOF_STRUCT_MEM, n - SIZEOF_STRUCT_MEM)] ++
        allocs (total A' + (total xs + n + total ys)) C' := by
    rw [allocs_append, allocs_append, allocs_free _ hxs, List.append_nil, Nat.zero_add, allocs,
      if_pos rfl, allocs_append, allocs_free _ hys, List.nil_append, ← hp, List.append_assoc]
    rfl
  have hnew : allocs 0 (A' ++ ⟨total xs + n + total ys, false⟩ :: C') =
      allocs 0 A' ++ [] ++ allocs (total A' + (total xs + n + total ys)) C' := by
    rw [allocs_append, Nat.zero_add, List.append_nil]
    rfl
  obtain ⟨hα, hγ⟩ := allocs_ne (A := A') (C := C') (p := total A' + (total xs + n + total ys))
    (a := total (A' ++ xs) + SIZEOF_STRUCT_MEM) (fun b hb => hsizes b (by simp [hb]))
    (fun b hb => hsizes b (by simp [hb])) (by rw [total_append]; omega)
    (by rw [total_append]; omega)
  have hserves := h.serves
  rw [hold] at hserves
  refine ⟨_, _, by rw [Program.step, hcall]; rfl, hl', ?_⟩
  rw [hnew]
  exact hserves.update hα hγ (fun x hx => by rw [List.mem_singleton.mp hx]) (.inl ⟨rfl, rfl⟩)

/-- A block that the program shrinks. -/
theorem Program.Inv.realloc {rmem size newsize : ℕ} (h : s.Inv l) (ha : s.live rmem = some size)
    (hle : newsize ≤ size) :
    ∃ h' s' l', memRealloc s.heap rmem newsize = .ok (h', some rmem) ∧
      s.step (.realloc rmem newsize) = .ok s' ∧ s'.Inv l' := by
  have hS := sizeofStructMem_eq
  have hlt := h.size_lt ha
  obtain ⟨A, n, C, rfl, rfl, hfit⟩ := h.serves.exists_block ha
  have hsizes := h.layout.tiled.size_le
  have hn : SIZEOF_STRUCT_MEM + MIN_SIZE_ALIGNED ≤ n :=
    h.layout.tiled.min_size ⟨n, true⟩ (by simp)
  obtain ⟨h', X, ys, C', k, rfl, hys, hX, hmid, hk, hcall, hl'⟩ :=
    memRealloc_ok h.layout (by omega : newsize < 2^16) (by omega)
  have hold : allocs 0 (A ++ ⟨n, true⟩ :: (ys ++ C')) =
      allocs 0 A ++ [(total A + SIZEOF_STRUCT_MEM, n - SIZEOF_STRUCT_MEM)] ++
        allocs (total A + (n + total ys)) C' := by
    rw [allocs_append, Nat.zero_add, allocs, if_pos rfl, allocs_append, allocs_free _ hys,
      List.nil_append, List.append_assoc, ← Nat.add_assoc]
    rfl
  have hnew : allocs 0 (A ++ X ++ C') =
      allocs 0 A ++ [(total A + SIZEOF_STRUCT_MEM, k)] ++
        allocs (total A + (n + total ys)) C' := by
    rw [allocs_append, allocs_append, total_append, hX, Nat.zero_add, Nat.zero_add, hmid]
  obtain ⟨hα, hγ⟩ := allocs_ne (A := A) (C := C') (p := total A + (n + total ys))
    (a := total A + SIZEOF_STRUCT_MEM) (fun b hb => hsizes b (by simp [hb]))
    (fun b hb => hsizes b (by simp [hb])) (by omega) (by omega)
  have hserves := h.serves
  rw [hold] at hserves
  refine ⟨h', _, _, hcall, by rw [Program.step, hcall]; rfl, hl', ?_⟩
  dsimp only
  rw [hnew, Function.update_idem]
  exact hserves.update hα hγ (fun x hx => by rw [List.mem_singleton.mp hx])
    (.inr ⟨newsize, k, rfl, rfl, hk⟩)

/-- Every allowed call returns and keeps the invariant. -/
theorem Program.Inv.step {c : Call} (h : s.Inv l) (hc : s.Allowed c) :
    ∃ s' l', s.step c = .ok s' ∧ s'.Inv l' := by
  cases c with
  | malloc size => exact h.malloc hc
  | free rmem => exact h.free hc
  | realloc rmem newsize =>
    obtain ⟨size, ha, hle⟩ := (Option.any_eq_true _ _).mp hc
    obtain ⟨-, s', l', -, hstep, hinv⟩ := h.realloc ha (of_decide_eq_true hle)
    exact ⟨s', l', hstep, hinv⟩
  | store rmem i v =>
    obtain ⟨size, ha, hlt⟩ := (Option.any_eq_true _ _).mp hc
    have hlt := of_decide_eq_true hlt
    obtain ⟨A, n, C, rfl, rfl, hle⟩ := h.serves.exists_block ha
    exact ⟨_, _, rfl, h.layout.store (by omega) (by omega) v, h.serves⟩

end Step

/-! ## All runs -/

/-- The links of a list of blocks are inverse to each other. -/
theorem seg_inverse {m : Ram} {p q : ℕ} {l : List Block} (h : Seg m p q l)
    (hsize : ∀ b ∈ l, 0 < b.size) :
    (∀ r ∈ starts p l, next m r < p + total l →
      next m r ∈ starts p l ∧ prev m (next m r) = r) ∧
    ∀ r ∈ starts p l, r ≠ p → prev m r ∈ starts p l ∧ next m (prev m r) = r := by
  induction l generalizing p q with
  | nil => exact ⟨fun r hr => (List.not_mem_nil hr).elim, fun r hr => (List.not_mem_nil hr).elim⟩
  | cons b l ih =>
    have hb := hsize b List.mem_cons_self
    obtain ⟨ihn, ihp⟩ := ih h.2 fun x hx => hsize x (List.mem_cons_of_mem _ hx)
    rw [total_cons]
    constructor
    · intro r hr hlt
      rcases List.mem_cons.mp hr with rfl | hr
      · rw [h.1.next] at hlt ⊢
        cases l with
        | nil => rw [total_nil] at hlt; omega
        | cons c l => exact ⟨List.mem_cons_of_mem _ List.mem_cons_self, h.2.1.prev⟩
      · obtain ⟨hmem, heq⟩ := ihn r hr (by omega)
        exact ⟨List.mem_cons_of_mem _ hmem, heq⟩
    · intro r hr hne
      rcases List.mem_cons.mp hr with rfl | hr
      · exact absurd rfl hne
      · by_cases hrb : r = p + b.size
        · cases l with
          | nil => cases hr
          | cons c l =>
            rw [hrb, h.2.1.prev]
            exact ⟨List.mem_cons_self, h.1.next⟩
        · obtain ⟨hmem, heq⟩ := ihp r hr hrb
          exact ⟨List.mem_cons_of_mem _ hmem, heq⟩

/-- Two used blocks at different addresses do not overlap. -/
theorem allocs_disjoint {l : List Block} (hsize : ∀ b ∈ l, SIZEOF_STRUCT_MEM ≤ b.size)
    {x y : ℕ × ℕ} (hx : x ∈ allocs 0 l) (hy : y ∈ allocs 0 l) (hne : x.1 ≠ y.1) :
    x.1 + x.2 ≤ y.1 ∨ y.1 + y.2 ≤ x.1 := by
  have hpair : (allocs 0 l).Pairwise fun x y => x.1 + x.2 ≤ y.1 ∨ y.1 + y.2 ≤ x.1 :=
    (allocs_pairwise 0 hsize).imp fun hxy => .inl (by omega)
  have hsymm : Std.Symm fun x y : ℕ × ℕ => x.1 + x.2 ≤ y.1 ∨ y.1 + y.2 ≤ x.1 :=
    ⟨fun _ _ h => h.symm⟩
  exact hpair.forall hx hy fun h => hne (congrArg Prod.fst h)

/-- With an alignment of 1 nothing is added. -/
theorem memAlignSize_eq (size : ℕ) : memAlignSize size = size := by
  simp [memAlignSize, MEM_ALIGNMENT]

/-- What the invariant says of the heap. -/
theorem Program.Inv.sound {s : Program} {l : List Block} (h : s.Inv l) : s.Sound l := by
  have hS := sizeofStructMem_eq
  have htiled := h.layout.tiled
  have hsize := htiled.size_le
  have hpos : ∀ b ∈ l, 0 < b.size := fun b hb => lt_of_lt_of_le (by decide) (hsize b hb)
  obtain ⟨hnext, hprev⟩ := seg_inverse h.layout.linked hpos
  rw [Nat.zero_add, htiled.total_eq] at hnext
  constructor
  · exact h.layout.linked
  · exact htiled.total_eq
  · exact hnext
  · exact hprev
  · exact htiled.min_size
  · exact htiled.merged
  · exact h.layout.lfree
  · intro a size ha
    obtain ⟨n, hn, hle⟩ := h.serves.block a size ha
    have hb := allocs_bounds hsize hn
    rw [htiled.total_eq] at hb
    dsimp only at hb
    exact ⟨n, hn, by rwa [memAlignSize_eq], by omega, by omega⟩
  · exact fun a b n k ha hb hne => allocs_disjoint hsize ha hb hne
  · intro a size newsize ha hle
    obtain ⟨h', -, -, hcall, -⟩ := h.realloc ha hle
    exact ⟨h', hcall⟩
  · intro size h' hne hlt hcall b hb hfree
    obtain ⟨h'', A, n, C, -, -, hcall', -⟩ | ⟨-, hnone⟩ := memMalloc_cases h.layout hlt
    · rw [hcall] at hcall'
      cases hcall'
    · have := hnone hne b hb hfree
      have := hsize b hb
      rw [memAlignSize_eq]
      omega
  · intro hnone
    have hnil : allocs 0 l = [] := by
      refine List.eq_nil_iff_forall_not_mem.mpr fun x hx => ?_
      obtain ⟨size, hsize⟩ := h.serves.request x hx
      rw [hnone] at hsize
      cases hsize
    have hl := eq_single_of_allocs_eq_nil htiled hnil
    refine ⟨hl, ?_⟩
    rw [h.layout.lfree, hl]
    rfl

/-- The invariant holds after `mem_init`, and every call that is allowed keeps it. -/
theorem run_inv (m : Ram) :
    ∃ h, memInit m = .ok h ∧
      ∀ cs : List Call, Along Program.step Program.Allowed ⟨h, fun _ => none⟩ cs →
        ∃ s l, run Program.step ⟨h, fun _ => none⟩ cs = .ok s ∧ s.Inv l := by
  obtain ⟨h, hinit, hlayout⟩ := memInit_layout m
  refine ⟨h, hinit, fun cs hcs => ?_⟩
  have hstart : ∃ l, Program.Inv ⟨h, fun _ => none⟩ l :=
    ⟨_, hlayout, fun a size ha => (nomatch ha), fun x hx => (nomatch hx)⟩
  have hstep : ∀ (s : Program) (c : Call), (∃ l, s.Inv l) → s.Allowed c →
      ∃ s', s.step c = .ok s' ∧ ∃ l, s'.Inv l := by
    rintro s c ⟨l, hl⟩ hc
    obtain ⟨s', l', hs', hinv⟩ := hl.step hc
    exact ⟨s', hs', l', hinv⟩
  obtain ⟨s, hs, l, hl⟩ := run_ok hstep hstart hcs
  exact ⟨s, l, hs, hl⟩

/-- In every run of a program that frees, shrinks and writes only what it has, no assertion fails
and the heap is sound after every call. -/
theorem heap_sound (m : Ram) :
    ∃ h, memInit m = .ok h ∧
      ∀ cs : List Call, Along Program.step Program.Allowed ⟨h, fun _ => none⟩ cs →
        ∃ s l, run Program.step ⟨h, fun _ => none⟩ cs = .ok s ∧ s.Sound l := by
  obtain ⟨h, hinit, hruns⟩ := run_inv m
  refine ⟨h, hinit, fun cs hcs => ?_⟩
  obtain ⟨s, l, hs, hl⟩ := hruns cs hcs
  exact ⟨s, l, hs, hl.sound⟩

/-- An array of zeros. -/
def zeroRam : Ram := fun _ => 0

/-- Two blocks; the first is written and shrunk, the second is freed and its place taken again. -/
def reuseRun : List Call :=
  [.malloc 40, .malloc 30, .store 6 39 255, .realloc 6 20, .free 52, .malloc 100, .free 6]

/-- A run in which a block is freed, shrunk and used again. -/
theorem heap_sound_reuseRun :
    ∃ h, memInit zeroRam = .ok h ∧
      Along Program.step Program.Allowed ⟨h, fun _ => none⟩ reuseRun ∧
      ∃ s l, run Program.step ⟨h, fun _ => none⟩ reuseRun = .ok s ∧ s.Sound l := by
  obtain ⟨h, hinit, hruns⟩ := heap_sound zeroRam
  have hallowed : Along Program.step Program.Allowed ⟨h, fun _ => none⟩ reuseRun := by
    cases hinit
    decide +kernel
  exact ⟨h, hinit, hallowed, hruns reuseRun hallowed⟩

end Lwip.Mem
