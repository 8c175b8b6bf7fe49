import Lwip.Mem.Malloc

/-!
# `mem_free` and `mem_realloc`

A freed block is merged with the free blocks next to it. A block that is shrunk gives its end to the
free block behind it, or to a new one.
-/

namespace Lwip.Mem

open Ram (AgreeOn)

/-- In front of a free block only the blocks before it matter to `lowFree`. -/
theorem lowFree_append_free (p : ℕ) (A C : List Block) {b : Block} (hb : b.used = false) :
    lowFree p (A ++ b :: C) = if A.all Block.used then p + total A else lowFree p A := by
  rw [lowFree_append, lowFree, hb, if_neg Bool.false_ne_true]

/-- Free blocks have no part in `allocs`. -/
theorem allocs_free (p : ℕ) {l : List Block} (h : ∀ b ∈ l, b.used = false) : allocs p l = [] := by
  induction l generalizing p with
  | nil => rfl
  | cons b l ih =>
    rw [allocs, h b List.mem_cons_self, if_neg Bool.false_ne_true]
    exact ih _ fun x hx => h x (List.mem_cons_of_mem _ hx)

/-! ## `plug_holes` -/

section Plug

variable {h : Heap} {A C : List Block} {n : ℕ}

/-- A free block behind `mem` becomes part of it. -/
theorem plugForward_seg (hseg : Seg h.ram 0 0 (A ++ ⟨n, false⟩ :: C))
    (hsize : ∀ b ∈ A ++ ⟨n, false⟩ :: C, SIZEOF_STRUCT_MEM ≤ b.size)
    (htot : total (A ++ ⟨n, false⟩ :: C) = MEM_SIZE_ALIGNED)
    (hend : used h.ram MEM_SIZE_ALIGNED = 1) (hlow : h.lfree ≤ total A)
    (hmerged : C.IsChain fun a b => a.used = true ∨ b.used = true) :
    ∃ ys C', C = ys ++ C' ∧ (∀ y ∈ ys, y.used = false) ∧ (∀ c ∈ C'.head?, c.used = true) ∧
      Seg (plugForward h (total A)).ram 0 0 (A ++ ⟨n + total ys, false⟩ :: C') ∧
      used (plugForward h (total A)).ram MEM_SIZE_ALIGNED = 1 ∧
      (plugForward h (total A)).lfree = h.lfree := by
  have hM := memSizeAligned_eq
  have hS := sizeofStructMem_eq
  have hn : SIZEOF_STRUCT_MEM ≤ n := hsize ⟨n, false⟩ (by simp)
  obtain ⟨hsegA, hhdr, hsegC⟩ := seg_append.mp hseg
  rw [Nat.zero_add] at hhdr hsegC
  dsimp only at hhdr hsegC
  rw [total_append, total_cons] at htot
  dsimp only at htot
  have hnext : next h.ram (total A) = total A + n := hhdr.next
  cases C with
  | nil =>
    rw [total_nil] at htot
    have hkeep : plugForward h (total A) = h := by
      rw [plugForward, hnext]
      exact if_neg fun hc => hc.2.2 (by omega)
    refine ⟨[], [], rfl, fun y hy => (List.not_mem_nil hy).elim, fun c hc => (nomatch hc), ?_⟩
    rw [hkeep]
    exact ⟨hseg, hend, rfl⟩
  | cons c C =>
    have hc : SIZEOF_STRUCT_MEM ≤ c.size := hsize c (by simp)
    have hC : ∀ b ∈ C, SIZEOF_STRUCT_MEM ≤ b.size := fun b hb => hsize b (by simp [hb])
    rw [total_cons] at htot
    have hused := hsegC.1.used
    cases hcu : c.used with
    | true =>
      have hkeep : plugForward h (total A) = h := by
        rw [plugForward, hnext, hused, hcu]
        exact if_neg fun hc => by cases hc.2.1
      refine ⟨[], c :: C, rfl, fun y hy => (List.not_mem_nil hy).elim, ?_, ?_⟩
      · intro x hx
        cases hx
        exact hcu
      · rw [hkeep]
        exact ⟨hseg, hend, rfl⟩
    | false =>
      have hnn : next h.ram (total A + n) = total A + n + c.size := hsegC.1.next
      -- The header of `mem` skips the one behind it, which is linked back to `mem`.
      have hnn' : next (setNext h.ram (total A) (total A + n + c.size)) (total A + n) =
          total A + n + c.size :=
        (hsegC.1.congr (agreeOn_setNext (.inl (by omega)))).next
      have heq : plugForward h (total A) =
          ⟨setPrev (setNext h.ram (total A) (total A + n + c.size))
          (total A + n + c.size) (total A),
            h.lfree⟩ := by
        rw [plugForward, hnext, hused, hcu]
        dsimp only
        rw [if_pos ⟨by omega, rfl, by omega⟩, hnn, hnn', if_neg (by omega)]
      refine ⟨[c], C, rfl, fun y hy => by rwa [List.mem_singleton.mp hy], ?_, ?_, ?_, ?_⟩
      · intro x hx
        have := (List.isChain_cons.mp hmerged).1 x hx
        rw [hcu] at this
        simpa using this
      · rw [heq, total_cons, total_nil, Nat.add_zero, seg_append, Nat.zero_add]
        have hsize' : ∀ b ∈ A, SIZEOF_STRUCT_MEM ≤ b.size := fun b hb => hsize b (by simp [hb])
        refine ⟨hsegA.congr hsize' ?_, ?_, ?_⟩
        · exact (agreeOn_setNext (.inr (by omega))).trans (agreeOn_setPrev (.inr (by omega)))
        · rw [← Nat.add_assoc]
          exact (hhdr.setNext (by omega)).congr (agreeOn_setPrev (.inr (by omega)))
        · dsimp only
          rw [← Nat.add_assoc]
          exact (hsegC.2.congr hC (agreeOn_setNext (.inl (by omega)))).setPrev hC (by omega)
      · rw [heq]
        dsimp only
        have hrest := total_eq_zero_or_le hC
        rw [used_setPrev (by omega)]
        exact (used_congr (agreeOn_setNext (.inl (by omega)))).trans hend
      · rw [heq]

/-- `mem` becomes part of a free block in front of it. -/
theorem plugBackward_seg (hseg : Seg h.ram 0 0 (A ++ ⟨n, false⟩ :: C))
    (hsize : ∀ b ∈ A ++ ⟨n, false⟩ :: C, SIZEOF_STRUCT_MEM ≤ b.size)
    (htot : total (A ++ ⟨n, false⟩ :: C) = MEM_SIZE_ALIGNED)
    (hend : used h.ram MEM_SIZE_ALIGNED = 1)
    (hlow : h.lfree = lowFree 0 (A ++ ⟨n, false⟩ :: C))
    (hmerged : A.IsChain fun a b => a.used = true ∨ b.used = true) :
    ∃ A' xs, A = A' ++ xs ∧ (∀ x ∈ xs, x.used = false) ∧ (∀ a ∈ A'.getLast?, a.used = true) ∧
      Seg (plugBackward h (total A)).ram 0 0 (A' ++ ⟨total xs + n, false⟩ :: C) ∧
      used (plugBackward h (total A)).ram MEM_SIZE_ALIGNED = 1 ∧
      (plugBackward h (total A)).lfree = h.lfree := by
  have hM := memSizeAligned_eq
  have hS := sizeofStructMem_eq
  have hn : SIZEOF_STRUCT_MEM ≤ n := hsize ⟨n, false⟩ (by simp)
  have hC : ∀ b ∈ C, SIZEOF_STRUCT_MEM ≤ b.size := fun b hb => hsize b (by simp [hb])
  obtain ⟨hsegA, hhdr, hsegC⟩ := seg_append.mp hseg
  rw [Nat.zero_add] at hhdr hsegC
  dsimp only at hhdr hsegC
  rw [total_append, total_cons] at htot
  dsimp only at htot
  rcases List.eq_nil_or_concat A with rfl | ⟨A', a, rfl⟩
  · -- The first block is its own predecessor.
    have hkeep : plugBackward h (total []) = h := by
      rw [plugBackward, hhdr.prev]
      exact if_neg fun hc => hc.1 rfl
    refine ⟨[], [], rfl, fun x hx => (List.not_mem_nil hx).elim, fun a ha => (nomatch ha), ?_⟩
    rw [hkeep, total_nil, Nat.zero_add]
    exact ⟨hseg, hend, rfl⟩
  · rw [List.concat_eq_append] at *
    have ha : SIZEOF_STRUCT_MEM ≤ a.size := hsize a (by simp)
    have hA' : ∀ b ∈ A', SIZEOF_STRUCT_MEM ≤ b.size := fun b hb => hsize b (by simp [hb])
    obtain ⟨hsegA', hhdra, -⟩ := seg_append.mp hsegA
    have htotA : total (A' ++ [a]) = total A' + a.size := by
      rw [total_append, total_cons, total_nil, Nat.add_zero]
    have hprev : prev h.ram (total (A' ++ [a])) = total A' := by
      rw [hhdr.prev, lastStart_concat, Nat.zero_add]
    rw [Nat.zero_add] at hhdra
    have hused := hhdra.used
    cases hau : a.used with
    | true =>
      have hkeep : plugBackward h (total (A' ++ [a])) = h := by
        rw [plugBackward, hprev, hused, hau]
        exact if_neg fun hc => by cases hc.2
      refine ⟨A' ++ [a], [], (List.append_nil _).symm,
        fun x hx => (List.not_mem_nil hx).elim, ?_, ?_⟩
      · intro x hx
        rw [List.getLast?_concat] at hx
        cases hx
        exact hau
      · rw [hkeep, total_nil, Nat.zero_add]
        exact ⟨hseg, hend, rfl⟩
    | false =>
      have hnn : next h.ram (total (A' ++ [a])) = total (A' ++ [a]) + n := hhdr.next
      have hnn' : next (setNext h.ram (total A') (total (A' ++ [a]) + n)) (total (A' ++ [a])) =
          total (A' ++ [a]) + n :=
        (hhdr.congr (agreeOn_setNext (.inl (by omega)))).next
      have hlt : h.lfree < total (A' ++ [a]) := by
        have hall : (A' ++ [a]).all Block.used = false := by simp [hau]
        rw [hlow, lowFree_append_free 0 _ _ rfl, hall, if_neg Bool.false_ne_true]
        have := lowFree_lt (p := 0) (fun b hb => lt_of_lt_of_le (by decide)
          (hsize b (List.mem_append_left _ hb))) hall
        omega
      have heq : plugBackward h (total (A' ++ [a])) =
          ⟨setPrev (setNext h.ram (total A') (total (A' ++ [a]) + n)) (total (A' ++ [a]) + n)
            (total A'), h.lfree⟩ := by
        rw [plugBackward, hprev, hused, hau]
        dsimp only
        rw [if_pos ⟨by omega, rfl⟩, hnn, hnn', if_neg (by omega)]
      refine ⟨A', [a], rfl, fun y hy => by rwa [List.mem_singleton.mp hy], ?_, ?_, ?_, ?_⟩
      · intro x hx
        have := (List.isChain_append.mp hmerged).2.2 x hx a rfl
        rw [hau] at this
        simpa using this
      · have hstop : total (A' ++ [a]) + n = total A' + (total [a] + n) := by
          rw [htotA, total_cons, total_nil]
          omega
        rw [heq, seg_append, Nat.zero_add]
        dsimp only
        rw [hstop]
        refine ⟨hsegA'.congr hA' ?_, ?_, ?_⟩
        · exact (agreeOn_setNext (.inr (by omega))).trans (agreeOn_setPrev (.inr (by omega)))
        · have h' := (hhdra.setNext (v := total A' + (total [a] + n)) (by omega)).congr
            (agreeOn_setPrev (p := total A' + (total [a] + n)) (v := total A') (.inr (by omega)))
          rw [hau] at h'
          exact h'
        · rw [hstop] at hsegC
          exact (hsegC.congr hC (agreeOn_setNext (.inl (by omega)))).setPrev hC (by omega)
      · rw [heq]
        dsimp only
        have hrest := total_eq_zero_or_le hC
        rw [used_setPrev (by omega)]
        exact (used_congr (agreeOn_setNext (.inl (by omega)))).trans hend
      · rw [heq]

end Plug

/-! ## `mem_free` -/

/-- `lfree` when a used block becomes free. -/
theorem lowFree_free {A C : List Block} {n : ℕ} (hpos : ∀ b ∈ A, 0 < b.size) (hn : 0 < n) :
    (if total A < lowFree 0 (A ++ ⟨n, true⟩ :: C) then total A
      else lowFree 0 (A ++ ⟨n, true⟩ :: C)) = lowFree 0 (A ++ ⟨n, false⟩ :: C) := by
  rw [lowFree_append_free (b := ⟨n, false⟩) 0 A C rfl, lowFree_append]
  cases hall : A.all Block.used with
  | true =>
    have hle : 0 + total A + n ≤ lowFree (0 + total A) (⟨n, true⟩ :: C) := le_lowFree _ C
    rw [if_pos rfl, if_pos rfl, if_pos (by omega), Nat.zero_add]
  | false =>
    have hlt := lowFree_lt (p := 0) hpos hall
    rw [if_neg Bool.false_ne_true, if_neg Bool.false_ne_true, if_neg (by omega)]

/-- A used block is freed, and merged with the free blocks `xs` in front of it and `ys` behind. -/
theorem memFree_ok {h : Heap} {A C : List Block} {n : ℕ} (hl : Layout h (A ++ ⟨n, true⟩ :: C)) :
    ∃ h' A' xs ys C', A = A' ++ xs ∧ C = ys ++ C' ∧ (∀ b ∈ xs ++ ys, b.used = false) ∧
      memFree h (some (total A + SIZEOF_STRUCT_MEM)) = .ok h' ∧
      Layout h' (A' ++ ⟨total xs + n + total ys, false⟩ :: C') := by
  have hM := memSizeAligned_eq
  have hS := sizeofStructMem_eq
  have hmin := minSizeAligned_eq
  have hsize := hl.tiled.size_le
  have hn : SIZEOF_STRUCT_MEM + MIN_SIZE_ALIGNED ≤ n := hl.tiled.min_size ⟨n, true⟩ (by simp)
  have htot := hl.tiled.total_eq
  obtain ⟨hmA, hmC, -⟩ := List.isChain_append.mp hl.tiled.merged
  have hmC := (List.isChain_cons.mp hmC).2
  obtain ⟨hsegA, hhdr, hsegC⟩ := seg_append.mp hl.linked
  rw [Nat.zero_add] at hhdr hsegC
  rw [total_append, total_cons] at htot
  dsimp only at hhdr hsegC htot
  have hpos : ∀ b ∈ A, 0 < b.size :=
    fun b hb => lt_of_lt_of_le (by decide) (hsize b (List.mem_append_left _ hb))
  -- The block is marked as free.
  have hseg₁ : Seg (setUsed h.ram (total A) 0) 0 0 (A ++ ⟨n, false⟩ :: C) := by
    rw [seg_append, Nat.zero_add]
    refine ⟨hsegA.congr (fun b hb => hsize b (List.mem_append_left _ hb))
      (agreeOn_setUsed (.inr (by omega))), hhdr.setUsed false, ?_⟩
    exact hsegC.congr (fun b hb => hsize b (by simp [hb])) (agreeOn_setUsed (.inl (by omega)))
  have hend₁ : used (setUsed h.ram (total A) 0) MEM_SIZE_ALIGNED = 1 :=
    (used_congr (agreeOn_setUsed (.inl (by omega)))).trans hl.end_used
  have hsize₁ : ∀ b ∈ A ++ ⟨n, false⟩ :: C, SIZEOF_STRUCT_MEM ≤ b.size := by
    intro b hb
    rcases List.mem_append.mp hb with hb | hb
    · exact hsize b (List.mem_append_left _ hb)
    · rcases List.mem_cons.mp hb with rfl | hb
      · dsimp only
        omega
      · exact hsize b (by simp [hb])
  have hlow₁ : (if total A < h.lfree then total A else h.lfree) =
      lowFree 0 (A ++ ⟨n, false⟩ :: C) := by
    rw [hl.lfree]
    exact lowFree_free hpos (by omega)
  have hlfree₁ : lowFree 0 (A ++ ⟨n, false⟩ :: C) ≤ total A := by
    rw [← hlow₁]
    split <;> omega
  have htot₁ : total (A ++ ⟨n, false⟩ :: C) = MEM_SIZE_ALIGNED := by
    rw [total_append, total_cons]
    exact htot
  obtain ⟨ys, C', rfl, hys, hheadC, hseg₂, hend₂, hlf₂⟩ := plugForward_seg
    (h := ⟨setUsed h.ram (total A) 0, lowFree 0 (A ++ ⟨n, false⟩ :: C)⟩) hseg₁ hsize₁ htot₁ hend₁
    hlfree₁ hmC
  have hsize₂ : ∀ b ∈ A ++ ⟨n + total ys, false⟩ :: C', SIZEOF_STRUCT_MEM ≤ b.size := by
    intro b hb
    rcases List.mem_append.mp hb with hb | hb
    · exact hsize b (List.mem_append_left _ hb)
    · rcases List.mem_cons.mp hb with rfl | hb
      · dsimp only
        omega
      · exact hsize b (by simp [hb])
  rw [total_append] at htot
  have htot₂ : total (A ++ ⟨n + total ys, false⟩ :: C') = MEM_SIZE_ALIGNED := by
    rw [total_append, total_cons]
    dsimp only
    omega
  have hlow₂ : lowFree 0 (A ++ ⟨n, false⟩ :: (ys ++ C')) =
      lowFree 0 (A ++ ⟨n + total ys, false⟩ :: C') := by
    rw [lowFree_append_free 0 A _ rfl, lowFree_append_free 0 A _ rfl]
  obtain ⟨A', xs, rfl, hxs, hlastA, hseg₃, hend₃, hlf₃⟩ := plugBackward_seg hseg₂ hsize₂ htot₂ hend₂
    (hlf₂.trans hlow₂) hmA
  have hfree : memFree h (some (total (A' ++ xs) + SIZEOF_STRUCT_MEM)) =
      .ok (plugBackward (plugForward ⟨setUsed h.ram (total (A' ++ xs)) 0,
        lowFree 0 ((A' ++ xs) ++ ⟨n, false⟩ :: (ys ++ C'))⟩ (total (A' ++ xs)))
        (total (A' ++ xs))) := by
    have hlegal : total (A' ++ xs) + SIZEOF_STRUCT_MEM < MEM_SIZE_ALIGNED := by omega
    have hbelow : SIZEOF_STRUCT_MEM ≤ total (A' ++ xs) + SIZEOF_STRUCT_MEM := by omega
    have hused : used h.ram (total (A' ++ xs)) ≠ 0 := by
      rw [hhdr.used]
      decide
    have hlt : total (A' ++ xs) < MEM_SIZE_ALIGNED := by omega
    have hnext : next (setUsed h.ram (total (A' ++ xs)) 0) (total (A' ++ xs)) ≤
        MEM_SIZE_ALIGNED := by
      rw [next_setUsed_self, hhdr.next]
      omega
    rw [memFree, (lwipAssert_eq_ok (u := ())).mpr (aligned _),
      (lwipAssert_eq_ok (u := ())).mpr hlegal, (lwipAssert_eq_ok (u := ())).mpr hbelow]
    change (lwipAssert _ _ >>= fun _ => _) = _
    rw [Nat.add_sub_cancel, (lwipAssert_eq_ok (u := ())).mpr hused, hlow₁]
    change plugHoles _ _ = _
    rw [plugHoles, (lwipAssert_eq_ok (u := ())).mpr hlt]
    change (lwipAssert _ _ >>= fun _ => _) = _
    rw [(lwipAssert_eq_ok (u := ())).mpr used_setUsed_self]
    change (lwipAssert _ _ >>= fun _ => _) = _
    rw [(lwipAssert_eq_ok (u := ())).mpr hnext]
    rfl
  rw [← Nat.add_assoc] at hseg₃
  refine ⟨_, A', xs, ys, C', rfl, rfl, ?_, hfree, ⟨?_, ?_, ?_⟩, hseg₃, hend₃, ?_⟩
  · intro b hb
    rcases List.mem_append.mp hb with hb | hb
    · exact hxs b hb
    · exact hys b hb
  · rw [total_append] at htot
    rw [total_append, total_cons]
    dsimp only
    omega
  · intro b hb
    rcases List.mem_append.mp hb with hb | hb
    · exact hl.tiled.min_size b (by simp [hb])
    · rcases List.mem_cons.mp hb with rfl | hb
      · dsimp only
        omega
      · exact hl.tiled.min_size b (by simp [hb])
  · refine List.isChain_append.mpr ⟨(List.isChain_append.mp hmA).1, ?_, fun a ha y hy => ?_⟩
    · exact List.isChain_cons.mpr ⟨fun y hy => .inr (hheadC y hy), (List.isChain_append.mp hmC).2.1⟩
    · exact .inl (hlastA a ha)
  · -- The first free block starts where it did, or where the block it became part of does.
    rw [hlf₃, hlf₂]
    dsimp only
    cases xs with
    | nil => rw [List.append_nil, lowFree_append_free 0 A' _ rfl, lowFree_append_free 0 A' _ rfl]
    | cons x xs =>
      rw [List.append_assoc, List.cons_append,
        lowFree_append_free 0 A' _ (hxs x List.mem_cons_self), lowFree_append_free 0 A' _ rfl]

/-! ## `mem_realloc` -/

section Shrink

variable {h : Heap} {A C : List Block} {n s : ℕ}

/-- A header at the new end of a used block, in front of the blocks `C` that start at `e`. -/
theorem shrink_seg {e : ℕ} {C' : List Block} (hl : Layout h (A ++ ⟨n, true⟩ :: C))
    (hroom : total A + SIZEOF_STRUCT_MEM + s + SIZEOF_STRUCT_MEM ≤ e)
    (hsegC : ∃ q, Seg h.ram e q C') (hC' : ∀ b ∈ C', SIZEOF_STRUCT_MEM ≤ b.size)
    (htot : e + total C' = MEM_SIZE_ALIGNED) :
    Seg (linkBack (linkMem h.ram (total A) (total A + SIZEOF_STRUCT_MEM + s) e)
        (total A + SIZEOF_STRUCT_MEM + s)) 0 0
      (A ++ ⟨SIZEOF_STRUCT_MEM + s, true⟩ ::
        ⟨e - (total A + SIZEOF_STRUCT_MEM + s), false⟩ :: C') ∧
      used (linkBack (linkMem h.ram (total A) (total A + SIZEOF_STRUCT_MEM + s) e)
        (total A + SIZEOF_STRUCT_MEM + s)) MEM_SIZE_ALIGNED = 1 := by
  have hM := memSizeAligned_eq
  have hS := sizeofStructMem_eq
  have hA : ∀ b ∈ A, SIZEOF_STRUCT_MEM ≤ b.size :=
    fun b hb => hl.tiled.size_le b (List.mem_append_left _ hb)
  obtain ⟨hsegA, hhdr, -⟩ := seg_append.mp hl.linked
  rw [Nat.zero_add] at hhdr
  obtain ⟨q, hsegC⟩ := hsegC
  have hle : total A + SIZEOF_STRUCT_MEM ≤ total A + SIZEOF_STRUCT_MEM + s := by omega
  obtain ⟨hh, hh2⟩ := linkMem_hdr hhdr hle (by omega : e < 2^16) (by omega)
  have hagree : ∀ i j, e ≤ i ∨ j ≤ total A →
      AgreeOn h.ram (linkMem h.ram (total A) (total A + SIZEOF_STRUCT_MEM + s) e) i j :=
    fun i j hij => agreeOn_linkMem (by omega) (by omega)
  obtain ⟨hlink, hlow, hend⟩ := linkBack_seg hh hh2 (hsegC.congr hC' (hagree _ _ (.inl le_rfl))) hC'
    hle hroom htot
  constructor
  · rw [seg_append, Nat.zero_add]
    refine ⟨hsegA.congr hA ?_, ?_⟩
    · rw [Nat.zero_add]
      exact (hagree 0 _ (.inr le_rfl)).trans (hlow.mono le_rfl (by omega))
    · have hb : total A + SIZEOF_STRUCT_MEM + s - total A = SIZEOF_STRUCT_MEM + s := by omega
      rw [hb] at hlink
      exact hlink
  · exact (hend.trans (used_congr (hagree _ _ (.inl (by omega))))).trans hl.end_used

/-- The heap with that header, when `lfree` is right and the free block it starts is big enough. -/
theorem shrink_layout {e f : ℕ} {C' : List Block} (hl : Layout h (A ++ ⟨n, true⟩ :: C))
    (hmin : MIN_SIZE_ALIGNED ≤ s)
    (hroom : total A + SIZEOF_STRUCT_MEM + s + (SIZEOF_STRUCT_MEM + MIN_SIZE_ALIGNED) ≤ e)
    (hsegC : ∃ q, Seg h.ram e q C')
    (hC' : ∀ b ∈ C', SIZEOF_STRUCT_MEM + MIN_SIZE_ALIGNED ≤ b.size)
    (hmC : C'.IsChain fun a b => a.used = true ∨ b.used = true)
    (hhead : ∀ c ∈ C'.head?, c.used = true) (htot : e + total C' = MEM_SIZE_ALIGNED)
    (hf : f = if A.all Block.used then total A + SIZEOF_STRUCT_MEM + s else lowFree 0 A) :
    Layout ⟨linkBack (linkMem h.ram (total A) (total A + SIZEOF_STRUCT_MEM + s) e)
        (total A + SIZEOF_STRUCT_MEM + s), f⟩
      (A ++ [⟨SIZEOF_STRUCT_MEM + s, true⟩, ⟨e - (total A + SIZEOF_STRUCT_MEM + s), false⟩] ++
        C') := by
  have hC'' : ∀ b ∈ C', SIZEOF_STRUCT_MEM ≤ b.size :=
    fun b hb => (Nat.le_add_right _ _).trans (hC' b hb)
  obtain ⟨hseg, hend⟩ := shrink_seg (s := s) hl (by omega) hsegC hC'' htot
  have hassoc : A ++ [⟨SIZEOF_STRUCT_MEM + s, true⟩,
      ⟨e - (total A + SIZEOF_STRUCT_MEM + s), false⟩] ++ C' = A ++ ⟨SIZEOF_STRUCT_MEM + s, true⟩ ::
        ⟨e - (total A + SIZEOF_STRUCT_MEM + s), false⟩ :: C' := by simp
  rw [hassoc]
  refine ⟨⟨?_, ?_, ?_⟩, hseg, hend, ?_⟩
  · rw [total_append, total_cons, total_cons]
    dsimp only
    omega
  · intro b hb
    rcases List.mem_append.mp hb with hb | hb
    · exact hl.tiled.min_size b (List.mem_append_left _ hb)
    · rcases List.mem_cons.mp hb with rfl | hb
      · dsimp only
        omega
      · rcases List.mem_cons.mp hb with rfl | hb
        · dsimp only
          omega
        · exact hC' b hb
  · refine List.isChain_append.mpr ⟨(List.isChain_append.mp hl.tiled.merged).1, ?_, ?_⟩
    · exact List.isChain_cons_cons.mpr ⟨.inl rfl,
        List.isChain_cons.mpr ⟨fun y hy => .inr (hhead y hy), hmC⟩⟩
    · intro a _ y hy
      cases hy
      exact .inr rfl
  · dsimp only
    rw [hf, lowFree_append, Nat.zero_add, lowFree, if_pos rfl, lowFree, if_neg Bool.false_ne_true,
      Nat.add_assoc]

/-- What `mem_realloc` does with a used block that is long enough. -/
theorem memRealloc_eq {newsize : ℕ} (hl : Layout h (A ++ ⟨n, true⟩ :: C)) (hnew : newsize < 2^16)
    (hb : max newsize MIN_SIZE_ALIGNED = s) (hs : SIZEOF_STRUCT_MEM + s ≤ n) :
    memRealloc h (total A + SIZEOF_STRUCT_MEM) newsize =
      .ok (if s = n - SIZEOF_STRUCT_MEM then h
        else if used h.ram (total A + n) = 0 then
          ⟨linkBack (linkMem h.ram (total A) (total A + SIZEOF_STRUCT_MEM + s)
              (next h.ram (total A + n))) (total A + SIZEOF_STRUCT_MEM + s),
            if h.lfree = total A + n then total A + SIZEOF_STRUCT_MEM + s else h.lfree⟩
        else if s + SIZEOF_STRUCT_MEM + MIN_SIZE_ALIGNED ≤ n - SIZEOF_STRUCT_MEM then
          ⟨linkBack (linkMem h.ram (total A) (total A + SIZEOF_STRUCT_MEM + s) (total A + n))
              (total A + SIZEOF_STRUCT_MEM + s),
            if total A + SIZEOF_STRUCT_MEM + s < h.lfree then total A + SIZEOF_STRUCT_MEM + s
            else h.lfree⟩
        else h, some (total A + SIZEOF_STRUCT_MEM)) := by
  have hM := memSizeAligned_eq
  have hmin := minSizeAligned_eq
  have htot := hl.tiled.total_eq
  rw [total_append, total_cons] at htot
  dsimp only at htot
  have hnext : next h.ram (total A) = total A + n := by
    have hhdr := (seg_append.mp hl.linked).2.1
    rw [Nat.zero_add] at hhdr
    exact hhdr.next
  have hsz : u16 (sizeTSub (total A + n) (total A + SIZEOF_STRUCT_MEM)) =
      n - SIZEOF_STRUCT_MEM := by
    rw [sizeTSub_eq (by omega) (by omega), u16]
    omega
  have hp2 : u16 (total A + SIZEOF_STRUCT_MEM + s) = total A + SIZEOF_STRUCT_MEM + s := by
    rw [u16]
    omega
  have hlegal : total A + SIZEOF_STRUCT_MEM < MEM_SIZE_ALIGNED := by omega
  have hbelow : SIZEOF_STRUCT_MEM ≤ total A + SIZEOF_STRUCT_MEM := by omega
  have hshrink : s ≤ n - SIZEOF_STRUCT_MEM := by omega
  rw [memRealloc, blockSize_eq hnew, hb, if_neg (by omega),
    (lwipAssert_eq_ok (u := ())).mpr hlegal, (lwipAssert_eq_ok (u := ())).mpr hbelow]
  change (lwipAssert _ _ >>= fun _ => _) = _
  rw [Nat.add_sub_cancel, hnext, hsz, hp2, (lwipAssert_eq_ok (u := ())).mpr hshrink]
  rfl

/-- A used block that is long enough is shrunk in place. What it loses goes to a free block: the
one behind it (`ys`) or a new one. -/
theorem memRealloc_ok {newsize : ℕ} (hl : Layout h (A ++ ⟨n, true⟩ :: C)) (hnew : newsize < 2^16)
    (hs : SIZEOF_STRUCT_MEM + max newsize MIN_SIZE_ALIGNED ≤ n) :
    ∃ h' X ys C' k, C = ys ++ C' ∧ (∀ b ∈ ys, b.used = false) ∧ total X = n + total ys ∧
      allocs (total A) X = [(total A + SIZEOF_STRUCT_MEM, k)] ∧ newsize ≤ k ∧
      memRealloc h (total A + SIZEOF_STRUCT_MEM) newsize =
        .ok (h', some (total A + SIZEOF_STRUCT_MEM)) ∧
      Layout h' (A ++ X ++ C') := by
  have hS := sizeofStructMem_eq
  have hmin := minSizeAligned_eq
  have htot := hl.tiled.total_eq
  rw [total_append, total_cons] at htot
  dsimp only at htot
  obtain ⟨-, hmC, -⟩ := List.isChain_append.mp hl.tiled.merged
  have hmC := (List.isChain_cons.mp hmC).2
  obtain ⟨-, -, hsegC⟩ := seg_append.mp hl.linked
  rw [Nat.zero_add] at hsegC
  dsimp only at hsegC
  have hpos : ∀ b ∈ A, 0 < b.size :=
    fun b hb => lt_of_lt_of_le (by decide) (hl.tiled.size_le b (List.mem_append_left _ hb))
  have hminC : ∀ b ∈ C, SIZEOF_STRUCT_MEM + MIN_SIZE_ALIGNED ≤ b.size :=
    fun b hb => hl.tiled.min_size b (by simp [hb])
  have hle : newsize ≤ max newsize MIN_SIZE_ALIGNED := le_max_left _ _
  have hge : MIN_SIZE_ALIGNED ≤ max newsize MIN_SIZE_ALIGNED := le_max_right _ _
  generalize hb : max newsize MIN_SIZE_ALIGNED = s at hs hle hge
  -- Where the first free block is.
  have hlow : ∀ d : Block, d.used = true → lowFree 0 (A ++ d :: C) =
      if A.all Block.used then lowFree (total A + d.size) C else lowFree 0 A := by
    intro d hd
    rw [lowFree_append, Nat.zero_add, lowFree, hd, if_pos rfl]
  have hlowA : A.all Block.used = false → lowFree 0 A < total A := by
    intro hall
    have := lowFree_lt (p := 0) hpos hall
    omega
  have hlf := hl.lfree
  rw [hlow _ rfl] at hlf
  dsimp only at hlf
  rw [memRealloc_eq hl hnew hb hs]
  -- Nothing changes when the block has the size or the rest is too small.
  have hsame : ∃ h' X ys C' k, C = ys ++ C' ∧ (∀ b ∈ ys, b.used = false) ∧
      total X = n + total ys ∧ allocs (total A) X = [(total A + SIZEOF_STRUCT_MEM, k)] ∧
      newsize ≤ k ∧ (Except.ok (h, some (total A + SIZEOF_STRUCT_MEM)) :
        Except Abort (Heap × Option ℕ)) = .ok (h', some (total A + SIZEOF_STRUCT_MEM)) ∧
      Layout h' (A ++ X ++ C') := by
    refine ⟨h, [⟨n, true⟩], [], C, n - SIZEOF_STRUCT_MEM, rfl,
      fun b hb => (List.not_mem_nil hb).elim, ?_, rfl, by omega, rfl, ?_⟩
    · rw [total_cons, total_nil]
    · rw [List.append_assoc]
      exact hl
  by_cases heq : s = n - SIZEOF_STRUCT_MEM
  · rw [if_pos heq]
    exact hsame
  · rw [if_neg heq]
    by_cases hfree : used h.ram (total A + n) = 0
    · -- The block behind is free, and is moved.
      rw [if_pos hfree]
      cases C with
      | nil =>
        rw [total_nil] at htot
        rw [show total A + n = MEM_SIZE_ALIGNED by omega, hl.end_used] at hfree
        cases hfree
      | cons c C =>
        have hcu : c.used = false := by
          have hu := hsegC.1.used
          rw [hfree] at hu
          cases hc : c.used with
          | false => rfl
          | true => rw [hc] at hu; cases hu
        have hc := hminC c List.mem_cons_self
        have hnext : next h.ram (total A + n) = total A + n + c.size := hsegC.1.next
        rw [total_cons] at htot
        rw [lowFree, hcu, if_neg Bool.false_ne_true] at hlf
        obtain ⟨hhead, hmC⟩ := List.isChain_cons.mp hmC
        rw [hnext]
        refine ⟨_, [⟨SIZEOF_STRUCT_MEM + s, true⟩,
          ⟨total A + n + c.size - (total A + SIZEOF_STRUCT_MEM + s), false⟩], [c], C,
          SIZEOF_STRUCT_MEM + s - SIZEOF_STRUCT_MEM, rfl,
          fun b hb => by rwa [List.mem_singleton.mp hb], ?_, rfl, by omega, rfl, ?_⟩
        · simp only [total_cons, total_nil]
          omega
        · refine shrink_layout hl hge (by omega) ⟨_, hsegC.2⟩
            (fun b hb => hminC b (List.mem_cons_of_mem _ hb)) hmC ?_ (by omega) ?_
          · intro x hx
            have := hhead x hx
            rw [hcu] at this
            simpa using this
          · rw [hlf]
            cases hall : A.all Block.used with
            | true => rw [if_pos rfl, if_pos rfl, if_pos rfl]
            | false =>
              have := hlowA hall
              rw [if_neg Bool.false_ne_true, if_neg Bool.false_ne_true, if_neg (by omega)]
    · rw [if_neg hfree]
      have hhead : ∀ c ∈ C.head?, c.used = true := by
        intro c hc
        cases C with
        | nil => cases hc
        | cons c' C =>
          cases hc
          have hu := hsegC.1.used
          by_contra hcu
          rw [if_neg hcu] at hu
          exact hfree hu
      by_cases hsplit : s + SIZEOF_STRUCT_MEM + MIN_SIZE_ALIGNED ≤ n - SIZEOF_STRUCT_MEM
      · -- There is room for a free block in front of the used one.
        rw [if_pos hsplit]
        refine ⟨_, [⟨SIZEOF_STRUCT_MEM + s, true⟩,
          ⟨total A + n - (total A + SIZEOF_STRUCT_MEM + s), false⟩], [], C,
          SIZEOF_STRUCT_MEM + s - SIZEOF_STRUCT_MEM, rfl,
          fun b hb => (List.not_mem_nil hb).elim, ?_, rfl, by omega, rfl, ?_⟩
        · simp only [total_cons, total_nil]
          omega
        · refine shrink_layout hl hge (by omega) ⟨_, hsegC⟩ hminC hmC hhead (by omega) ?_
          rw [hlf]
          cases hall : A.all Block.used with
          | true =>
            have := le_lowFree (total A + n) C
            rw [if_pos rfl, if_pos rfl, if_pos (by omega)]
          | false =>
            have := hlowA hall
            rw [if_neg Bool.false_ne_true, if_neg Bool.false_ne_true, if_neg (by omega)]
      · rw [if_neg hsplit]
        exact hsame

end Shrink

end Lwip.Mem
