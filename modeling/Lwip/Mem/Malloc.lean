import Lwip.Mem.Layout

/-!
# `mem_malloc`

The scan finds the first free block that is big enough. The block is split if the rest is big enough
for a block of its own, and `lfree` goes on to the next free block if it was at this one.
-/

namespace Lwip.Mem

open Ram (AgreeOn)

/-- A difference that does not wrap. -/
theorem sizeTSub_eq {a b : ℕ} (h : b ≤ a) (ha : a < 2^64) : sizeTSub a b = a - b := by
  rw [sizeTSub]
  omega

/-- Every address is aligned in this build. -/
theorem aligned (n : ℕ) : n % MEM_ALIGNMENT = 0 := Nat.mod_one n

/-- The sizes need no alignment in this build. -/
theorem blockSize_eq {size : ℕ} (h : size < 2^16) : blockSize size = max size MIN_SIZE_ALIGNED := by
  have halign : memAlignSize size = size := by
    simp [memAlignSize, MEM_ALIGNMENT]
  rw [blockSize, halign, u16, Nat.mod_eq_of_lt h]

/-- A block is not larger than the list. -/
theorem size_le_total {l : List Block} {b : Block} (h : b ∈ l) : b.size ≤ total l := by
  obtain ⟨A, C, rfl⟩ := List.append_of_mem h
  rw [total_append, total_cons]
  omega

/-- A list of blocks has no more of them than octets. -/
theorem length_le_total {l : List Block} (h : ∀ b ∈ l, SIZEOF_STRUCT_MEM ≤ b.size) :
    l.length ≤ total l := by
  induction l with
  | nil => exact le_rfl
  | cons b l ih =>
    have hb := h b List.mem_cons_self
    have := ih fun x hx => h x (List.mem_cons_of_mem _ hx)
    rw [sizeofStructMem_eq] at hb
    rw [List.length_cons, total_cons]
    omega

section Scan

variable {m : Ram} {p q size n : ℕ} {C : List Block}

/-- The scan ends at the first free block that is big enough, if there is one. -/
theorem mallocScan_eq (hseg : Seg m p q C) (hsize : ∀ b ∈ C, SIZEOF_STRUCT_MEM ≤ b.size)
    (he : p + total C = MEM_SIZE_ALIGNED) (hpos : 0 < size) (hn : C.length < n) :
    (∃ A b C', C = A ++ b :: C' ∧ b.used = false ∧ SIZEOF_STRUCT_MEM + size ≤ b.size ∧
      mallocScan m size n p = .ok (some (p + total A))) ∨
    ((∀ b ∈ C, b.used = false → b.size < SIZEOF_STRUCT_MEM + size) ∧
      mallocScan m size n p = .ok none) := by
  have hM := memSizeAligned_eq
  have hS := sizeofStructMem_eq
  induction C generalizing p q n with
  | nil =>
    rw [total_nil] at he
    obtain ⟨k, rfl⟩ : ∃ k, n = k + 1 := ⟨n - 1, by simp at hn; omega⟩
    refine .inr ⟨fun b hb => (List.not_mem_nil hb).elim, ?_⟩
    rw [mallocScan, if_neg (by omega)]
  | cons b C ih =>
    have hb := hsize b List.mem_cons_self
    rw [List.length_cons] at hn
    rw [total_cons] at he
    obtain ⟨k, rfl⟩ : ∃ k, n = k + 1 := ⟨n - 1, by omega⟩
    have hsub : sizeTSub (next m p) (p + SIZEOF_STRUCT_MEM) = b.size - SIZEOF_STRUCT_MEM := by
      rw [hseg.1.next, sizeTSub_eq (by omega) (by omega)]
      omega
    rw [mallocScan]
    by_cases hlt : p < MEM_SIZE_ALIGNED - size
    · rw [if_pos hlt, hsub]
      by_cases hfit : used m p = 0 ∧ size ≤ b.size - SIZEOF_STRUCT_MEM
      · rw [if_pos hfit]
        have hfree : b.used = false := by
          have hu := hseg.1.used
          rw [hfit.1] at hu
          cases hb : b.used with
          | false => rfl
          | true => rw [hb] at hu; cases hu
        exact .inl ⟨[], b, C, rfl, hfree, by omega, rfl⟩
      · rw [if_neg hfit, hseg.1.next]
        rcases ih hseg.2 (fun x hx => hsize x (List.mem_cons_of_mem _ hx)) (by omega)
            (by omega : C.length < k) with ⟨A, c, C', rfl, hc, hle, hscan⟩ | ⟨hnone, hscan⟩
        · refine .inl ⟨b :: A, c, C', rfl, hc, hle, ?_⟩
          rw [hscan, total_cons, Nat.add_assoc]
        · refine .inr ⟨fun x hx hfree => ?_, hscan⟩
          rcases List.mem_cons.mp hx with rfl | hx
          · by_contra hge
            refine hfit ⟨?_, by omega⟩
            rw [hseg.1.used, hfree]
            rfl
          · exact hnone x hx hfree
    · -- No block from here on is as big as the rest of the heap would have to be.
      rw [if_neg hlt]
      refine .inr ⟨fun x hx _ => ?_, rfl⟩
      have hx' := size_le_total hx
      rw [total_cons] at hx'
      omega

/-- The loop ends at the first free block or at the end of the heap. -/
theorem lfreeLoop_eq (hseg : Seg m p q C) (hsize : ∀ b ∈ C, SIZEOF_STRUCT_MEM ≤ b.size)
    (he : p + total C = MEM_SIZE_ALIGNED) (hn : C.length < n) :
    lfreeLoop m n p = .ok (lowFree p C) ∧
      (lowFree p C = MEM_SIZE_ALIGNED ∨ used m (lowFree p C) = 0) := by
  have hS := sizeofStructMem_eq
  induction C generalizing p q n with
  | nil =>
    rw [total_nil] at he
    obtain ⟨k, rfl⟩ : ∃ k, n = k + 1 := ⟨n - 1, by simp at hn; omega⟩
    refine ⟨?_, .inl he⟩
    rw [lfreeLoop, if_neg (fun h => h.2 he)]
    rfl
  | cons b C ih =>
    have hb := hsize b List.mem_cons_self
    rw [List.length_cons] at hn
    rw [total_cons] at he
    obtain ⟨k, rfl⟩ : ∃ k, n = k + 1 := ⟨n - 1, by omega⟩
    have hused := hseg.1.used
    rw [lfreeLoop, lowFree, hused]
    cases hu : b.used with
    | true =>
      rw [if_pos rfl, if_pos ⟨by decide, by omega⟩, hseg.1.next, if_pos rfl]
      exact ih hseg.2 (fun x hx => hsize x (List.mem_cons_of_mem _ hx)) (by omega) (by omega)
    | false =>
      rw [hu] at hused
      rw [if_neg (fun h => h.1 rfl), if_neg Bool.false_ne_true]
      exact ⟨rfl, .inr hused⟩

end Scan

/-! ## The block that is taken -/

/-- What becomes of a free block of the length `n` when `s` octets of it are taken. -/
def taken (n s : ℕ) : List Block :=
  if SIZEOF_STRUCT_MEM + s + (SIZEOF_STRUCT_MEM + MIN_SIZE_ALIGNED) ≤ n then
    [⟨SIZEOF_STRUCT_MEM + s, true⟩, ⟨n - (SIZEOF_STRUCT_MEM + s), false⟩]
  else [⟨n, true⟩]

section Taken

variable {m : Ram} {A C : List Block} {n s : ℕ}

/-- The two parts of a block have its room. -/
theorem total_taken (h : SIZEOF_STRUCT_MEM + s ≤ n) : total (taken n s) = n := by
  unfold taken
  split
  · simp only [total_cons, total_nil]
    omega
  · simp only [total_cons, total_nil]
    omega

/-- The part that is taken has the octets that were asked for. -/
theorem allocs_taken (p : ℕ) (h : SIZEOF_STRUCT_MEM + s ≤ n) :
    ∃ k, s ≤ k ∧ allocs p (taken n s) = [(p + SIZEOF_STRUCT_MEM, k)] := by
  unfold taken
  split
  · exact ⟨SIZEOF_STRUCT_MEM + s - SIZEOF_STRUCT_MEM, by omega, rfl⟩
  · exact ⟨n - SIZEOF_STRUCT_MEM, by omega, rfl⟩

/-- Taking a block keeps the list well formed: its last part is free only if the block behind it is
used. -/
theorem Tiled.take (h : Tiled (A ++ ⟨n, false⟩ :: C)) (hs : SIZEOF_STRUCT_MEM + s ≤ n)
    (hmin : MIN_SIZE_ALIGNED ≤ s) : Tiled (A ++ taken n s ++ C) := by
  obtain ⟨hA, hC, hAC⟩ := List.isChain_append.mp h.merged
  obtain ⟨hhead, hC⟩ := List.isChain_cons.mp hC
  have hn := h.min_size ⟨n, false⟩ (by simp)
  constructor
  · have := h.total_eq
    rw [total_append, total_cons] at this
    rw [total_append, total_append, total_taken hs]
    dsimp only at this
    omega
  · intro b hb
    rw [List.append_assoc] at hb
    rcases List.mem_append.mp hb with hb | hb
    · exact h.min_size b (List.mem_append_left _ hb)
    · rcases List.mem_append.mp hb with hb | hb
      · unfold taken at hb
        split at hb
        · simp only [List.mem_cons, List.not_mem_nil, or_false] at hb
          rcases hb with rfl | rfl
          · dsimp only
            omega
          · dsimp only
            omega
        · rw [List.mem_singleton.mp hb]
          exact hn
      · exact h.min_size b (List.mem_append_right _ (List.mem_cons_of_mem _ hb))
  · rw [List.append_assoc]
    unfold taken
    split
    · refine List.isChain_append.mpr ⟨hA, ?_, fun x _ y hy => ?_⟩
      · exact List.isChain_cons_cons.mpr ⟨.inl rfl, List.isChain_cons.mpr ⟨hhead, hC⟩⟩
      · cases hy
        exact .inr rfl
    · refine List.isChain_append.mpr ⟨hA, ?_, fun x _ y hy => ?_⟩
      · exact List.isChain_cons.mpr ⟨fun y _ => .inl rfl, hC⟩
      · cases hy
        exact .inr rfl

/-- The headers after a block is taken. -/
theorem takeBlock_seg (hseg : Seg m 0 0 (A ++ ⟨n, false⟩ :: C))
    (htiled : Tiled (A ++ ⟨n, false⟩ :: C)) (hs : SIZEOF_STRUCT_MEM + s ≤ n) :
    Seg (takeBlock m (total A) s) 0 0 (A ++ taken n s ++ C) ∧
      used (takeBlock m (total A) s) MEM_SIZE_ALIGNED = used m MEM_SIZE_ALIGNED := by
  have hM := memSizeAligned_eq
  have hS := sizeofStructMem_eq
  have hmin := minSizeAligned_eq
  have hsize := htiled.size_le
  have hA : ∀ b ∈ A, SIZEOF_STRUCT_MEM ≤ b.size := fun b hb => hsize b (List.mem_append_left _ hb)
  have hC : ∀ b ∈ C, SIZEOF_STRUCT_MEM ≤ b.size :=
    fun b hb => hsize b (List.mem_append_right _ (List.mem_cons_of_mem _ hb))
  have htot := htiled.total_eq
  rw [total_append, total_cons] at htot
  dsimp only at htot
  obtain ⟨hsegA, hhdr, hsegC⟩ := seg_append.mp hseg
  rw [Nat.zero_add] at hhdr hsegC
  dsimp only at hhdr hsegC
  rw [List.append_assoc, seg_append, Nat.zero_add]
  have hnext : next m (total A) = total A + n := hhdr.next
  have hsub : sizeTSub (total A + n) (total A + SIZEOF_STRUCT_MEM) = n - SIZEOF_STRUCT_MEM := by
    rw [sizeTSub_eq (by omega) (by omega)]
    omega
  unfold takeBlock taken
  rw [hnext, hsub]
  by_cases hsplit : SIZEOF_STRUCT_MEM + s + (SIZEOF_STRUCT_MEM + MIN_SIZE_ALIGNED) ≤ n
  · rw [if_pos (by omega), if_pos hsplit]
    dsimp only
    have hp2 : u16 (total A + SIZEOF_STRUCT_MEM + s) = total A + SIZEOF_STRUCT_MEM + s := by
      rw [u16]
      omega
    rw [hp2]
    -- `mem2` is linked in, `mem` is marked, and the blocks behind are linked back.
    have hle : total A + SIZEOF_STRUCT_MEM ≤ total A + SIZEOF_STRUCT_MEM + s := by omega
    obtain ⟨hh, hh2⟩ := linkMem_hdr hhdr hle (by omega : total A + n < 2^16) (by omega)
    have hagree : ∀ i j, total A + n ≤ i ∨ j ≤ total A →
        AgreeOn m (setUsed (linkMem m (total A) (total A + SIZEOF_STRUCT_MEM + s) (total A + n))
          (total A) 1) i j :=
      fun i j hij => (agreeOn_linkMem (by omega) (by omega)).trans (agreeOn_setUsed (by omega))
    obtain ⟨hlink, hlow, hend⟩ := linkBack_seg (hh.setUsed true)
      (hh2.congr (agreeOn_setUsed (.inl (by omega))))
      (hsegC.congr hC (hagree _ _ (.inl le_rfl))) hC (by omega) (by omega) (by omega)
    refine ⟨⟨hsegA.congr hA ?_, ?_⟩, ?_⟩
    · rw [Nat.zero_add]
      exact (hagree 0 _ (.inr le_rfl)).trans (hlow.mono le_rfl (by omega))
    · have hb : total A + SIZEOF_STRUCT_MEM + s - total A = SIZEOF_STRUCT_MEM + s := by omega
      have hr : total A + n - (total A + SIZEOF_STRUCT_MEM + s) = n - (SIZEOF_STRUCT_MEM + s) := by
        omega
      rw [hb, hr] at hlink
      exact hlink
    · exact hend.trans (used_congr (hagree _ _ (.inl (by omega))))
  · rw [if_neg (by omega), if_neg hsplit]
    refine ⟨⟨hsegA.congr hA (agreeOn_setUsed (.inr (by omega))), hhdr.setUsed true, ?_⟩, ?_⟩
    · exact hsegC.congr hC (agreeOn_setUsed (.inl (by omega)))
    · exact used_congr (agreeOn_setUsed (.inl (by omega)))

end Taken

/-- `lfree` when a block is taken out of the free ones: it goes on from that block, or stays where
it was. -/
theorem updateLfree_eq {m : Ram} {A C X : List Block} {b : Block} {q : ℕ}
    (hpos : ∀ x ∈ A, 0 < x.size) (hb : b.used = false) (hX : Seg m (total A) q (X ++ C))
    (hsize : ∀ x ∈ X ++ C, SIZEOF_STRUCT_MEM ≤ x.size)
    (htot : total A + total (X ++ C) = MEM_SIZE_ALIGNED) :
    updateLfree m (lowFree 0 (A ++ b :: C)) (total A) = .ok (lowFree 0 (A ++ (X ++ C))) := by
  have hfuel : (X ++ C).length < rounds := by
    have := length_le_total hsize
    rw [rounds]
    omega
  rw [updateLfree, lowFree_append, lowFree_append, Nat.zero_add, lowFree, hb,
    if_neg Bool.false_ne_true]
  cases hall : A.all Block.used with
  | true =>
    obtain ⟨hloop, hend⟩ := lfreeLoop_eq hX hsize htot hfuel
    rw [if_pos rfl, if_pos rfl, if_pos rfl, hloop]
    change (lwipAssert _ _ >>= fun _ => _) = _
    rw [(lwipAssert_eq_ok (u := ())).mpr hend]
    rfl
  | false =>
    have hlt := lowFree_lt (p := 0) hpos hall
    rw [Nat.zero_add] at hlt
    rw [if_neg Bool.false_ne_true, if_neg Bool.false_ne_true, if_neg (by omega)]

/-- `mem_malloc` takes a free block that is big enough, or there is none. -/
theorem memMalloc_cases {h : Heap} {l : List Block} {size : ℕ} (hl : Layout h l)
    (hsize : size < 2^16) :
    (∃ h' A n C, l = A ++ ⟨n, false⟩ :: C ∧ SIZEOF_STRUCT_MEM + max size MIN_SIZE_ALIGNED ≤ n ∧
      memMalloc h size = .ok (h', some (total A + SIZEOF_STRUCT_MEM)) ∧
      Layout h' (A ++ taken n (max size MIN_SIZE_ALIGNED) ++ C)) ∨
    (memMalloc h size = .ok (h, none) ∧
      (size ≠ 0 → ∀ b ∈ l, b.used = false → b.size < SIZEOF_STRUCT_MEM + size)) := by
  have hM := memSizeAligned_eq
  have hmin := minSizeAligned_eq
  have hfuel : l.length < rounds := by
    have := length_le_total hl.tiled.size_le
    rw [hl.tiled.total_eq] at this
    rw [rounds]
    omega
  -- A free block that is too small for the smallest block there is would be too small for itself.
  have hsmall : ∀ b ∈ l, b.size < SIZEOF_STRUCT_MEM + max size MIN_SIZE_ALIGNED →
      b.size < SIZEOF_STRUCT_MEM + size := by
    intro b hb hlt
    have := hl.tiled.min_size b hb
    omega
  rw [memMalloc, blockSize_eq hsize]
  by_cases h0 : size = 0
  · rw [if_pos h0]
    exact .inr ⟨rfl, fun hne => absurd h0 hne⟩
  · rw [if_neg h0]
    dsimp only
    generalize hs : max size MIN_SIZE_ALIGNED = s at hsmall ⊢
    by_cases hbig : MEM_SIZE_ALIGNED < s
    · rw [if_pos hbig]
      refine .inr ⟨rfl, fun _ b hb _ => hsmall b hb ?_⟩
      have := size_le_total hb
      rw [hl.tiled.total_eq] at this
      omega
    · rw [if_neg hbig]
      have hmins : MIN_SIZE_ALIGNED ≤ s := by omega
      obtain ⟨A₀, C₀, rfl, hA₀, hlow⟩ := exists_lowFree_eq 0 l
      rw [Nat.zero_add] at hlow
      have hseg := (seg_append.mp hl.linked).2
      have htot := hl.tiled.total_eq
      rw [Nat.zero_add] at hseg
      rw [total_append] at htot
      rw [hl.lfree, hlow]
      have hC₀ : ∀ b ∈ C₀, SIZEOF_STRUCT_MEM ≤ b.size :=
        fun b hb => hl.tiled.size_le b (List.mem_append_right _ hb)
      rcases mallocScan_eq hseg hC₀ htot (by omega : 0 < s) (lt_of_le_of_lt (by simp) hfuel)
        with ⟨A₁, ⟨n, u⟩, C, rfl, hfree, hfit, hscan⟩ | ⟨hnone, hscan⟩
      · -- The block is found at `total (A₀ ++ A₁)`.
        dsimp only at hfree hfit
        subst hfree
        have hassoc : A₀ ++ (A₁ ++ ⟨n, false⟩ :: C) = (A₀ ++ A₁) ++ ⟨n, false⟩ :: C :=
          (List.append_assoc _ _ _).symm
        have hptr : total A₀ + total A₁ = total (A₀ ++ A₁) := (total_append _ _).symm
        rw [hptr] at hscan
        rw [hassoc] at hl hlow ⊢
        generalize A₀ ++ A₁ = A at hl hlow hscan ⊢
        have htiled := hl.tiled.take hfit hmins
        obtain ⟨hseg', hend⟩ := takeBlock_seg hl.linked hl.tiled hfit
        have hlfree := updateLfree_eq (X := taken n s) (b := ⟨n, false⟩)
          (fun x hx => lt_of_lt_of_le (by decide)
            (hl.tiled.size_le x (List.mem_append_left _ hx))) rfl
          (by
            have := hseg'
            rw [List.append_assoc] at this
            exact (Nat.zero_add (total A)) ▸ (seg_append.mp this).2)
          (fun x hx => htiled.size_le x (by
            rw [List.append_assoc]
            exact List.mem_append_right _ hx))
          (by
            have := htiled.total_eq
            rwa [List.append_assoc, total_append] at this)
        rw [hlow, ← List.append_assoc] at hlfree
        have habove : total A + SIZEOF_STRUCT_MEM + s ≤ MEM_SIZE_ALIGNED := by
          have := hl.tiled.total_eq
          rw [total_append, total_cons] at this
          dsimp only at this
          omega
        refine .inl ⟨⟨takeBlock h.ram (total A) s, lowFree 0 (A ++ taken n s ++ C)⟩, A, n, C, rfl,
          hfit, ?_, htiled, hseg', hend.trans hl.end_used, rfl⟩
        rw [hscan]
        change (updateLfree _ _ _ >>= fun lfree => _) = _
        rw [hlfree]
        change (lwipAssert _ _ >>= fun _ => _) = _
        rw [(lwipAssert_eq_ok (u := ())).mpr habove, (lwipAssert_eq_ok (u := ())).mpr (aligned _),
          (lwipAssert_eq_ok (u := ())).mpr (aligned _)]
        rfl
      · rw [hscan]
        refine .inr ⟨rfl, fun _ b hb hfree => hsmall b hb ?_⟩
        rcases List.mem_append.mp hb with hb | hb
        · rw [hA₀ b hb] at hfree
          cases hfree
        · exact hnone b hb hfree

end Lwip.Mem
