import Lwip.Mem.Program
import Lwip.Pbuf.Heap

/-!
# The sizes that are asked for

`mem_calloc`, and `pbuf_alloc` of a `PBUF_RAM` as far as the heap has a part in it. Both hand an
`int` to `mem_malloc`, whose parameter is a `mem_size_t` of 16 bits here, so a sum or a product from
`2^16` on is reduced first. The block is big enough exactly when nothing was reduced, or there is no
block (`no_short_allocation`).
-/

namespace Lwip.Mem

open Pbuf (PbufLayer SIZEOF_STRUCT_PBUF)

/-- `memset(p, 0, n)`. -/
def memsetZero (m : Ram) (p n : ℕ) : Ram := fun i => if p ≤ i ∧ i < p + n then 0 else m i

/-- `mem_calloc(count, size)`. The conversion of the product concerns `mem_malloc` only. -/
def memCalloc (h : Heap) (count size : ℕ) : Except Abort (Heap × Option ℕ) := do
  -- allocate 'count' objects of size 'size'
  let (h, p) ← memMalloc h (u16 (count * size))
  match p with
  | none => .ok (h, none)
  | some p => .ok ({ h with ram := memsetZero h.ram p (count * size) }, some p)

/-- What `pbuf_alloc` asks for, before the conversion. -/
def pbufRamSize (layer : PbufLayer) (length : ℕ) : ℕ :=
  memAlignSize (SIZEOF_STRUCT_PBUF + layer.offset) + memAlignSize length

/-- `pbuf_alloc(layer, length, PBUF_RAM)`, before the fields of the new pbuf are assigned. -/
def pbufAllocRam (h : Heap) (layer : PbufLayer) (length : ℕ) : Except Abort (Heap × Option ℕ) :=
  memMalloc h (u16 (pbufRamSize layer length))

/-- The octets of the block at `rmem`, up to the next `struct mem`. -/
def blockRoom (h : Heap) (rmem : ℕ) : ℕ := next h.ram (rmem - SIZEOF_STRUCT_MEM) - rmem

/-- A block that a call returns holds `need` octets. -/
def Holds (need : ℕ) (x : Except Abort (Heap × Option ℕ)) : Prop :=
  ∀ h' p, x = .ok (h', some p) → need ≤ blockRoom h' p

/-- No block can be had for the size: it is zero, or all free blocks are smaller. -/
def NoRoom (l : List Block) (size : ℕ) : Prop :=
  size = 0 ∨ ∀ b ∈ l, b.used = false → b.size < SIZEOF_STRUCT_MEM + size

section Request

variable {h h' : Heap} {l : List Block} {size p : ℕ}

/-- A request for nothing gets nothing. -/
theorem memMalloc_zero (h : Heap) : memMalloc h 0 = .ok (h, none) := rfl

/-- `mem_malloc` of what there is no room for. -/
theorem memMalloc_eq_none (hl : Layout h l) (hsize : size < 2^16) (hn : NoRoom l size) :
    memMalloc h size = .ok (h, none) := by
  rcases hn with rfl | hn
  · exact memMalloc_zero h
  · obtain ⟨h', A, n, C, rfl, hfit, -⟩ | ⟨hnone, -⟩ := memMalloc_cases hl hsize
    · have hlt := hn ⟨n, false⟩ (by simp) rfl
      have hle := le_max_left size MIN_SIZE_ALIGNED
      dsimp only at hlt
      omega
    · exact hnone

/-- `mem_malloc` of what there is room for: the block holds what was asked for, and is within the
heap. -/
theorem memMalloc_eq_some (hl : Layout h l) (hsize : size < 2^16) (hn : ¬ NoRoom l size) :
    ∃ h' p, memMalloc h size = .ok (h', some p) ∧ SIZEOF_STRUCT_MEM ≤ p ∧ size ≤ blockRoom h' p ∧
      blockRoom h' p < MEM_SIZE_ALIGNED := by
  obtain ⟨h', A, n, C, rfl, hfit, hcall, hl'⟩ | ⟨-, hfull⟩ := memMalloc_cases hl hsize
  · refine ⟨h', _, hcall, Nat.le_add_left _ _, ?_⟩
    have hS := sizeofStructMem_eq
    have htotal := hl.tiled.total_eq
    rw [total_append, total_cons] at htotal
    dsimp only at htotal
    have hle := le_max_left size MIN_SIZE_ALIGNED
    set s := max size MIN_SIZE_ALIGNED
    -- The first of the blocks that the free one became.
    obtain ⟨k, X, htaken, hk, hkn⟩ : ∃ k X, taken n s = ⟨k, true⟩ :: X ∧
        SIZEOF_STRUCT_MEM + s ≤ k ∧ k ≤ n := by
      unfold taken
      split
      · exact ⟨_, _, rfl, Nat.le_refl _, by omega⟩
      · exact ⟨_, _, rfl, hfit, Nat.le_refl _⟩
    have hseg := hl'.linked
    rw [htaken, List.append_assoc, seg_append, Nat.zero_add] at hseg
    have hnext : next h'.ram (total A) = total A + k := hseg.2.1.next
    unfold blockRoom
    rw [Nat.add_sub_cancel, hnext]
    omega
  · exact absurd (or_iff_not_imp_left.mpr hfull) hn

/-- A call that hands `need` to `mem_malloc` and leaves the header of the new block as it is. -/
theorem holds_iff {need : ℕ} {x : Except Abort (Heap × Option ℕ)} (hl : Layout h l)
    (hnone : memMalloc h (u16 need) = .ok (h, none) → x = .ok (h, none))
    (hsome : ∀ h₁ p, memMalloc h (u16 need) = .ok (h₁, some p) →
      ∃ h₂, x = .ok (h₂, some p) ∧ (SIZEOF_STRUCT_MEM ≤ p → blockRoom h₂ p = blockRoom h₁ p)) :
    x.isOk = true ∧ (Holds need x ↔ need < 2^16 ∨ NoRoom l (u16 need)) := by
  have hM := memSizeAligned_eq
  have hlt : u16 need < 2^16 := Nat.mod_lt _ (by decide)
  by_cases hn : NoRoom l (u16 need)
  · rw [hnone (memMalloc_eq_none hl hlt hn)]
    exact ⟨rfl, iff_of_true (fun h' p hp => by cases hp) (.inr hn)⟩
  · obtain ⟨h₁, p, hcall, hp, hroom, hmax⟩ := memMalloc_eq_some hl hlt hn
    obtain ⟨h₂, hx, hsame⟩ := hsome h₁ p hcall
    rw [← hsame hp] at hroom hmax
    rw [hx]
    refine ⟨rfl, fun hholds => ?_, fun hor h' p' heq => ?_⟩
    · -- All of the heap is less than `2^16`.
      have hneed := hholds h₂ p rfl
      exact .inl (by omega)
    · cases heq
      have hfit := hor.resolve_right hn
      rwa [u16, Nat.mod_eq_of_lt hfit] at hroom

/-- A pbuf has room for what was asked if its size does not wrap. -/
theorem pbufAllocRam_holds (hl : Layout h l) (layer : PbufLayer) (length : ℕ) :
    (pbufAllocRam h layer length).isOk = true ∧
      (Holds (SIZEOF_STRUCT_PBUF + layer.offset + length) (pbufAllocRam h layer length) ↔
        SIZEOF_STRUCT_PBUF + layer.offset + length < 2^16 ∨
          NoRoom l (u16 (SIZEOF_STRUCT_PBUF + layer.offset + length))) := by
  have hsum : pbufRamSize layer length = SIZEOF_STRUCT_PBUF + layer.offset + length := by
    unfold pbufRamSize
    rw [memAlignSize_eq, memAlignSize_eq]
  unfold pbufAllocRam
  rw [hsum]
  exact holds_iff hl id fun h₁ p hp => ⟨h₁, hp, fun _ => rfl⟩

/-- `mem_calloc` gives room for what was asked if the product does not wrap. -/
theorem memCalloc_holds (hl : Layout h l) (count size : ℕ) :
    (memCalloc h count size).isOk = true ∧
      (Holds (count * size) (memCalloc h count size) ↔
        count * size < 2^16 ∨ NoRoom l (u16 (count * size))) := by
  have hS := sizeofStructMem_eq
  unfold memCalloc
  refine holds_iff hl (fun hnone => by rw [hnone]; rfl) fun h₁ p hp => ?_
  rw [hp]
  refine ⟨_, rfl, fun hle => ?_⟩
  unfold blockRoom next Ram.get16 memsetZero
  dsimp only
  rw [if_neg (by omega), if_neg (by omega)]

end Request

/-- In every run of a program that frees, shrinks and writes only what it has, neither call stops at
an assertion, and the block it returns is big enough exactly when nothing was reduced or there is
none. -/
theorem no_short_allocation (m : Ram) :
    ∃ h, memInit m = .ok h ∧
      ∀ cs : List Call, Along Program.step Program.Allowed ⟨h, fun _ => none⟩ cs →
        ∃ s l, run Program.step ⟨h, fun _ => none⟩ cs = .ok s ∧ s.Sound l ∧
          (∀ (layer : PbufLayer) (length : ℕ), length < 2^16 →
            (pbufAllocRam s.heap layer length).isOk = true ∧
              (Holds (SIZEOF_STRUCT_PBUF + layer.offset + length)
              (pbufAllocRam s.heap layer length) ↔
                SIZEOF_STRUCT_PBUF + layer.offset + length < 2^16 ∨
                  NoRoom l (u16 (SIZEOF_STRUCT_PBUF + layer.offset + length)))) ∧
          ∀ count size : ℕ, count < 2^16 → size < 2^16 →
            (memCalloc s.heap count size).isOk = true ∧
              (Holds (count * size) (memCalloc s.heap count size) ↔
                count * size < 2^16 ∨ NoRoom l (u16 (count * size))) := by
  obtain ⟨h, hinit, hruns⟩ := run_inv m
  refine ⟨h, hinit, fun cs hcs => ?_⟩
  obtain ⟨s, l, hs, hl⟩ := hruns cs hcs
  exact ⟨s, l, hs, hl.sound, fun layer length _ => pbufAllocRam_holds hl.layout layer length,
    fun count size _ _ => memCalloc_holds hl.layout count size⟩

/-- Requests after a run in which blocks were shrunk and given back. -/
theorem no_short_allocation_reuseRun :
    ∃ h s, memInit zeroRam = .ok h ∧ run Program.step ⟨h, fun _ => none⟩ reuseRun = .ok s ∧
      Holds (SIZEOF_STRUCT_PBUF + PbufLayer.offset .TRANSPORT + 1000)
      (pbufAllocRam s.heap .TRANSPORT 1000) ∧ Holds (100 * 100) (memCalloc s.heap 100 100) := by
  obtain ⟨h, hinit, hruns⟩ := no_short_allocation zeroRam
  have hallowed : Along Program.step Program.Allowed ⟨h, fun _ => none⟩ reuseRun := by
    cases hinit
    decide +kernel
  obtain ⟨s, l, hs, -, halloc, hcalloc⟩ := hruns reuseRun hallowed
  exact ⟨h, s, hinit, hs, (halloc .TRANSPORT 1000 (by decide)).2.mpr (.inl (by decide)),
    (hcalloc 100 100 (by decide) (by decide)).2.mpr (.inl (by decide))⟩

/-- The octets of the block that a call returns. -/
def roomOf : Except Abort (Heap × Option ℕ) → Option ℕ
  | .ok (h, some p) => some (blockRoom h p)
  | _ => none

/-- A block that is too short does not hold what was asked. -/
theorem not_holds {need r : ℕ} {x : Except Abort (Heap × Option ℕ)} (hx : roomOf x = some r)
    (hlt : r < need) : ¬ Holds need x := by
  intro hholds
  match x, hx with
  | .ok (h, some p), hx =>
    have hle := hholds h p rfl
    cases hx
    omega

/-- A `PBUF_RAM` of 65535 bytes is given a block of 23 octets, and 256 objects of 257 octets one of
256. -/
theorem short_blocks :
    ∃ h, memInit zeroRam = .ok h ∧
      roomOf (pbufAllocRam h .RAW 65535) = some 23 ∧
      ¬ Holds (SIZEOF_STRUCT_PBUF + PbufLayer.offset .RAW + 65535) (pbufAllocRam h .RAW 65535) ∧
      roomOf (memCalloc h 256 257) = some 256 ∧ ¬ Holds (256 * 257) (memCalloc h 256 257) := by
  obtain ⟨h, hinit, -⟩ := memInit_layout zeroRam
  have hpbuf : roomOf (pbufAllocRam h .RAW 65535) = some 23 := by
    cases hinit
    decide +kernel
  have hcalloc : roomOf (memCalloc h 256 257) = some 256 := by
    cases hinit
    decide +kernel
  exact ⟨h, hinit, hpbuf, not_holds hpbuf (by decide), hcalloc, not_holds hcalloc (by decide)⟩

end Lwip.Mem
