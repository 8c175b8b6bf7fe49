import Lwip.Arch
import Lwip.Lib.Bytes

/-!
# The heap

`mem_init`, `mem_malloc`, `mem_free`, `mem_realloc` and `plug_holes` of `mem.c`, without the pools
(`MEM_USE_POOLS` is 0) and with the options of `lib_test/lwipopts.h`. The array `ram_heap` is a
memory of octets, and a pointer into it is an offset from `ram`. A `struct mem` is the octets at its
offset, so that headers which overlap would overwrite each other. `ram_end` is the offset
`MEM_SIZE_ALIGNED`.

The loops take a bound on the number of their rounds, and stop with an error of their own when it is
used up. The semaphore and the statistics are left out.
-/

namespace Lwip.Mem

/-- `MEM_ALIGNMENT`. -/
def MEM_ALIGNMENT : ℕ := 1

/-- `LWIP_MEM_ALIGN_SIZE(size)`: the next multiple of the alignment. -/
def memAlignSize (size : ℕ) : ℕ := (size + MEM_ALIGNMENT - 1) / MEM_ALIGNMENT * MEM_ALIGNMENT

/-- `MEM_SIZE_ALIGNED`, for `MEM_SIZE` 16000. -/
def MEM_SIZE_ALIGNED : ℕ := memAlignSize 16000

/-- `SIZEOF_STRUCT_MEM`: two `mem_size_t`, a `u8_t` and an octet of padding. -/
def SIZEOF_STRUCT_MEM : ℕ := memAlignSize 6

/-- `MIN_SIZE_ALIGNED`, for `MIN_SIZE` 12. -/
def MIN_SIZE_ALIGNED : ℕ := memAlignSize 12

/-- The assertions of `mem.c`. -/
inductive Abort where
  /-- `plug_holes: mem >= ram`. The header is read before, so the model stops there. -/
  | memBelowRam
  /-- `plug_holes: mem < ram_end` -/
  | plugMemNotBelowEnd
  /-- `plug_holes: mem->used == 0` -/
  | plugMemUsed
  /-- `plug_holes: mem->next <= MEM_SIZE_ALIGNED` -/
  | plugNextAboveEnd
  /-- `Sanity check alignment` -/
  | sanityCheckAlignment
  /-- `mem_free: sanity check alignment` -/
  | freeNotAligned
  /-- `mem_free: legal memory` -/
  | freeIllegalMemory
  /-- `mem_free: mem->used` -/
  | freeNotUsed
  /-- `mem_realloc: legal memory` -/
  | reallocIllegalMemory
  /-- `mem_realloc can only shrink memory` -/
  | reallocNotShrinking
  /-- `mem_malloc: !lfree->used` -/
  | lfreeUsed
  /-- `mem_malloc: allocated memory not above ram_end.` -/
  | mallocAboveEnd
  /-- `mem_malloc: allocated memory properly aligned.` and `mem_malloc: sanity check alignment` -/
  | mallocNotAligned
  /-- Not an assertion: a loop does not end. -/
  | loopDoesNotEnd
  deriving DecidableEq, Repr

/-- The global variables of `mem.c`. -/
structure Heap where
  /-- `ram`. -/
  ram : Ram
  /-- `lfree`. -/
  lfree : ℕ

/-! ## The fields of a `struct mem` -/

/-- `mem->next`. -/
def next (m : Ram) (mem : ℕ) : ℕ := m.get16 mem

/-- `mem->prev`. -/
def prev (m : Ram) (mem : ℕ) : ℕ := m.get16 (mem + 2)

/-- `mem->used`. -/
def used (m : Ram) (mem : ℕ) : UInt8 := m (mem + 4)

/-- `mem->next = v`. -/
def setNext (m : Ram) (mem v : ℕ) : Ram := m.set16 mem v

/-- `mem->prev = v`. -/
def setPrev (m : Ram) (mem v : ℕ) : Ram := m.set16 (mem + 2) v

/-- `mem->used = v`. -/
def setUsed (m : Ram) (mem : ℕ) (v : UInt8) : Ram := m.set (mem + 4) v

/-- The difference of two unsigned numbers of the type of `sizeof`. -/
def sizeTSub (a b : ℕ) : ℕ := (a + (2^64 - b % 2^64)) % 2^64

/-! ## The functions -/

/-- `mem_init()`, on an array with any content. -/
def memInit (m : Ram) : Except Abort Heap := do
  lwipAssert .sanityCheckAlignment (SIZEOF_STRUCT_MEM % MEM_ALIGNMENT = 0)
  let m := setUsed (setPrev (setNext m 0 MEM_SIZE_ALIGNED) 0 0) 0 0
  let m := setUsed m MEM_SIZE_ALIGNED 1
  let m := setPrev (setNext m MEM_SIZE_ALIGNED MEM_SIZE_ALIGNED) MEM_SIZE_ALIGNED MEM_SIZE_ALIGNED
  .ok ⟨m, 0⟩

/-- Plugging a hole forward. -/
def plugForward (h : Heap) (mem : ℕ) : Heap :=
  let nmem := next h.ram mem
  if mem ≠ nmem ∧ used h.ram nmem = 0 ∧ nmem ≠ MEM_SIZE_ALIGNED then
    let m := setNext h.ram mem (next h.ram nmem)
    ⟨setPrev m (next m nmem) mem, if h.lfree = nmem then mem else h.lfree⟩
  else h

/-- Plugging a hole backward. -/
def plugBackward (h : Heap) (mem : ℕ) : Heap :=
  let pmem := prev h.ram mem
  if pmem ≠ mem ∧ used h.ram pmem = 0 then
    let m := setNext h.ram pmem (next h.ram mem)
    ⟨setPrev m (next m mem) pmem, if h.lfree = mem then pmem else h.lfree⟩
  else h

/-- `plug_holes(mem)`. -/
def plugHoles (h : Heap) (mem : ℕ) : Except Abort Heap := do
  lwipAssert .plugMemNotBelowEnd (mem < MEM_SIZE_ALIGNED)
  lwipAssert .plugMemUsed (used h.ram mem = 0)
  lwipAssert .plugNextAboveEnd (next h.ram mem ≤ MEM_SIZE_ALIGNED)
  .ok (plugBackward (plugForward h mem) mem)

/-- `mem_free(rmem)`, with `none` for `NULL`. -/
def memFree (h : Heap) : Option ℕ → Except Abort Heap
  | none => .ok h
  | some rmem => do
    lwipAssert .freeNotAligned (rmem % MEM_ALIGNMENT = 0)
    lwipAssert .freeIllegalMemory (rmem < MEM_SIZE_ALIGNED)
    lwipAssert .memBelowRam (SIZEOF_STRUCT_MEM ≤ rmem)
    let mem := rmem - SIZEOF_STRUCT_MEM
    lwipAssert .freeNotUsed (used h.ram mem ≠ 0)
    plugHoles ⟨setUsed h.ram mem 0, if mem < h.lfree then mem else h.lfree⟩ mem

/-- A free `struct mem` at `ptr2` is linked between `ptr` and `next`, as far as the two of them go:
the same statements in `mem_malloc` and, twice, in `mem_realloc`. -/
def linkMem (m : Ram) (ptr ptr2 next : ℕ) : Ram :=
  setNext (setPrev (setNext (setUsed m ptr2 0) ptr2 next) ptr2 ptr) ptr ptr2

/-- `if (mem2->next != MEM_SIZE_ALIGNED)`, the `struct mem` behind `ptr2` is linked back to it. -/
def linkBack (m : Ram) (ptr2 : ℕ) : Ram :=
  if next m ptr2 ≠ MEM_SIZE_ALIGNED then setPrev m (next m ptr2) ptr2 else m

/-- The requested size, aligned and not too small, as `mem_malloc` and `mem_realloc` start with. -/
def blockSize (size : ℕ) : ℕ := max (u16 (memAlignSize size)) MIN_SIZE_ALIGNED

/-- `mem_realloc(rmem, newsize)`, with `none` for the result `NULL`. -/
def memRealloc (h : Heap) (rmem newsize : ℕ) : Except Abort (Heap × Option ℕ) :=
  let newsize := blockSize newsize
  if MEM_SIZE_ALIGNED < newsize then .ok (h, none)
  else do
    lwipAssert .reallocIllegalMemory (rmem < MEM_SIZE_ALIGNED)
    lwipAssert .memBelowRam (SIZEOF_STRUCT_MEM ≤ rmem)
    let ptr := rmem - SIZEOF_STRUCT_MEM
    let size := u16 (sizeTSub (next h.ram ptr) (ptr + SIZEOF_STRUCT_MEM))
    lwipAssert .reallocNotShrinking (newsize ≤ size)
    let mem2 := next h.ram ptr
    let ptr2 := u16 (ptr + SIZEOF_STRUCT_MEM + newsize)
    .ok (if newsize = size then h
      else if used h.ram mem2 = 0 then
        -- The next struct is unused and is moved.
        ⟨linkBack (linkMem h.ram ptr ptr2 (next h.ram mem2)) ptr2,
          if h.lfree = mem2 then ptr2 else h.lfree⟩
      else if newsize + SIZEOF_STRUCT_MEM + MIN_SIZE_ALIGNED ≤ size then
        -- There is room for a new one.
        ⟨linkBack (linkMem h.ram ptr ptr2 (next h.ram ptr)) ptr2,
          if ptr2 < h.lfree then ptr2 else h.lfree⟩
      else h, some rmem)

/-- The scan of `mem_malloc` for a free block that is big enough, from `ptr` on. -/
def mallocScan (m : Ram) (size : ℕ) : ℕ → ℕ → Except Abort (Option ℕ)
  | 0, _ => .error .loopDoesNotEnd
  | n + 1, ptr =>
    if ptr < MEM_SIZE_ALIGNED - size then
      if used m ptr = 0 ∧ size ≤ sizeTSub (next m ptr) (ptr + SIZEOF_STRUCT_MEM) then .ok (some ptr)
      else mallocScan m size n (next m ptr)
    else .ok none

/-- The block at `ptr` is taken, and split when the rest is big enough. -/
def takeBlock (m : Ram) (ptr size : ℕ) : Ram :=
  if size + SIZEOF_STRUCT_MEM + MIN_SIZE_ALIGNED ≤
      sizeTSub (next m ptr) (ptr + SIZEOF_STRUCT_MEM) then
    let ptr2 := u16 (ptr + SIZEOF_STRUCT_MEM + size)
    linkBack (setUsed (linkMem m ptr ptr2 (next m ptr)) ptr 1) ptr2
  else setUsed m ptr 1

/-- The loop that looks for the next free block after the one `lfree` was at. -/
def lfreeLoop (m : Ram) : ℕ → ℕ → Except Abort ℕ
  | 0, _ => .error .loopDoesNotEnd
  | n + 1, lfree =>
    if used m lfree ≠ 0 ∧ lfree ≠ MEM_SIZE_ALIGNED then lfreeLoop m n (next m lfree)
    else .ok lfree

/-- A bound on the rounds of the two loops: no more than one for each octet. -/
def rounds : ℕ := MEM_SIZE_ALIGNED + 1

/-- `lfree` after the block at `mem` is taken. -/
def updateLfree (m : Ram) (lfree mem : ℕ) : Except Abort ℕ :=
  if mem = lfree then do
    let lfree ← lfreeLoop m rounds lfree
    lwipAssert .lfreeUsed (lfree = MEM_SIZE_ALIGNED ∨ used m lfree = 0)
    .ok lfree
  else .ok lfree

/-- `mem_malloc(size)`, with `none` for the result `NULL`. -/
def memMalloc (h : Heap) (size : ℕ) : Except Abort (Heap × Option ℕ) :=
  if size = 0 then .ok (h, none)
  else
    let size := blockSize size
    if MEM_SIZE_ALIGNED < size then .ok (h, none)
    else
      mallocScan h.ram size rounds h.lfree >>= fun found =>
      match found with
      | none => .ok (h, none)
      | some ptr => do
        let m := takeBlock h.ram ptr size
        let lfree ← updateLfree m h.lfree ptr
        lwipAssert .mallocAboveEnd (ptr + SIZEOF_STRUCT_MEM + size ≤ MEM_SIZE_ALIGNED)
        lwipAssert .mallocNotAligned ((ptr + SIZEOF_STRUCT_MEM) % MEM_ALIGNMENT = 0)
        lwipAssert .mallocNotAligned (ptr % MEM_ALIGNMENT = 0)
        .ok (⟨m, lfree⟩, some (ptr + SIZEOF_STRUCT_MEM))

end Lwip.Mem
