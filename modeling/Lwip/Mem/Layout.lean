import Lwip.Mem.Blocks

/-!
# The headers of the blocks

`Seg m p q l` says that the memory has the headers of the blocks `l` from the offset `p` on, linked
by `next` and `prev`, with `q` as the `prev` of the first one. A write to the fields of a header
outside of the list leaves it alone. `Layout` is what the heap satisfies between two calls.
-/

namespace Lwip.Mem

open Ram (AgreeOn)

/-- The heap has 16000 octets. -/
theorem memSizeAligned_eq : MEM_SIZE_ALIGNED = 16000 := rfl

/-- A `struct mem` has 6 octets. -/
theorem sizeofStructMem_eq : SIZEOF_STRUCT_MEM = 6 := rfl

/-- The smallest block has 12 octets. -/
theorem minSizeAligned_eq : MIN_SIZE_ALIGNED = 12 := rfl

/-- The fields of the `struct mem` at `p`. -/
structure Hdr (m : Ram) (p n q : ℕ) (u : Bool) : Prop where
  next : next m p = n
  prev : prev m p = q
  used : used m p = if u then 1 else 0

/-- The headers of the blocks `l`, from `p` on. -/
def Seg (m : Ram) (p q : ℕ) : List Block → Prop
  | [] => True
  | b :: l => Hdr m p (p + b.size) q b.used ∧ Seg m (p + b.size) p l

/-- The start of the last block of a list that starts at `p`, or `q` for the empty list. -/
def lastStart (p q : ℕ) : List Block → ℕ
  | [] => q
  | b :: l => lastStart (p + b.size) p l

/-- The last block of a list with one more. -/
theorem lastStart_concat (p q : ℕ) (l : List Block) (b : Block) :
    lastStart p q (l ++ [b]) = p + total l := by
  induction l generalizing p q with
  | nil => rfl
  | cons c l ih =>
    rw [List.cons_append, lastStart, ih, total_cons]
    omega

/-- The headers of two lists of blocks. -/
theorem seg_append {m : Ram} {p q : ℕ} {A C : List Block} :
    Seg m p q (A ++ C) ↔ Seg m p q A ∧ Seg m (p + total A) (lastStart p q A) C := by
  induction A generalizing p q with
  | nil => exact ⟨fun h => ⟨trivial, h⟩, And.right⟩
  | cons b A ih => rw [List.cons_append, Seg, ih, Seg, total_cons, Nat.add_assoc, and_assoc]; rfl

/-! ## Writes -/

section Writes

variable {m m' : Ram} {p n q v i j : ℕ} {u : Bool}

/-- An assignment to `next` changes the header only. -/
theorem agreeOn_setNext (h : p + SIZEOF_STRUCT_MEM ≤ i ∨ j ≤ p) : AgreeOn m (setNext m p v) i j :=
  (AgreeOn.refl m i j).set16 (by rw [sizeofStructMem_eq] at h; omega)

/-- An assignment to `prev` changes the header only. -/
theorem agreeOn_setPrev (h : p + SIZEOF_STRUCT_MEM ≤ i ∨ j ≤ p) : AgreeOn m (setPrev m p v) i j :=
  (AgreeOn.refl m i j).set16 (by rw [sizeofStructMem_eq] at h; omega)

/-- An assignment to `used` changes the header only. -/
theorem agreeOn_setUsed {w : UInt8} (h : p + SIZEOF_STRUCT_MEM ≤ i ∨ j ≤ p) :
    AgreeOn m (setUsed m p w) i j :=
  (AgreeOn.refl m i j).set (by rw [sizeofStructMem_eq] at h; omega)

/-- A header outside of the octets that changed. -/
theorem Hdr.congr (h : Hdr m p n q u) (ha : AgreeOn m m' p (p + SIZEOF_STRUCT_MEM)) :
    Hdr m' p n q u := by
  rw [sizeofStructMem_eq] at ha
  exact ⟨(ha.get16_eq (by omega) (by omega)).symm.trans h.next,
    (ha.get16_eq (by omega) (by omega)).symm.trans h.prev,
    (ha _ (by omega) (by omega)).symm.trans h.used⟩

/-- What is read as `used` is in the header. -/
theorem used_congr (ha : AgreeOn m m' p (p + SIZEOF_STRUCT_MEM)) : used m' p = used m p := by
  rw [sizeofStructMem_eq] at ha
  exact (ha _ (by omega) (by omega)).symm

/-- The `next` that was assigned is read. -/
@[simp] theorem next_setNext_self (hv : v < 2^16) : next (setNext m p v) p = v :=
  Ram.get16_set16 m p hv

/-- An assignment to `next` leaves `prev` alone. -/
@[simp] theorem prev_setNext_self : prev (setNext m p v) p = prev m p :=
  (((AgreeOn.refl m (p + 2) (p + 4)).set16 (.inl le_rfl)).get16_eq le_rfl le_rfl).symm

/-- An assignment to `next` leaves `used` alone. -/
@[simp] theorem used_setNext_self : used (setNext m p v) p = used m p :=
  Ram.set16_of_ne (by omega) (by omega)

/-- An assignment to `prev` leaves `next` alone. -/
@[simp] theorem next_setPrev_self : next (setPrev m p v) p = next m p :=
  (((AgreeOn.refl m p (p + 2)).set16 (.inr le_rfl)).get16_eq le_rfl le_rfl).symm

/-- The `prev` that was assigned is read. -/
@[simp] theorem prev_setPrev_self (hv : v < 2^16) : prev (setPrev m p v) p = v :=
  Ram.get16_set16 m (p + 2) hv

/-- An assignment to `prev` leaves `used` alone. -/
@[simp] theorem used_setPrev_self : used (setPrev m p v) p = used m p :=
  Ram.set16_of_ne (by omega) (by omega)

/-- An assignment to `used` leaves `next` alone. -/
@[simp] theorem next_setUsed_self {w : UInt8} : next (setUsed m p w) p = next m p :=
  (((AgreeOn.refl m p (p + 2)).set (.inr (by omega))).get16_eq le_rfl le_rfl).symm

/-- An assignment to `used` leaves `prev` alone. -/
@[simp] theorem prev_setUsed_self {w : UInt8} : prev (setUsed m p w) p = prev m p :=
  (((AgreeOn.refl m (p + 2) (p + 4)).set (.inr le_rfl)).get16_eq le_rfl le_rfl).symm

/-- The `used` that was assigned is read. -/
@[simp] theorem used_setUsed_self {w : UInt8} : used (setUsed m p w) p = w := Ram.set_self _ _ _

/-- A header with another `next`. -/
theorem Hdr.setNext (h : Hdr m p n q u) (hv : v < 2^16) : Hdr (setNext m p v) p v q u :=
  ⟨next_setNext_self hv, prev_setNext_self.trans h.prev, used_setNext_self.trans h.used⟩

/-- A header with another `prev`. -/
theorem Hdr.setPrev (h : Hdr m p n q u) (hv : v < 2^16) : Hdr (setPrev m p v) p n v u :=
  ⟨next_setPrev_self.trans h.next, prev_setPrev_self hv, used_setPrev_self.trans h.used⟩

/-- A header with another `used`. -/
theorem Hdr.setUsed (h : Hdr m p n q u) (u' : Bool) :
    Hdr (setUsed m p (if u' then 1 else 0)) p n q u' :=
  ⟨next_setUsed_self.trans h.next, prev_setUsed_self.trans h.prev, used_setUsed_self⟩

/-- A list of blocks outside of the octets that changed. -/
theorem Seg.congr {l : List Block} (h : Seg m p q l)
    (hsize : ∀ b ∈ l, SIZEOF_STRUCT_MEM ≤ b.size) (ha : AgreeOn m m' p (p + total l)) :
    Seg m' p q l := by
  induction l generalizing p q with
  | nil => trivial
  | cons b l ih =>
    have hb := hsize b List.mem_cons_self
    rw [total_cons] at ha
    exact ⟨h.1.congr (ha.mono le_rfl (by omega)),
      ih h.2 (fun x hx => hsize x (List.mem_cons_of_mem _ hx)) (ha.mono (by omega) (by omega))⟩

/-- The first block of a list gets another `prev`. -/
theorem Seg.setPrev {l : List Block} (h : Seg m p q l)
    (hsize : ∀ b ∈ l, SIZEOF_STRUCT_MEM ≤ b.size) (hv : v < 2^16) : Seg (setPrev m p v) p v l := by
  cases l with
  | nil => trivial
  | cons b l =>
    have hb := hsize b List.mem_cons_self
    exact ⟨h.1.setPrev hv, h.2.congr (fun x hx => hsize x (List.mem_cons_of_mem _ hx))
      (agreeOn_setPrev (.inl (by omega)))⟩

/-- The octet `used` is not part of another field. -/
theorem used_setPrev {r : ℕ} (h : p = r ∨ p + SIZEOF_STRUCT_MEM ≤ r) :
    used (Mem.setPrev m p v) r = used m r := by
  rw [sizeofStructMem_eq] at h
  exact Ram.set16_of_ne (by omega) (by omega)

end Writes

/-! ## A new header -/

section Link

variable {m : Ram} {p q p2 e : ℕ} {u : Bool}

/-- The headers of `mem` and `mem2`. -/
theorem linkMem_hdr {n : ℕ} (h : Hdr m p n q u) (hp : p + SIZEOF_STRUCT_MEM ≤ p2)
    (he : e < 2^16) (hp2 : p2 < 2^16) :
    Hdr (linkMem m p p2 e) p p2 q u ∧ Hdr (linkMem m p p2 e) p2 e p false := by
  constructor
  · have ha : AgreeOn m (setPrev (setNext (setUsed m p2 0) p2 e) p2 p) p (p + SIZEOF_STRUCT_MEM) :=
      ((agreeOn_setUsed (.inr hp)).trans (agreeOn_setNext (.inr hp))).trans
        (agreeOn_setPrev (.inr hp))
    exact (h.congr ha).setNext hp2
  · -- Nothing is known of the octets at `p2` before.
    have h₀ : Hdr (setUsed m p2 0) p2 (next (setUsed m p2 0) p2) (prev (setUsed m p2 0) p2) false :=
      ⟨rfl, rfl, used_setUsed_self⟩
    exact ((h₀.setNext he).setPrev (by omega)).congr (agreeOn_setNext (.inl hp))

/-- The new header and its neighbours are all that changes. -/
theorem agreeOn_linkMem {i j : ℕ} (h : p + SIZEOF_STRUCT_MEM ≤ i ∨ j ≤ p)
    (h2 : p2 + SIZEOF_STRUCT_MEM ≤ i ∨ j ≤ p2) : AgreeOn m (linkMem m p p2 e) i j :=
  (((agreeOn_setUsed h2).trans (agreeOn_setNext h2)).trans (agreeOn_setPrev h2)).trans
    (agreeOn_setNext h)

/-- The blocks behind `mem2` are linked back to it, unless there are none. -/
theorem linkBack_seg {C : List Block} {q' : ℕ} (hp : Hdr m p p2 q u) (hp2 : Hdr m p2 e p false)
    (hC : Seg m e q' C) (hsize : ∀ b ∈ C, SIZEOF_STRUCT_MEM ≤ b.size)
    (hle : p + SIZEOF_STRUCT_MEM ≤ p2) (hle2 : p2 + SIZEOF_STRUCT_MEM ≤ e)
    (he : e + total C = MEM_SIZE_ALIGNED) :
    Seg (linkBack m p2) p q (⟨p2 - p, u⟩ :: ⟨e - p2, false⟩ :: C) ∧
      AgreeOn m (linkBack m p2) 0 e ∧
      used (linkBack m p2) MEM_SIZE_ALIGNED = used m MEM_SIZE_ALIGNED := by
  have hM := memSizeAligned_eq
  have hS := sizeofStructMem_eq
  have hpe : p + (p2 - p) = p2 := by omega
  have hpe2 : p2 + (e - p2) = e := by omega
  rw [linkBack, hp2.next]
  cases C with
  | nil =>
    rw [total_nil] at he
    rw [if_neg (not_not.mpr (by omega))]
    refine ⟨?_, AgreeOn.refl _ _ _, rfl⟩
    rw [Seg, Seg]
    dsimp only
    rw [hpe, hpe2]
    exact ⟨hp, hp2, trivial⟩
  | cons c C =>
    have hc := hsize c List.mem_cons_self
    rw [total_cons] at he
    rw [if_pos (by omega)]
    refine ⟨?_, agreeOn_setPrev (.inr le_rfl), used_setPrev (.inr (by omega))⟩
    rw [Seg, Seg]
    dsimp only
    rw [hpe, hpe2]
    exact ⟨hp.congr (agreeOn_setPrev (.inr (by omega))), hp2.congr (agreeOn_setPrev (.inr hle2)),
      hC.setPrev hsize (by omega)⟩

end Link

/-! ## The heap between two calls -/

/-- The heap `h` has the blocks `l`. -/
structure Layout (h : Heap) (l : List Block) : Prop where
  tiled : Tiled l
  linked : Seg h.ram 0 0 l
  end_used : used h.ram MEM_SIZE_ALIGNED = 1
  lfree : h.lfree = lowFree 0 l

/-- A block has room for its header. -/
theorem Tiled.size_le {l : List Block} (h : Tiled l) : ∀ b ∈ l, SIZEOF_STRUCT_MEM ≤ b.size :=
  fun b hb => (Nat.le_add_right _ _).trans (h.min_size b hb)

/-- `mem_init` makes one free block. -/
theorem memInit_layout (m : Ram) :
    ∃ h, memInit m = .ok h ∧ Layout h [⟨MEM_SIZE_ALIGNED, false⟩] := by
  have hM := memSizeAligned_eq
  have hS := sizeofStructMem_eq
  refine ⟨_, rfl, ⟨rfl, ?_, .singleton _⟩, ?_, ?_, rfl⟩
  · intro b hb
    rw [List.mem_singleton.mp hb]
    decide
  · have h₀ : Hdr (setUsed (setPrev (setNext m 0 MEM_SIZE_ALIGNED) 0 0) 0 0) 0 MEM_SIZE_ALIGNED 0
        false := by
      refine ⟨?_, ?_, used_setUsed_self⟩
      · rw [next_setUsed_self, next_setPrev_self, next_setNext_self (by omega)]
      · rw [prev_setUsed_self, prev_setPrev_self (by omega)]
    refine ⟨h₀.congr ?_, trivial⟩
    exact ((agreeOn_setUsed (.inr (by omega))).trans (agreeOn_setNext (.inr (by omega)))).trans
      (agreeOn_setPrev (.inr (by omega)))
  · dsimp only
    rw [used_setPrev_self, used_setNext_self, used_setUsed_self]

end Lwip.Mem
