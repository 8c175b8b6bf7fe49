import Lwip.Pbuf.Sharing

/-!
# The lengths of the pbufs

`LensOff own s p d` says that every `tot_len` is right, except that of the pbufs that link to `p`,
which are behind or ahead by `d`: that is what a loop along a chain leaves behind at its place `p`,
and puts right with the assignment of `p` (`LensOff.set`). The lengths are right when nothing links
there (`LensOff.right`).
-/

namespace Lwip.Pbuf

/-- `tot_len` of the rest of a chain. -/
def Heap.totOf (s : Heap) : Option ℕ → ℕ
  | none => 0
  | some q => ((s.pbufs q).map Pbuf.tot_len).getD 0

/-- The payload of a pbuf is in its memory, of which the size is a `mem_size_t` for a `PBUF_RAM`;
and `tot_len` is a `u16_t`. -/
structure InMemory (b : Pbuf) : Prop where
  range : b.payload + b.len ≤ b.size
  size : b.type = .RAM → SIZEOF_STRUCT_PBUF + b.size < 2^16
  word : b.tot_len < 2^16

/-- `tot_len` is the length of the pbuf and of the rest of its chain, for every pbuf; for one that
links to `p` it will be when that of `p` has changed by `d`. -/
structure LensOff (s : Heap) (p : ℕ) (d : ℤ) : Prop where
  tot : ∀ i b, s.pbufs i = some b →
    (b.tot_len : ℤ) = b.len + s.totOf b.next + if b.next = some p then d else 0
  mem : ∀ i b, s.pbufs i = some b → b.InMemory

/-- `tot_len` is the length of the pbuf and of the rest of its chain. -/
structure LensRight (s : Heap) : Prop where
  tot : ∀ i b, s.pbufs i = some b → b.tot_len = b.len + s.totOf b.next
  mem : ∀ i b, s.pbufs i = some b → b.InMemory

namespace Heap

variable {s s' : Heap} {p q i : ℕ} {b b' : Pbuf} {r : Option ℕ}

/-- `tot_len` of a pbuf that is allocated. -/
theorem totOf_some (hb : s.pbufs p = some b) : s.totOf (some p) = b.tot_len := by
  show ((s.pbufs p).map Pbuf.tot_len).getD 0 = b.tot_len
  rw [hb]
  rfl

/-- The other pbufs keep their `tot_len`. -/
theorem totOf_set_of_ne (h : r ≠ some p) (b' : Pbuf) : (s.set p b').totOf r = s.totOf r := by
  cases r with
  | none => rfl
  | some q =>
    have hq : q ≠ p := fun hq => h (congrArg some hq)
    show (((s.set p b').pbufs q).map Pbuf.tot_len).getD 0 = ((s.pbufs q).map Pbuf.tot_len).getD 0
    rw [set_of_ne s hq]

/-- The `tot_len` that was assigned. -/
theorem totOf_set_self (s : Heap) (p : ℕ) (b' : Pbuf) : (s.set p b').totOf (some p) = b'.tot_len :=
  totOf_some (set_self s p b')

/-- No pbuf links to itself. -/
theorem next_ne (hc : Chains s.succ) (hb : s.pbufs p = some b) : b.next ≠ some p := by
  rw [← succ_eq hb]
  exact hc.succ_ne p

/-- Nothing links to `p`. -/
def Top (s : Heap) (p : ℕ) : Prop := ∀ i, s.succ i ≠ some p

/-- No pbuf links to the top of a chain. -/
theorem Top.next_ne (h : s.Top p) (hb : s.pbufs i = some b) : b.next ≠ some p :=
  fun hn => h i ((succ_eq hb).trans hn)

/-- A pbuf without a link to it is the top of a chain. -/
theorem top_of_links (hc : ∀ i, s.fresh ≤ i → s.pbufs i = none) (h : s.links p = 0) : s.Top p := by
  intro i hi
  obtain ⟨b, hb, -⟩ := succ_eq_some.mp hi
  have hlt : i < s.fresh := by
    by_contra hge
    rw [hc i (Nat.le_of_not_lt hge)] at hb
    cases hb
  have hpos : 0 < s.links p := linksTo_pos_iff.mpr ⟨i, hlt, hi⟩
  omega

end Heap

section Rules

variable {own : ℕ → ℕ} {s s' : Heap} {p q i : ℕ} {b b' : Pbuf} {d d' : ℤ}

/-- Where nothing links to, nothing is behind. -/
theorem LensRight.off (h : LensRight s) (ht : s.Top p) (d : ℤ) : LensOff s p d := by
  refine ⟨fun i b hb => ?_, h.mem⟩
  rw [if_neg (ht.next_ne hb), h.tot i b hb]
  omega

/-- The assignment of `p` puts right what links to it. It may leave what is next in `p` behind. -/
theorem LensOff.set (h : LensOff s p d) (hb : s.pbufs p = some b)
    (hd : (b'.tot_len : ℤ) = b.tot_len + d) (hn : b'.next ≠ some p) (hm : b'.InMemory)
    (ht : (b'.tot_len : ℤ) = b'.len + s.totOf b'.next + if b'.next = some q then d' else 0)
    (hq : ∀ i c, i ≠ p → s.pbufs i = some c → c.next ≠ some q) :
    LensOff (s.set p b') q d' := by
  constructor
  · intro i c hi
    by_cases hip : i = p
    · rw [hip, Heap.set_self] at hi
      cases hi
      rw [Heap.totOf_set_of_ne hn]
      exact ht
    · rw [Heap.set_of_ne s hip] at hi
      rw [if_neg (hq i c hip hi), h.tot i c hi]
      by_cases hcp : c.next = some p
      · rw [if_pos hcp, hcp, Heap.totOf_set_self, Heap.totOf_some hb]
        omega
      · rw [if_neg hcp, Heap.totOf_set_of_ne hcp]
  · intro i c hi
    by_cases hip : i = p
    · rw [hip, Heap.set_self] at hi
      cases hi
      exact hm
    · rw [Heap.set_of_ne s hip] at hi
      exact h.mem i c hi

/-- An assignment of `p` that makes up for what links to it, and leaves nothing behind. -/
theorem LensOff.right (h : LensOff s p d) (hb : s.pbufs p = some b)
    (hd : (b'.tot_len : ℤ) = b.tot_len + d) (hn : b'.next ≠ some p) (hm : b'.InMemory)
    (ht : b'.tot_len = b'.len + s.totOf b'.next) : LensRight (s.set p b') := by
  constructor
  · intro i c hi
    by_cases hip : i = p
    · rw [hip, Heap.set_self] at hi
      cases hi
      rw [Heap.totOf_set_of_ne hn]
      exact ht
    · rw [Heap.set_of_ne s hip] at hi
      have htot := h.tot i c hi
      by_cases hcp : c.next = some p
      · rw [if_pos hcp, hcp, Heap.totOf_some hb] at htot
        rw [hcp, Heap.totOf_set_self]
        omega
      · rw [if_neg hcp] at htot
        rw [Heap.totOf_set_of_ne hcp]
        omega
  · intro i c hi
    by_cases hip : i = p
    · rw [hip, Heap.set_self] at hi
      cases hi
      exact hm
    · rw [Heap.set_of_ne s hip] at hi
      exact h.mem i c hi

/-- An assignment of a pbuf that nothing links to. -/
theorem LensRight.set (h : LensRight s) (htop : s.Top p) (hb : s.pbufs p = some b)
    (hn : b'.next ≠ some p) (hm : b'.InMemory) (ht : b'.tot_len = b'.len + s.totOf b'.next) :
    LensRight (s.set p b') :=
  (h.off htop ((b'.tot_len : ℤ) - b.tot_len)).right hb (by omega) hn hm ht

/-- A new pbuf. -/
theorem LensRight.add (h : LensRight s)
    (hclosed : ∀ i c, s.pbufs i = some c → c.next ≠ some s.fresh) (hn : b.next = none)
    (hm : b.InMemory) (ht : b.tot_len = b.len) : LensRight (s.add b) := by
  have htot : ∀ r, r ≠ some s.fresh → (s.add b).totOf r = s.totOf r := by
    intro r hr
    cases r with
    | none => rfl
    | some q =>
      have hq : q ≠ s.fresh := fun hq => hr (congrArg some hq)
      show (((s.add b).pbufs q).map Pbuf.tot_len).getD 0 = ((s.pbufs q).map Pbuf.tot_len).getD 0
      rw [Heap.add_of_ne s hq]
  constructor
  · intro i c hi
    by_cases hif : i = s.fresh
    · rw [hif, Heap.add_self] at hi
      cases hi
      rw [hn, ht]
      rfl
    · rw [Heap.add_of_ne s hif] at hi
      rw [htot _ (hclosed i c hi)]
      exact h.tot i c hi
  · intro i c hi
    by_cases hif : i = s.fresh
    · rw [hif, Heap.add_self] at hi
      cases hi
      exact hm
    · rw [Heap.add_of_ne s hif] at hi
      exact h.mem i c hi

/-- The pbufs that are left still link to as many bytes. -/
theorem Freed.totOf (hf : Freed s s') (hc : Counted own s') {i : ℕ} {c : Pbuf}
    (hi : s'.pbufs i = some c) : s'.totOf c.next = s.totOf c.next := by
  cases hn : c.next with
  | none => rfl
  | some q =>
    obtain ⟨c', hq⟩ := hc.of_succ ((Heap.succ_eq hi).trans hn)
    obtain ⟨c, hq₀, heq⟩ := hf.pbufs q c' hq
    rw [Heap.totOf_some hq, Heap.totOf_some hq₀, heq]

/-- Nor do they come to share what they link to. -/
theorem Freed.chains (hf : Freed s s') (hc : Chains s.succ) : Chains s'.succ := by
  refine hc.sub fun i => ?_
  cases hi : s'.pbufs i with
  | none =>
    right
    unfold Heap.succ
    rw [hi, Option.bind_none]
  | some b' =>
    left
    obtain ⟨b, hb, heq⟩ := hf.pbufs i b' hi
    rw [Heap.succ_eq hi, Heap.succ_eq hb, heq]

/-- What is left after some pbufs were freed, if the links still lead to pbufs. -/
theorem LensRight.freed (h : LensRight s) (hf : Freed s s') (hc : Counted own s') :
    LensRight s' := by
  constructor
  · intro i c' hi
    obtain ⟨c, hi₀, heq⟩ := hf.pbufs i c' hi
    rw [hf.totOf hc hi, heq]
    exact h.tot i c hi₀
  · intro i c' hi
    obtain ⟨c, hi₀, heq⟩ := hf.pbufs i c' hi
    obtain ⟨h1, h2, h3⟩ := h.mem i c hi₀
    rw [heq]
    exact ⟨h1, h2, h3⟩

/-- Other fields than `ref` and the memory's content are the same. -/
structure SameLens (s s' : Heap) : Prop where
  pbufs : ∀ i, (s'.pbufs i).map (fun b => { b with ref := 0, mem := fun _ => 0 }) =
    (s.pbufs i).map fun b => { b with ref := 0, mem := fun _ => 0 }

/-- A count and a memory are no lengths. -/
theorem SameLens.set (hb : s.pbufs p = some b) (ref : ℕ) (mem : ℕ → UInt8) :
    SameLens s (s.set p { b with ref, mem }) := by
  refine ⟨fun i => ?_⟩
  by_cases hi : i = p
  · rw [hi, Heap.set_self, hb]
    rfl
  · rw [Heap.set_of_ne s hi]

/-- The same lengths after two steps. -/
theorem SameLens.trans {s'' : Heap} (h : SameLens s s') (h' : SameLens s' s'') : SameLens s s'' :=
  ⟨fun i => (h'.pbufs i).trans (h.pbufs i)⟩

/-- A pbuf with the same lengths differs in the count and the memory only. -/
theorem SameLens.some (h : SameLens s s') (hb' : s'.pbufs i = some b') :
    ∃ b, s.pbufs i = some b ∧ b' = { b with ref := b'.ref, mem := b'.mem } := by
  have heq := h.pbufs i
  rw [hb', Option.map_some] at heq
  obtain ⟨b, hb, hf⟩ := Option.map_eq_some_iff.mp heq.symm
  refine ⟨b, hb, ?_⟩
  have hf' := congrArg (fun c : Pbuf => { c with ref := b'.ref, mem := b'.mem }) hf
  exact hf'.symm

/-- The same `tot_len` of the rest of a chain. -/
theorem SameLens.totOf (h : SameLens s s') (r : Option ℕ) : s'.totOf r = s.totOf r := by
  cases r with
  | none => rfl
  | some q =>
    have heq := congrArg (Option.map Pbuf.tot_len) (h.pbufs q)
    rw [Option.map_map, Option.map_map] at heq
    exact congrArg (Option.getD · 0) heq

/-- The lengths are right if those before were. -/
theorem LensRight.congr (h : LensRight s) (hs : SameLens s s') : LensRight s' := by
  constructor
  · intro i b' hb'
    obtain ⟨b, hb, heq⟩ := hs.some hb'
    rw [hs.totOf, heq]
    exact h.tot i b hb
  · intro i b' hb'
    obtain ⟨b, hb, heq⟩ := hs.some hb'
    rw [heq]
    exact ⟨(h.mem i b hb).range, (h.mem i b hb).size, (h.mem i b hb).word⟩

end Rules

end Lwip.Pbuf
