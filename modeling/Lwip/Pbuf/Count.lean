import Lwip.Pbuf.Heap

/-!
# The reference counts of the pbufs

`Counted own s` says that every allocated pbuf has as many references as its holders own and pbufs
link to it, and that it is allocated as long as there is one. To take a reference away is a debt,
which the loop of `pbuf_free` hands on along the chain (`pbufFreeLoop_spec`): a pbuf that is
de-allocated leaves the reference of its link to the next one.
-/

namespace Lwip.Pbuf

namespace Heap

variable {s s' : Heap} {p i : ℕ} {b b' : Pbuf} {r : Option ℕ}

/-- A pbuf that is allocated can be read. -/
theorem get_eq_ok : s.get p = .ok b ↔ s.pbufs p = some b := by
  unfold get
  cases s.pbufs p with
  | none => exact iff_of_false (fun h => by cases h) fun h => by cases h
  | some b' =>
    constructor
    · intro h
      rw [Except.ok.inj h]
    · intro h
      rw [Option.some.inj h]

/-- The fields that were assigned are read. -/
@[simp] theorem set_self (s : Heap) (p : ℕ) (b : Pbuf) : (s.set p b).pbufs p = some b :=
  Function.update_self ..

/-- The other pbufs stay as they are. -/
@[simp] theorem set_of_ne (s : Heap) (h : i ≠ p) (b : Pbuf) : (s.set p b).pbufs i = s.pbufs i :=
  Function.update_of_ne h ..

/-- A pbuf that was freed is not allocated. -/
@[simp] theorem remove_self (s : Heap) (p : ℕ) :
    (s.remove p).pbufs p = none := Function.update_self ..

/-- The other pbufs stay allocated. -/
@[simp] theorem remove_of_ne (s : Heap) (h : i ≠ p) : (s.remove p).pbufs i = s.pbufs i :=
  Function.update_of_ne h ..

/-- A new pbuf is allocated. -/
@[simp] theorem add_self (s : Heap) (b : Pbuf) : (s.add b).pbufs s.fresh = some b :=
  Function.update_self ..

/-- The other pbufs are not new. -/
@[simp] theorem add_of_ne (s : Heap) (h : i ≠ s.fresh) (b : Pbuf) : (s.add b).pbufs i = s.pbufs i :=
  Function.update_of_ne h ..

/-- An assignment allocates nothing. -/
@[simp] theorem fresh_set (s : Heap) (p : ℕ) (b : Pbuf) : (s.set p b).fresh = s.fresh := rfl

/-- Numbers are not used again. -/
@[simp] theorem fresh_remove (s : Heap) (p : ℕ) : (s.remove p).fresh = s.fresh := rfl

/-- The next new pbuf has another number. -/
@[simp] theorem fresh_add (s : Heap) (b : Pbuf) : (s.add b).fresh = s.fresh + 1 := rfl

/-- The link of a pbuf that is allocated. -/
theorem succ_eq (h : s.pbufs p = some b) : s.succ p = b.next := by
  unfold succ
  rw [h, Option.bind_some]

/-- A link comes from a pbuf that is allocated. -/
theorem succ_eq_some : s.succ p = some i ↔ ∃ b, s.pbufs p = some b ∧ b.next = some i :=
  Option.bind_eq_some_iff

/-- An assignment changes one link. -/
theorem succ_set (s : Heap) (p : ℕ) (b : Pbuf) :
    (s.set p b).succ = Function.update s.succ p b.next := by
  funext i
  unfold succ
  by_cases hi : i = p
  · rw [hi, set_self, Function.update_self, Option.bind_some]
  · rw [set_of_ne s hi, Function.update_of_ne hi]

/-- A pbuf that is freed links to nothing. -/
theorem succ_remove (s : Heap) (p : ℕ) : (s.remove p).succ = Function.update s.succ p none := by
  funext i
  unfold succ
  by_cases hi : i = p
  · rw [hi, remove_self, Function.update_self, Option.bind_none]
  · rw [remove_of_ne s hi, Function.update_of_ne hi]

/-- A new pbuf has its link. -/
theorem succ_add (s : Heap) (b : Pbuf) :
    (s.add b).succ = Function.update s.succ s.fresh b.next := by
  funext i
  unfold succ
  by_cases hi : i = s.fresh
  · rw [hi, add_self, Function.update_self, Option.bind_some]
  · rw [add_of_ne s hi, Function.update_of_ne hi]

/-- The balance of the assignment of a link. -/
theorem links_set (hp : p < s.fresh) (b : Pbuf) (i : ℕ) :
    (s.set p b).links i + hit (s.succ p) i = s.links i + hit b.next i := by
  unfold links
  rw [succ_set]
  exact linksTo_update hp i

/-- A pbuf that is freed takes its link away. -/
theorem links_remove (hp : p < s.fresh) (i : ℕ) :
    (s.remove p).links i + hit (s.succ p) i = s.links i := by
  unfold links
  rw [succ_remove]
  exact linksTo_update hp i

/-- A new pbuf adds its link. -/
theorem links_add (s : Heap) (b : Pbuf) (i : ℕ) : (s.add b).links i = s.links i + hit b.next i := by
  unfold links
  rw [fresh_add, linksTo_succ, succ_add, Function.update_self]
  congr 1
  exact linksTo_congr (fun j hj => Function.update_of_ne (Nat.ne_of_lt hj) ..) i

/-- An assignment does not change how many are allocated. -/
theorem allocated_set (hb : s.pbufs p = some b) (b' : Pbuf) :
    (s.set p b').allocated = s.allocated := by
  unfold allocated
  congr 1
  refine Finset.filter_congr fun i _ => ?_
  by_cases hi : i = p
  · rw [hi, set_self, hb]
    exact Iff.rfl
  · rw [set_of_ne s hi]

/-- A pbuf that is freed is one less. -/
theorem allocated_remove (hp : p < s.fresh) (hb : s.pbufs p = some b) :
    (s.remove p).allocated + 1 = s.allocated := by
  have herase : (Finset.range s.fresh).filter (fun i => ((s.remove p).pbufs i).isSome) =
      ((Finset.range s.fresh).filter fun i => (s.pbufs i).isSome).erase p := by
    ext i
    rw [Finset.mem_erase, Finset.mem_filter, Finset.mem_filter]
    by_cases hi : i = p
    · simp [hi]
    · simp [hi]
  unfold allocated
  rw [fresh_remove, herase]
  apply Finset.card_erase_add_one
  rw [Finset.mem_filter]
  exact ⟨Finset.mem_range.mpr hp, by rw [hb]; rfl⟩

/-- Not more pbufs are allocated than numbers were used. -/
theorem allocated_le (s : Heap) : s.allocated ≤ s.fresh :=
  calc s.allocated ≤ (Finset.range s.fresh).card := Finset.card_filter_le ..
    _ = s.fresh := Finset.card_range _

end Heap

/-! ## What the counts are -/

/-- Every allocated pbuf has the references that are owned and those of the links to it, and a pbuf
is allocated exactly as long as there is a reference to it. -/
structure Counted (own : ℕ → ℕ) (s : Heap) : Prop where
  ref : ∀ i b, s.pbufs i = some b → b.ref = own i + s.links i
  live : ∀ i, (s.pbufs i).isSome ↔ 0 < own i + s.links i
  fresh : ∀ i, s.fresh ≤ i → s.pbufs i = none

/-- The two heaps have the same pbufs with the same links and counts. -/
structure SameLinks (s s' : Heap) : Prop where
  fresh : s'.fresh = s.fresh
  pbufs : ∀ i, (s'.pbufs i).map (fun b => (b.next, b.ref)) = (s.pbufs i).map fun b =>
    (b.next, b.ref)

namespace SameLinks

variable {s s' s'' : Heap} {p : ℕ} {b b' : Pbuf}

/-- The links are the same where nothing happens. -/
theorem refl (s : Heap) : SameLinks s s := ⟨rfl, fun _ => rfl⟩

/-- The same links after two steps. -/
theorem trans (h : SameLinks s s') (h' : SameLinks s' s'') : SameLinks s s'' :=
  ⟨h'.fresh.trans h.fresh, fun i => (h'.pbufs i).trans (h.pbufs i)⟩

/-- Other fields of a pbuf are assigned. -/
theorem set (hb : s.pbufs p = some b) (hn : b'.next = b.next) (hr : b'.ref = b.ref) :
    SameLinks s (s.set p b') := by
  refine ⟨rfl, fun i => ?_⟩
  by_cases hi : i = p
  · rw [hi, Heap.set_self, hb, Option.map_some, Option.map_some, hn, hr]
  · rw [Heap.set_of_ne s hi]

/-- The same pbufs are allocated. -/
theorem isSome (h : SameLinks s s') (i : ℕ) : (s'.pbufs i).isSome = (s.pbufs i).isSome := by
  have heq := congrArg Option.isSome (h.pbufs i)
  rwa [Option.isSome_map, Option.isSome_map] at heq

/-- The same links. -/
theorem succ (h : SameLinks s s') : s'.succ = s.succ := by
  funext i
  have heq := congrArg (fun o => o.bind Prod.fst) (h.pbufs i)
  unfold Heap.succ
  rwa [Option.bind_map, Option.bind_map] at heq

/-- As many links to each pbuf. -/
theorem links (h : SameLinks s s') (i : ℕ) : s'.links i = s.links i := by
  unfold Heap.links
  rw [h.fresh, h.succ]

/-- A pbuf has its link and its count in both heaps. -/
theorem some (h : SameLinks s s') {i : ℕ} (hb' : s'.pbufs i = some b') :
    ∃ b, s.pbufs i = some b ∧ b.next = b'.next ∧ b.ref = b'.ref := by
  have heq := h.pbufs i
  rw [hb', Option.map_some] at heq
  obtain ⟨b, hb, hf⟩ := Option.map_eq_some_iff.mp heq.symm
  exact ⟨b, hb, congrArg Prod.fst hf, congrArg Prod.snd hf⟩

end SameLinks

/-- What is left of the pbufs after some were freed. -/
structure Freed (s s' : Heap) : Prop where
  fresh : s'.fresh = s.fresh
  pbufs : ∀ i b', s'.pbufs i = some b' → ∃ b, s.pbufs i = some b ∧ b' = { b with ref := b'.ref }

namespace Freed

variable {s s' s'' : Heap} {p : ℕ} {b : Pbuf}

/-- Nothing was freed. -/
theorem refl (s : Heap) : Freed s s := ⟨rfl, fun _ b' h => ⟨b', h, rfl⟩⟩

/-- What is freed in two steps. -/
theorem trans (h : Freed s s') (h' : Freed s' s'') : Freed s s'' := by
  refine ⟨h'.fresh.trans h.fresh, fun i b'' hb'' => ?_⟩
  obtain ⟨b', hb', heq'⟩ := h'.pbufs i b'' hb''
  obtain ⟨b, hb, heq⟩ := h.pbufs i b' hb'
  exact ⟨b, hb, by rw [heq', heq]⟩

/-- One pbuf is freed. -/
theorem remove (s : Heap) (p : ℕ) : Freed s (s.remove p) := by
  refine ⟨rfl, fun i b' hb' => ?_⟩
  by_cases hi : i = p
  · rw [hi, Heap.remove_self] at hb'
    cases hb'
  · rw [Heap.remove_of_ne s hi] at hb'
    exact ⟨b', hb', rfl⟩

/-- A count is no link. -/
theorem set_ref (hb : s.pbufs p = some b) (ref : ℕ) : Freed s (s.set p { b with ref }) := by
  refine ⟨rfl, fun i b' hb' => ?_⟩
  by_cases hi : i = p
  · rw [hi, Heap.set_self] at hb'
    cases hb'
    exact ⟨b, hi ▸ hb, rfl⟩
  · rw [Heap.set_of_ne s hi] at hb'
    exact ⟨b', hb', rfl⟩

end Freed

section Counted

variable {own : ℕ → ℕ} {s s' : Heap} {p q t i : ℕ} {b b' : Pbuf} {r : Option ℕ} {l : List ℕ}

/-- To give back and to get a reference. -/
theorem gain_lose (h : 0 < own p) : gain (lose own p) (some p) = own := by
  funext i
  unfold gain lose hit
  split
  · next hi =>
    obtain rfl := Option.some.inj hi
    omega
  · rfl

/-- To get and to give back a reference. -/
theorem lose_gain (own : ℕ → ℕ) (p : ℕ) : lose (gain own (some p)) p = own := by
  funext i
  exact Nat.add_sub_cancel (own i) (hit (some p) i)

/-- No reference is owned to `NULL`. -/
theorem gain_none (own : ℕ → ℕ) : gain own none = own := rfl

/-- A pbuf that is allocated has an old number. -/
theorem Counted.lt (h : Counted own s) (hb : s.pbufs i = some b) : i < s.fresh := by
  by_contra hge
  rw [h.fresh i (Nat.le_of_not_lt hge)] at hb
  cases hb

/-- A pbuf that is allocated is referenced. -/
theorem Counted.ref_pos (h : Counted own s) (hb : s.pbufs i = some b) : 0 < b.ref := by
  rw [h.ref i b hb]
  exact (h.live i).mp (by rw [hb]; rfl)

/-- The holders own references to allocated pbufs only. -/
theorem Counted.of_own (h : Counted own s) (hi : 0 < own i) : ∃ b, s.pbufs i = some b :=
  Option.isSome_iff_exists.mp ((h.live i).mpr (by omega))

/-- Allocated pbufs link to allocated pbufs only. -/
theorem Counted.of_succ (h : Counted own s) (hi : s.succ p = some i) : ∃ b, s.pbufs i = some b := by
  obtain ⟨b, hb, -⟩ := Heap.succ_eq_some.mp hi
  have hlinks : 0 < s.links i := linksTo_pos_iff.mpr ⟨p, h.lt hb, hi⟩
  exact Option.isSome_iff_exists.mp ((h.live i).mpr (by omega))

/-- So a chain runs through allocated pbufs. -/
theorem Counted.of_mem (h : Counted own s) (hw : Walk s.succ (some p) l) (hb : s.pbufs p = some b)
    (hi : i ∈ l) : ∃ b, s.pbufs i = some b := by
  refine hw.forall_mem ?_ (fun x y _ hxy => h.of_succ hxy) i hi
  rintro x ⟨⟩
  exact ⟨b, hb⟩

/-- A chain is not longer than numbers were used. -/
theorem Counted.length_le (h : Counted own s) (hw : Walk s.succ (some p) l)
    (hb : s.pbufs p = some b) : l.length ≤ s.fresh := by
  refine hw.length_le fun x hx => ?_
  obtain ⟨bx, hbx⟩ := h.of_mem hw hb hx
  exact h.lt hbx

/-- The counts depend on the links only. -/
theorem Counted.congr (h : Counted own s) (hs : SameLinks s s') : Counted own s' := by
  constructor
  · intro i b' hb'
    obtain ⟨b, hb, -, href⟩ := hs.some hb'
    rw [← href, hs.links]
    exact h.ref i b hb
  · intro i
    rw [hs.isSome, hs.links]
    exact h.live i
  · intro i hi
    rw [hs.fresh] at hi
    have hnone : (s'.pbufs i).isSome = false := by
      rw [hs.isSome, h.fresh i hi]
      rfl
    exact Option.isSome_eq_false_iff.mp hnone |> Option.isNone_iff_eq_none.mp

/-- A pbuf is assigned: its count has to fit, and nothing changes for the others. -/
theorem Counted.set {own' : ℕ → ℕ} (h : Counted own s) (hb : s.pbufs p = some b) (hpos : 0 < b'.ref)
    (hp : b'.ref = own' p + (s.set p b').links p)
    (hrest : ∀ i, i ≠ p → own' i + (s.set p b').links i = own i + s.links i) :
    Counted own' (s.set p b') := by
  constructor
  · intro i c hc
    by_cases hi : i = p
    · rw [hi, Heap.set_self] at hc
      cases hc
      rw [hi]
      exact hp
    · rw [Heap.set_of_ne s hi] at hc
      rw [hrest i hi]
      exact h.ref i c hc
  · intro i
    by_cases hi : i = p
    · rw [hi, Heap.set_self, ← hp]
      exact iff_of_true rfl hpos
    · rw [Heap.set_of_ne s hi, hrest i hi]
      exact h.live i
  · intro i hi
    have hip : i ≠ p := by
      have hlt := h.lt hb
      rw [Heap.fresh_set] at hi
      omega
    rw [Heap.set_of_ne s hip]
    exact h.fresh i hi

/-- An assignment that leaves the link alone. -/
theorem Heap.links_set_of_next (hp : p < s.fresh) (hb : s.pbufs p = some b) (hn : b'.next = b.next)
    (i : ℕ) : (s.set p b').links i = s.links i := by
  have hbal := Heap.links_set hp b' i
  rw [Heap.succ_eq hb, hn] at hbal
  exact Nat.add_right_cancel hbal

/-- One of several references to a pbuf is taken away. -/
theorem Counted.set_ref (h : Counted (gain own (some p)) s) (hb : s.pbufs p = some b)
    (hmore : b.ref - 1 ≠ 0) : Counted own (s.set p { b with ref := b.ref - 1 }) := by
  have hlinks := Heap.links_set_of_next (h.lt hb) hb
    (rfl : { b with ref := b.ref - 1 }.next = b.next)
  have href : b.ref = own p + hit (some p) p + s.links p := h.ref p b hb
  rw [hit_self] at href
  apply h.set hb (Nat.pos_of_ne_zero hmore)
  · rw [hlinks]
    dsimp only
    omega
  · intro i hi
    rw [hlinks]
    unfold gain
    rw [hit_of_ne hi, Nat.add_zero]

/-- The last reference to a pbuf is taken away: the pbuf goes, and its link is the next debt. -/
theorem Counted.remove (h : Counted (gain own (some p)) s) (hb : s.pbufs p = some b)
    (hlast : b.ref - 1 = 0) : Counted (gain own b.next) (s.remove p) := by
  have hbal : ∀ i, (s.remove p).links i + hit b.next i = s.links i := by
    intro i
    have hbal := Heap.links_remove (h.lt hb) i
    rwa [Heap.succ_eq hb] at hbal
  have hrefp := h.ref p b hb
  unfold gain at hrefp
  rw [hit_self] at hrefp
  have hbalp := hbal p
  constructor
  · intro i b' hb'
    by_cases hi : i = p
    · rw [hi, Heap.remove_self] at hb'
      cases hb'
    · rw [Heap.remove_of_ne s hi] at hb'
      have href := h.ref i b' hb'
      have hbali := hbal i
      unfold gain at href ⊢
      rw [hit_of_ne hi] at href
      omega
  · intro i
    unfold gain
    have hbali := hbal i
    by_cases hi : i = p
    · rw [hi, Heap.remove_self]
      exact iff_of_false (fun hs => by cases hs) (by omega)
    · rw [Heap.remove_of_ne s hi, h.live i]
      unfold gain
      rw [hit_of_ne hi]
      omega
  · intro i hi
    by_cases hip : i = p
    · rw [hip, Heap.remove_self]
    · rw [Heap.remove_of_ne s hip]
      exact h.fresh i hi

/-- The loop of `pbuf_free`: a debt is paid, and `k` pbufs are de-allocated for it, which are pbufs
of the chain. -/
theorem pbufFreeLoop_spec (fuel : ℕ) (h : Counted (gain own r) s)
    (hfuel : s.allocated < fuel) (n : ℕ) :
    ∃ s' k, pbufFreeLoop fuel s r (u8 n) = .ok (s', u8 (n + k)) ∧ Counted own s' ∧ Freed s s' ∧
      s'.allocated + k = s.allocated ∧
      ∀ l, Walk s.succ r l → k ≤ l.length ∧ ∀ i, i ∉ l → s'.pbufs i = s.pbufs i := by
  induction fuel generalizing s r n with
  | zero => exact absurd hfuel (Nat.not_lt_zero _)
  | succ fuel ih =>
    cases r with
    | none => exact ⟨s, 0, rfl, h, .refl s, rfl, fun l _ => ⟨Nat.zero_le _, fun _ _ => rfl⟩⟩
    | some p =>
      obtain ⟨b, hb⟩ : ∃ b, s.pbufs p = some b := h.of_own (by unfold gain; rw [hit_self]; omega)
      unfold pbufFreeLoop
      rw [Heap.get_eq_ok.mpr hb]
      dsimp only [bind, Except.bind]
      rw [(lwipAssert_eq_ok (u := ())).mpr (h.ref_pos hb)]
      dsimp only
      by_cases hlast : b.ref - 1 = 0
      · rw [if_pos hlast]
        have halloc := Heap.allocated_remove (h.lt hb) hb
        obtain ⟨s', k, hrun, hcount, hfreed, hk, hwalk⟩ := ih (h.remove hb hlast) (by omega) (n + 1)
        have hu8 : u8 (u8 n + 1) = u8 (n + 1) := by
          unfold u8
          omega
        rw [hu8, hrun]
        refine ⟨s', k + 1, ?_, hcount, (Freed.remove s p).trans hfreed, by omega, fun l hl => ?_⟩
        · rw [Nat.add_assoc, Nat.add_comm 1 k]
        · cases hl with
          | @cons _ l hl =>
            -- The rest of the chain does not come back to the pbuf that is gone.
            have hp : p ∉ l := (Walk.cons hl).head_not_mem
            have hl' : Walk (s.remove p).succ b.next l := by
              rw [← Heap.succ_eq hb]
              refine hl.congr fun x hx => ?_
              have hxp : x ≠ p := fun hxp => hp (hxp ▸ hx)
              rw [Heap.succ_remove, Function.update_of_ne hxp]
            obtain ⟨hlen, hrest⟩ := hwalk l hl'
            refine ⟨Nat.succ_le_succ hlen, fun i hi => ?_⟩
            rw [List.mem_cons, not_or] at hi
            rw [hrest i hi.2, Heap.remove_of_ne s hi.1]
      · rw [if_neg hlast]
        refine ⟨_, 0, rfl, h.set_ref hb hlast, Freed.set_ref hb _, ?_, fun l hl => ?_⟩
        · exact Heap.allocated_set hb _
        · cases hl with
          | cons hl =>
            refine ⟨Nat.zero_le _, fun i hi => Heap.set_of_ne s (fun hip => hi ?_) _⟩
            rw [hip]
            exact List.mem_cons_self

/-- `pbuf_free`, called by a holder. -/
theorem pbufFree_spec (h : Counted own s) (hp : 0 < own p) :
    ∃ s' k, pbufFree s p = .ok (s', u8 k) ∧ Counted (lose own p) s' ∧ Freed s s' ∧
      s'.allocated + k = s.allocated ∧
      ∀ l, Walk s.succ (some p) l → k ≤ l.length ∧ ∀ i, i ∉ l → s'.pbufs i = s.pbufs i := by
  have hdebt : Counted (gain (lose own p) (some p)) s := by rwa [gain_lose hp]
  have hspec := pbufFreeLoop_spec (s.fresh + 1) hdebt (Nat.lt_succ_of_le s.allocated_le) 0
  simp only [Nat.zero_add] at hspec
  exact hspec

/-- `pbuf_ref`, with room in the count. -/
theorem pbufRef_spec (h : Counted own s) (hb : s.pbufs p = some b)
    (hroom : own p + s.links p < 2^16 - 1) :
    ∃ s', pbufRef s p = .ok s' ∧ Counted (gain own (some p)) s' := by
  have hrefp := h.ref p b hb
  have hu16 : u16 (b.ref + 1) = b.ref + 1 := Nat.mod_eq_of_lt (by omega)
  have hlinks := Heap.links_set_of_next (h.lt hb) hb
    (rfl : { b with ref := b.ref + 1 }.next = b.next)
  refine ⟨s.set p { b with ref := b.ref + 1 }, ?_, h.set hb (Nat.succ_pos _) ?_ ?_⟩
  · unfold pbufRef
    rw [Heap.get_eq_ok.mpr hb]
    dsimp only [bind, Except.bind]
    rw [hu16]
  · rw [hlinks]
    unfold gain
    rw [hit_self]
    dsimp only
    omega
  · intro i hi
    rw [hlinks]
    unfold gain
    rw [hit_of_ne hi, Nat.add_zero]

/-- A new pbuf, to which one reference is owned. -/
theorem Counted.add (h : Counted own s) (hn : b.next = none) (hr : b.ref = 1) :
    Counted (gain own (some s.fresh)) (s.add b) := by
  have hlinks : ∀ i, (s.add b).links i = s.links i := by
    intro i
    rw [Heap.links_add, hn, hit_none, Nat.add_zero]
  have hdead : s.pbufs s.fresh = none := h.fresh _ (Nat.le_refl _)
  have hnone : own s.fresh + s.links s.fresh = 0 := by
    have hlive := h.live s.fresh
    rw [hdead] at hlive
    by_contra hpos
    exact absurd (hlive.mpr (Nat.pos_of_ne_zero hpos)) (by decide)
  constructor
  · intro i b' hb'
    rw [hlinks]
    unfold gain
    by_cases hi : i = s.fresh
    · rw [hi, Heap.add_self] at hb'
      cases hb'
      rw [hi, hit_self]
      omega
    · rw [Heap.add_of_ne s hi] at hb'
      rw [hit_of_ne hi]
      exact h.ref i b' hb'
  · intro i
    rw [hlinks]
    unfold gain
    by_cases hi : i = s.fresh
    · rw [hi, Heap.add_self, hit_self]
      exact iff_of_true rfl (by omega)
    · rw [Heap.add_of_ne s hi, h.live i, hit_of_ne hi]
      exact Iff.rfl
  · intro i hi
    rw [Heap.fresh_add] at hi
    rw [Heap.add_of_ne s (by omega)]
    exact h.fresh i (by omega)

/-- A reference that is owned becomes that of a link, of a pbuf that had none. -/
theorem Counted.link (h : Counted (gain own (some t)) s) (hb : s.pbufs p = some b)
    (hn : b.next = none) (hn' : b'.next = some t) (hr : b'.ref = b.ref) :
    Counted own (s.set p b') := by
  have hlinks : ∀ i, (s.set p b').links i = s.links i + hit (some t) i := by
    intro i
    have hbal := Heap.links_set (h.lt hb) b' i
    rwa [Heap.succ_eq hb, hn, hn', hit_none, Nat.add_zero] at hbal
  have hsame : ∀ i, own i + (s.set p b').links i = gain own (some t) i + s.links i := by
    intro i
    rw [hlinks]
    unfold gain
    omega
  apply h.set hb
  · rw [hr]
    exact h.ref_pos hb
  · rw [hr, hsame]
    exact h.ref p b hb
  · exact fun i _ => hsame i

/-- A link is taken back, which leaves its reference to the holder. -/
theorem Counted.unlink (h : Counted own s) (hb : s.pbufs p = some b) (hn' : b'.next = none)
    (hr : b'.ref = b.ref) : Counted (gain own b.next) (s.set p b') := by
  have hsame : ∀ i, gain own b.next i + (s.set p b').links i = own i + s.links i := by
    intro i
    have hbal := Heap.links_set (h.lt hb) b' i
    rw [Heap.succ_eq hb, hn', hit_none, Nat.add_zero] at hbal
    unfold gain
    omega
  apply h.set hb
  · rw [hr]
    exact h.ref_pos hb
  · rw [hr, hsame]
    exact h.ref p b hb
  · exact fun i _ => hsame i

end Counted

end Lwip.Pbuf
