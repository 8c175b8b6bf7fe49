import Lwip.Pbuf.Count

/-!
# Chains that are shared

The operations of `pbuf.c` on pbufs that are linked and shared in any way. As long as every holder
gives back only what it owns, and the counts and chains do not get too long for their types, the
reference counts are right in every state of a run, no pbuf is used after it was de-allocated, and
`pbuf_free` returns the number of pbufs that it de-allocated (`refs_counted`).
-/

namespace Lwip.Pbuf

/-- The reasons to stop that a wrong reference count leads to. -/
def Abort.ofCount : Abort → Bool
  | .dangling | .hang | .refPositive => true
  | _ => false

section Ops

variable {own : ℕ → ℕ} {s : Heap} {p h t : ℕ} {b tb : Pbuf} {l : List ℕ}

/-- The loop of `pbuf_cat` comes to the last pbuf of the chain, and leaves links and counts
alone. -/
theorem pbufCatLoop_links (hc : Counted own s) (hw : Walk s.succ (some p) l)
    (hb : s.pbufs p = some b) (ht : s.pbufs t = some tb) {fuel : ℕ} (hfuel : l.length ≤ fuel) :
    ∃ s' q c, pbufCatLoop t fuel s p = .ok (s', q) ∧ SameLinks s s' ∧ s'.pbufs q = some c ∧
      c.next = none := by
  induction fuel generalizing s p b tb l with
  | zero =>
    cases hw
    exact absurd hfuel (Nat.not_succ_le_zero _)
  | succ fuel ih =>
    unfold pbufCatLoop
    rw [Heap.get_eq_ok.mpr hb]
    dsimp only [bind, Except.bind]
    cases hn : b.next with
    | none => exact ⟨s, p, b, rfl, .refl s, hb, hn⟩
    | some q =>
      cases hw with
      | @cons _ l hw =>
        dsimp only
        rw [Heap.get_eq_ok.mpr ht]
        dsimp only
        set s₁ := s.set p
          { b with next := some q, tot_len := u16 (b.tot_len + tb.tot_len) } with hs₁
        have hsame : SameLinks s s₁ := .set hb hn.symm rfl
        have hq : s.succ p = some q := (Heap.succ_eq hb).trans hn
        obtain ⟨bq, hbq⟩ := (hc.congr hsame).of_succ (hsame.succ ▸ hq)
        obtain ⟨tb', ht'⟩ : ∃ tb', s₁.pbufs t = some tb' :=
          Option.isSome_iff_exists.mp (by rw [hsame.isSome, ht]; rfl)
        have hw' : Walk s₁.succ (some q) l := by rwa [hsame.succ, ← hq]
        obtain ⟨s', r, c, hrun, hsame', hrest⟩ := ih (hc.congr hsame) hw' hbq ht'
          (Nat.le_of_succ_le_succ hfuel)
        exact ⟨s', r, c, hrun, hsame.trans hsame', hrest⟩

/-- `pbuf_cat` makes the last pbuf of the chain of `h` link to `t`. -/
theorem pbufCat_links (hc : Counted own s) (hw : Walk s.succ (some h) l) (hb : s.pbufs h = some b)
    (ht : s.pbufs t = some tb) :
    Ends Abort.ofCount (fun s' => ∃ s₁ q c c', SameLinks s s₁ ∧ s₁.pbufs q = some c ∧
    c.next = none ∧
      c'.next = some t ∧ c'.ref = c.ref ∧ s' = s₁.set q c') (pbufCat s h t) := by
  have hlen : l.length ≤ s.fresh + 1 := Nat.le_succ_of_le (hc.length_le hw hb)
  obtain ⟨s₁, q, c, hrun, hsame, hq, hn⟩ := pbufCatLoop_links hc hw hb ht hlen
  obtain ⟨tb', ht'⟩ : ∃ tb', s₁.pbufs t = some tb' :=
    Option.isSome_iff_exists.mp (by rw [hsame.isSome, ht]; rfl)
  unfold pbufCat
  rw [hrun]
  dsimp only [bind, Except.bind]
  rw [Heap.get_eq_ok.mpr hq]
  refine (lwipAssert_ends rfl _).bind fun _ _ => ?_
  rw [Heap.get_eq_ok.mpr ht']
  exact .of_ok ⟨s₁, q, c, { c with tot_len := u16 (c.tot_len + tb'.tot_len), next := some t },
    hsame, hq, hn, rfl, rfl, rfl⟩

/-- `pbuf_cat` takes over the reference to `t` of its caller. -/
theorem pbufCat_counted (hc : Counted own s) (hw : Walk s.succ (some h) l) (hb : s.pbufs h = some b)
    (ht : 0 < own t) : Ends Abort.ofCount (Counted (lose own t)) (pbufCat s h t) := by
  obtain ⟨tb, htb⟩ := hc.of_own ht
  refine (pbufCat_links hc hw hb htb).mono ?_
  rintro s' ⟨s₁, q, c, c', hsame, hq, hn, hn', href, rfl⟩
  have hdebt : Counted (gain (lose own t) (some t)) s₁ := by
    rw [gain_lose ht]
    exact hc.congr hsame
  exact hdebt.link hq hn hn' href

/-- `pbuf_chain` leaves the reference to `t` to its caller. -/
theorem pbufChain_counted (hc : Counted own s) (hw : Walk s.succ (some h) l)
    (hb : s.pbufs h = some b) (ht : s.pbufs t = some tb) (hroom : own t + s.links t < 2^16 - 1) :
    Ends Abort.ofCount (Counted own) (pbufChain s h t) := by
  refine (pbufCat_links hc hw hb ht).bind ?_
  rintro s' ⟨s₁, q, c, c', hsame, hq, hn, hn', href, rfl⟩
  obtain ⟨tb₁, ht₁⟩ : ∃ tb₁, s₁.pbufs t = some tb₁ :=
    Option.isSome_iff_exists.mp (by rw [hsame.isSome, ht]; rfl)
  -- It is the same as to count the reference first, and to hand it over then.
  have hroom₁ : own t + s₁.links t < 2^16 - 1 := by rwa [hsame.links]
  obtain ⟨s₂, hrun, hc₂⟩ := pbufRef_spec (hc.congr hsame) ht₁ hroom₁
  unfold pbufRef at hrun ⊢
  rw [Heap.get_eq_ok.mpr ht₁] at hrun
  cases hrun
  by_cases hqt : q = t
  · subst hqt
    rw [Heap.get_eq_ok.mpr (Heap.set_self s₁ q c')]
    obtain rfl : c = tb₁ := Option.some.inj (hq.symm.trans ht₁)
    refine .of_ok ?_
    have hcounted : Counted own ((s₁.set q { c with ref := u16 (c.ref + 1) }).set q
        { c' with ref := u16 (c'.ref + 1) }) :=
      hc₂.link (Heap.set_self ..) hn hn' (by rw [href])
    unfold Heap.set at hcounted ⊢
    rw [Function.update_idem] at hcounted ⊢
    exact hcounted
  · rw [Heap.get_eq_ok.mpr ((Heap.set_of_ne s₁ (Ne.symm hqt) c').trans ht₁)]
    refine .of_ok ?_
    have hq₂ : (s₁.set t { tb₁ with ref := u16 (tb₁.ref + 1) }).pbufs q = some c :=
      (Heap.set_of_ne s₁ hqt _).trans hq
    have hcounted := hc₂.link hq₂ hn hn' href
    unfold Heap.set at hcounted ⊢
    dsimp only at hcounted ⊢
    rwa [Function.update_comm hqt]

/-- `pbuf_dechain` gives back the reference of the link. -/
theorem pbufDechain_counted (hc : Counted own s) (hb : s.pbufs p = some b) :
    Ends Abort.ofCount (fun r => Counted own r.1) (pbufDechain s p) := by
  unfold pbufDechain
  rw [Heap.get_eq_ok.mpr hb]
  dsimp only [bind, Except.bind]
  cases hn : b.next with
  | none => exact (lwipAssert_ends rfl _).bind fun _ _ => .of_ok hc
  | some q =>
    obtain ⟨qb, hqb⟩ : ∃ qb, s.pbufs q = some qb := hc.of_succ ((Heap.succ_eq hb).trans hn)
    dsimp only
    rw [Heap.get_eq_ok.mpr hqb]
    refine (lwipAssert_ends rfl _).bind fun _ _ => ?_
    set s₁ := s.set q { qb with tot_len := u16sub b.tot_len b.len } with hs₁
    have hsame : SameLinks s s₁ := .set hqb rfl rfl
    have hc₁ : Counted own s₁ := hc.congr hsame
    obtain ⟨b₁, hb₁⟩ : ∃ b₁, s₁.pbufs p = some b₁ :=
      Option.isSome_iff_exists.mp (by rw [hsame.isSome, hb]; rfl)
    have hn₁ : b₁.next = some q := by
      rw [← Heap.succ_eq hb₁, hsame.succ, Heap.succ_eq hb, hn]
    rw [Heap.get_eq_ok.mpr hb₁]
    have hc₂ : Counted (gain own (some q))
        (s₁.set p { b₁ with next := none, tot_len := b₁.len }) := by
      rw [← hn₁]
      exact hc₁.unlink hb₁ rfl rfl
    have hown : 0 < gain own (some q) q := by
      unfold gain
      rw [hit_self]
      omega
    obtain ⟨s', k, hrun, hc', -⟩ := pbufFree_spec hc₂ hown
    dsimp only
    rw [hrun]
    rw [lose_gain] at hc'
    exact .of_ok hc'

/-- The loop of `pbuf_alloc`: the reference to the first pbuf goes to the caller, or the pbufs are
freed. -/
theorem pbufAllocLoop_counted {content : ℕ → ℕ → UInt8} {r : ℕ} {rb : Pbuf} {avail rem_len : ℕ}
    (hc : Counted (gain own (some p)) s) (hr : s.pbufs r = some rb) (hn : rb.next = none) :
    Ends Abort.ofCount (fun v => Counted (gain own v.2) v.1)
      (pbufAllocLoop content p avail s r rem_len) := by
  have hown : 0 < gain own (some p) p := by
    unfold gain
    rw [hit_self]
    omega
  induction avail generalizing s r rb rem_len with
  | zero =>
    unfold pbufAllocLoop
    split
    · exact .of_ok hc
    · obtain ⟨s', k, hrun, hc', -⟩ := pbufFree_spec hc hown
      dsimp only
      rw [hrun]
      rw [lose_gain, ← gain_none own] at hc'
      exact .of_ok hc'
  | succ avail ih =>
    unfold pbufAllocLoop
    split
    · exact .of_ok hc
    · dsimp only
      set qb : Pbuf :=
        { payload := 0, tot_len := u16 rem_len, len := min (u16 rem_len) PBUF_POOL_BUFSIZE,
          type := .POOL, mem := content s.fresh, size := PBUF_POOL_BUFSIZE } with hqb
      have hrf : r ≠ s.fresh := Nat.ne_of_lt (hc.lt hr)
      have hr₁ : (s.add qb).pbufs r = some rb := (Heap.add_of_ne s hrf qb).trans hr
      have hc₁ : Counted (gain (gain own (some p)) (some s.fresh)) (s.add qb) := hc.add rfl rfl
      rw [Heap.get_eq_ok.mpr hr₁]
      dsimp only [bind, Except.bind]
      have hc₂ : Counted (gain own (some p)) ((s.add qb).set r { rb with next := some s.fresh }) :=
        hc₁.link hr₁ hn rfl rfl
      refine (lwipAssert_ends rfl _).bind fun _ _ => ?_
      obtain ⟨pb, hpb⟩ := hc₂.of_own hown
      rw [Heap.get_eq_ok.mpr hpb]
      refine (lwipAssert_ends rfl _).bind fun _ _ => ?_
      refine ih hc₂ ?_ (rfl : qb.next = none)
      rw [Heap.set_of_ne _ (Ne.symm hrf), Heap.add_self]

/-- `pbuf_alloc` creates one reference, to the first pbuf of the chain. -/
theorem pbufAlloc_counted (hc : Counted own s) (layer : PbufLayer) (length : ℕ) (type : PbufType)
    (avail : ℕ) (content : ℕ → ℕ → UInt8) :
    Ends Abort.ofCount (fun v => Counted (gain own v.2) v.1)
      (pbufAlloc s layer length type avail content) := by
  unfold pbufAlloc
  cases avail with
  | zero =>
    refine .of_ok ?_
    rwa [gain_none]
  | succ avail =>
    cases type with
    | POOL =>
      refine (lwipAssert_ends rfl _).bind fun _ _ => (lwipAssert_ends rfl _).bind fun _ _ => ?_
      exact pbufAllocLoop_counted (hc.add rfl rfl) (Heap.add_self s _) rfl
    | RAM => exact .of_ok (hc.add rfl rfl)
    | ROM => exact .of_ok (hc.add rfl rfl)
    | REF => exact .of_ok (hc.add rfl rfl)

end Ops

/-! ## Runs -/

/-- Every chain comes to its end after at most 255 pbufs, as many as a `u8_t` counts. -/
def ShortChains (s : Heap) : Prop := ∀ p < s.fresh, (s.pbufs p).isSome → (s.chain 255 p).isSome

instance (s : Heap) : Decidable (ShortChains s) :=
  inferInstanceAs (Decidable (∀ p < s.fresh, (s.pbufs p).isSome → (s.chain 255 p).isSome))

/-- The callers own the references that they give away, and have pointers to pbufs that are
allocated; and there is room in the count for one more reference. -/
def Owned (s : Pbufs) : Op → Prop
  | .alloc .. => True
  | .ref p => (s.heap.pbufs p).isSome ∧ s.own p + s.heap.links p < 2^16 - 1
  | .cat h t => (s.heap.pbufs h).isSome ∧ 0 < s.own t
  | .chain h t => (s.heap.pbufs h).isSome ∧ (s.heap.pbufs t).isSome ∧
      s.own t + s.heap.links t < 2^16 - 1
  | .dechain p => (s.heap.pbufs p).isSome
  | .free p => 0 < s.own p
  | .realloc .. | .header .. | .coalesce .. => False

instance Owned.decidable (s : Pbufs) : (op : Op) → Decidable (Owned s op)
  | .alloc .. => .isTrue trivial
  | .ref p => inferInstanceAs (Decidable ((s.heap.pbufs p).isSome ∧ _ < _))
  | .cat h _ => inferInstanceAs (Decidable ((s.heap.pbufs h).isSome ∧ 0 < _))
  | .chain h t => inferInstanceAs
    (Decidable ((s.heap.pbufs h).isSome ∧ (s.heap.pbufs t).isSome ∧ _ < _))
  | .dechain p => inferInstanceAs (Decidable ((s.heap.pbufs p).isSome))
  | .free p => inferInstanceAs (Decidable (0 < s.own p))
  | .realloc .. | .header .. | .coalesce .. => .isFalse id

/-- An operation of holders who free at most what they own, on chains that are not too long. -/
def Lawful (s : Pbufs) (op : Op) : Prop := ShortChains s.heap ∧ Owned s op

instance (s : Pbufs) (op : Op) : Decidable (Lawful s op) :=
  inferInstanceAs (Decidable (ShortChains s.heap ∧ Owned s op))

/-- The counts are right, and no allocated pbuf links to one that is not. -/
structure RefsRight (s : Pbufs) : Prop where
  counted : Counted s.own s.heap
  next : ∀ p q, s.heap.succ p = some q → (s.heap.pbufs q).isSome

/-- `pbuf_free` returns the number of pbufs that it de-allocates. -/
def FreeReturns (s : Pbufs) : Op → Prop
  | .free p => ∃ heap count, pbufFree s.heap p = .ok (heap, count) ∧
      heap.allocated + count = s.heap.allocated
  | _ => True

/-- A short chain is a short walk. -/
theorem ShortChains.walk {s : Heap} {own : ℕ → ℕ} (hs : ShortChains s) (hc : Counted own s) {p : ℕ}
    {b : Pbuf} (hb : s.pbufs p = some b) : ∃ l, Walk s.succ (some p) l ∧ l.length ≤ 255 := by
  have hchain : (s.chain 255 p).isSome := hs p (hc.lt hb) (by rw [hb]; rfl)
  obtain ⟨l, hl⟩ := Option.isSome_iff_exists.mp hchain
  exact ⟨l, walk_eq_some.mp hl⟩

/-- One operation keeps the counts right. -/
theorem step_counted {s : Pbufs} {op : Op} (hc : Counted s.own s.heap) (h : Lawful s op) :
    Ends Abort.ofCount (fun s' => Counted s'.own s'.heap) (step s op) := by
  obtain ⟨hshort, howned⟩ := h
  cases op with
  | alloc layer length type avail content =>
    exact (pbufAlloc_counted hc layer length type avail content).bind fun _ hv => .of_ok hv
  | ref p =>
    obtain ⟨b, hb⟩ := Option.isSome_iff_exists.mp howned.1
    obtain ⟨s', hrun, hc'⟩ := pbufRef_spec hc hb howned.2
    unfold step
    dsimp only
    rw [hrun]
    exact .of_ok hc'
  | cat h t =>
    obtain ⟨b, hb⟩ := Option.isSome_iff_exists.mp howned.1
    obtain ⟨l, hw, -⟩ := hshort.walk hc hb
    exact (pbufCat_counted hc hw hb howned.2).bind fun _ hv => .of_ok hv
  | chain h t =>
    obtain ⟨b, hb⟩ := Option.isSome_iff_exists.mp howned.1
    obtain ⟨tb, ht⟩ := Option.isSome_iff_exists.mp howned.2.1
    obtain ⟨l, hw, -⟩ := hshort.walk hc hb
    exact (pbufChain_counted hc hw hb ht howned.2.2).bind fun _ hv => .of_ok hv
  | dechain p =>
    obtain ⟨b, hb⟩ := Option.isSome_iff_exists.mp howned
    exact (pbufDechain_counted hc hb).bind fun _ hv => .of_ok hv
  | free p =>
    obtain ⟨s', k, hrun, hc', -⟩ := pbufFree_spec hc howned
    unfold step
    dsimp only
    rw [hrun]
    exact .of_ok hc'
  | realloc p new_len => exact howned.elim
  | header p header_size_increment => exact howned.elim
  | coalesce p layer avail content => exact howned.elim

/-- The number of pbufs that are de-allocated fits into the `u8_t`, as they are pbufs of one
chain. -/
theorem freeReturns {s : Pbufs} {op : Op} (hc : Counted s.own s.heap) (h : Lawful s op) :
    FreeReturns s op := by
  obtain ⟨hshort, howned⟩ := h
  cases op with
  | free p =>
    obtain ⟨b, hb⟩ := hc.of_own howned
    obtain ⟨l, hw, hlen⟩ := hshort.walk hc hb
    obtain ⟨s', k, hrun, -, -, hk, hwalk⟩ := pbufFree_spec hc howned
    have hu8 : u8 k = k := Nat.mod_eq_of_lt (by have := (hwalk l hw).1; omega)
    rw [hu8] at hrun
    exact ⟨s', k, hrun, hk⟩
  | _ => trivial

/-- No pbufs. -/
theorem counted_init : Counted (fun _ => 0) {} := by
  refine ⟨fun i b hb => (by cases hb), fun i => ?_, fun i _ => rfl⟩
  exact iff_of_false (fun h => by cases h) (Nat.lt_irrefl 0)

/-- In every run of operations of holders who free at most what they own, every pbuf has as many
references as holders own and pbufs link to it, and is allocated exactly as long as it has one; no
pbuf links to one that is not allocated; the assertion of `pbuf_free` on the count does not fail,
and no pbuf is read after it was de-allocated; and `pbuf_free` returns the number of pbufs that it
de-allocates. -/
theorem refs_counted (ops : List Op) (h : Along step Lawful {} ops) :
    Always step RefsRight {} ops ∧ Avoids Abort.ofCount (run step {} ops) ∧
      Along step FreeReturns {} ops := by
  have hstep : ∀ (s : Pbufs) op s', Counted s.own s.heap → Lawful s op → step s op = .ok s' →
      Counted s'.own s'.heap := fun s op s' hc hl hs' => (step_counted hc hl).ok s' hs'
  refine ⟨?_, ?_, ?_⟩
  · intro ops' ops'' s hops hrun
    have hl : Along step Lawful {} ops' := (hops ▸ h).left
    have hc : Counted s.own s.heap := run_invariant hstep counted_init hl hrun
    exact ⟨hc, fun p q hq => Option.isSome_iff_exists.mpr (hc.of_succ hq)⟩
  · exact run_avoids hstep (fun s op hc hl => (step_counted hc hl).avoids) counted_init h
  · exact run_along hstep (fun s op hc hl => freeReturns hc hl) counted_init h

/-- A chain of three pbufs, shared in the middle, which one holder frees and another one
dechains. -/
def exampleSharing : List Op :=
  [.alloc .IP 100 .RAM 1 fun _ _ => 0, .alloc .RAW 1000 .POOL 2 fun _ _ => 1, .chain 0 1, .ref 1,
    .free 0, .alloc .RAW 8 .ROM 1 fun _ _ => 2, .cat 3 1, .free 1, .dechain 3, .free 3]

/-- The counts of the example are right all along. -/
theorem refs_counted_exampleSharing :
    Always step RefsRight {} exampleSharing ∧ Avoids Abort.ofCount (run step {} exampleSharing) ∧
      Along step FreeReturns {} exampleSharing :=
  refs_counted exampleSharing (by decide +kernel)

end Lwip.Pbuf
