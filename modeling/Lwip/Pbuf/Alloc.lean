import Lwip.Pbuf.Packet

/-!
# New packets

`pbuf_alloc`. While the tail of a `PBUF_POOL` chain is allocated, the last pbuf of it is short of
the length that is still to come (`Growing`). If the pool gets empty, all the pbufs of the chain are
freed, since nothing but the chain refers to them, and no length is left that is wrong.
-/

namespace Lwip.Pbuf

section Alloc

variable {own : ℕ → ℕ} {s s' : Heap} {p q r f : ℕ} {b rb : Pbuf} {rem : ℕ}

/-- The pbufs do not link to one that is not there yet. -/
theorem Counted.next_ne_fresh (h : Counted own s) {i : ℕ} {c : Pbuf} (hi : s.pbufs i = some c) :
    c.next ≠ some s.fresh := by
  intro hn
  obtain ⟨c', hc'⟩ := h.of_succ ((Heap.succ_eq hi).trans hn)
  exact absurd (h.lt hc') (Nat.lt_irrefl _)

/-- A new pbuf does not change the links. -/
theorem Counted.succ_add (h : Counted own s) (hn : b.next = none) : (s.add b).succ = s.succ := by
  have hdead : s.succ s.fresh = none := by
    unfold Heap.succ
    rw [h.fresh _ (Nat.le_refl _), Option.bind_none]
  rw [Heap.succ_add, hn, ← hdead, Function.update_eq_self]

/-- A chain of new pbufs, from `p` to `r`, that `rem` bytes are still to be added to. The pbufs from
`f` on are new: only links of the chain lead to them, and the links lead upwards. -/
structure Growing (own : ℕ → ℕ) (s : Heap) (f p r rem : ℕ) : Prop where
  counted : Counted (gain own (some p)) s
  chains : Chains s.succ
  tot : ∀ i b, s.pbufs i = some b → b.tot_len = b.len + s.totOf b.next + if i = r then rem else 0
  mem : ∀ i b, s.pbufs i = some b → b.InMemory
  own : ∀ i, f ≤ i → own i = 0
  up : ∀ i j, s.succ i = some j → f ≤ j → f ≤ i ∧ i < j
  last : ∃ b, s.pbufs r = some b ∧ b.next = none
  first : ∃ b, s.pbufs p = some b ∧ b.payload + b.len ≤ PBUF_POOL_BUFSIZE
  ge : f ≤ p ∧ f ≤ r

/-- All is added. -/
theorem Growing.right (h : Growing own s f p r 0) : PacketsRight (gain own (some p)) s := by
  refine ⟨h.counted, ⟨fun i b hb => ?_, h.mem⟩, h.chains⟩
  have htot := h.tot i b hb
  split at htot <;> exact htot

/-- One more pbuf is added. -/
theorem Growing.add (h : Growing own s f p r rem) (hrb : s.pbufs r = some rb) (hword : rem < 2^16)
    (hb : b = { payload := 0, tot_len := u16 rem, len := min (u16 rem) PBUF_POOL_BUFSIZE,
                type := .POOL, mem := b.mem, size := PBUF_POOL_BUFSIZE }) :
    Growing own ((s.add b).set r { rb with next := some s.fresh }) f p s.fresh (rem - b.len) := by
  obtain ⟨rb', hrb', hrn⟩ := h.last
  obtain rfl := Option.some.inj (hrb.symm.trans hrb')
  obtain ⟨hfp, hfr⟩ := h.ge
  have hrlt : r < s.fresh := h.counted.lt hrb
  have hrf : r ≠ s.fresh := Nat.ne_of_lt hrlt
  have hu16 : u16 rem = rem := Nat.mod_eq_of_lt hword
  have hbn : b.next = none := by rw [hb]
  have hbtot : b.tot_len = rem := by rw [hb]; exact hu16
  have hblen : b.len = min rem PBUF_POOL_BUFSIZE := by rw [hb]; exact congrArg (min · _) hu16
  have hr₁ : (s.add b).pbufs r = some rb := (Heap.add_of_ne s hrf b).trans hrb
  set s₂ := (s.add b).set r { rb with next := some s.fresh } with hs₂
  have hfresh₂ : s₂.pbufs s.fresh = some b :=
    (Heap.set_of_ne _ (Ne.symm hrf) _).trans (Heap.add_self s b)
  have hself₂ : s₂.pbufs r = some { rb with next := some s.fresh } := Heap.set_self _ _ _
  have hother₂ : ∀ i, i ≠ r → i ≠ s.fresh → s₂.pbufs i = s.pbufs i :=
    fun i hir hif => (Heap.set_of_ne _ hir _).trans (Heap.add_of_ne s hif b)
  have hsucc₂ : s₂.succ = Function.update s.succ r (some s.fresh) := by
    rw [hs₂, Heap.succ_set, h.counted.succ_add hbn]
  -- Every `tot_len` is what it was, so every rest of a chain is as long as before.
  have htotOf : ∀ n, n ≠ some s.fresh → s₂.totOf n = s.totOf n := by
    intro n hn
    cases n with
    | none => rfl
    | some j =>
      have hjf : j ≠ s.fresh := fun hj => hn (congrArg some hj)
      by_cases hjr : j = r
      · rw [hjr, Heap.totOf_some hself₂, Heap.totOf_some hrb]
      · show ((s₂.pbufs j).map Pbuf.tot_len).getD 0 = ((s.pbufs j).map Pbuf.tot_len).getD 0
        rw [hother₂ j hjr hjf]
  have hfreshTop : ∀ i, s.succ i ≠ some s.fresh := by
    intro i hi
    obtain ⟨c, hc, hn⟩ := Heap.succ_eq_some.mp hi
    exact h.counted.next_ne_fresh hc hn
  constructor
  · exact (h.counted.add hbn (by rw [hb])).link hr₁ hrn rfl rfl
  · rw [hsucc₂]
    have hdead : s.succ s.fresh = none := by
      unfold Heap.succ
      rw [h.counted.fresh _ (Nat.le_refl _), Option.bind_none]
    refine h.chains.link hfreshTop (.cons (by rw [hdead]; exact .nil)) ?_
    rw [List.mem_singleton]
    exact hrf
  · intro i c hc
    by_cases hif : i = s.fresh
    · rw [hif, hfresh₂] at hc
      obtain rfl := Option.some.inj hc
      rw [hif, if_pos rfl, hbn, hbtot, hblen]
      have hzero : s₂.totOf none = 0 := rfl
      omega
    · rw [if_neg hif]
      by_cases hir : i = r
      · rw [hir, hself₂] at hc
        obtain rfl := Option.some.inj hc
        have htot := h.tot r rb hrb
        rw [if_pos rfl, hrn] at htot
        dsimp only
        rw [Heap.totOf_some hfresh₂, hbtot]
        have hzero : s.totOf none = 0 := rfl
        omega
      · rw [hother₂ i hir hif] at hc
        have htot := h.tot i c hc
        rw [if_neg hir] at htot
        rw [htotOf _ (h.counted.next_ne_fresh hc)]
        exact htot
  · intro i c hc
    by_cases hif : i = s.fresh
    · rw [hif, hfresh₂] at hc
      obtain rfl := Option.some.inj hc
      refine ⟨?_, fun hram => ?_, by omega⟩
      · rw [hb]
        show 0 + min (u16 rem) PBUF_POOL_BUFSIZE ≤ PBUF_POOL_BUFSIZE
        omega
      · rw [hb] at hram
        cases hram
    · by_cases hir : i = r
      · rw [hir, hself₂] at hc
        obtain rfl := Option.some.inj hc
        obtain ⟨h1, h2, h3⟩ := h.mem r rb hrb
        exact ⟨h1, h2, h3⟩
      · rw [hother₂ i hir hif] at hc
        exact h.mem i c hc
  · exact h.own
  · intro i j hij hj
    rw [hsucc₂] at hij
    by_cases hir : i = r
    · rw [hir, Function.update_self] at hij
      obtain rfl := Option.some.inj hij
      exact ⟨hir ▸ hfr, hir ▸ hrlt⟩
    · rw [Function.update_of_ne hir] at hij
      exact h.up i j hij hj
  · exact ⟨b, hfresh₂, hbn⟩
  · obtain ⟨pb, hpb, hle⟩ := h.first
    by_cases hpr : p = r
    · rw [hpr] at hpb ⊢
      obtain rfl := Option.some.inj (hrb.symm.trans hpb)
      exact ⟨_, hself₂, hle⟩
    · exact ⟨pb, (hother₂ p hpr (Nat.ne_of_lt (h.counted.lt hpb))).trans hpb, hle⟩
  · exact ⟨hfp, Nat.le_of_lt (Nat.lt_of_le_of_lt hfr hrlt)⟩

/-- The pool gets empty: of the new pbufs nothing is left. -/
theorem Growing.freed (h : Growing own s f p r rem) (hf : Freed s s') (hc : Counted own s') :
    PacketsRight own s' := by
  -- The lowest new pbuf that is left would have a link from a lower one.
  have hdead : ∀ i, f ≤ i → s'.pbufs i = none := by
    intro i
    induction i using Nat.strong_induction_on with
    | h i ih =>
      intro hfi
      by_contra hne
      obtain ⟨b', hb'⟩ := Option.ne_none_iff_exists'.mp hne
      have hlive := (hc.live i).mp (by rw [hb']; rfl)
      rw [h.own i hfi, Nat.zero_add] at hlive
      obtain ⟨j, -, hj⟩ := linksTo_pos_iff.mp hlive
      obtain ⟨c', hc', hn⟩ := Heap.succ_eq_some.mp hj
      obtain ⟨c, hc₀, heq⟩ := hf.pbufs j c' hc'
      have hj₀ : s.succ j = some i := by
        rw [Heap.succ_eq hc₀, ← hn, heq]
      obtain ⟨hfj, hji⟩ := h.up j i hj₀ hfi
      rw [ih j hji hfj] at hc'
      cases hc'
  refine ⟨hc, ⟨fun i b' hb' => ?_, fun i b' hb' => ?_⟩, hf.chains h.chains⟩
  · have hir : i ≠ r := by
      intro hir
      rw [hir, hdead r h.ge.2] at hb'
      cases hb'
    obtain ⟨b, hb, heq⟩ := hf.pbufs i b' hb'
    have htot := h.tot i b hb
    rw [if_neg hir] at htot
    rw [hf.totOf hc hb', heq]
    exact htot
  · obtain ⟨b, hb, heq⟩ := hf.pbufs i b' hb'
    obtain ⟨h1, h2, h3⟩ := h.mem i b hb
    rw [heq]
    exact ⟨h1, h2, h3⟩

/-- The loop of `pbuf_alloc`: all of the chain is allocated, or nothing. -/
theorem pbufAllocLoop_right {content : ℕ → ℕ → UInt8} {avail : ℕ} (h : Growing own s f p r rem)
    (hrem : rem < 2^16 - 1) :
    Ends Abort.ofPacket (fun v => PacketsRight (gain own v.2) v.1)
      (pbufAllocLoop content p avail s r rem) := by
  induction avail generalizing s r rem with
  | zero =>
    unfold pbufAllocLoop
    split
    · next hzero =>
      obtain rfl := hzero
      exact .of_ok h.right
    · have hown : 0 < gain own (some p) p := by
        unfold gain
        rw [hit_self]
        omega
      obtain ⟨s', k, hrun, hc', hfreed, -⟩ := pbufFree_spec h.counted hown
      rw [lose_gain] at hc'
      dsimp only
      rw [hrun]
      exact .of_ok (h.freed hfreed hc')
  | succ avail ih =>
    unfold pbufAllocLoop
    split
    · next hzero =>
      obtain rfl := hzero
      exact .of_ok h.right
    · obtain ⟨rb, hrb, -⟩ := h.last
      dsimp only
      set qb : Pbuf :=
        { payload := 0, tot_len := u16 rem, len := min (u16 rem) PBUF_POOL_BUFSIZE,
          type := .POOL, mem := content s.fresh, size := PBUF_POOL_BUFSIZE } with hqb
      have hgrow := h.add (b := qb) hrb (by omega) rfl
      have hr₁ : (s.add qb).pbufs r = some rb :=
        (Heap.add_of_ne s (Nat.ne_of_lt (h.counted.lt hrb)) qb).trans hrb
      obtain ⟨pb, hpb, hle⟩ := hgrow.first
      rw [Heap.get_eq_ok.mpr hr₁]
      dsimp only [bind, Except.bind]
      rw [(lwipAssert_eq_ok (u := ())).mpr (by omega : rem < 0xffff)]
      dsimp only
      rw [Heap.get_eq_ok.mpr hpb]
      dsimp only
      rw [(lwipAssert_eq_ok (u := ())).mpr hle]
      exact ih hgrow (by omega)

/-- The headers of a packet take 56 octets at most. -/
theorem PbufLayer.offset_le (layer : PbufLayer) : layer.offset ≤ 56 := by
  cases layer <;> decide

/-- A first new pbuf, that `rem` bytes are still to be added to. -/
theorem PacketsRight.grow (h : PacketsRight own s) (hn : b.next = none) (hr : b.ref = 1)
    (hm : b.InMemory) (ht : b.tot_len = b.len + rem) (hle : b.payload + b.len ≤ PBUF_POOL_BUFSIZE) :
    Growing own (s.add b) s.fresh s.fresh s.fresh rem := by
  have hsucc := h.counted.succ_add hn
  have htotOf : ∀ i c, s.pbufs i = some c → (s.add b).totOf c.next = s.totOf c.next := by
    intro i c hi
    cases hcn : c.next with
    | none => rfl
    | some q =>
      have hq : q ≠ s.fresh := fun hq => h.counted.next_ne_fresh hi (by rw [hcn, hq])
      show (((s.add b).pbufs q).map Pbuf.tot_len).getD 0 = ((s.pbufs q).map Pbuf.tot_len).getD 0
      rw [Heap.add_of_ne s hq]
  constructor
  · exact h.counted.add hn hr
  · rw [hsucc]
    exact h.chains
  · intro i c hi
    by_cases hif : i = s.fresh
    · rw [hif, Heap.add_self] at hi
      obtain rfl := Option.some.inj hi
      rw [if_pos hif, hn, ht]
      rfl
    · rw [Heap.add_of_ne s hif] at hi
      rw [if_neg hif, htotOf i c hi]
      exact h.lens.tot i c hi
  · intro i c hi
    by_cases hif : i = s.fresh
    · rw [hif, Heap.add_self] at hi
      obtain rfl := Option.some.inj hi
      exact hm
    · rw [Heap.add_of_ne s hif] at hi
      exact h.lens.mem i c hi
  · intro i hi
    by_contra hpos
    have hlive := (h.counted.live i).mpr (by omega)
    rw [h.counted.fresh i hi] at hlive
    cases hlive
  · intro i j hij hj
    rw [hsucc] at hij
    obtain ⟨c, hc⟩ := h.counted.of_succ hij
    exact absurd (h.counted.lt hc) (Nat.not_lt.mpr hj)
  · exact ⟨b, Heap.add_self s b, hn⟩
  · exact ⟨b, Heap.add_self s b, hle⟩
  · exact ⟨Nat.le_refl _, Nat.le_refl _⟩

/-- A new pbuf that is a packet. -/
theorem PacketsRight.add (h : PacketsRight own s) (hn : b.next = none) (hr : b.ref = 1)
    (hm : b.InMemory) (ht : b.tot_len = b.len) :
    PacketsRight (gain own (some s.fresh)) (s.add b) := by
  refine ⟨h.counted.add hn hr, h.lens.add (fun i c hi => h.counted.next_ne_fresh hi) hn hm ht, ?_⟩
  rw [h.counted.succ_add hn]
  exact h.chains

/-- `pbuf_alloc` of a packet that is not too long. -/
theorem pbufAlloc_right (h : PacketsRight own s) (layer : PbufLayer) {length : ℕ} (type : PbufType)
    (avail : ℕ) (content : ℕ → ℕ → UInt8) (hlen : length ≤ 60000) :
    Ends Abort.ofPacket (fun v => PacketsRight (gain own v.2) v.1)
      (pbufAlloc s layer length type avail content) := by
  have hoff := layer.offset_le
  unfold pbufAlloc
  cases avail with
  | zero => exact .of_ok h
  | succ avail =>
    have hext : ∀ type, type ≠ .RAM → PacketsRight (gain own (some s.fresh))
        (s.add { payload := 0, tot_len := length, len := length, type, mem := content s.fresh,
                 size := length }) := by
      intro type htype
      refine h.add rfl rfl ⟨?_, fun hram => absurd hram htype, ?_⟩ rfl
      · exact Nat.le_of_eq (Nat.zero_add length)
      · exact Nat.lt_of_le_of_lt hlen (by decide)
    cases type with
    | ROM => exact .of_ok (hext .ROM (by decide))
    | REF => exact .of_ok (hext .REF (by decide))
    | RAM =>
      have hu16 : u16 (SIZEOF_STRUCT_PBUF + layer.offset + length) =
          SIZEOF_STRUCT_PBUF + layer.offset + length :=
        Nat.mod_eq_of_lt (by unfold SIZEOF_STRUCT_PBUF; omega)
      have hsize : u16 (SIZEOF_STRUCT_PBUF + layer.offset + length) - SIZEOF_STRUCT_PBUF =
          layer.offset + length := by
        rw [hu16]
        omega
      dsimp only
      rw [hsize]
      refine .of_ok (h.add rfl rfl ⟨Nat.le_refl _, fun _ => ?_, ?_⟩ rfl)
      · show SIZEOF_STRUCT_PBUF + (layer.offset + length) < 2^16
        unfold SIZEOF_STRUCT_PBUF
        omega
      · exact Nat.lt_of_le_of_lt hlen (by decide)
    | POOL =>
      have hfit : layer.offset + min length (PBUF_POOL_BUFSIZE - layer.offset) ≤
          PBUF_POOL_BUFSIZE := by
        unfold PBUF_POOL_BUFSIZE
        omega
      have hpos : PBUF_POOL_BUFSIZE - layer.offset > 0 := by
        unfold PBUF_POOL_BUFSIZE
        omega
      dsimp only
      rw [(lwipAssert_eq_ok (u := ())).mpr hfit, (lwipAssert_eq_ok (u := ())).mpr hpos]
      set b : Pbuf :=
        { payload := layer.offset, tot_len := length,
          len := min length (PBUF_POOL_BUFSIZE - layer.offset), type := .POOL,
          mem := content s.fresh, size := PBUF_POOL_BUFSIZE } with hb
      have hblen : b.len ≤ length := Nat.min_le_left _ _
      have hm : b.InMemory :=
        ⟨hfit, fun hram => (by cases hram), Nat.lt_of_le_of_lt hlen (by decide)⟩
      have hgrow : Growing own (s.add b) s.fresh s.fresh s.fresh (length - b.len) :=
        h.grow rfl rfl hm (by show length = b.len + (length - b.len); omega) hfit
      exact pbufAllocLoop_right hgrow (by omega)

end Alloc

end Lwip.Pbuf
