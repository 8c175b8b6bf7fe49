import Lwip.Pbuf.Lens

/-!
# Packets of one chain

The operations of `pbuf.c` on the heads of chains that are not shared in the middle. They keep the
counts, the lengths and the chains apart (`PacketsRight`).
-/

namespace Lwip.Pbuf

/-- The reasons to stop that do not arise: all but those of a `pbuf_header` that would hide more
than there is, and of a `pbuf_copy` from a chain that ends with an empty pbuf. -/
def Abort.ofPacket : Abort → Bool
  | .headerLen | .copyTo | .copyQueue => false
  | _ => true

/-- The counts and the lengths are right, and no two pbufs link to one. -/
structure PacketsRight (own : ℕ → ℕ) (s : Heap) : Prop where
  counted : Counted own s
  lens : LensRight s
  chains : Chains s.succ

section Ops

variable {own own' : ℕ → ℕ} {s s' : Heap} {p q h t : ℕ} {b c tb : Pbuf} {l lt : List ℕ}

/-- What is freed leaves the other packets right. -/
theorem PacketsRight.freed (hp : PacketsRight own s) (hf : Freed s s') (hc : Counted own' s') :
    PacketsRight own' s' := ⟨hc, hp.lens.freed hf hc, hf.chains hp.chains⟩

/-- No pbuf links to itself. -/
theorem PacketsRight.next_ne (hp : PacketsRight own s) (hb : s.pbufs p = some b) :
    b.next ≠ some p := Heap.next_ne hp.chains hb

/-- Two pbufs that link to one are one. -/
theorem PacketsRight.next_ne_of_ne (hp : Chains s.succ) (hb : s.pbufs p = some b)
    (hn : b.next = some q) : ∀ i c, i ≠ p → s.pbufs i = some c → c.next ≠ some q := by
  intro i c hi hc hcn
  exact hi (hp.apart i p q ((Heap.succ_eq hc).trans hcn) ((Heap.succ_eq hb).trans hn))

/-! ## Headers -/

/-- A header is revealed or hidden in the first pbuf of a packet. -/
theorem PacketsRight.addHeader (hp : PacketsRight own s) (hb : s.pbufs p = some b) (htop : s.Top p)
    {inc : ℤ} (hlen : 0 ≤ b.len + inc) (hpay : inc ≤ b.payload) (hfit : b.tot_len + inc < 2^16) :
    PacketsRight own (s.set p (b.addHeader inc)) := by
  have htot := hp.lens.tot p b hb
  obtain ⟨hrange, hsize, hword⟩ := hp.lens.mem p b hb
  have hlen' : ((b.addHeader inc).len : ℤ) = b.len + inc := by
    show (((b.len + inc) % 2^16).toNat : ℤ) = b.len + inc
    omega
  have htot' : ((b.addHeader inc).tot_len : ℤ) = b.tot_len + inc := by
    show (((b.tot_len + inc) % 2^16).toNat : ℤ) = b.tot_len + inc
    omega
  have hpay' : ((b.addHeader inc).payload : ℤ) = b.payload - inc := by
    show (((b.payload : ℤ) - inc).toNat : ℤ) = b.payload - inc
    omega
  have hsame : SameLinks s (s.set p (b.addHeader inc)) := .set hb rfl rfl
  refine ⟨hp.counted.congr hsame,
    hp.lens.set htop hb (hp.next_ne hb : b.next ≠ _) ⟨?_, hsize, ?_⟩ ?_, ?_⟩
  · show (b.addHeader inc).payload + (b.addHeader inc).len ≤ b.size
    omega
  · omega
  · show (b.addHeader inc).tot_len = (b.addHeader inc).len + s.totOf b.next
    omega
  · rw [hsame.succ]
    exact hp.chains

/-- `pbuf_header` on a packet that stays short enough, if there is room for the header. If it fails,
it changes nothing. -/
theorem pbufHeader_right (hp : PacketsRight own s) (hb : s.pbufs p = some b) (htop : s.Top p)
    {inc : ℤ} (htot : b.tot_len < 2^16)
    (hfit : b.type = .RAM ∨ b.type = .POOL → inc ≤ b.payload → b.tot_len + inc < 2^16) :
    Ends Abort.ofPacket (fun v => PacketsRight own v.1 ∧ (v.2 = true → v.1 = s))
      (pbufHeader s p inc) := by
  unfold pbufHeader
  rw [Heap.get_eq_ok.mpr hb]
  dsimp only [bind, Except.bind]
  split
  · exact .of_ok ⟨hp, fun _ => rfl⟩
  refine (lwipAssert_ends rfl _).bind fun _ hhide => ?_
  have hlen : 0 ≤ b.len + inc := by
    by_cases hneg : inc < 0
    · have hle := hhide hneg
      omega
    · omega
  -- A buffer of its own has a beginning, and the memory of someone else must not grow.
  have hmem : b.type = .RAM ∨ b.type = .POOL →
      Ends Abort.ofPacket (fun v => PacketsRight own v.1 ∧ (v.2 = true → v.1 = s))
        (if (b.payload : ℤ) - inc < 0 then .ok (s, true)
        else .ok (s.set p (b.addHeader inc), false)) := by
    intro htype
    split
    · exact .of_ok ⟨hp, fun _ => rfl⟩
    · exact .of_ok ⟨hp.addHeader hb htop hlen (by omega) (hfit htype (by omega)),
        fun hf => by cases hf⟩
  have hext : Ends Abort.ofPacket (fun v => PacketsRight own v.1 ∧ (v.2 = true → v.1 = s))
      (if inc < 0 ∧ inc.natAbs ≤ b.len then .ok (s.set p (b.addHeader inc), false)
        else .ok (s, true)) := by
    split
    · exact .of_ok ⟨hp.addHeader hb htop hlen (by omega) (by omega), fun hf => by cases hf⟩
    · exact .of_ok ⟨hp, fun _ => rfl⟩
  cases htype : b.type with
  | RAM => exact hmem (.inl htype)
  | POOL => exact hmem (.inr htype)
  | ROM => exact hext
  | REF => exact hext

/-! ## Concatenation -/

/-- The loop of `pbuf_cat`: the pbufs behind it have the length of the tail already, and what links
to the place of the loop is ahead by it. -/
theorem pbufCatLoop_lens (hc : Chains s.succ)
    (hclosed : ∀ i j, s.succ i = some j → ∃ c, s.pbufs j = some c)
    (hw : Walk s.succ (some p) l) (hb : s.pbufs p = some b) (ht : s.pbufs t = some tb) (htl : t ∉ l)
    (hoff : LensOff s p tb.tot_len) (hfit : b.tot_len + tb.tot_len < 2^16) {fuel : ℕ}
    (hfuel : l.length ≤ fuel) :
    ∃ s' q c, pbufCatLoop t fuel s p = .ok (s', q) ∧ SameLinks s s' ∧ s'.pbufs q = some c ∧
      c.next = none ∧ q ∈ l ∧ s'.pbufs t = some tb ∧ LensOff s' q tb.tot_len ∧
      c.tot_len + tb.tot_len < 2^16 := by
  induction fuel generalizing s p b l with
  | zero =>
    cases hw
    exact absurd hfuel (Nat.not_succ_le_zero _)
  | succ fuel ih =>
    unfold pbufCatLoop
    rw [Heap.get_eq_ok.mpr hb]
    dsimp only [bind, Except.bind]
    have hpb : b.next ≠ some p := Heap.next_ne hc hb
    have htot := hoff.tot p b hb
    rw [if_neg hpb] at htot
    obtain ⟨hrange, hsize, hword⟩ := hoff.mem p b hb
    cases hn : b.next with
    | none =>
      cases hw
      exact ⟨s, p, b, rfl, .refl s, hb, hn, List.mem_cons_self, ht, hoff, hfit⟩
    | some q =>
      rw [hn] at hpb htot
      cases hw with
      | @cons _ l hw =>
        dsimp only
        rw [Heap.get_eq_ok.mpr ht]
        dsimp only
        have hu16 : u16 (b.tot_len + tb.tot_len) = b.tot_len + tb.tot_len := Nat.mod_eq_of_lt hfit
        rw [hu16]
        set s₁ := s.set p { b with next := some q, tot_len := b.tot_len + tb.tot_len } with hs₁
        have hsame : SameLinks s s₁ := .set hb hn.symm rfl
        have hsucc : s.succ p = some q := (Heap.succ_eq hb).trans hn
        have htp : t ≠ p := fun htp => htl (htp ▸ List.mem_cons_self)
        have hqp : q ≠ p := fun hqp => hpb (congrArg some hqp)
        obtain ⟨qb, hqb⟩ := hclosed p q hsucc
        rw [Heap.totOf_some hqb] at htot
        have hoff₁ : LensOff s₁ q tb.tot_len := by
          refine hoff.set hb ?_ hpb ⟨hrange, hsize, hfit⟩ ?_ (PacketsRight.next_ne_of_ne hc hb hn)
          · push_cast
            rfl
          · rw [if_pos rfl, Heap.totOf_some hqb]
            push_cast
            omega
        obtain ⟨s', r, c, hrun, hsame', hr, hrn, hrl, hrest⟩ :=
          ih (by rwa [hsame.succ]) (fun i j hij => by
              rw [hsame.succ] at hij
              exact Option.isSome_iff_exists.mp
                (by rw [hsame.isSome, (hclosed i j hij).choose_spec]; rfl))
            (by rwa [hsame.succ, ← hsucc]) ((Heap.set_of_ne s hqp _).trans hqb)
            ((Heap.set_of_ne s htp _).trans ht)
            (fun htl' => htl (List.mem_cons_of_mem p htl')) hoff₁
            (by omega) (Nat.le_of_succ_le_succ hfuel)
        exact ⟨s', r, c, hrun, hsame.trans hsame', hr, hrn, List.mem_cons_of_mem p hrl, hrest⟩

/-- `pbuf_cat` of two packets that are not too long. -/
theorem pbufCat_lens (hp : PacketsRight own s) (hb : s.pbufs h = some b) (ht : s.pbufs t = some tb)
    (hh : s.Top h) (htop : s.Top t) (hne : h ≠ t) (hfit : b.tot_len + tb.tot_len < 2^16) :
    ∃ s', pbufCat s h t = .ok s' ∧ LensRight s' ∧ Chains s'.succ ∧ (s'.pbufs t).isSome := by
  obtain ⟨l, hw⟩ := hp.chains.ends h
  obtain ⟨lt, hwt⟩ := hp.chains.ends t
  have htl : t ∉ l := Chains.head_not_mem htop (Ne.symm hne) hw
  have hclosed : ∀ i j, s.succ i = some j → ∃ c, s.pbufs j = some c :=
    fun i j hij => hp.counted.of_succ hij
  obtain ⟨s₁, q, c, hrun, hsame, hq, hn, hql, ht₁, hoff, hfit₁⟩ :=
    pbufCatLoop_lens hp.chains hclosed hw hb ht htl (hp.lens.off hh _) hfit
      (Nat.le_succ_of_le (hp.counted.length_le hw hb))
  have htot := hoff.tot q c hq
  rw [hn, if_neg (fun hf => by cases hf)] at htot
  have hlast : c.tot_len = c.len := by
    have hzero : s₁.totOf none = 0 := rfl
    omega
  have hqt : q ≠ t := fun hqt => htl (hqt ▸ hql)
  obtain ⟨hrange, hsize, hword⟩ := hoff.mem q c hq
  refine ⟨s₁.set q { c with tot_len := c.tot_len + tb.tot_len, next := some t }, ?_, ?_, ?_, ?_⟩
  · unfold pbufCat
    rw [hrun]
    dsimp only [bind, Except.bind]
    rw [Heap.get_eq_ok.mpr hq]
    dsimp only
    rw [(lwipAssert_eq_ok (u := ())).mpr hlast, Heap.get_eq_ok.mpr ht₁]
    have hu16 : u16 (c.tot_len + tb.tot_len) = c.tot_len + tb.tot_len := Nat.mod_eq_of_lt hfit₁
    dsimp only
    rw [hu16]
  · refine hoff.right hq (by push_cast; rfl) (fun heq => hqt (Option.some.inj heq).symm)
      ⟨hrange, hsize, hfit₁⟩ ?_
    rw [Heap.totOf_some ht₁, ← hlast]
  · rw [Heap.succ_set, hsame.succ]
    refine hp.chains.link htop hwt ?_
    exact hp.chains.disjoint hh htop hne hw hwt q hql
  · rw [Heap.set_of_ne _ (Ne.symm hqt), ht₁]
    rfl

/-- `pbuf_cat` leaves one packet, if it fits into `tot_len`. -/
theorem pbufCat_right (hp : PacketsRight own s) (hb : s.pbufs h = some b) (ht : s.pbufs t = some tb)
    (hh : s.Top h) (htop : s.Top t) (hne : h ≠ t) (hfit : b.tot_len + tb.tot_len < 2^16)
    (hown : 0 < own t) : Ends Abort.ofPacket (PacketsRight (lose own t)) (pbufCat s h t) := by
  obtain ⟨s', hrun, hlens, hchains, -⟩ := pbufCat_lens hp hb ht hh htop hne hfit
  obtain ⟨l, hw⟩ := hp.chains.ends h
  rw [hrun]
  exact .of_ok ⟨(pbufCat_counted hp.counted hw hb hown).ok s' hrun, hlens, hchains⟩

/-- `pbuf_chain` leaves one packet, if it fits into `tot_len`. -/
theorem pbufChain_right (hp : PacketsRight own s) (hb : s.pbufs h = some b)
    (ht : s.pbufs t = some tb)
    (hh : s.Top h) (htop : s.Top t) (hne : h ≠ t) (hfit : b.tot_len + tb.tot_len < 2^16)
    (hroom : own t + s.links t < 2^16 - 1) :
    Ends Abort.ofPacket (PacketsRight own) (pbufChain s h t) := by
  obtain ⟨s₁, hrun, hlens, hchains, hsome⟩ := pbufCat_lens hp hb ht hh htop hne hfit
  obtain ⟨l, hw⟩ := hp.chains.ends h
  obtain ⟨tb₁, ht₁⟩ := Option.isSome_iff_exists.mp hsome
  have hchain : pbufChain s h t = .ok (s₁.set t { tb₁ with ref := u16 (tb₁.ref + 1) }) := by
    unfold pbufChain pbufRef
    rw [hrun]
    dsimp only [bind, Except.bind]
    rw [Heap.get_eq_ok.mpr ht₁]
  rw [hchain]
  refine .of_ok ⟨(pbufChain_counted hp.counted hw hb ht hroom).ok _ hchain, ?_, ?_⟩
  · exact hlens.congr (SameLens.set ht₁ _ _)
  · have hsucc : (s₁.set t { tb₁ with ref := u16 (tb₁.ref + 1) }).succ = s₁.succ := by
      rw [Heap.succ_set, ← Heap.succ_eq ht₁, Function.update_eq_self]
    rwa [hsucc]

/-! ## Dechaining -/

/-- To assign what is there changes nothing. -/
theorem Heap.set_eq_self (hb : s.pbufs p = some b) : s.set p b = s := by
  unfold Heap.set
  rw [← hb, Function.update_eq_self]

/-- `pbuf_dechain` of the first pbuf of a packet. -/
theorem pbufDechain_right (hp : PacketsRight own s) (hb : s.pbufs p = some b) (htop : s.Top p) :
    Ends Abort.ofPacket (fun v => PacketsRight own v.1) (pbufDechain s p) := by
  have htot := hp.lens.tot p b hb
  obtain ⟨hrange, hsize, hword⟩ := hp.lens.mem p b hb
  unfold pbufDechain
  rw [Heap.get_eq_ok.mpr hb]
  dsimp only [bind, Except.bind]
  cases hn : b.next with
  | none =>
    have halone : b.tot_len = b.len := by rwa [hn] at htot
    dsimp only
    rw [(lwipAssert_eq_ok (u := ())).mpr halone]
    exact .of_ok hp
  | some q =>
    obtain ⟨qb, hqb⟩ : ∃ qb, s.pbufs q = some qb := hp.counted.of_succ ((Heap.succ_eq hb).trans hn)
    rw [hn, Heap.totOf_some hqb] at htot
    have hassert : (qb.tot_len : ℤ) = (b.tot_len : ℤ) - b.len := by omega
    -- The assignment of `q->tot_len` enforces what is so.
    have hsub : u16sub b.tot_len b.len = qb.tot_len := by
      unfold u16sub
      omega
    have hsame : s.set q { qb with tot_len := u16sub b.tot_len b.len } = s := by
      rw [hsub]
      exact Heap.set_eq_self hqb
    dsimp only
    rw [Heap.get_eq_ok.mpr hqb]
    dsimp only
    rw [(lwipAssert_eq_ok (u := ())).mpr hassert]
    dsimp only
    rw [hsame, Heap.get_eq_ok.mpr hb]
    dsimp only
    set s₂ := s.set p { b with next := none, tot_len := b.len } with hs₂
    have hcount₂ : Counted (gain own (some q)) s₂ := by
      rw [← hn]
      exact hp.counted.unlink hb rfl rfl
    have hright₂ : PacketsRight (gain own (some q)) s₂ := by
      refine ⟨hcount₂, ?_, hp.chains.sub fun i => ?_⟩
      · refine hp.lens.set htop hb (fun hf => by cases hf) ⟨hrange, hsize, ?_⟩ rfl
        show b.len < 2^16
        omega
      · rw [hs₂, Heap.succ_set]
        by_cases hi : i = p
        · right
          rw [hi, Function.update_self]
        · left
          rw [Function.update_of_ne hi]
    have hown : 0 < gain own (some q) q := by
      unfold gain
      rw [hit_self]
      omega
    obtain ⟨s', k, hrun, hc', hfreed, -⟩ := pbufFree_spec hcount₂ hown
    rw [lose_gain] at hc'
    rw [hrun]
    exact .of_ok (hright₂.freed hfreed hc')

end Ops

end Lwip.Pbuf
