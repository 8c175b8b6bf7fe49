import Lwip.Pbuf.Packet

/-!
# Shrinking a packet

`pbuf_realloc` leaves the first bytes of a packet (`pbufRealloc_right`). It frees the pbufs behind
the new last one while that one still links to them, which comes to the same as if the link had been
taken back first (`pbufFreeLoop_set`).
-/

namespace Lwip.Pbuf

section Realloc

variable {own : ℕ → ℕ} {s s' : Heap} {p q : ℕ} {b c : Pbuf} {l l' : List ℕ} {r : Option ℕ}

/-- The payload has `len` bytes. -/
theorem length_bytes (b : Pbuf) : b.bytes.length = b.len := by
  unfold Pbuf.bytes
  rw [List.length_map, List.length_range]

/-- The bytes of a pbuf that is allocated. -/
theorem Heap.bytesOf_eq (hb : s.pbufs p = some b) : s.bytesOf p = b.bytes := by
  unfold Heap.bytesOf
  rw [hb]
  rfl

/-- A packet depends on the bytes of its pbufs. -/
theorem Heap.packet_congr (h : ∀ i ∈ l, s'.bytesOf i = s.bytesOf i) : s'.packet l = s.packet l :=
  List.flatMap_congr h

/-- `tot_len` is the length of the packet. -/
theorem LensRight.length_packet (h : LensRight s)
    (hclosed : ∀ i j, s.succ i = some j → ∃ c, s.pbufs j = some c) (hw : Walk s.succ r l)
    (hr : ∀ p, r = some p → ∃ c, s.pbufs p = some c) : (s.packet l).length = s.totOf r := by
  induction hw with
  | nil => rfl
  | @cons p l hw ih =>
    obtain ⟨b, hb⟩ := hr p rfl
    have hsucc := Heap.succ_eq hb
    have hrest := ih (hclosed p)
    unfold Heap.packet at hrest ⊢
    rw [List.flatMap_cons, List.length_append, hrest, Heap.bytesOf_eq hb, Pbuf.length_bytes, hsucc,
      Heap.totOf_some hb, h.tot p b hb]

/-! ## Freeing behind a pbuf -/

/-- The loop of `pbuf_free` neither reads nor changes a pbuf that is not in the chain. -/
theorem pbufFreeLoop_set {fuel n : ℕ} (hw : Walk s.succ r l) (hq : q ∉ l) (c : Pbuf) :
    pbufFreeLoop fuel (s.set q c) r n = (pbufFreeLoop fuel s r n).map fun v =>
    (v.1.set q c, v.2) := by
  induction fuel generalizing s r l n with
  | zero => cases r <;> rfl
  | succ fuel ih =>
    cases hw with
    | nil => rfl
    | @cons p l hw =>
      rw [List.mem_cons, not_or] at hq
      obtain ⟨hqp, hql⟩ := hq
      have hp : p ∉ l := (Walk.cons hw).head_not_mem
      have hget : (s.set q c).get p = s.get p := by
        unfold Heap.get
        rw [Heap.set_of_ne s (Ne.symm hqp)]
      unfold pbufFreeLoop
      rw [hget]
      cases hb : s.pbufs p with
      | none =>
        have herr : s.get p = .error .dangling := by
          unfold Heap.get
          rw [hb]
        rw [herr]
        rfl
      | some b =>
        rw [Heap.get_eq_ok.mpr hb]
        dsimp only [bind, Except.bind]
        cases hass : lwipAssert Abort.refPositive (b.ref > 0) with
        | error a => rfl
        | ok u =>
          dsimp only
          split
          · -- The order in which two pbufs are assigned does not matter.
            have hcomm : (s.set q c).remove p = (s.remove p).set q c := by
              unfold Heap.remove Heap.set
              dsimp only
              rw [Function.update_comm (Ne.symm hqp)]
            rw [hcomm]
            apply ih _ hql
            rw [← Heap.succ_eq hb]
            refine hw.congr fun x hx => ?_
            have hxp : x ≠ p := fun hxp => hp (hxp ▸ hx)
            rw [Heap.succ_remove, Function.update_of_ne hxp]
          · have hcomm : (s.set q c).set p { b with ref := b.ref - 1 } =
                (s.set p { b with ref := b.ref - 1 }).set q c := by
              unfold Heap.set
              dsimp only
              rw [Function.update_comm (Ne.symm hqp)]
            rw [hcomm]
            rfl

/-- `pbuf_free` does not touch a pbuf that is not in the chain. -/
theorem pbufFreeLoop_self {fuel n : ℕ} {v : Heap × ℕ} (hw : Walk s.succ r l) (hq : q ∉ l)
    (hb : s.pbufs q = some b) (hrun : pbufFreeLoop fuel s r n = .ok v) : v.1.pbufs q = some b := by
  have hset : pbufFreeLoop fuel (s.set q b) r n =
      (pbufFreeLoop fuel s r n).map fun v => (v.1.set q b, v.2) := pbufFreeLoop_set hw hq b
  rw [Heap.set_eq_self hb, hrun] at hset
  have hv : v = (v.1.set q b, v.2) := Except.ok.inj hset
  rw [congrArg Prod.fst hv]
  exact Heap.set_self _ _ _

/-! ## The new last pbuf -/

/-- The memory of the new last pbuf is cut behind its bytes, or left as it is. -/
theorem shrinkLast_spec (hm : b.InMemory) {rem_len : ℕ} (hrem : rem_len ≤ b.len) :
    ∃ size, shrinkLast b rem_len = .ok { b with size } ∧ b.payload + rem_len ≤ size ∧
      size ≤ b.size := by
  obtain ⟨hrange, hsize, -⟩ := hm
  unfold shrinkLast
  split
  · next hram =>
    have hlt := hsize hram.1
    have hu16 : u16 (SIZEOF_STRUCT_PBUF + b.payload + rem_len) =
        SIZEOF_STRUCT_PBUF + b.payload + rem_len := Nat.mod_eq_of_lt (by omega)
    unfold memRealloc
    rw [hu16, (lwipAssert_eq_ok (u := ())).mpr (by omega)]
    refine ⟨b.payload + rem_len, ?_, Nat.le_refl _, by omega⟩
    dsimp only [bind, Except.bind]
    rw [Nat.add_assoc, Nat.add_sub_cancel_left]
  · exact ⟨b.size, rfl, by omega, Nat.le_refl _⟩

/-- The loop of `pbuf_realloc` comes to the new last pbuf. What it went through is shorter by `d`,
and what links to the last pbuf is ahead by it. -/
theorem pbufReallocLoop_lens (hc : Chains s.succ)
    (hclosed : ∀ i j, s.succ i = some j → ∃ c, s.pbufs j = some c) (hw : Walk s.succ (some p) l)
    (hb : s.pbufs p = some b) {d grow rem_len : ℕ} (hoff : LensOff s p (-d))
    (hgrow : ∀ x, d ≤ x → x < 2^16 → u16 (x + grow) = x - d) (hrem : b.tot_len = rem_len + d)
    {fuel : ℕ} (hfuel : l.length ≤ fuel) :
    ∃ s' rem' q c l₁ l₂, pbufReallocLoop grow fuel s rem_len p = .ok (s', rem', q) ∧
    SameLinks s s' ∧
      s'.pbufs q = some c ∧ rem' ≤ c.len ∧ c.tot_len = rem' + d ∧ LensOff s' q (-d) ∧
      l = l₁ ++ q :: l₂ ∧ (∀ i, s'.bytesOf i = s.bytesOf i) ∧
      (s.packet l₁).length + rem' = rem_len ∧ (l₁ = [] ∨ 0 < rem') := by
  induction fuel generalizing s p b l rem_len with
  | zero =>
    cases hw
    exact absurd hfuel (Nat.not_succ_le_zero _)
  | succ fuel ih =>
    unfold pbufReallocLoop
    rw [Heap.get_eq_ok.mpr hb]
    dsimp only [bind, Except.bind]
    have hpb : b.next ≠ some p := Heap.next_ne hc hb
    have htot := hoff.tot p b hb
    rw [if_neg hpb] at htot
    obtain ⟨hrange, hsize, hword⟩ := hoff.mem p b hb
    cases hw with
    | @cons _ l hw =>
      by_cases hmore : rem_len > b.len
      · rw [if_pos hmore]
        cases hn : b.next with
        | none =>
          rw [hn] at htot
          have hzero : s.totOf none = 0 := rfl
          omega
        | some q =>
          rw [hn] at hpb htot
          dsimp only
          have hu16 : u16 (b.tot_len + grow) = b.tot_len - d := hgrow _ (by omega) hword
          rw [hu16]
          set s₁ := s.set p { b with next := some q, tot_len := b.tot_len - d } with hs₁
          have hsame : SameLinks s s₁ := .set hb hn.symm rfl
          have hsucc : s.succ p = some q := (Heap.succ_eq hb).trans hn
          have hqp : q ≠ p := fun hqp => hpb (congrArg some hqp)
          obtain ⟨qb, hqb⟩ := hclosed p q hsucc
          rw [Heap.totOf_some hqb] at htot
          have hoff₁ : LensOff s₁ q (-d) := by
            refine hoff.set hb ?_ hpb ⟨hrange, hsize, ?_⟩ ?_ (PacketsRight.next_ne_of_ne hc hb hn)
            · dsimp only
              omega
            · dsimp only
              omega
            · rw [if_pos rfl, Heap.totOf_some hqb]
              dsimp only
              omega
          have hbytes₁ : ∀ i, s₁.bytesOf i = s.bytesOf i := by
            intro i
            by_cases hi : i = p
            · rw [hi, Heap.bytesOf_eq (Heap.set_self s p _), Heap.bytesOf_eq hb]
              rfl
            · unfold Heap.bytesOf
              rw [Heap.set_of_ne s hi]
          have hclosed₁ : ∀ i j, s₁.succ i = some j → ∃ c, s₁.pbufs j = some c := by
            intro i j hij
            rw [hsame.succ] at hij
            obtain ⟨c, hc⟩ := hclosed i j hij
            exact Option.isSome_iff_exists.mp (by rw [hsame.isSome, hc]; rfl)
          obtain ⟨s', rem', r, c, l₁, l₂, hrun, hsame', hr, hle, hctot, hoff',
              hl, hbytes, hlen, hpos⟩ :=
            ih (by rwa [hsame.succ]) hclosed₁ (by rwa [hsame.succ, ← hsucc])
              ((Heap.set_of_ne s hqp _).trans hqb) hoff₁
              (by omega : qb.tot_len = rem_len - b.len + d) (Nat.le_of_succ_le_succ hfuel)
          refine ⟨s', rem', r, c, p :: l₁, l₂, hrun, hsame.trans hsame', hr, hle, hctot, hoff', ?_,
            fun i => (hbytes i).trans (hbytes₁ i), ?_, .inr ?_⟩
          · rw [hl, List.cons_append]
          · have hpacket : s.packet (p :: l₁) = b.bytes ++ s₁.packet l₁ := by
              rw [Heap.packet_congr fun i _ => hbytes₁ i]
              unfold Heap.packet
              rw [List.flatMap_cons, Heap.bytesOf_eq hb]
            rw [hpacket, List.length_append, Pbuf.length_bytes]
            omega
          · -- The loop goes on only while there are bytes left to keep.
            obtain rfl | hpos := hpos
            · have hlen : rem' = rem_len - b.len := (Nat.zero_add rem').symm.trans hlen
              omega
            · exact hpos
      · rw [if_neg hmore]
        exact ⟨s, rem_len, p, b, [], l, rfl, .refl s, hb, by omega, hrem, hoff, rfl, fun _ => rfl,
          Nat.zero_add _, .inl rfl⟩

/-- The last assignment counts. -/
theorem Heap.set_set (s : Heap) (p : ℕ) (b c : Pbuf) : (s.set p b).set p c = s.set p c := by
  unfold Heap.set
  rw [Function.update_idem]

/-- The first bytes of a pbuf. -/
theorem bytes_take (b : Pbuf) {n : ℕ} (hn : n ≤ b.len) (next : Option ℕ) (tot_len size : ℕ) :
    { b with next, tot_len, size, len := n }.bytes = b.bytes.take n := by
  unfold Pbuf.bytes
  rw [← List.map_take, List.take_range, Nat.min_eq_left hn]

/-- The chain `l'` is the chain `l` cut behind `new_len` bytes: it ends in the pbuf that holds the
last of them. -/
def Shrunk (s s' : Heap) (new_len : ℕ) (l l' : List ℕ) : Prop :=
  ∃ l₁ q l₂ rem, l = l₁ ++ q :: l₂ ∧ l' = l₁ ++ [q] ∧ (∀ i ∈ l₁, s'.bytesOf i = s.bytesOf i) ∧
    s'.bytesOf q = (s.bytesOf q).take rem ∧ rem ≤ (s.bytesOf q).length ∧
    (s.packet l₁).length + rem = new_len ∧ (l₁ = [] ∨ 0 < rem)

/-- What the packet is then. -/
theorem Shrunk.packet {new_len : ℕ} (h : Shrunk s s' new_len l l') :
    s'.packet l' = (s.packet l).take new_len := by
  obtain ⟨l₁, q, l₂, rem, rfl, rfl, hother, hq, hrem, rfl, -⟩ := h
  have hl : s'.packet l₁ = s.packet l₁ := Heap.packet_congr hother
  calc s'.packet (l₁ ++ [q]) = s'.packet l₁ ++ s'.bytesOf q := by
        unfold Heap.packet
        rw [List.flatMap_append, List.flatMap_singleton]
    _ = s.packet l₁ ++ (s.bytesOf q).take rem := by rw [hl, hq]
    _ = s.packet l₁ ++ (s.bytesOf q ++ s.packet l₂).take rem := by
        rw [List.take_append_of_le_length hrem]
    _ = (s.packet l₁ ++ (s.bytesOf q ++ s.packet l₂)).take ((s.packet l₁).length + rem) :=
        (List.take_length_add_append rem).symm
    _ = (s.packet (l₁ ++ q :: l₂)).take ((s.packet l₁).length + rem) := by
        unfold Heap.packet
        rw [List.flatMap_append, List.flatMap_cons]

/-- `pbuf_realloc` of a packet that has more than `new_len` bytes cuts it. -/
theorem pbufRealloc_shrunk (hp : PacketsRight own s) (hb : s.pbufs p = some b) (htop : s.Top p)
    {new_len : ℕ} (hshort : new_len < b.tot_len) (hw : Walk s.succ (some p) l) :
    ∃ s' l', pbufRealloc s p new_len = .ok s' ∧ PacketsRight own s' ∧ Walk s'.succ (some p) l' ∧
      Shrunk s s' new_len l l' := by
  have hclosed : ∀ i j, s.succ i = some j → ∃ c, s.pbufs j = some c :=
    fun i j hij => hp.counted.of_succ hij
  unfold pbufRealloc
  rw [Heap.get_eq_ok.mpr hb]
  dsimp only [bind, Except.bind]
  rw [if_neg (Nat.not_le.mpr hshort)]
  obtain ⟨d, hd⟩ : ∃ d, b.tot_len = new_len + d := ⟨b.tot_len - new_len, by omega⟩
  have hword := (hp.lens.mem p b hb).word
  have hgrow : ∀ x, d ≤ x → x < 2^16 → u16 (x + u16sub new_len b.tot_len) = x - d := by
    intro x hdx hx
    unfold u16 u16sub
    omega
  obtain ⟨s₁, rem, q, c, l₁, l₂, hrun, hsame, hq, hrem, hctot, hoff, hl, hbytes, hlen, hpos⟩ :=
    pbufReallocLoop_lens hp.chains hclosed hw hb (hp.lens.off htop _) hgrow hd
      (Nat.le_succ_of_le (hp.counted.length_le hw hb))
  have hm := hoff.mem q c hq
  obtain ⟨size, hshrink, hend, hsize⟩ := shrinkLast_spec hm hrem
  have hcount₁ : Counted own s₁ := hp.counted.congr hsame
  have hsucc₁ : s₁.succ = s.succ := hsame.succ
  have hw₁ : Walk s₁.succ (some p) (l₁ ++ q :: l₂) := by rwa [hsucc₁, ← hl]
  have hnodup : (l₁ ++ q :: l₂).Nodup := hw₁.nodup
  have hql₂ : q ∉ l₂ := (List.nodup_cons.mp (List.nodup_append.mp hnodup).2.1).1
  have hl₁ : ∀ x ∈ l₁, x ≠ q ∧ x ∉ l₂ := by
    intro x hx
    have hdisj := (List.nodup_append.mp hnodup).2.2 x hx
    exact ⟨hdisj q List.mem_cons_self, fun hx₂ => hdisj x (List.mem_cons_of_mem q hx₂) rfl⟩
  -- The new last pbuf, with its link taken back.
  set c₃ : Pbuf := { c with next := none, size, len := rem, tot_len := rem } with hc₃
  have hlens : LensRight (s₁.set q c₃) := by
    refine hoff.right hq ?_ (fun hf => by cases hf) ⟨hend, fun hram => ?_, ?_⟩ rfl
    · show (rem : ℤ) = c.tot_len + -d
      omega
    · have hcsize := hm.size hram
      show SIZEOF_STRUCT_PBUF + size < 2^16
      omega
    · have hcword := hm.word
      show rem < 2^16
      omega
  have hchains : Chains (s₁.set q c₃).succ := by
    rw [Heap.succ_set, hsucc₁]
    refine hp.chains.sub fun i => ?_
    by_cases hi : i = q
    · right
      rw [hi, Function.update_self]
    · left
      rw [Function.update_of_ne hi]
  have hcut : ∀ s' : Heap, (∀ x ∈ l₁, s'.pbufs x = s₁.pbufs x) → s'.pbufs q = some c₃ →
      Walk s'.succ (some p) (l₁ ++ [q]) ∧ Shrunk s s' new_len l (l₁ ++ [q]) := by
    intro s' hother hself
    constructor
    · refine hw₁.cut (fun x hx => ?_) (Heap.succ_eq hself)
      unfold Heap.succ
      rw [hother x hx]
    · have hqbytes : s.bytesOf q = c.bytes := (hbytes q).symm.trans (Heap.bytesOf_eq hq)
      refine ⟨l₁, q, l₂, rem, hl, rfl, fun i hi => ?_, ?_, ?_, hlen, hpos⟩
      · rw [← hbytes i]
        unfold Heap.bytesOf
        rw [hother i hi]
      · rw [hqbytes, Heap.bytesOf_eq hself]
        exact c.bytes_take hrem _ _ _
      · rwa [hqbytes, Pbuf.length_bytes]
  rw [hrun]
  dsimp only
  rw [Heap.get_eq_ok.mpr hq]
  dsimp only
  rw [hshrink]
  dsimp only
  cases hn : c.next with
  | none =>
    have hsame₃ : SameLinks s₁ (s₁.set q c₃) := .set hq hn.symm rfl
    obtain ⟨hwalk, hshrunk⟩ := hcut (s₁.set q c₃)
      (fun x hx => Heap.set_of_ne s₁ (hl₁ x hx).1 c₃) (Heap.set_self s₁ q c₃)
    exact ⟨_, l₁ ++ [q], rfl, ⟨hcount₁.congr hsame₃, hlens, hchains⟩, hwalk, hshrunk⟩
  | some nx =>
    set c₂ : Pbuf := { c with next := some nx, size, len := rem, tot_len := rem } with hc₂
    have hsame₂ : SameLinks s₁ (s₁.set q c₂) := .set hq hn.symm rfl
    have hcount₃ : Counted (gain own (some nx)) (s₁.set q c₃) := by
      rw [← hn]
      exact hcount₁.unlink hq rfl rfl
    have hown : 0 < gain own (some nx) nx := by
      unfold gain
      rw [hit_self]
      omega
    have hw₂ : Walk s₁.succ (some nx) l₂ := by
      have hdrop := hw₁.drop
      rwa [Heap.succ_eq hq, hn] at hdrop
    have hw₃ : Walk (s₁.set q c₃).succ (some nx) l₂ := by
      refine hw₂.congr fun x hx => ?_
      have hxq : x ≠ q := fun hxq => hql₂ (hxq ▸ hx)
      rw [Heap.succ_set, Function.update_of_ne hxq]
    obtain ⟨s₄, k, hfree, hcount₄, hfreed, -, hrest⟩ := pbufFree_spec hcount₃ hown
    rw [lose_gain] at hcount₄
    obtain ⟨-, hsameRest⟩ := hrest l₂ hw₃
    have hright₄ : PacketsRight own s₄ :=
      PacketsRight.freed ⟨hcount₃, hlens, hchains⟩ hfreed hcount₄
    -- The code frees the rest of the chain first.
    have hfree₂ : ∃ v, pbufFree (s₁.set q c₂) nx = .ok v ∧ s₄ = v.1.set q c₃ := by
      have hset : pbufFree ((s₁.set q c₂).set q c₃) nx =
          (pbufFree (s₁.set q c₂) nx).map fun v => (v.1.set q c₃, v.2) :=
        pbufFreeLoop_set (by rwa [hsame₂.succ]) hql₂ c₃
      rw [Heap.set_set, hfree] at hset
      cases hv : pbufFree (s₁.set q c₂) nx with
      | error a =>
        rw [hv] at hset
        cases hset
      | ok v =>
        rw [hv] at hset
        exact ⟨v, rfl, congrArg Prod.fst (Except.ok.inj hset)⟩
    obtain ⟨v, hv, hs₄⟩ := hfree₂
    have hvq : v.1.pbufs q = some c₂ :=
      pbufFreeLoop_self (by rwa [hsame₂.succ]) hql₂ (Heap.set_self s₁ q c₂) hv
    obtain ⟨hwalk, hshrunk⟩ := hcut s₄
      (fun x hx => (hsameRest x (hl₁ x hx).2).trans (Heap.set_of_ne s₁ (hl₁ x hx).1 c₃))
      ((hsameRest q hql₂).trans (Heap.set_self s₁ q c₃))
    refine ⟨s₄, l₁ ++ [q], ?_, hright₄, hwalk, hshrunk⟩
    dsimp only
    rw [hv]
    dsimp only
    rw [Heap.get_eq_ok.mpr hvq, hs₄]

/-- `pbuf_realloc` of a packet leaves exactly its first bytes. -/
theorem pbufRealloc_right (hp : PacketsRight own s) (hb : s.pbufs p = some b) (htop : s.Top p)
    (new_len : ℕ) (hw : Walk s.succ (some p) l) :
    ∃ s' l', pbufRealloc s p new_len = .ok s' ∧ PacketsRight own s' ∧ Walk s'.succ (some p) l' ∧
      s'.packet l' = (s.packet l).take new_len := by
  obtain hshort | hlong := Nat.lt_or_ge new_len b.tot_len
  · obtain ⟨s', l', hrun, hright, hw', hshrunk⟩ := pbufRealloc_shrunk hp hb htop hshort hw
    exact ⟨s', l', hrun, hright, hw', hshrunk.packet⟩
  · refine ⟨s, l, ?_, hp, hw, (List.take_of_length_le ?_).symm⟩
    · unfold pbufRealloc
      rw [Heap.get_eq_ok.mpr hb]
      exact if_pos hlong
    · rw [hp.lens.length_packet (fun i j hij => hp.counted.of_succ hij) hw
        (by rintro _ ⟨⟩; exact ⟨b, hb⟩), Heap.totOf_some hb]
      exact hlong

end Realloc

end Lwip.Pbuf
