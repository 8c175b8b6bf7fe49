import Lwip.Pbuf.Alloc
import Lwip.Pbuf.Realloc

/-!
# Runs on single packets

The operations of `pbuf.c` on the heads of chains that hold one packet each. All lengths are right
in every state of every run, as long as `pbuf_header` does not reveal so much that the packet no
longer fits into `tot_len` (`packets_right`). `pbuf.c` does not test for that: `header_wraps` has a
packet of 60000 bytes with a hidden header of 12000.
-/

namespace Lwip.Pbuf

section Copy

variable {own : ℕ → ℕ} {s s' : Heap} {p q : ℕ} {b c : Pbuf} {l : List ℕ}

/-! ## Copies -/

/-- A copy changes the content of the memory only. -/
structure Copied (s s' : Heap) : Prop where
  links : SameLinks s s'
  lens : SameLens s s'

/-- What is copied in two steps. -/
theorem Copied.trans {s'' : Heap} (h : Copied s s') (h' : Copied s' s'') : Copied s s'' :=
  ⟨h.links.trans h'.links, h.lens.trans h'.lens⟩

/-- A write to a pbuf is a copy. -/
theorem Copied.write (hb : s.pbufs p = some b) (i len : ℕ) (src : ℕ → UInt8) :
    Copied s (s.set p (b.write i len src)) := ⟨.set hb rfl rfl, SameLens.set hb b.ref _⟩

/-- A copy leaves all packets right. -/
theorem PacketsRight.copied (h : PacketsRight own s) (hc : Copied s s') : PacketsRight own s' := by
  refine ⟨h.counted.congr hc.links, h.lens.congr hc.lens, ?_⟩
  rw [hc.links.succ]
  exact h.chains

/-- The test for packet queues reads an allocated pbuf, or `NULL`. -/
theorem checkQueue_ends {r : Option ℕ} (hr : ∀ p, r = some p → ∃ b, s.pbufs p = some b) :
    Ends Abort.ofPacket (fun _ => True) (checkQueue s r) := by
  cases r with
  | none => exact .of_ok trivial
  | some p =>
    obtain ⟨b, hb⟩ := hr p rfl
    unfold checkQueue
    dsimp only
    rw [Heap.get_eq_ok.mpr hb]
    exact (lwipAssert_ends rfl _).mono fun _ _ => trivial

/-- Where a copy goes on in a chain: behind the `o` bytes of `q` that are done, or with the next
pbuf, if `q` is done. -/
theorem copyNext_spec {o : ℕ} (hclosed : ∀ i j, s.succ i = some j → ∃ c, s.pbufs j = some c)
    (hw : Walk s.succ (some q) l) (hb : s.pbufs q = some b) (ho : o ≤ b.len) :
    ∃ l', Walk s.succ (if o = b.len then (b.next, 0) else (some q, o)).1 l' ∧
      l'.length + (if o = b.len then 1 else 0) ≤ l.length ∧
      ∀ q', (if o = b.len then (b.next, 0) else (some q, o)).1 = some q' →
        ∃ c, s.pbufs q' = some c ∧ (if o = b.len then (b.next, 0) else (some q, o)).2 ≤ c.len := by
  by_cases hdone : o = b.len
  · rw [if_pos hdone, if_pos hdone]
    cases hw with
    | @cons _ l hw =>
      rw [Heap.succ_eq hb] at hw
      refine ⟨l, hw, Nat.le_refl _, fun q' hq' => ?_⟩
      obtain ⟨c, hc⟩ := hclosed q q' ((Heap.succ_eq hb).trans hq')
      exact ⟨c, hc, Nat.zero_le _⟩
  · rw [if_neg hdone, if_neg hdone]
    refine ⟨l, hw, Nat.le_refl _, ?_⟩
    rintro q' ⟨⟩
    exact ⟨b, hb, ho⟩

/-- The loop of `pbuf_copy` goes on in one of the two chains in each round. -/
theorem pbufCopyLoop_copied {fuel offset_to offset_from : ℕ} {r : Option ℕ} {lt lf : List ℕ}
    (hclosed : ∀ i j, s.succ i = some j → ∃ c, s.pbufs j = some c)
    (hwt : Walk s.succ r lt) (hwf : Walk s.succ (some p) lf)
    (hr : ∀ q, r = some q → ∃ tb, s.pbufs q = some tb ∧ offset_to ≤ tb.len)
    (hfb : s.pbufs p = some b) (hfrom : offset_from ≤ b.len)
    (hfuel : lt.length + lf.length ≤ fuel) :
    Ends Abort.ofPacket (Copied s) (pbufCopyLoop fuel s r offset_to p offset_from) := by
  induction fuel generalizing s r p b lt lf offset_to offset_from with
  | zero =>
    cases hwf
    rw [List.length_cons] at hfuel
    exact absurd hfuel (by omega)
  | succ fuel ih =>
    cases r with
    | none => exact .of_error rfl
    | some q =>
      obtain ⟨tb, htb, hto⟩ := hr q rfl
      unfold pbufCopyLoop
      rw [Heap.get_eq_ok.mpr htb]
      dsimp only [bind, Except.bind]
      rw [Heap.get_eq_ok.mpr hfb]
      dsimp only
      set len := if tb.len - offset_to ≥ b.len - offset_from then b.len - offset_from
        else tb.len - offset_to with hlen
      -- One of the two pbufs is done.
      have hround : offset_to + len ≤ tb.len ∧ offset_from + len ≤ b.len ∧
          (offset_to + len = tb.len ∨ offset_from + len = b.len) := by
        rw [hlen]
        split <;> omega
      obtain ⟨hto', hfrom', hdone⟩ := hround
      have hge : (offset_from + len ≥ b.len) = (offset_from + len = b.len) :=
        propext ⟨fun h => Nat.le_antisymm hfrom' h, fun h => Nat.le_of_eq h.symm⟩
      rw [(lwipAssert_eq_ok (u := ())).mpr hto']
      dsimp only
      rw [(lwipAssert_eq_ok (u := ())).mpr hfrom']
      simp only [hge]
      set s₁ := s.set q (tb.write (tb.payload + offset_to) len
        fun k => b.mem (b.payload + offset_from + k)) with hs₁
      have hcopied : Copied s s₁ := .write htb _ _ _
      have hlive : ∀ {i c}, s.pbufs i = some c →
          ∃ c', s₁.pbufs i = some c' ∧ c'.len = c.len ∧ c'.next = c.next := by
        intro i c hi
        by_cases hiq : i = q
        · rw [hiq] at hi ⊢
          obtain rfl := Option.some.inj (htb.symm.trans hi)
          exact ⟨_, Heap.set_self s q _, rfl, rfl⟩
        · exact ⟨c, (Heap.set_of_ne s hiq _).trans hi, rfl, rfl⟩
      have hclosed₁ : ∀ i j, s₁.succ i = some j → ∃ c, s₁.pbufs j = some c := by
        intro i j hij
        rw [hcopied.links.succ] at hij
        obtain ⟨c, hc⟩ := hclosed i j hij
        obtain ⟨c', hc', -⟩ := hlive hc
        exact ⟨c', hc'⟩
      rw [← hcopied.links.succ] at hwt hwf
      obtain ⟨tb₁, htb₁, htlen, htnext⟩ := hlive htb
      obtain ⟨b₁, hb₁, hblen, hbnext⟩ := hlive hfb
      rw [← htlen] at hto' hdone
      rw [← hblen] at hfrom' hdone
      obtain ⟨lt', hwt', hltlen, hnt⟩ := copyNext_spec hclosed₁ hwt htb₁ hto'
      obtain ⟨lf', hwf', hlflen, hnf⟩ := copyNext_spec hclosed₁ hwf hb₁ hfrom'
      rw [htlen, htnext] at hwt' hnt
      rw [hblen, hbnext] at hwf' hnf
      rw [htlen] at hltlen
      rw [hblen] at hlflen
      rw [htlen, hblen] at hdone
      revert hwt' hltlen hnt hwf' hlflen hnf
      generalize (if offset_to + len = tb.len then (tb.next, 0) else (some q, offset_to + len)) = nt
      generalize (if offset_from + len = b.len then (b.next, 0)
        else (some p, offset_from + len)) = nf
      intro hwt' hltlen hnt hwf' hlflen hnf
      have hlen' : lt'.length + lf'.length < lt.length + lf.length := by
        rcases hdone with hd | hd
        · rw [if_pos hd] at hltlen
          omega
        · rw [if_pos hd] at hlflen
          omega
      refine (checkQueue_ends fun i hi => ?_).bind fun _ _ =>
        (checkQueue_ends fun i hi => ?_).bind fun _ _ => ?_
      · obtain ⟨c, hc, -⟩ := hnf i hi
        exact ⟨c, hc⟩
      · obtain ⟨c, hc, -⟩ := hnt i hi
        exact ⟨c, hc⟩
      · obtain ⟨next_from, offset_from'⟩ := nf
        cases next_from with
        | none => exact .of_ok hcopied
        | some p' =>
          obtain ⟨c, hc, hle⟩ := hnf p' rfl
          exact (ih hclosed₁ hwt' hwf' hnt hc hle (by omega)).mono fun s' hs' => hcopied.trans hs'

/-- `pbuf_copy` into a pbuf that is long enough. -/
theorem pbufCopy_copied (h : PacketsRight own s) (hb : s.pbufs p = some b) (hc : s.pbufs q = some c)
    (hlen : c.tot_len ≥ b.tot_len) : Ends Abort.ofPacket (Copied s) (pbufCopy s q p) := by
  obtain ⟨lt, hwt⟩ := h.chains.ends q
  obtain ⟨lf, hwf⟩ := h.chains.ends p
  have hlt := h.counted.length_le hwt hc
  have hlf := h.counted.length_le hwf hb
  unfold pbufCopy
  rw [Heap.get_eq_ok.mpr hc]
  dsimp only [bind, Except.bind]
  rw [Heap.get_eq_ok.mpr hb]
  dsimp only
  rw [(lwipAssert_eq_ok (u := ())).mpr hlen]
  refine pbufCopyLoop_copied (fun i j hij => h.counted.of_succ hij) hwt hwf ?_ hb (Nat.zero_le _)
    (by omega)
  rintro q' ⟨⟩
  exact ⟨c, hc, Nat.zero_le _⟩

/-- References to different pbufs do not interfere. -/
theorem lose_gain_comm {own : ℕ → ℕ} {p f : ℕ} (h : p ≠ f) :
    lose (gain own (some f)) p = gain (lose own p) (some f) := by
  funext i
  show own i + hit (some f) i - hit (some p) i = own i - hit (some p) i + hit (some f) i
  by_cases hip : i = p
  · rw [hip, hit_of_ne h]
    omega
  · rw [hit_of_ne hip]
    omega

/-- `pbuf_coalesce` of a packet: its holder has the new pbuf instead. -/
theorem pbufCoalesce_right (h : PacketsRight own s) (hb : s.pbufs p = some b) (layer : PbufLayer)
    (avail : ℕ) (content : ℕ → ℕ → UInt8) (hlen : b.tot_len ≤ 60000) (hown : 0 < own p) :
    Ends Abort.ofPacket
      (fun v => PacketsRight (gain (lose own p) (some v.2)) v.1 ∧ (v.2 = p ∨ v.2 = s.fresh))
      (pbufCoalesce s p layer avail content) := by
  unfold pbufCoalesce
  rw [Heap.get_eq_ok.mpr hb]
  dsimp only [bind, Except.bind]
  have hold : PacketsRight (gain (lose own p) (some p)) s := by rwa [gain_lose hown]
  split
  · exact .of_ok ⟨hold, .inl rfl⟩
  · -- The new pbuf is as long as the packet.
    have halloc := pbufAlloc_right h layer .RAM avail content hlen
    cases avail with
    | zero => exact .of_ok ⟨hold, .inl rfl⟩
    | succ avail =>
      unfold pbufAlloc at halloc ⊢
      dsimp only [bind, Except.bind] at halloc ⊢
      have hright := halloc.ok _ rfl
      dsimp only at hright
      have hpf : p ≠ s.fresh := Nat.ne_of_lt (h.counted.lt hb)
      refine (pbufCopy_copied hright ((Heap.add_of_ne s hpf _).trans hb) (Heap.add_self s _)
        (Nat.le_refl _)).bind fun s₂ hcopied => ?_
      have hright₂ := hright.copied hcopied
      have hown₂ : 0 < gain own (some s.fresh) p := by
        unfold gain
        omega
      obtain ⟨s₃, k, hrun, hcount, hfreed, -⟩ := pbufFree_spec hright₂.counted hown₂
      rw [hrun]
      rw [lose_gain_comm hpf] at hcount
      exact .of_ok ⟨hright₂.freed hfreed hcount, .inr rfl⟩

end Copy

/-! ## Runs -/

/-- `p` is the head of a chain. -/
def Head (s : Heap) (p : ℕ) : Prop := (s.pbufs p).isSome ∧ s.links p = 0

/-- `tot_len` of `p`. -/
def totLen (s : Heap) (p : ℕ) : ℕ := s.totOf (some p)

/-- An operation is applied to the head of a chain, or to two heads, with at most 60000 bytes in
total. `pbuf_free` may be called by every holder. -/
def OnHeads (s : Pbufs) : Op → Prop
  | .alloc _ length _ _ _ => length ≤ 60000
  | .ref _ => False
  | .cat h t | .chain h t => Head s.heap h ∧ Head s.heap t ∧ h ≠ t ∧
      totLen s.heap h + totLen s.heap t ≤ 60000
  | .dechain p | .realloc p _ | .header p _ | .coalesce p _ _ _ => Head s.heap p ∧
      totLen s.heap p ≤ 60000
  | .free p => 0 < s.own p

/-- There is room for the header in front of the payload of `p`. -/
def Reveals (s : Heap) (p : ℕ) (header_size_increment : ℤ) : Prop :=
  ∃ b ∈ s.pbufs p, (b.type = .RAM ∨ b.type = .POOL) ∧ header_size_increment ≤ b.payload

/-- A header that is revealed leaves the packet short enough for `tot_len`. -/
def Fits (s : Pbufs) : Op → Prop
  | .header p header_size_increment => Reveals s.heap p header_size_increment →
      (totLen s.heap p : ℤ) + header_size_increment < 2^16
  | _ => True

instance (s : Heap) (p : ℕ) : Decidable (Head s p) :=
  inferInstanceAs (Decidable ((s.pbufs p).isSome ∧ s.links p = 0))

instance OnHeads.decidable (s : Pbufs) : (op : Op) → Decidable (OnHeads s op)
  | .alloc _ length _ _ _ => inferInstanceAs (Decidable (length ≤ 60000))
  | .ref _ => .isFalse id
  | .cat h t | .chain h t =>
    inferInstanceAs (Decidable (Head s.heap h ∧ Head s.heap t ∧ h ≠ t ∧ _ ≤ _))
  | .dechain p | .realloc p _ | .header p _ | .coalesce p _ _ _ =>
    inferInstanceAs (Decidable (Head s.heap p ∧ _ ≤ _))
  | .free p => inferInstanceAs (Decidable (0 < s.own p))

instance (s : Heap) (p : ℕ) (inc : ℤ) : Decidable (Reveals s p inc) :=
  inferInstanceAs (Decidable (∃ b ∈ s.pbufs p, _))

instance Fits.decidable (s : Pbufs) : (op : Op) → Decidable (Fits s op)
  | .header _ _ => inferInstanceAs (Decidable (_ → _))
  | .alloc .. | .ref .. | .cat .. | .chain .. | .dechain .. | .free .. | .realloc ..
  | .coalesce .. => .isTrue trivial

/-- What the operations promise of one packet: `pbuf_realloc` leaves exactly the first bytes of it,
and a `pbuf_header` that fails leaves it as it is. -/
def Promises (s : Pbufs) : Op → Prop
  | .realloc p new_len => ∀ l, Walk s.heap.succ (some p) l → ∃ heap l',
    pbufRealloc s.heap p new_len =
      .ok heap ∧ Walk heap.succ (some p) l' ∧ heap.packet l' = (s.heap.packet l).take new_len
  | .header p header_size_increment => ∀ heap, pbufHeader s.heap p header_size_increment =
      .ok (heap, true) → heap = s.heap
  | _ => True

/-- The invariant of the runs: a pbuf has one holder at most. -/
structure Sound (s : Pbufs) : Prop where
  packets : PacketsRight s.own s.heap
  once : ∀ i, s.own i ≤ 1

section Run

variable {s : Pbufs} {op : Op}

/-- What is known of a head. -/
theorem Sound.head (h : Sound s) {p : ℕ} (hp : Head s.heap p) :
    ∃ b, s.heap.pbufs p = some b ∧ s.heap.Top p ∧ totLen s.heap p = b.tot_len ∧ 0 < s.own p := by
  obtain ⟨b, hb⟩ := Option.isSome_iff_exists.mp hp.1
  have hlive := (h.packets.counted.live p).mp hp.1
  exact ⟨b, hb, Heap.top_of_links h.packets.counted.fresh hp.2, Heap.totOf_some hb,
    by rw [hp.2] at hlive; omega⟩

/-- A reference that is given out is the only one. -/
theorem gain_le {own : ℕ → ℕ} {r : Option ℕ} (h : ∀ i, own i ≤ 1) (hr : ∀ p, r = some p → own p = 0)
    (i : ℕ) : gain own r i ≤ 1 := by
  have hi := h i
  unfold gain hit
  split
  · next heq =>
    have hzero := hr i heq
    omega
  · omega

/-- A reference that is given back was the only one. -/
theorem lose_le {own : ℕ → ℕ} {p : ℕ} (h : ∀ i, own i ≤ 1) (i : ℕ) : lose own p i ≤ 1 :=
  (Nat.sub_le _ _).trans (h i)

/-- What is not allocated is not owned. -/
theorem Counted.own_eq_zero {own : ℕ → ℕ} {s : Heap} (h : Counted own s) {i : ℕ}
    (hi : s.pbufs i = none) : own i = 0 := by
  by_contra hpos
  have hlive := (h.live i).mpr (by omega)
  rw [hi] at hlive
  cases hlive

/-- The first of the new pbufs is what `pbuf_alloc` returns. -/
theorem pbufAlloc_fresh {s : Heap} {layer : PbufLayer} {length : ℕ} {type : PbufType} {avail : ℕ}
    {content : ℕ → ℕ → UInt8} {v : Heap × Option ℕ}
    (hv : pbufAlloc s layer length type avail content = .ok v) :
    ∀ p, v.2 = some p → p = s.fresh := by
  have hloop : ∀ avail s r rem f v, pbufAllocLoop content f avail s r rem = .ok v →
      ∀ p, v.2 = some p → p = f := by
    intro avail
    induction avail with
    | zero =>
      intro s r rem f v hv p hp
      unfold pbufAllocLoop at hv
      split at hv
      · cases hv
        exact (Option.some.inj hp).symm
      · obtain ⟨w, -, hw⟩ := bind_eq_ok.mp hv
        cases hw
        cases hp
    | succ avail ih =>
      intro s r rem f v hv p hp
      unfold pbufAllocLoop at hv
      split at hv
      · cases hv
        exact (Option.some.inj hp).symm
      · obtain ⟨rb, -, hv⟩ := bind_eq_ok.mp hv
        obtain ⟨-, -, hv⟩ := bind_eq_ok.mp hv
        obtain ⟨pb, -, hv⟩ := bind_eq_ok.mp hv
        obtain ⟨-, -, hv⟩ := bind_eq_ok.mp hv
        exact ih _ _ _ _ _ hv p hp
  intro p hp
  unfold pbufAlloc at hv
  cases avail with
  | zero =>
    cases hv
    cases hp
  | succ avail =>
    cases type with
    | POOL =>
      obtain ⟨-, -, hv⟩ := bind_eq_ok.mp hv
      obtain ⟨-, -, hv⟩ := bind_eq_ok.mp hv
      exact hloop _ _ _ _ _ _ hv p hp
    | RAM =>
      cases hv
      exact (Option.some.inj hp).symm
    | ROM =>
      cases hv
      exact (Option.some.inj hp).symm
    | REF =>
      cases hv
      exact (Option.some.inj hp).symm

/-- One operation on the head of a packet. -/
theorem step_sound (h : Sound s) (hop : OnHeads s op) (hfit : Fits s op) :
    Ends Abort.ofPacket Sound (step s op) := by
  obtain ⟨hp, honce⟩ := h
  cases op with
  | alloc layer length type avail content =>
    refine ⟨fun s' hs' => ?_, ((pbufAlloc_right hp layer type avail content hop).bind fun _ hv =>
      .of_ok (P := fun s' : Pbufs => PacketsRight s'.own s'.heap) hv).avoids⟩
    obtain ⟨v, hv, hs'⟩ := bind_eq_ok.mp hs'
    cases hs'
    refine ⟨(pbufAlloc_right hp layer type avail content hop).ok v hv,
      gain_le honce fun p hpv => ?_⟩
    rw [pbufAlloc_fresh hv p hpv]
    exact hp.counted.own_eq_zero (hp.counted.fresh _ (Nat.le_refl _))
  | ref p => exact hop.elim
  | cat h t =>
    obtain ⟨hh, ht, hne, hlen⟩ := hop
    obtain ⟨b, hb, hhtop, hbtot, -⟩ := Sound.head ⟨hp, honce⟩ hh
    obtain ⟨tb, htb, httop, httot, hown⟩ := Sound.head ⟨hp, honce⟩ ht
    rw [hbtot, httot] at hlen
    exact (pbufCat_right hp hb htb hhtop httop hne (by omega) hown).bind fun _ hv =>
      .of_ok ⟨hv, lose_le honce⟩
  | chain h t =>
    obtain ⟨hh, ht, hne, hlen⟩ := hop
    obtain ⟨b, hb, hhtop, hbtot, -⟩ := Sound.head ⟨hp, honce⟩ hh
    obtain ⟨tb, htb, httop, httot, -⟩ := Sound.head ⟨hp, honce⟩ ht
    rw [hbtot, httot] at hlen
    have hroom : s.own t + s.heap.links t < 2^16 - 1 := by
      have hone := honce t
      have hlinks := ht.2
      omega
    exact (pbufChain_right hp hb htb hhtop httop hne (by omega) hroom).bind fun _ hv =>
      .of_ok ⟨hv, honce⟩
  | dechain p =>
    obtain ⟨b, hb, htop, -, -⟩ := Sound.head ⟨hp, honce⟩ hop.1
    exact (pbufDechain_right hp hb htop).bind fun _ hv => .of_ok ⟨hv, honce⟩
  | free p =>
    obtain ⟨s', k, hrun, hcount, hfreed, -⟩ := pbufFree_spec hp.counted hop
    unfold step
    dsimp only
    rw [hrun]
    exact .of_ok ⟨hp.freed hfreed hcount, lose_le honce⟩
  | realloc p new_len =>
    obtain ⟨b, hb, htop, -, -⟩ := Sound.head ⟨hp, honce⟩ hop.1
    obtain ⟨l, hw⟩ := hp.chains.ends p
    obtain ⟨s', l', hrun, hright, -, -⟩ := pbufRealloc_right hp hb htop new_len hw
    unfold step
    dsimp only
    rw [hrun]
    exact .of_ok ⟨hright, honce⟩
  | header p inc =>
    obtain ⟨b, hb, htop, htot, -⟩ := Sound.head ⟨hp, honce⟩ hop.1
    have hlen : b.tot_len ≤ 60000 := htot ▸ hop.2
    have hfit' : Reveals s.heap p inc → (totLen s.heap p : ℤ) + inc < 2^16 := hfit
    rw [htot] at hfit'
    exact (pbufHeader_right hp hb htop (by omega) fun htype hle => hfit' ⟨b, hb, htype, hle⟩).bind
      fun _ hv => .of_ok ⟨hv.1, honce⟩
  | coalesce p layer avail content =>
    obtain ⟨b, hb, -, htot, hown⟩ := Sound.head ⟨hp, honce⟩ hop.1
    have hlen : b.tot_len ≤ 60000 := htot ▸ hop.2
    refine (pbufCoalesce_right hp hb layer avail content hlen hown).bind fun v hv =>
      .of_ok ⟨hv.1, ?_⟩
    rcases hv.2 with heq | heq
    · dsimp only
      rw [heq, gain_lose hown]
      exact honce
    · refine gain_le (lose_le honce) fun q hq => ?_
      have hzero : s.own s.heap.fresh = 0 :=
        hp.counted.own_eq_zero (hp.counted.fresh _ (Nat.le_refl _))
      rw [← Option.some.inj hq, heq]
      unfold lose
      rw [hzero, Nat.zero_sub]

/-- The promises are kept. -/
theorem promises (h : Sound s) (hop : OnHeads s op) (hfit : Fits s op) : Promises s op := by
  cases op with
  | realloc p new_len =>
    intro l hw
    obtain ⟨b, hb, htop, -, -⟩ := h.head hop.1
    obtain ⟨s', l', hrun, -, hw', hpacket⟩ := pbufRealloc_right h.packets hb htop new_len hw
    exact ⟨s', l', hrun, hw', hpacket⟩
  | header p inc =>
    intro heap hrun
    obtain ⟨b, hb, htop, htot, -⟩ := h.head hop.1
    have hlen : b.tot_len ≤ 60000 := htot ▸ hop.2
    have hfit' : Reveals s.heap p inc → (totLen s.heap p : ℤ) + inc < 2^16 := hfit
    rw [htot] at hfit'
    have hend := pbufHeader_right h.packets hb htop (by omega) fun htype hle =>
      hfit' ⟨b, hb, htype, hle⟩
    exact (hend.ok _ hrun).2 rfl
  | _ => trivial

/-- At first there are no packets. -/
theorem sound_init : Sound {} := by
  refine ⟨⟨counted_init, ⟨fun i b hb => (by cases hb), fun i b hb => (by cases hb)⟩, ?_⟩,
    fun _ => Nat.zero_le 1⟩
  exact ⟨fun i j k hi => (by cases hi), fun i => ⟨[i], .cons .nil⟩⟩

/-- In every run of operations on the heads of packets, where no header is revealed that makes a
packet too long for `tot_len`, every pbuf has the length of itself and the rest of its chain as its
`tot_len`, without a wrap, and its payload in its memory; `pbuf_realloc` leaves exactly the first
bytes of a packet, and a `pbuf_header` that fails leaves it as it is. -/
theorem packets_right (ops : List Op)
    (h : Along step (fun s op => OnHeads s op ∧ Fits s op) {} ops) :
    Always step (fun s => LensRight s.heap) {} ops ∧ Along step Promises {} ops := by
  have hstep : ∀ (s : Pbufs) op s', Sound s → (OnHeads s op ∧ Fits s op) → step s op = .ok s' →
      Sound s' := fun s op s' hs hop hs' => (step_sound hs hop.1 hop.2).ok s' hs'
  constructor
  · intro ops' ops'' s hops hrun
    have hl : Along step (fun s op => OnHeads s op ∧ Fits s op) {} ops' := (hops ▸ h).left
    have hs : Sound s := run_invariant hstep sound_init hl hrun
    exact hs.packets.lens
  · exact run_along hstep (fun s op hs hop => promises hs hop.1 hop.2) sound_init h

end Run

/-- A datagram of 1000 bytes from the pool behind its headers, which are revealed and hidden again,
and which is cut and made into one pbuf. -/
def exampleDatagram : List Op :=
  [.alloc .TRANSPORT 8 .RAM 1 fun _ _ => 0, .alloc .RAW 1000 .POOL 5 fun _ i =>
    UInt8.ofNat i, .cat 0 1,
    .header 0 20, .header 0 1000, .realloc 0 700, .header 0 (-20), .coalesce 0 .LINK 1 fun _ _ => 0,
    .alloc .RAW 5000 .POOL 3 fun _ _ => 0, .free 3]

/-- The datagram of the example goes through the layers. -/
theorem packets_right_exampleDatagram :
    Always step (fun s => LensRight s.heap) {} exampleDatagram ∧
      Along step Promises {} exampleDatagram :=
  packets_right exampleDatagram (by decide +kernel)

/-- A packet of 60000 bytes behind a pbuf in which a header of 12000 bytes is hidden, and
revealed. -/
def hiddenHeader : List Op :=
  [.alloc .RAW 12000 .RAM 1 fun _ _ => 0, .header 0 (-12000), .alloc .RAW 60000 .ROM 1 fun _ _ => 0,
    .cat 0 1, .header 0 12000]

/-- The packet of 72000 bytes does not fit into `tot_len`. -/
theorem header_wraps : Along step OnHeads {} hiddenHeader ∧
    ∃ s, run step {} hiddenHeader = .ok s ∧ ¬ LensRight s.heap := by
  refine ⟨by decide +kernel, ?_⟩
  have hrun : (match run step {} hiddenHeader with
      | .ok s => decide (s.heap.totOf (some 0) ≠
          ((s.heap.pbufs 0).map Pbuf.len).getD 0 + s.heap.totOf (s.heap.succ 0)) &&
          (s.heap.pbufs 0).isSome
      | .error _ => false) = true := by decide +kernel
  split at hrun
  · next s hs =>
    refine ⟨s, hs, fun hlens => ?_⟩
    rw [Bool.and_eq_true, decide_eq_true_eq] at hrun
    obtain ⟨b, hb⟩ := Option.isSome_iff_exists.mp hrun.2
    refine hrun.1 ?_
    rw [Heap.totOf_some hb, Heap.succ_eq hb, hb]
    exact hlens.tot 0 b hb
  · cases hrun

end Lwip.Pbuf
