import Lwip.Ip.Chain
import Lwip.Ip.Evict

/-!
# One fragment

Where `ip_reass` puts a fragment: it drops it, or it hands it to one entry of the list, which may be
a new one. `Located` says which, and the invariant `Inv` of the two global variables follows for
every fragment that does not run into an assertion.
-/

namespace Lwip.Ip

/-- The invariant of the two global variables. -/
structure Inv (s : Reass) : Prop where
  wf : Wf s.datagrams
  /-- The counter counts the pbufs in the queues. -/
  count : s.pbufcount = pbufs s.datagrams
  /-- There are no more than allowed. -/
  le_max : s.pbufcount ≤ IP_REASS_MAX_PBUFS

/-- The invariant holds at first. -/
theorem Inv.empty : Inv {} where
  wf := ⟨.nil, .nil, fun _ hd => (List.not_mem_nil hd).elim, fun _ hd => (List.not_mem_nil hd).elim⟩
  count := rfl
  le_max := Nat.zero_le _

/-! ## The entries of one datagram -/

/-- An entry is of a datagram with its addresses and its identification. -/
theorem isOf_iff {d : ReassData} {f : IpHdr} :
    d.isOf f = true ↔ d.iphdr.src = f.src ∧ d.iphdr.dest = f.dest ∧ d.iphdr.id = f.id := by
  simp [ReassData.isOf, IpHdr.addressesAndIdMatch, and_assoc]

/-- Two entries that match one header match each other. -/
theorem isOf_of_isOf {a b : ReassData} {f : IpHdr} (ha : a.isOf f = true) (hb : b.isOf f = true) :
    a.isOf b.iphdr = true := by
  rw [isOf_iff] at ha hb ⊢
  exact ⟨ha.1.trans hb.1.symm, ha.2.1.trans hb.2.1.symm, ha.2.2.trans hb.2.2.symm⟩

/-- An entry that matches a header matches no entry that does not. -/
theorem isOf_eq_false {a b : ReassData} {f : IpHdr} (ha : a.isOf f = true)
    (hb : b.isOf f = false) : a.isOf b.iphdr = false ∧ b.isOf a.iphdr = false := by
  rw [← Bool.not_eq_true, ← Bool.not_eq_true]
  rw [← Bool.not_eq_true] at hb
  rw [isOf_iff] at ha hb ⊢
  rw [isOf_iff]
  constructor
  · rintro ⟨h₁, h₂, h₃⟩
    exact hb ⟨h₁.symm.trans ha.1, h₂.symm.trans ha.2.1, h₃.symm.trans ha.2.2⟩
  · rintro ⟨h₁, h₂, h₃⟩
    exact hb ⟨h₁.trans ha.1, h₂.trans ha.2.1, h₃.trans ha.2.2⟩

/-- No two entries match one header. -/
theorem Wf.eq_of_isOf {l : List ReassData} (h : Wf l) {a b : ReassData} {f : IpHdr} (ha : a ∈ l)
    (hb : b ∈ l) (haf : a.isOf f = true) (hbf : b.isOf f = true) : a = b := by
  by_contra hne
  have hsymm : Std.Symm fun a b : ReassData => a.isOf b.iphdr = false := by
    constructor
    intro x y hxy
    rw [← Bool.not_eq_true, isOf_iff] at hxy ⊢
    exact fun hyx => hxy ⟨hyx.1.symm, hyx.2.1.symm, hyx.2.2.symm⟩
  have hfalse : a.isOf b.iphdr = false := h.keys.forall ha hb hne
  rw [isOf_of_isOf haf hbf] at hfalse
  cases hfalse

/-- The entries in front of the datagram with the header `f`. -/
def newer (f : IpHdr) (l : List ReassData) : List ReassData := l.takeWhile (!·.isOf f)

/-- The entries behind it. -/
def older (f : IpHdr) (l : List ReassData) : List ReassData := (l.dropWhile (!·.isOf f)).tail

/-- The list has no entry of the datagram, or one between those in front of it and those behind. -/
theorem Wf.split {l : List ReassData} (h : Wf l) (f : IpHdr) :
    (∀ d ∈ l, d.isOf f = false) ∨
    ∃ own, l = newer f l ++ own :: older f l ∧ own.isOf f = true ∧
      Cut f (newer f l ++ [own]) (older f l) := by
  have hnewer : ∀ a ∈ newer f l, a.isOf f = false := by
    intro a ha
    simpa using List.mem_takeWhile_imp ha
  have hsplit : newer f l ++ l.dropWhile (!·.isOf f) = l := List.takeWhile_append_dropWhile
  cases hd : l.dropWhile (!·.isOf f) with
  | nil =>
    rw [hd, List.append_nil] at hsplit
    exact .inl fun d hd => hnewer d (by rwa [hsplit])
  | cons own C =>
    have holder : older f l = C := by rw [older, hd]; rfl
    rw [hd] at hsplit
    have hown : own.isOf f = true := by
      have hne : l.dropWhile (!·.isOf f) ≠ [] := by rw [hd]; exact List.cons_ne_nil _ _
      have := List.head_dropWhile_not (fun d : ReassData => !d.isOf f) hne
      simpa [hd] using this
    refine .inr ⟨own, by rw [holder, hsplit], hown, .inr ⟨_, own, rfl, hown, hnewer⟩, ?_⟩
    intro c hc
    rw [holder] at hc
    have hkeys := h.keys
    rw [← hsplit, List.pairwise_append, List.pairwise_cons] at hkeys
    have hne : own.isOf c.iphdr = false := hkeys.2.1.1 c hc
    rw [← Bool.not_eq_true]
    intro hcf
    rw [isOf_of_isOf hown hcf] at hne
    cases hne

/-- Removing the oldest datagrams, with an outcome. -/
theorem removeOldest_ok {s : Reass} {f : IpHdr} {needed : ℕ} {P C : List ReassData}
    (h : Inv s) (hl : s.datagrams = P ++ C) (hcut : Cut f P C)
    (hneed : P.length ≤ 1 ∨ 0 < needed ∧ needed ≤ pbufs C) :
    ∃ k s' freed, ipReassRemoveOldestDatagram s f needed = .ok (s', freed) ∧ Inv s' ∧
      s'.datagrams = P ++ C.take k ∧ freed = pbufs (C.drop k) ∧
      s.pbufcount = s'.pbufcount + freed ∧ (needed ≤ freed ∨ k = 0) := by
  obtain ⟨l, cnt⟩ := s
  dsimp only at hl
  subst hl
  have hsum : cnt = pbufs (P ++ C) := h.count
  have hmax : cnt ≤ IP_REASS_MAX_PBUFS := h.le_max
  have hneed' : P.length ≤ 1 ∨ 0 < needed ∧ needed ≤ 0 + pbufs C := by omega
  obtain ⟨k, hk, hloop, hfreed⟩ := removeOldestLoop_ok (n := (P ++ C).length) hcut h.wf hsum.ge
    (by rw [List.length_append]; omega) hneed'
  rw [Nat.zero_add] at hloop hfreed
  have hcnt : pbufs (P ++ C) = pbufs (P ++ C.take k) + pbufs (C.drop k) := by
    rw [← pbufs_append, List.append_assoc, List.take_append_drop]
  refine ⟨k, _, _, hloop, ⟨h.wf.sublist ?_, ?_, ?_⟩, rfl, rfl, ?_, hfreed⟩
  · exact (List.take_sublist k C).append_left P
  · dsimp only
    omega
  · dsimp only
    omega
  · dsimp only
    omega

/-! ## The entry that gets the fragment -/

/-- The fragment `p` is handed to the entry `ipr`, between the entries `A` and `C`, with `cnt` pbufs
queued before. -/
structure Target (p : Frag) (A C : List ReassData) (ipr : ReassData) (cnt : ℕ) : Prop where
  wf : Wf (A ++ C)
  others : ∀ d ∈ A ++ C, d.isOf p.hdr = false
  isOf : ipr.isOf p.hdr = true
  timer_le : ipr.timer ≤ IP_REASS_MAXAGE
  timer_left : ∀ a ∈ A, ipr.timer ≤ a.timer
  timer_right : ∀ c ∈ C, c.timer ≤ ipr.timer
  count : cnt = heldPbufs ipr.p + pbufs (A ++ C)
  room : cnt + p.clen ≤ IP_REASS_MAX_PBUFS

/-- The queue stays when the last fragment is noted. -/
@[simp] theorem noteLastFrag_p (ipr : ReassData) (p : Frag) : (noteLastFrag ipr p).p = ipr.p := by
  unfold noteLastFrag; split <;> rfl

/-- The timer stays when the last fragment is noted. -/
@[simp] theorem noteLastFrag_timer (ipr : ReassData) (p : Frag) :
    (noteLastFrag ipr p).timer = ipr.timer := by
  unfold noteLastFrag; split <;> rfl

/-- The header stays when the last fragment is noted. -/
@[simp] theorem noteLastFrag_iphdr (ipr : ReassData) (p : Frag) :
    (noteLastFrag ipr p).iphdr = ipr.iphdr := by
  unfold noteLastFrag; split <;> rfl

/-- The queue stays when the first header is noted. -/
@[simp] theorem noteFirstHdr_p (ipr : ReassData) (p : Frag) : (noteFirstHdr ipr p).p = ipr.p := by
  unfold noteFirstHdr; split <;> rfl

/-- The timer stays when the first header is noted. -/
@[simp] theorem noteFirstHdr_timer (ipr : ReassData) (p : Frag) :
    (noteFirstHdr ipr p).timer = ipr.timer := by
  unfold noteFirstHdr; split <;> rfl

/-- The length stays when the first header is noted. -/
@[simp] theorem noteFirstHdr_datagram_len (ipr : ReassData) (p : Frag) :
    (noteFirstHdr ipr p).datagram_len = ipr.datagram_len := by
  unfold noteFirstHdr; split <;> rfl

/-- The flag stays when the first header is noted. -/
@[simp] theorem noteFirstHdr_lastfrag (ipr : ReassData) (p : Frag) :
    (noteFirstHdr ipr p).lastfrag = ipr.lastfrag := by
  unfold noteFirstHdr; split <;> rfl

/-- The entry stays that of the datagram. -/
theorem noteFirstHdr_isOf {ipr : ReassData} {p : Frag} (h : ipr.isOf p.hdr = true) :
    (noteFirstHdr ipr p).isOf p.hdr = true := by
  unfold noteFirstHdr
  split
  · exact isOf_iff.mpr ⟨rfl, rfl, rfl⟩
  · exact h

/-- The queue holds the pbufs of the fragment then. -/
theorem heldPbufs_queueWith (iprh : Held) (q : List Held) :
    heldPbufs (queueWith iprh q) = heldPbufs q + iprh.clen := by
  have hq : heldPbufs q = heldPbufs (before iprh q) + heldPbufs (behind iprh q) := by
    rw [← heldPbufs_append, before_append_behind]
  rw [queueWith, heldPbufs_append, hq]
  simp only [heldPbufs, List.map_cons, List.sum_cons]
  omega

/-- What the entry does with the fragment. -/
theorem ipReassInto_eq (A C : List ReassData) (d ipr : ReassData) (cnt : ℕ) (p : Frag) :
    ipReassInto ⟨A ++ d :: C, cnt⟩ A.length (predIdx A.length) ipr p =
      ipReassChainFragIntoDatagramAndValidate (noteLastFrag ipr p) p.held >>= fun x =>
      .ok (match x with
        | none => (⟨A ++ noteLastFrag ipr p :: C, u16sub (u16 (cnt + p.clen)) p.clen⟩, none)
        | some (q, false) => (⟨A ++ { noteLastFrag ipr p with p := q } :: C,
            u16 (cnt + p.clen)⟩, none)
        | some (q, true) => (⟨A ++ C, u16sub (u16 (cnt + p.clen)) (u8 (heldPbufs q))⟩,
            some (reassDatagram { noteLastFrag ipr p with p := q }))) := by
  have hset : ∀ x : ReassData, (A ++ d :: C).set A.length x = A ++ x :: C := by
    intro x
    simp
  rw [ipReassInto]
  dsimp only
  congr 1
  funext x
  match x with
  | none => rw [hset]
  | some (q, false) => dsimp only; rw [hset]
  | some (q, true) => dsimp only; rw [dequeue_eq]; rfl

namespace Target

variable {p : Frag} {A C : List ReassData} {ipr d : ReassData} {cnt : ℕ}

/-- The list with an entry for the same datagram, as old as before, is well formed. -/
theorem wf_insert (h : Target p A C ipr cnt) {x : ReassData} (hof : x.isOf p.hdr = true)
    (ht : x.timer = ipr.timer) (hx : x.p ≠ []) : Wf (A ++ x :: C) := by
  have hA : ∀ a ∈ A, a.isOf p.hdr = false := fun a ha => h.others a (List.mem_append_left _ ha)
  have hC : ∀ c ∈ C, c.isOf p.hdr = false := fun c hc => h.others c (List.mem_append_right _ hc)
  have hmem : ∀ y ∈ A ++ x :: C, y = x ∨ y ∈ A ++ C := by
    intro y hy
    simp only [List.mem_append, List.mem_cons] at hy ⊢
    tauto
  obtain ⟨hkA, hkC, hkAC⟩ := List.pairwise_append.mp h.wf.keys
  obtain ⟨htA, htC, htAC⟩ := List.pairwise_append.mp h.wf.timers
  constructor
  · refine List.pairwise_append.mpr ⟨hkA, List.pairwise_cons.mpr ⟨?_, hkC⟩, ?_⟩
    · exact fun c hc => (isOf_eq_false hof (hC c hc)).1
    · intro a ha b hb
      rcases List.mem_cons.mp hb with rfl | hb
      · exact (isOf_eq_false hof (hA a ha)).2
      · exact hkAC a ha b hb
  · refine List.pairwise_append.mpr ⟨htA, List.pairwise_cons.mpr ⟨?_, htC⟩, ?_⟩
    · exact fun c hc => (h.timer_right c hc).trans_eq ht.symm
    · intro a ha b hb
      rcases List.mem_cons.mp hb with rfl | hb
      · exact ht.trans_le (h.timer_left a ha)
      · exact htAC a ha b hb
  · intro y hy
    rcases hmem y hy with rfl | hy
    · exact ht.trans_le h.timer_le
    · exact h.wf.timer_le y hy
  · intro y hy
    rcases hmem y hy with rfl | hy
    · exact hx
    · exact h.wf.held y hy

/-- A fragment that does not run into an assertion leaves the invariant. -/
theorem inv (h : Target p A C ipr cnt) {s' : Reass} {out : Option Datagram}
    (hr : ipReassInto ⟨A ++ d :: C, cnt⟩ A.length (predIdx A.length) ipr p = .ok (s', out)) :
    Inv s' := by
  have hroom := h.room
  have hcount := h.count
  have hmax : IP_REASS_MAX_PBUFS = 10 := rfl
  have hinsert : ∀ x : ReassData,
      pbufs (A ++ x :: C) = heldPbufs x.p + pbufs (A ++ C) := by
    intro x
    rw [pbufs_append, pbufs_cons, pbufs_append]
    omega
  have hwith : heldPbufs (queueWith p.held ipr.p) = heldPbufs ipr.p + p.clen :=
    heldPbufs_queueWith p.held ipr.p
  have hof : ∀ q, ({ noteLastFrag ipr p with p := q } : ReassData).isOf p.hdr = true := by
    intro q
    rw [isOf_iff]
    simpa using isOf_iff.mp h.isOf
  rw [ipReassInto_eq] at hr
  obtain ⟨x, hx, hr⟩ := bind_eq_ok.mp hr
  obtain ⟨hq, rfl⟩ | ⟨-, rfl⟩ | ⟨-, -, -, rfl⟩ := chain_cases hx
  · -- The fragment is thrown away, which an empty queue does not do.
    cases hr
    have hne : (noteLastFrag ipr p).p ≠ [] := by
      intro hnil
      refine hq fun t ht => ?_
      rw [hnil] at ht
      cases ht
    refine ⟨h.wf_insert (hof _) (noteLastFrag_timer _ _) hne, ?_, ?_⟩
    · dsimp only
      rw [hinsert, noteLastFrag_p, u16sub, u16]
      omega
    · dsimp only
      rw [u16sub, u16]
      omega
  · cases hr
    refine ⟨h.wf_insert (hof _) (noteLastFrag_timer _ _) (by simp [queueWith]), ?_, ?_⟩
    · dsimp only
      rw [hinsert, noteLastFrag_p, hwith, u16]
      omega
    · dsimp only
      rw [u16]
      omega
  · cases hr
    refine ⟨h.wf, ?_, ?_⟩
    · dsimp only
      rw [noteLastFrag_p, hwith, u16sub, u16, u8]
      omega
    · dsimp only
      rw [noteLastFrag_p, hwith, u16sub, u16, u8]
      omega

end Target

/-- What `ip_reass` does with a fragment it can make room for: it drops it, hands it to the entry of
its datagram, or makes a new entry. -/
inductive Located (s : Reass) (p : Frag) : Except Abort (Reass × Option Datagram) → Prop where
  | dropped {s' : Reass} (inv : Inv s') (sub : s'.datagrams.Sublist s.datagrams)
      (full : ∀ own ∈ s.datagrams, own.isOf p.hdr = true →
        IP_REASS_MAX_PBUFS < heldPbufs own.p + p.clen) :
      Located s p (.ok (s', none))
  | queued {A C : List ReassData} {own : ReassData} {cnt : ℕ}
      (target : Target p A C (noteFirstHdr own p) cnt) (isOf : own.isOf p.hdr = true)
      (sub : (A ++ own :: C).Sublist s.datagrams) :
      Located s p (ipReassInto ⟨A ++ own :: C, cnt⟩ A.length (predIdx A.length)
        (noteFirstHdr own p) p)
  | created {C : List ReassData} {cnt : ℕ} (target : Target p [] C (newDatagram p.hdr) cnt)
      (sub : C.Sublist s.datagrams) (none : ∀ d ∈ s.datagrams, d.isOf p.hdr = false) :
      Located s p (ipReassInto ⟨[] ++ newDatagram p.hdr :: C, cnt⟩ ([] : List ReassData).length
        (predIdx ([] : List ReassData).length) (newDatagram p.hdr) p)

/-- The entry of the fragment's datagram is the first that matches. -/
theorem ipReassFind_eq {p : Frag} {A C : List ReassData} {own : ReassData} {cnt : ℕ}
    (hA : ∀ a ∈ A, a.isOf p.hdr = false) (hown : own.isOf p.hdr = true) :
    ipReassFind ⟨A ++ own :: C, cnt⟩ p =
      ipReassInto ⟨A ++ own :: C, cnt⟩ A.length (predIdx A.length) (noteFirstHdr own p) p := by
  have hfind : (A ++ own :: C).findIdx? (·.isOf p.hdr) = some A.length := by
    have hnone : A.findIdx? (·.isOf p.hdr) = none :=
      List.findIdx?_eq_none_iff.mpr hA
    rw [List.findIdx?_append, hnone, List.findIdx?_cons, hown]
    simp
  have hget : (A ++ own :: C)[A.length]? = some own := by simp
  rw [ipReassFind]
  dsimp only
  rw [hfind]
  dsimp only
  rw [hget]
  rfl

/-- The entry of the fragment's datagram is found. -/
theorem ipReassFind_own {s₀ : Reass} {p : Frag} {A C : List ReassData} {own : ReassData} {cnt : ℕ}
    (h : Inv ⟨A ++ own :: C, cnt⟩) (hcut : Cut p.hdr (A ++ [own]) C)
    (hown : own.isOf p.hdr = true) (hroom : cnt + p.clen ≤ IP_REASS_MAX_PBUFS)
    (hsub : (A ++ own :: C).Sublist s₀.datagrams) :
    Located s₀ p (ipReassFind ⟨A ++ own :: C, cnt⟩ p) := by
  have hA : ∀ a ∈ A, a.isOf p.hdr = false := by
    obtain hnil | ⟨A', own', heq, -, hA'⟩ := hcut.own
    · exact absurd hnil (by simp)
    · rw [(List.append_inj' heq rfl).1]
      exact hA'
  obtain ⟨-, htC, htAC⟩ := List.pairwise_append.mp h.wf.timers
  rw [ipReassFind_eq hA hown]
  refine .queued ⟨h.wf.sublist ?_, ?_, noteFirstHdr_isOf hown, ?_, ?_, ?_, ?_, hroom⟩ hown hsub
  · exact (List.sublist_cons_self own C).append_left A
  · intro d hd
    rcases List.mem_append.mp hd with hd | hd
    · exact hA d hd
    · exact hcut.others d hd
  · rw [noteFirstHdr_timer]
    exact h.wf.timer_le own (by simp)
  · intro a ha
    rw [noteFirstHdr_timer]
    exact htAC a ha own List.mem_cons_self
  · intro c hc
    rw [noteFirstHdr_timer]
    exact (List.pairwise_cons.mp htC).1 c hc
  · have hcount : cnt = pbufs (A ++ own :: C) := h.count
    rw [hcount, noteFirstHdr_p, pbufs_append, pbufs_cons, pbufs_append]
    omega

/-- A fragment of a datagram that is not in the list gets a new entry, if there is one. -/
theorem ipReassFind_none {s₀ s : Reass} {p : Frag} (h : Inv s)
    (hroom : s.pbufcount + p.clen ≤ IP_REASS_MAX_PBUFS)
    (hsub : s.datagrams.Sublist s₀.datagrams) (hnone : ∀ d ∈ s₀.datagrams, d.isOf p.hdr = false) :
    Located s₀ p (ipReassFind s p) := by
  have hfind : s.datagrams.findIdx? (·.isOf p.hdr) = none :=
    List.findIdx?_eq_none_iff.mpr fun d hd => hnone d (hsub.subset hd)
  have hnew : ∀ s' : Reass, Inv s' → s'.datagrams.Sublist s₀.datagrams →
      s'.pbufcount ≤ s.pbufcount → Target p [] s'.datagrams (newDatagram p.hdr) s'.pbufcount := by
    intro s' h' hsub' hle
    refine ⟨h'.wf, fun d hd => hnone d (hsub'.subset hd), isOf_iff.mpr ⟨rfl, rfl, rfl⟩, le_rfl,
      fun a ha => (List.not_mem_nil ha).elim, h'.wf.timer_le, ?_, by omega⟩
    rw [h'.count]
    exact (Nat.zero_add _).symm
  rw [ipReassFind, hfind]
  dsimp only
  rw [ipReassEnqueueNewDatagram]
  by_cases hlen : s.datagrams.length < MEMP_NUM_REASSDATA
  · rw [if_pos hlen]
    exact .created (hnew s h hsub le_rfl) hsub hnone
  · have hcut : Cut p.hdr [] s.datagrams :=
      ⟨.inl rfl, fun c hc => hnone c (hsub.subset hc)⟩
    have hneed : ([] : List ReassData).length ≤ 1 ∨ 0 < p.clen ∧ p.clen ≤ pbufs s.datagrams :=
      .inl (Nat.zero_le _)
    obtain ⟨k, s', freed, hok, hinv, hl, -, hcnt, -⟩ :=
      removeOldest_ok h (List.nil_append _).symm hcut hneed
    have hsub' : s'.datagrams.Sublist s₀.datagrams := by
      rw [hl]
      exact (List.take_sublist k _).trans hsub
    rw [if_neg hlen, hok]
    by_cases hgot : p.clen ≤ freed ∧ s'.datagrams.length < MEMP_NUM_REASSDATA
    · have hT := hnew s' hinv hsub' (by omega)
      simp only [bind, Except.bind, if_pos hgot]
      exact .created hT hsub' hnone
    · simp only [bind, Except.bind, if_neg hgot]
      refine .dropped hinv hsub' fun own hown hof => ?_
      rw [hnone own hown] at hof
      cases hof

/-- When the datagrams must make room for a fragment of a datagram in the list, that one is the
newest, or those older than it hold the pbufs that are needed. -/
def RoomOk (s : Reass) (p : Frag) : Prop :=
  IP_REASS_MAX_PBUFS < s.pbufcount + p.clen → (∃ own ∈ s.datagrams, own.isOf p.hdr = true) →
    newer p.hdr s.datagrams = [] ∨ p.clen ≤ pbufs (older p.hdr s.datagrams)

instance (s : Reass) (p : Frag) : Decidable (RoomOk s p) :=
  inferInstanceAs (Decidable (_ < _ → (∃ own ∈ s.datagrams, own.isOf p.hdr = true) → _ ∨ _))

/-- Where a fragment goes. -/
theorem ipReass_located {s : Reass} {p : Frag} (h : Inv s) (hhl : p.hdr.hl * 4 = IP_HLEN)
    (hroom : RoomOk s p) : Located s p (ipReass s p) := by
  have hmax := h.le_max
  rw [ipReass, if_neg (not_not.mpr hhl)]
  by_cases hfull : IP_REASS_MAX_PBUFS < s.pbufcount + p.clen
  · rw [if_pos hfull]
    obtain hnone | ⟨own, hl, hown, hcut⟩ := h.wf.split p.hdr
    · -- No entry is of the fragment's datagram, so the oldest entries go.
      have hcut : Cut p.hdr [] s.datagrams := ⟨.inl rfl, hnone⟩
      have hneed : ([] : List ReassData).length ≤ 1 ∨ 0 < p.clen ∧ p.clen ≤ pbufs s.datagrams :=
        .inl (Nat.zero_le _)
      obtain ⟨k, s', freed, hok, hinv, hl', -, hcnt, -⟩ :=
        removeOldest_ok h (List.nil_append _).symm hcut hneed
      have hsub : s'.datagrams.Sublist s.datagrams := by
        rw [hl']
        exact List.take_sublist k _
      rw [hok]
      by_cases hdrop : freed = 0 ∨ IP_REASS_MAX_PBUFS < s'.pbufcount + p.clen
      · simp only [bind, Except.bind, if_pos hdrop]
        refine .dropped hinv hsub fun own hown hof => ?_
        rw [hnone own hown] at hof
        cases hof
      · simp only [bind, Except.bind, if_neg hdrop]
        exact ipReassFind_none hinv (by omega) hsub hnone
    · have hmem : own ∈ s.datagrams := by
        rw [hl]
        simp
      have hkeep := hroom hfull ⟨own, hmem, hown⟩
      have hsplit : s.datagrams =
          newer p.hdr s.datagrams ++ [own] ++ older p.hdr s.datagrams := by
        rw [List.append_assoc]
        exact hl
      generalize newer p.hdr s.datagrams = A at hsplit hcut hkeep
      generalize older p.hdr s.datagrams = C at hsplit hcut hkeep
      have hneed : (A ++ [own]).length ≤ 1 ∨ 0 < p.clen ∧ p.clen ≤ pbufs C := by
        rcases hkeep with rfl | hle
        · exact .inl le_rfl
        · exact .inr ⟨by omega, hle⟩
      obtain ⟨k, s', freed, hok, hinv, hl', hfreed, hcnt, hk⟩ :=
        removeOldest_ok h hsplit hcut hneed
      have hsub : s'.datagrams.Sublist s.datagrams := by
        rw [hl', hsplit]
        exact (List.take_sublist k C).append_left _
      rw [hok]
      by_cases hdrop : freed = 0 ∨ IP_REASS_MAX_PBUFS < s'.pbufcount + p.clen
      · simp only [bind, Except.bind, if_pos hdrop]
        refine .dropped hinv hsub fun own' hown' hof' => ?_
        -- Enough pbufs freed would be room enough, so only the fragment's own datagram is left.
        rw [h.wf.eq_of_isOf hown' hmem hof' hown]
        have hown_le : heldPbufs own.p + pbufs (C.take k) ≤ s'.pbufcount := by
          rw [hinv.count, hl', pbufs_append, pbufs_append, pbufs_cons]
          omega
        rcases hk with hk | rfl
        · omega
        · rcases hkeep with rfl | hle
          · have : s'.pbufcount = heldPbufs own.p := by
              rw [hinv.count, hl', List.take_zero, List.nil_append, List.append_nil, pbufs_cons,
                pbufs_nil, Nat.add_zero]
            omega
          · rw [List.drop_zero] at hfreed
            omega
      · simp only [bind, Except.bind, if_neg hdrop]
        obtain ⟨l', cnt'⟩ := s'
        dsimp only at hl' hsub hdrop hcnt
        rw [List.append_assoc] at hl'
        subst hl'
        exact ipReassFind_own hinv ⟨hcut.own, fun c hc => hcut.others c (List.mem_of_mem_take hc)⟩
          hown (by omega) hsub
  · rw [if_neg hfull]
    obtain hnone | ⟨own, hl, hown, hcut⟩ := h.wf.split p.hdr
    · exact ipReassFind_none h (by omega) (List.Sublist.refl _) hnone
    · generalize newer p.hdr s.datagrams = A at hl hcut
      generalize older p.hdr s.datagrams = C at hl hcut
      obtain ⟨l, cnt⟩ := s
      dsimp only at hl hfull
      subst hl
      exact ipReassFind_own h hcut hown (by omega) (List.Sublist.refl _)

/-- Without the condition the fragment runs into an assertion. -/
theorem ipReass_abort {s : Reass} {p : Frag} (h : Inv s) (hhl : p.hdr.hl * 4 = IP_HLEN)
    (hroom : ¬RoomOk s p) : ipReass s p = .error .prevIsIpr := by
  rw [RoomOk] at hroom
  push Not at hroom
  obtain ⟨hfull, ⟨own, hmem, hown⟩, hne, hlt⟩ := hroom
  obtain hnone | ⟨own', hl, hown', hcut⟩ := h.wf.split p.hdr
  · rw [hnone own hmem] at hown
    cases hown
  · have hsplit : s.datagrams =
        newer p.hdr s.datagrams ++ [own'] ++ older p.hdr s.datagrams := by
      rw [List.append_assoc]
      exact hl
    have hle : pbufs s.datagrams ≤ s.pbufcount := h.count.ge
    have hlen : 0 < (newer p.hdr s.datagrams).length := List.length_pos_iff.mpr hne
    have hwf := h.wf
    generalize newer p.hdr s.datagrams = A at *
    generalize older p.hdr s.datagrams = C at *
    obtain ⟨l, cnt⟩ := s
    dsimp only at hsplit hle hwf hfull
    subst hsplit
    have hloop : ipReassRemoveOldestDatagram ⟨A ++ [own'] ++ C, cnt⟩ p.hdr p.clen =
        .error .prevIsIpr :=
      removeOldestLoop_abort hcut hwf hle
        (by simp only [List.length_append, List.length_singleton]; omega)
        (by rw [List.length_append, List.length_singleton]; omega) (by omega)
    rw [ipReass, if_neg (not_not.mpr hhl), if_pos hfull, hloop]
    rfl

/-- A fragment for which there is no room is not taken. -/
theorem roomOk_of_ok {s s' : Reass} {p : Frag} {out : Option Datagram} (h : Inv s)
    (hhl : p.hdr.hl * 4 = IP_HLEN) (hr : ipReass s p = .ok (s', out)) : RoomOk s p := by
  by_contra hno
  rw [ipReass_abort h hhl hno] at hr
  cases hr

/-- A fragment that is taken leaves the invariant, whatever its offset and its flags are. -/
theorem ipReass_inv {s s' : Reass} {p : Frag} {out : Option Datagram} (h : Inv s)
    (hhl : p.hdr.hl * 4 = IP_HLEN) (hr : ipReass s p = .ok (s', out)) : Inv s' := by
  have hloc := ipReass_located h hhl (roomOk_of_ok h hhl hr)
  rw [hr] at hloc
  generalize hx : (Except.ok (s', out) : Except Abort (Reass × Option Datagram)) = x at hloc
  cases hloc with
  | dropped inv sub full =>
    cases hx
    exact inv
  | queued target isOf sub => exact target.inv hx.symm
  | created target sub none => exact target.inv hx.symm

/-! ## The entries after a fragment -/

/-- The entry that takes the fragment `p`, with the header of the first fragment of its datagram. -/
def Takes (s : Reass) (p : Frag) (ipr : ReassData) : Prop :=
  ipr = newDatagram p.hdr ∨
    ∃ own ∈ s.datagrams, own.isOf p.hdr = true ∧ heldPbufs own.p + p.clen ≤ IP_REASS_MAX_PBUFS ∧
      ipr = noteFirstHdr own p

/-- Where an entry comes from when the fragment `p` has been taken: it is an old one, or it has
taken `p`, and kept it or thrown it away. -/
def EntryFrom (s : Reass) (p : Frag) (x : ReassData) : Prop :=
  x ∈ s.datagrams ∨ ∃ ipr, Takes s p ipr ∧
    (¬Queued p.held ipr.p ∧ x = noteLastFrag ipr p ∨
      Queued p.held ipr.p ∧ x = { noteLastFrag ipr p with p := queueWith p.held ipr.p })

/-- The entry that takes a fragment is of its datagram. -/
theorem Takes.isOf {s : Reass} {p : Frag} {ipr : ReassData} (h : Takes s p ipr) :
    ipr.isOf p.hdr = true := by
  obtain rfl | ⟨own, -, hof, -, rfl⟩ := h
  · simp [ReassData.isOf, newDatagram, IpHdr.addressesAndIdMatch]
  · exact noteFirstHdr_isOf hof

/-- The entry that gets the fragment, between those that do not. -/
theorem ipReassInto_entries {A C : List ReassData} {d ipr : ReassData} {cnt : ℕ} {p : Frag}
    {s' : Reass} {out : Option Datagram}
    (hr : ipReassInto ⟨A ++ d :: C, cnt⟩ A.length (predIdx A.length) ipr p = .ok (s', out)) :
    ∀ x ∈ s'.datagrams, x ∈ A ++ C ∨
      ¬Queued p.held ipr.p ∧ x = noteLastFrag ipr p ∨
      Queued p.held ipr.p ∧ x = { noteLastFrag ipr p with p := queueWith p.held ipr.p } := by
  have hmem : ∀ x y : ReassData, x ∈ A ++ y :: C → x ∈ A ++ C ∨ x = y := by
    intro x y hx
    simp only [List.mem_append, List.mem_cons] at hx ⊢
    tauto
  rw [ipReassInto_eq] at hr
  obtain ⟨x, hx, hr⟩ := bind_eq_ok.mp hr
  have hcases := chain_cases hx
  rw [noteLastFrag_p] at hcases
  obtain ⟨hq, rfl⟩ | ⟨hq, rfl⟩ | ⟨hq, -, -, rfl⟩ := hcases
  · cases hr
    exact fun x hx => (hmem x _ hx).imp_right fun hx => .inl ⟨hq, hx⟩
  · cases hr
    exact fun x hx => (hmem x _ hx).imp_right fun hx => .inr ⟨hq, hx⟩
  · cases hr
    exact fun x hx => .inl hx

/-- Every entry after a fragment comes from one before. -/
theorem ipReass_entries {s s' : Reass} {p : Frag} {out : Option Datagram} (h : Inv s)
    (hhl : p.hdr.hl * 4 = IP_HLEN) (hr : ipReass s p = .ok (s', out)) :
    ∀ x ∈ s'.datagrams, EntryFrom s p x := by
  have hloc := ipReass_located h hhl (roomOk_of_ok h hhl hr)
  rw [hr] at hloc
  generalize hx : (Except.ok (s', out) : Except Abort (Reass × Option Datagram)) = x at hloc
  cases hloc with
  | dropped inv sub full =>
    cases hx
    exact fun d hd => .inl (sub.subset hd)
  | @queued A C own cnt target isOf sub =>
    have hmem : own ∈ s.datagrams := sub.subset (by simp)
    have hothers : ∀ d ∈ A ++ C, d ∈ s.datagrams := fun d hd =>
      sub.subset (((List.sublist_cons_self own C).append_left A).subset hd)
    have hfit : heldPbufs own.p + p.clen ≤ IP_REASS_MAX_PBUFS := by
      have hcount := target.count
      rw [noteFirstHdr_p] at hcount
      exact le_trans (by omega) target.room
    intro d hd
    rcases ipReassInto_entries hx.symm d hd with hd | hd
    · exact .inl (hothers d hd)
    · exact .inr ⟨noteFirstHdr own p, .inr ⟨own, hmem, isOf, hfit, rfl⟩, hd⟩
  | @created C cnt target sub none =>
    intro d hd
    rcases ipReassInto_entries hx.symm d hd with hd | hd
    · exact .inl (sub.subset hd)
    · exact .inr ⟨newDatagram p.hdr, .inl rfl, hd⟩

end Lwip.Ip
