import Lwip.Tcp.Receive

/-!
# The queue of segments out of sequence

What `pcb->ooseq` looks like between two calls (`OoseqInv`), and what its operations do to it. All
sequence numbers are measured from an origin `r`, which is `rcv_nxt`; a queued segment starts less
than `2^16` after it, so the comparisons of the source are comparisons of these distances.

`Derived` lists what a queueing can put on the queue: an old segment, an old segment cut short, the
new one, the new one cut short, or the new one with the FIN of a segment that it covers.
-/

namespace Lwip.Tcp

variable {r : Serial} {wnd : ℕ}

/-- The distance of the segment's start from the origin. -/
def Seg.off (r : Serial) (s : Seg) : ℕ := Serial.dist r s.seqno

/-- A segment as the receive path keeps it: its length is that of its pbuf, it carries data or a
FIN, and no SYN. -/
structure Seg.Ok (s : Seg) : Prop where
  len_eq : s.len = s.p.length
  len_lt : s.len < 2^16
  nonempty : s.flags.fin = true ∨ 0 < s.len
  syn : s.flags.syn = false

/-- `a` lies before `b` without overlap, and carries no FIN. -/
structure Seg.Before (r : Serial) (a b : Seg) : Prop where
  disjoint : a.off r + a.len ≤ b.off r
  lt : a.off r < b.off r
  fin : a.flags.fin = false

/-- The queue while it is taken apart: in order, disjoint, with a FIN only at its end, and less than
`wnd` from the origin. -/
structure OoseqWeak (r : Serial) (wnd : ℕ) (q : List Seg) : Prop where
  order : q.Pairwise (Seg.Before r)
  ok : ∀ s ∈ q, s.Ok
  below : ∀ s ∈ q, s.off r < wnd

/-- The queue between two calls: every segment also starts after the origin. -/
structure OoseqInv (r : Serial) (wnd : ℕ) (q : List Seg) : Prop extends OoseqWeak r wnd q where
  above : ∀ s ∈ q, 0 < s.off r

/-! ## Distances of segments -/

/-- A segment that is cut short keeps its distance. -/
@[simp] theorem Seg.setFin_seqno (s : Seg) : s.setFin.seqno = s.seqno := rfl
@[simp] theorem Seg.setFin_len (s : Seg) : s.setFin.len = s.len := rfl
@[simp] theorem Seg.setFin_p (s : Seg) : s.setFin.p = s.p := rfl
@[simp] theorem Seg.setFin_fin (s : Seg) : s.setFin.flags.fin = true := rfl
@[simp] theorem Seg.setFin_syn (s : Seg) : s.setFin.flags.syn = s.flags.syn := rfl
@[simp] theorem Seg.trim_seqno (s : Seg) (n : ℕ) : (s.trim n).seqno = s.seqno := rfl
@[simp] theorem Seg.trim_len (s : Seg) (n : ℕ) : (s.trim n).len = n := rfl
@[simp] theorem Seg.trim_p (s : Seg) (n : ℕ) : (s.trim n).p = s.p.take n := rfl
@[simp] theorem Seg.trim_flags (s : Seg) (n : ℕ) : (s.trim n).flags = s.flags := rfl
@[simp] theorem Seg.setFin_off (s : Seg) : s.setFin.off r = s.off r := rfl
@[simp] theorem Seg.trim_off (s : Seg) (n : ℕ) : (s.trim n).off r = s.off r := rfl

/-- The end of the data of a segment near the origin. -/
theorem Seg.dist_end {s : Seg} (h : s.off r + s.len < 2^31) :
    Serial.dist r (s.seqno.adv s.len) = s.off r + s.len :=
  Serial.dist_adv _ _ _ (by unfold Seg.off at h; omega)

/-- A segment cut short keeps its form. -/
theorem Seg.Ok.trim {s : Seg} (hs : s.Ok) {n : ℕ} (h0 : 0 < n) (hn : n < s.len) :
    (s.trim n).Ok where
  len_eq := by simp only [Seg.trim_len, Seg.trim_p, List.length_take]; have := hs.len_eq; omega
  len_lt := by have := hs.len_lt; simp only [Seg.trim_len]; omega
  nonempty := .inr h0
  syn := hs.syn

/-- A segment given a FIN keeps its form. -/
theorem Seg.Ok.setFin {s : Seg} (hs : s.Ok) : s.setFin.Ok where
  len_eq := hs.len_eq
  len_lt := hs.len_lt
  nonempty := .inl rfl
  syn := hs.syn

section Compare

variable {a b : Seg} (ha : a.off r + a.len < 2^31) (hb : b.off r + b.len < 2^31)
include ha hb

/-- The test of the loops that drop covered segments. -/
theorem geq_end_iff : Serial.geq (a.seqno.adv a.len) (b.seqno.adv b.len) ↔
    b.off r + b.len ≤ a.off r + a.len := by
  rw [Serial.geq_iff_dist (r := r) (by rw [Seg.dist_end ha]; exact ha)
    (by rw [Seg.dist_end hb]; exact hb), Seg.dist_end ha, Seg.dist_end hb]

/-- The test for an overlap with the start of the next segment. -/
theorem gt_start_iff : Serial.gt (a.seqno.adv a.len) b.seqno ↔ b.off r < a.off r + a.len := by
  rw [Serial.gt_iff_dist (r := r) (by rw [Seg.dist_end ha]; exact ha)
    (by unfold Seg.off at hb; omega), Seg.dist_end ha]
  rfl

/-- The order of two starts. -/
theorem lt_seqno_iff : Serial.lt a.seqno b.seqno ↔ a.off r < b.off r := by
  unfold Seg.off at *
  exact Serial.lt_iff_dist (by omega) (by omega)

/-- For queued segments, `>` compares the distances from `rcv_nxt`. -/
theorem gt_seqno_iff : Serial.gt a.seqno b.seqno ↔ b.off r < a.off r := by
  unfold Seg.off at *
  exact Serial.gt_iff_dist (by omega) (by omega)

end Compare

/-- Two segments start at the same place exactly when their distances agree. -/
theorem seqno_eq_iff (a b : Seg) : a.seqno = b.seqno ↔ a.off r = b.off r :=
  Serial.eq_iff_dist r _ _

/-! ## What a queueing can produce -/

/-- A segment that queueing `c` on `l` can leave on the queue. -/
inductive Derived (r : Serial) (c : Seg) (l : List Seg) : Seg → Prop where
  | old {s : Seg} : s ∈ l → Derived r c l s
  | cut {s : Seg} {n : ℕ} : s ∈ l → s.flags.fin = false → 0 < n → n < s.len →
      Derived r c l (s.trim n)
  | new : Derived r c l c
  | newCut {n : ℕ} : c.flags.fin = false → 0 < n → n < c.len → Derived r c l (c.trim n)
  | newFin {s : Seg} : s ∈ l → s.flags.fin = true → s.off r + s.len ≤ c.off r + c.len →
      Derived r c l c.setFin

/-- What can stay of a part of the queue can stay of the whole. -/
theorem Derived.mono {c : Seg} {l l' : List Seg} (h : l ⊆ l') {s : Seg} (hs : Derived r c l s) :
    Derived r c l' s := by
  cases hs with
  | old hm => exact .old (h hm)
  | cut hm hf h0 hn => exact .cut (h hm) hf h0 hn
  | new => exact .new
  | newCut hf h0 hn => exact .newCut hf h0 hn
  | newFin hm hf hle => exact .newFin (h hm) hf hle

/-- Everything that a queueing leaves has the form of a queued segment. -/
theorem Derived.ok {c : Seg} {l : List Seg} (hc : c.Ok) (hl : ∀ s ∈ l, s.Ok) {s : Seg}
    (hs : Derived r c l s) : s.Ok := by
  cases hs with
  | old hm => exact hl _ hm
  | cut hm _ h0 hn => exact (hl _ hm).trim h0 hn
  | new => exact hc
  | newCut _ h0 hn => exact hc.trim h0 hn
  | newFin => exact hc.setFin

/-- Queueing moves no start: what it leaves is as close to the origin as what was there. -/
theorem Derived.off_lt {c : Seg} {l : List Seg} {b : ℕ} (hc : c.off r < b)
    (hl : ∀ s ∈ l, s.off r < b) {s : Seg} (hs : Derived r c l s) : s.off r < b := by
  cases hs with
  | old hm => exact hl _ hm
  | cut hm => simpa using hl _ hm
  | new => exact hc
  | newCut => simpa using hc
  | newFin => simpa using hc

/-- Queueing moves no start: what it leaves starts after the origin. -/
theorem Derived.off_pos {c : Seg} {l : List Seg} (hc : 0 < c.off r)
    (hl : ∀ s ∈ l, 0 < s.off r) {s : Seg} (hs : Derived r c l s) : 0 < s.off r := by
  cases hs with
  | old hm => exact hl _ hm
  | cut hm => simpa using hl _ hm
  | new => exact hc
  | newCut => simpa using hc
  | newFin => simpa using hc

/-! ## `tcp_oos_insert_segment` -/

/-- The covered segments are a prefix of the queue. Either none of them has a FIN and the new
segment is unchanged, or the last of the queue was covered and its FIN passes on. -/
theorem tcpOosSwallow_spec {c : Seg} {l : List Seg} (hwnd : wnd ≤ 2^16) (hc : c.Ok)
    (hcw : c.off r < wnd) (hl : OoseqWeak r wnd l) :
    ∃ d l', l = d ++ l' ∧ (∀ s ∈ d, s.off r + s.len ≤ c.off r + c.len) ∧
      (∀ n ∈ l'.head?, c.off r + c.len < n.off r + n.len) ∧
      (tcpOosSwallow c l = (c, l') ∨
        l' = [] ∧ (∃ s ∈ d, s.flags.fin = true) ∧ tcpOosSwallow c l = (c.setFin, [])) := by
  induction l with
  | nil => exact ⟨[], [], rfl, by simp, by simp, .inl rfl⟩
  | cons n l ih =>
    have hn := hl.ok n (by simp)
    have hnw := hl.below n (by simp)
    have hcl := hc.len_lt
    have hnl := hn.len_lt
    obtain ⟨hbefore, hpw⟩ := List.pairwise_cons.mp hl.order
    by_cases hge : n.off r + n.len ≤ c.off r + c.len
    · have hgeq := (geq_end_iff (r := r) (a := c) (b := n) (by omega) (by omega)).mpr hge
      simp only [tcpOosSwallow, hgeq, if_true]
      cases hfin : n.flags.fin with
      | true =>
        -- Nothing can follow a FIN.
        have hnil : l = [] := by
          cases l with
          | nil => rfl
          | cons m l => have := (hbefore m (by simp)).fin; rw [hfin] at this; cases this
        subst hnil
        refine ⟨[n], [], rfl, by simpa using hge, by simp, .inr ⟨rfl, ⟨n, by simp, hfin⟩, ?_⟩⟩
        simp [tcpOosSwallow]
      | false =>
        obtain ⟨d, l', rfl, hd, hh, hres⟩ := ih
          ⟨hpw, fun s hs => hl.ok s (by simp [hs]), fun s hs => hl.below s (by simp [hs])⟩
        refine ⟨n :: d, l', rfl, ?_, hh, ?_⟩
        · intro s hs
          rcases List.mem_cons.mp hs with rfl | hs
          · exact hge
          · exact hd s hs
        · rcases hres with h | ⟨h0, ⟨s, hs, hf⟩, h⟩
          · exact .inl (by simpa using h)
          · exact .inr ⟨h0, ⟨s, by simp [hs], hf⟩, by simpa using h⟩
    · have hgeq : ¬ Serial.geq (c.seqno.adv c.len) (n.seqno.adv n.len) := by
        rw [geq_end_iff (r := r) (a := c) (b := n) (by omega) (by omega)]; exact hge
      refine ⟨[], n :: l, rfl, by simp, ?_, .inl (by simp [tcpOosSwallow, hgeq])⟩
      intro m hm
      simp only [List.head?_cons, Option.mem_def, Option.some.injEq] at hm
      subst hm
      omega

/-- Inserting a segment in front of a queue that starts after it, or at it with less data: the
result starts where the segment does, is in order, and holds only what `Derived` lists. -/
theorem tcpOosInsertSegment_spec {c : Seg} {l : List Seg} (hwnd : wnd ≤ 2^16) (hc : c.Ok)
    (hcw : c.off r < wnd) (hl : OoseqWeak r wnd l)
    (hpos : ∀ s ∈ l, c.off r < s.off r ∨ c.off r = s.off r ∧ s.len < c.len) :
    ∃ c' l', tcpOosInsertSegment c l = c' :: l' ∧ c'.seqno = c.seqno ∧
      (c' :: l').Pairwise (Seg.Before r) ∧ ∀ s ∈ c' :: l', Derived r c l s := by
  unfold tcpOosInsertSegment
  cases hfin : c.flags.fin with
  | true =>
    refine ⟨c, [], by simp, rfl, by simp, ?_⟩
    intro s hs
    rw [List.mem_singleton.mp hs]
    exact .new
  | false =>
    simp only [Bool.false_eq_true, if_false]
    obtain ⟨d, l', rfl, hd, hh, hres⟩ := tcpOosSwallow_spec hwnd hc hcw hl
    rcases hres with h | ⟨rfl, ⟨s, hs, hf⟩, h⟩
    · rw [h]
      cases l' with
      | nil =>
        refine ⟨c, [], rfl, rfl, by simp, ?_⟩
        intro s hs
        rw [List.mem_singleton.mp hs]
        exact .new
      | cons n l' =>
        have hn := hl.ok n (by simp)
        have hnw := hl.below n (by simp)
        have hcl := hc.len_lt
        have hnl := hn.len_lt
        have hend := hh n (by simp)
        -- The segment that is left starts after `c`: one that starts with it is covered.
        have hoff : c.off r < n.off r := by
          rcases hpos n (by simp) with h | ⟨h, h'⟩ <;> omega
        have hpw := (List.pairwise_append.mp hl.order).2.1
        have hall : ∀ s ∈ n :: l', n.off r ≤ s.off r := by
          intro s hs
          rcases List.mem_cons.mp hs with rfl | hs
          · exact le_rfl
          · exact ((List.pairwise_cons.mp hpw).1 s hs).lt.le
        have hold : ∀ s ∈ n :: l', Derived r c (d ++ n :: l') s :=
          fun s hs => .old (List.mem_append_right d hs)
        by_cases hov : n.off r < c.off r + c.len
        · have hgt := (gt_start_iff (r := r) (a := c) (b := n) (by omega) (by omega)).mpr hov
          have hdist : Serial.dist c.seqno n.seqno = n.off r - c.off r :=
            Serial.dist_eq_sub (r := r) hoff.le
          have hlen : u16 (Serial.dist c.seqno n.seqno) = n.off r - c.off r := by
            rw [hdist]; exact u16_eq (by omega)
          simp only [hgt, if_true, hlen]
          refine ⟨_, _, rfl, rfl, ?_, ?_⟩
          · refine List.pairwise_cons.mpr ⟨fun s hs => ?_, hpw⟩
            have := hall s hs
            exact ⟨by simp only [Seg.trim_off, Seg.trim_len]; omega, by rw [Seg.trim_off]; omega,
              hfin⟩
          · intro s hs
            rcases List.mem_cons.mp hs with rfl | hs
            · exact .newCut hfin (by omega) (by omega)
            · exact hold s hs
        · have hgt : ¬ Serial.gt (c.seqno.adv c.len) n.seqno := by
            rw [gt_start_iff (r := r) (a := c) (b := n) (by omega) (by omega)]; exact hov
          simp only [hgt, if_false]
          refine ⟨_, _, rfl, rfl, ?_, ?_⟩
          · refine List.pairwise_cons.mpr ⟨fun s hs => ?_, hpw⟩
            have := hall s hs
            exact ⟨by omega, by omega, hfin⟩
          · intro s hs
            rcases List.mem_cons.mp hs with rfl | hs
            · exact .new
            · exact hold s hs
    · rw [h]
      refine ⟨c.setFin, [], rfl, rfl, by simp, ?_⟩
      intro t ht
      rw [List.mem_singleton.mp ht]
      exact .newFin (by simp [hs]) hf (hd s hs)

/-! ## The walk through the queue -/

/-- A segment before `c`, cut to end where `c` starts. -/
theorem trimPrev_spec {p c : Seg} {l : List Seg} (hp : p.Ok) (hpw : p.off r < 2^16)
    (hc : c.off r + c.len < 2^31) (hlt : p.off r < c.off r) (hfin : p.flags.fin = false)
    (hm : p ∈ l) :
    (trimPrev p c).seqno = p.seqno ∧ (trimPrev p c).Before r c ∧ Derived r c l (trimPrev p c) := by
  have hpl := hp.len_lt
  have hiff := gt_start_iff (r := r) (a := p) (b := c) (by omega) hc
  unfold trimPrev
  by_cases hov : c.off r < p.off r + p.len
  · have hdist : u16 (Serial.dist p.seqno c.seqno) = c.off r - p.off r := by
      rw [Serial.dist_eq_sub (r := r) hlt.le]
      exact u16_eq (by unfold Seg.off at *; omega)
    rw [if_pos (hiff.mpr hov), hdist]
    refine ⟨rfl, ⟨?_, by rw [Seg.trim_off]; exact hlt, hfin⟩, .cut hm hfin (by omega) (by omega)⟩
    simp only [Seg.trim_off, Seg.trim_len]
    omega
  · rw [if_neg (by rw [hiff]; exact hov)]
    exact ⟨rfl, ⟨by omega, hlt, hfin⟩, .old hm⟩

/-- A segment in front of a list whose first element it precedes, precedes all of it. -/
theorem pairwise_cons_of_head {p n : Seg} {l : List Seg} (hpn : p.Before r n) (n' : Seg)
    (hn' : n'.seqno = n.seqno) (hl : (n' :: l).Pairwise (Seg.Before r)) :
    (p :: n' :: l).Pairwise (Seg.Before r) := by
  have hoff : n'.off r = n.off r := by unfold Seg.off; rw [hn']
  refine List.pairwise_cons.mpr ⟨fun s hs => ?_, hl⟩
  have h1 := hpn.disjoint
  have h2 := hpn.lt
  rcases List.mem_cons.mp hs with rfl | hs
  · exact ⟨by omega, by omega, hpn.fin⟩
  · have := ((List.pairwise_cons.mp hl).1 s hs).lt
    exact ⟨by omega, by omega, hpn.fin⟩

/-- The walk from `prev` on, which lies before the new segment: the result starts where `prev` does,
is in order, and holds only what `Derived` lists. -/
theorem tcpOosWalk_some {c : Seg} (alloc : Bool) (hwnd : wnd ≤ 2^16) (hc : c.Ok)
    (hcw : c.off r < wnd) (l : List Seg) (p : Seg) (hl : OoseqWeak r wnd (p :: l))
    (hp : p.off r < c.off r) :
    ∃ p' l', tcpOosWalk alloc c (some p) l = p' :: l' ∧ p'.seqno = p.seqno ∧
      (p' :: l').Pairwise (Seg.Before r) ∧ ∀ s ∈ p' :: l', Derived r c (p :: l) s := by
  have hcl := hc.len_lt
  have hunchanged : (p :: l).Pairwise (Seg.Before r) ∧ ∀ s ∈ p :: l, Derived r c (p :: l) s :=
    ⟨hl.order, fun s hs => .old hs⟩
  induction l generalizing p with
  | nil => exact ⟨p, [], rfl, rfl, hunchanged⟩
  | cons n l ih =>
    have hpok := hl.ok p (by simp)
    have hpw := hl.below p (by simp)
    have hnok := hl.ok n (by simp)
    have hnw := hl.below n (by simp)
    have hnl := hnok.len_lt
    obtain ⟨hpall, hpw'⟩ := List.pairwise_cons.mp hl.order
    have hpn := hpall n (by simp)
    have hl' : OoseqWeak r wnd (n :: l) :=
      ⟨hpw', fun s hs => hl.ok s (by simp [hs]), fun s hs => hl.below s (by simp [hs])⟩
    have hmono : ∀ s, Derived r c (n :: l) s → Derived r c (p :: n :: l) s :=
      fun s => Derived.mono (List.subset_cons_self p (n :: l))
    have hafter : ∀ s ∈ n :: l, n.off r ≤ s.off r := by
      intro s hs
      rcases List.mem_cons.mp hs with rfl | hs
      · exact le_rfl
      · exact ((List.pairwise_cons.mp hpw').1 s hs).lt.le
    unfold tcpOosWalk
    by_cases heq : c.seqno = n.seqno
    · -- The same start: the new one replaces the old if it is longer.
      have hoff : c.off r = n.off r := (seqno_eq_iff c n).mp heq
      rw [if_pos heq]
      by_cases hlen : c.len > n.len
      · rw [if_pos hlen]
        cases alloc with
        | false => exact ⟨p, n :: l, rfl, rfl, hunchanged⟩
        | true =>
          obtain ⟨c', l', hins, hseq, hpws, hder⟩ :=
            tcpOosInsertSegment_spec hwnd hc hcw hl' (fun s hs => by
              rcases List.mem_cons.mp hs with rfl | hs
              · exact .inr ⟨hoff, hlen⟩
              · have := ((List.pairwise_cons.mp hpw').1 s hs).lt
                exact .inl (by omega))
          refine ⟨p, c' :: l', by simp [hins], rfl,
            pairwise_cons_of_head hpn c' (hseq.trans heq) hpws, ?_⟩
          intro s hs
          rcases List.mem_cons.mp hs with rfl | hs
          · exact .old (by simp)
          · exact hmono s (hder s hs)
      · rw [if_neg hlen]
        exact ⟨p, n :: l, rfl, rfl, hunchanged⟩
    · have hne : c.off r ≠ n.off r := fun h => heq ((seqno_eq_iff (r := r) c n).mpr h)
      rw [if_neg heq]
      have hbetween : Serial.between c.seqno (p.seqno.adv 1) (n.seqno - 1) ↔ c.off r < n.off r := by
        have h1 : Serial.dist r (p.seqno.adv 1) = p.off r + 1 :=
          Serial.dist_adv _ _ _ (by unfold Seg.off at *; omega)
        have hlt := hpn.lt
        have h2 : Serial.dist r (n.seqno - 1) = n.off r - 1 :=
          Serial.dist_sub_one (by unfold Seg.off at *; omega)
        unfold Serial.between
        rw [Serial.geq_iff_dist (r := r) (by unfold Seg.off at *; omega) (by rw [h1]; omega),
          Serial.leq_iff_dist (r := r) (by unfold Seg.off at *; omega) (by rw [h2]; omega), h1, h2]
        unfold Seg.off at *
        omega
      by_cases hlt : c.off r < n.off r
      · -- Between the two: `prev` is trimmed and the new one inserted.
        simp only [hbetween.mpr hlt, if_true]
        cases alloc with
        | false => exact ⟨p, n :: l, rfl, rfl, hunchanged⟩
        | true =>
          obtain ⟨c', l', hins, hseq, hpws, hder⟩ :=
            tcpOosInsertSegment_spec hwnd hc hcw hl' (fun s hs => by
              have := hafter s hs
              exact .inl (by omega))
          obtain ⟨htseq, htbefore, htder⟩ := trimPrev_spec (r := r) (c := c) (l := p :: n :: l) hpok
            (by omega) (by omega) hp hpn.fin (by simp)
          refine ⟨trimPrev p c, c' :: l', by simp [hins], htseq,
            pairwise_cons_of_head htbefore c' hseq hpws, ?_⟩
          intro s hs
          rcases List.mem_cons.mp hs with rfl | hs
          · exact htder
          · exact hmono s (hder s hs)
      · simp only [mt hbetween.mp hlt, if_false]
        have hgt : Serial.gt c.seqno n.seqno := by
          rw [gt_seqno_iff (r := r) (a := c) (b := n) (by omega) (by omega)]; omega
        by_cases hlast : l = []
        · -- After the last: appended, unless the last has a FIN.
          subst hlast
          simp only [hgt, and_self, if_true]
          cases hf : n.flags.fin with
          | true => exact ⟨p, [n], rfl, rfl, hunchanged⟩
          | false =>
            cases alloc with
            | false => exact ⟨p, [n], rfl, rfl, hunchanged⟩
            | true =>
              obtain ⟨htseq, htbefore, htder⟩ := trimPrev_spec (r := r) (c := c) (l := [p, n]) hnok
                (by omega) (by omega) (by omega) hf (by simp)
              refine ⟨p, [trimPrev n c, c], rfl, rfl,
                pairwise_cons_of_head hpn _ htseq (by simpa using htbefore), ?_⟩
              intro s hs
              simp only [List.mem_cons, List.not_mem_nil, or_false] at hs
              rcases hs with rfl | rfl | rfl
              · exact .old (by simp)
              · exact htder
              · exact .new
        · simp only [hlast, false_and, if_false]
          obtain ⟨n', l', hw, hseq, hpws, hder⟩ := ih n hl' (by omega)
            ⟨hl'.order, fun s hs => .old hs⟩
          refine ⟨p, n' :: l', by rw [hw], rfl, pairwise_cons_of_head hpn n' hseq hpws, ?_⟩
          intro s hs
          rcases List.mem_cons.mp hs with rfl | hs
          · exact .old (by simp)
          · exact hmono s (hder s hs)

/-- The walk from the start of the queue. -/
theorem tcpOosWalk_none {c : Seg} (alloc : Bool) (hwnd : wnd ≤ 2^16) (hc : c.Ok)
    (hcw : c.off r < wnd) {l : List Seg} (hl : OoseqWeak r wnd l) :
    (tcpOosWalk alloc c none l).Pairwise (Seg.Before r) ∧
      ∀ s ∈ tcpOosWalk alloc c none l, Derived r c l s := by
  have hunchanged : l.Pairwise (Seg.Before r) ∧ ∀ s ∈ l, Derived r c l s :=
    ⟨hl.order, fun s hs => .old hs⟩
  cases l with
  | nil => exact hunchanged
  | cons n l =>
    have hcl := hc.len_lt
    have hnok := hl.ok n (by simp)
    have hnw := hl.below n (by simp)
    have hnl := hnok.len_lt
    have hafter : ∀ s ∈ l, n.off r < s.off r :=
      fun s hs => ((List.pairwise_cons.mp hl.order).1 s hs).lt
    unfold tcpOosWalk
    by_cases heq : c.seqno = n.seqno
    · have hoff : c.off r = n.off r := (seqno_eq_iff c n).mp heq
      rw [if_pos heq]
      by_cases hlen : c.len > n.len
      · rw [if_pos hlen]
        cases alloc with
        | false => exact hunchanged
        | true =>
          obtain ⟨c', l', hins, -, hpws, hder⟩ :=
            tcpOosInsertSegment_spec hwnd hc hcw hl (fun s hs => by
              rcases List.mem_cons.mp hs with rfl | hs
              · exact .inr ⟨hoff, hlen⟩
              · exact .inl (by rw [hoff]; exact hafter s hs))
          simp only [if_true, Option.toList_none, List.nil_append, hins]
          exact ⟨hpws, hder⟩
      · rw [if_neg hlen]
        exact hunchanged
    · have hne : c.off r ≠ n.off r := fun h => heq ((seqno_eq_iff (r := r) c n).mpr h)
      have hltiff := lt_seqno_iff (r := r) (a := c) (b := n) (by omega) (by omega)
      rw [if_neg heq]
      by_cases hlt : c.off r < n.off r
      · simp only [hltiff.mpr hlt, if_true]
        cases alloc with
        | false => exact hunchanged
        | true =>
          obtain ⟨c', l', hins, -, hpws, hder⟩ :=
            tcpOosInsertSegment_spec hwnd hc hcw hl (fun s hs => by
              rcases List.mem_cons.mp hs with rfl | hs
              · exact .inl hlt
              · exact .inl (lt_trans hlt (hafter s hs)))
          simp only [if_true, hins]
          exact ⟨hpws, hder⟩
      · simp only [mt hltiff.mp hlt, if_false]
        have hgt : Serial.gt c.seqno n.seqno := by
          rw [gt_seqno_iff (r := r) (a := c) (b := n) (by omega) (by omega)]; omega
        by_cases hlast : l = []
        · subst hlast
          simp only [hgt, and_self, if_true]
          cases hf : n.flags.fin with
          | true => exact hunchanged
          | false =>
            cases alloc with
            | false => exact hunchanged
            | true =>
              obtain ⟨-, htbefore, htder⟩ := trimPrev_spec (r := r) (c := c) (l := [n]) hnok
                (by omega) (by omega) (by omega) hf (by simp)
              refine ⟨by simpa using htbefore, ?_⟩
              intro s hs
              simp only [Bool.false_eq_true, if_false, if_true, List.mem_cons, List.not_mem_nil,
                or_false] at hs
              rcases hs with rfl | rfl
              · exact htder
              · exact .new
        · simp only [hlast, false_and, if_false]
          obtain ⟨n', l', hw, -, hpws, hder⟩ :=
            tcpOosWalk_some alloc hwnd hc hcw l n hl (by omega)
          rw [hw]
          exact ⟨hpws, hder⟩

/-- Queueing a segment that starts after the origin and below `wnd` keeps the invariant, and leaves
only what `Derived` lists. -/
theorem tcpQueueOoseq_spec {c : Seg} (alloc : Bool) (hwnd : wnd ≤ 2^16) (hc : c.Ok)
    (h0 : 0 < c.off r) (hcw : c.off r < wnd) {l : List Seg} (hl : OoseqInv r wnd l) :
    OoseqInv r wnd (tcpQueueOoseq alloc c l) ∧ ∀ s ∈ tcpQueueOoseq alloc c l, Derived r c l s := by
  have key : (tcpQueueOoseq alloc c l).Pairwise (Seg.Before r) ∧
      ∀ s ∈ tcpQueueOoseq alloc c l, Derived r c l s := by
    unfold tcpQueueOoseq
    cases l with
    | nil =>
      cases alloc with
      | false => simp
      | true =>
        refine ⟨by simp, fun s hs => ?_⟩
        simp only [if_true, List.mem_singleton] at hs
        rw [hs]
        exact .new
    | cons n l => exact tcpOosWalk_none alloc hwnd hc hcw hl.toOoseqWeak
  exact ⟨⟨⟨key.1, fun s hs => (key.2 s hs).ok hc hl.ok,
    fun s hs => (key.2 s hs).off_lt hcw hl.below⟩,
    fun s hs => (key.2 s hs).off_pos h0 hl.above⟩, key.2⟩

end Lwip.Tcp
