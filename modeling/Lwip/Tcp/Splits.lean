import Lwip.Tcp.Segments
import Lwip.Tcp.Fresh

/-!
# How `tcp_enqueue` breaks the data up

What the loop has built goes behind `unsent`, or its first segment is glued to the last one there.
Together with what the loop does this settles when a call does as it should (`splits_iff`).
-/

namespace Lwip.Tcp.Enqueue

/-! ## What the new segments come to -/

section Fitting

variable {o : Opts} {mss optlen room left queuelen queuelen' : ℕ} {fin copy : Bool}
  {flags : TcpFlags}
  {optflags : OptFlags} {segs segs' qs : List TcpSeg} {s u u' q : TcpSeg} {arg : List UInt8}
  {seqno : Serial} {pcb pcb' : Pcb} {init : List TcpSeg}

/-- The segment without PSH, which is of no account here. -/
def TcpSeg.noPsh (s : TcpSeg) : TcpSeg := { s with flags := { s.flags with psh := false } }

/-- Segments that differ in the flag PSH have the same data. -/
theorem noPsh_fields {s s' : TcpSeg} (h : s.noPsh = s'.noPsh) :
    s.seqno = s'.seqno ∧ s.len = s'.len ∧ s.data = s'.data ∧ s.flags.syn = s'.flags.syn ∧
      s.flags.fin = s'.flags.fin := by
  have hseqno := congrArg TcpSeg.seqno h
  have hlen := congrArg TcpSeg.len h
  have hdata := congrArg TcpSeg.data h
  have hsyn := congrArg (fun s => s.flags.syn) h
  have hfin := congrArg (fun s => s.flags.fin) h
  exact ⟨hseqno, hlen, hdata, hsyn, hfin⟩

/-- What the segments carry does not depend on PSH. -/
theorem Carries.noPsh (h : Carries seqno arg segs)
    (heq : segs.map TcpSeg.noPsh = segs'.map TcpSeg.noPsh) : Carries seqno arg segs' := by
  induction segs generalizing segs' seqno arg with
  | nil =>
    rw [List.map_eq_nil_iff.mp heq.symm]
    exact h
  | cons s segs ih =>
    obtain ⟨s', segs', rfl, hs, hsegs⟩ := List.map_eq_cons_iff.mp heq.symm
    obtain ⟨hseqno, hlen, hdata, hrest⟩ := h
    obtain ⟨hseqno', hlen', hdata', -⟩ := noPsh_fields hs
    refine ⟨hseqno'.trans hseqno, hlen'.trans_le hlen, ?_, ?_⟩
    · rw [hlen', ← hdata]
      exact hdata'
    · rw [hlen']
      exact ih hrest hsegs.symm

/-- Whether the segments fit does not depend on PSH. -/
theorem Fitting.noPsh (h : Fitting mss optlen fin segs)
    (heq : segs.map TcpSeg.noPsh = segs'.map TcpSeg.noPsh) : Fitting mss optlen fin segs' := by
  have hfrom : ∀ {l l' : List TcpSeg}, l.map TcpSeg.noPsh = l'.map TcpSeg.noPsh → ∀ s' ∈ l',
      ∃ s ∈ l, s.noPsh = s'.noPsh := by
    intro l l' heq s' hs'
    have hmem := List.mem_map_of_mem (f := TcpSeg.noPsh) hs'
    rw [← heq] at hmem
    exact List.mem_map.mp hmem
  constructor
  · intro s' hs'
    obtain ⟨s, hs, heq⟩ := hfrom heq s' hs'
    rw [← (noPsh_fields heq).2.1]
    exact h.len s hs
  · intro s' hs' hsyn
    obtain ⟨s, hs, heq⟩ := hfrom heq s' hs'
    obtain ⟨-, hlen, -, hsyn', -⟩ := noPsh_fields heq
    rw [← hlen]
    exact h.syn s hs (hsyn'.trans hsyn)
  · rintro init' last' rfl
    rw [List.map_append, List.map_singleton] at heq
    obtain ⟨init, l, rfl, hinit, hl⟩ := List.map_eq_append_iff.mp heq
    obtain ⟨last, rfl, hlast⟩ := List.map_eq_singleton_iff.mp hl
    obtain ⟨hfin, hnone⟩ := h.fin init last rfl
    refine ⟨?_, fun s' hs' => ?_⟩
    · rw [← hfin]
      exact (noPsh_fields hlast).2.2.2.2.symm
    · obtain ⟨s, hs, heq⟩ := hfrom hinit s' hs'
      rw [← hnone s hs]
      exact (noPsh_fields heq).2.2.2.2.symm
  · rintro rfl
    exact h.ne (List.map_eq_nil_iff.mp heq)

/-- The segments behind the first do as well. -/
theorem Fitting.tail (h : Fitting mss optlen fin (s :: segs)) (hne : segs ≠ []) :
    Fitting mss optlen fin segs where
  len x hx := h.len x (List.mem_cons_of_mem s hx)
  syn x hx := h.syn x (List.mem_cons_of_mem s hx)
  fin init last heq := by
    obtain ⟨hfin, hnone⟩ := h.fin (s :: init) last (by rw [heq]; rfl)
    exact ⟨hfin, fun x hx => hnone x (List.mem_cons_of_mem s hx)⟩
  ne := hne

/-- All the segments have gone behind `unsent`. -/
theorem segmented_behind (hunsent : pcb'.unsent = pcb.unsent ++ segs) (hne : segs ≠ [])
    (hcarries : Carries pcb.snd_lbb arg segs) :
    Segmented pcb pcb' arg fin optlen ↔ Fitting pcb.mss optlen fin segs := by
  constructor
  · rintro (⟨segs', hsegs, -, hfit⟩ | ⟨init, u, u', segs', k, hu, hsegs, -, -, -, -, -, -, hfit⟩)
    · rw [hunsent] at hsegs
      rwa [List.append_cancel_left hsegs]
    · rw [hunsent, hu, List.append_assoc] at hsegs
      have htail : segs = segs' := (List.cons.inj (List.append_cancel_left hsegs)).2
      subst htail
      exact hfit.tail hne
  · exact fun hfit => .inl ⟨segs, hunsent, hcarries, hfit⟩

/-- The first of the data, or the FIN, have gone to the last segment of `unsent`. -/
theorem segmented_glued (hu : pcb.unsent = init ++ [u]) (hunsent : pcb'.unsent = init ++ u' :: segs)
    (hne : u' ≠ u) (hseqno : u'.seqno = u.seqno) (hnext : u.seqno.adv u.len = pcb.snd_lbb) {k : ℕ}
    (hk : k ≤ arg.length) (hlen : u'.len = u.len + k) (hdata : u'.data = u.data ++ arg.take k)
    (hcarries : Carries (pcb.snd_lbb.adv k) (arg.drop k) segs) :
    Segmented pcb pcb' arg fin optlen ↔ Fitting pcb.mss optlen fin (u' :: segs) := by
  constructor
  · rintro (⟨segs', hsegs, -, -⟩ | ⟨init', v, v', segs', -, hv, hsegs, -, -, -, -, -, -, hfit⟩)
    · rw [hunsent, hu, List.append_assoc] at hsegs
      exact absurd (List.cons.inj (List.append_cancel_left hsegs)).1 hne
    · obtain ⟨rfl, -⟩ := List.append_inj' (hu.symm.trans hv) rfl
      rw [hunsent] at hsegs
      rwa [List.append_cancel_left hsegs]
  · exact fun hfit => .inr ⟨init, u, u', segs, k, hu, hunsent, hseqno, hnext, hk, hlen, hdata,
      hcarries, hfit⟩

/-- With room for the options, the new segments are as they should be unless data go with a SYN, or
a FIN goes with data for more than one segment. -/
theorem Built.fitting_iff
    (hb : Built o room arg.length flags copy optflags arg seqno queuelen queuelen' q qs)
    (hopt : room + optlen ≤ mss) (hroom : arg.length = 0 ∨ 0 < room) :
    Fitting mss optlen flags.fin (q :: qs) ↔
      (flags.syn = true → arg.length = 0) ∧ (flags.fin = true → arg.length ≤ room) := by
  have hq := (hb.each q List.mem_cons_self).2.1
  constructor
  · intro h
    refine ⟨fun hsyn => ?_, fun hfin => ?_⟩
    · have hzero := h.syn q List.mem_cons_self (by rw [hq]; exact hsyn)
      rw [hb.first.1] at hzero
      omega
    · rw [← hb.single]
      -- The first of several segments would have the FIN.
      rcases List.eq_nil_or_concat qs with hnil | ⟨init, last, rfl⟩
      · exact hnil
      · rw [List.concat_eq_append] at h
        have hnone := (h.fin (q :: init) last rfl).2 q List.mem_cons_self
        rw [hq, hfin] at hnone
        cases hnone
  · rintro ⟨hsyn, hfin⟩
    constructor
    · intro s hs
      have := (hb.each s hs).1
      omega
    · intro s hs hssyn
      rw [(hb.each s hs).2.1] at hssyn
      have hnil : qs = [] := hb.single.mpr (by rw [hsyn hssyn]; exact Nat.zero_le room)
      subst hnil
      rw [List.mem_singleton.mp hs, hb.first.1, hsyn hssyn, Nat.zero_min]
    · intro init last heq
      have hlast := (hb.each last (by rw [heq]; simp)).2.1
      refine ⟨congrArg TcpFlags.fin hlast, fun s hs => ?_⟩
      have hs' := (hb.each s (by rw [heq]; exact List.mem_append_left _ hs)).2.1
      rw [hs']
      -- If there is a segment before the last, there is no FIN.
      cases hf : flags.fin with
      | false => rfl
      | true =>
        have hnil : qs = [] := hb.single.mpr (hfin hf)
        subst hnil
        obtain ⟨rfl, -⟩ := @List.append_inj' _ [] [q] init [last] heq rfl
        cases hs
    · exact List.cons_ne_nil q qs

/-- Behind a segment that was extended, they are as they should be if that one keeps to the MSS. -/
theorem Built.fitting_glued
    (hb : Built o room arg.length flags copy optflags arg seqno queuelen queuelen' q qs)
    (hopt : room + optlen ≤ mss) (hsyn : flags.syn = false) (hfin : flags.fin = false)
    (husyn : u.flags.syn = false) (hufin : u.flags.fin = false) :
    Fitting mss optlen flags.fin (u :: qs) ↔ u.len + optlen ≤ mss := by
  constructor
  · exact fun h => h.len u List.mem_cons_self
  · intro h
    have hnone : ∀ s ∈ u :: qs, s.flags.syn = false ∧ s.flags.fin = false := by
      intro s hs
      rcases List.mem_cons.mp hs with rfl | hs
      · exact ⟨husyn, hufin⟩
      · rw [(hb.each s (List.mem_cons_of_mem q hs)).2.1]
        exact ⟨hsyn, hfin⟩
    constructor
    · intro s hs
      rcases List.mem_cons.mp hs with rfl | hs
      · exact h
      · have := (hb.each s (List.mem_cons_of_mem q hs)).1
        omega
    · intro s hs hssyn
      rw [(hnone s hs).1] at hssyn
      cases hssyn
    · intro init last heq
      rw [heq] at hnone
      refine ⟨?_, fun s hs => (hnone s (List.mem_append_left _ hs)).2⟩
      rw [hfin]
      exact (hnone last (by simp)).2
    · exact List.cons_ne_nil u qs

/-- A FIN alone fits if its options do. -/
theorem fitting_fin (hsyn : u.flags.syn = false) (hfin : u.flags.fin = true) :
    Fitting mss optlen true [u] ↔ u.len + optlen ≤ mss := by
  constructor
  · exact fun h => h.len u List.mem_cons_self
  · intro h
    constructor
    · intro s hs
      rwa [List.mem_singleton.mp hs]
    · intro s hs hssyn
      rw [List.mem_singleton.mp hs, hsyn] at hssyn
      cases hssyn
    · intro init last heq
      obtain ⟨rfl, hlast⟩ := @List.append_inj' _ [] [u] init [last] heq rfl
      obtain rfl : u = last := (List.cons.inj hlast).1
      exact ⟨hfin, nofun⟩
    · exact List.cons_ne_nil u []

end Fitting

/-! ## The new segments behind `unsent` -/

section Append

variable {o : Opts} {alloc : ℕ → Bool} {room queuelen queuelen' n n' : ℕ} {flags : TcpFlags}
  {copy more : Bool}
  {optflags : OptFlags} {q u : TcpSeg} {qs unsent : List TcpSeg} {arg : List UInt8} {pcb : Pcb}
  {m m' : Ledger} {stop : Stop}

/-- The pushed segments are those put in, but for PSH. -/
theorem commit_unsent (pcb : Pcb) (len : ℕ) (flags : TcpFlags) (more : Bool) (l : List TcpSeg)
    {segs : List TcpSeg} (hne : segs ≠ []) (n : ℕ) :
    ∃ segs', (commit pcb len flags more (l ++ segs) n).unsent = l ++ segs' ∧
      segs.map TcpSeg.noPsh = segs'.map TcpSeg.noPsh := by
  have hpsh : ∀ s : TcpSeg, (if (decide (s.len > 0) && !more) = true then
      { s with flags := { s.flags with psh := true } } else s).noPsh = id s.noPsh := by
    intro s
    split <;> rfl
  refine ⟨_, modifyLast_append _ l hne, ?_⟩
  rw [map_modifyLast TcpSeg.noPsh hpsh]
  clear hne
  -- To change the last by `id` is to change nothing.
  generalize segs.map TcpSeg.noPsh = l'
  fun_induction modifyLast id l' with
  | case1 => rfl
  | case2 => rfl
  | case3 x y l ih => exact congrArg (List.cons x) ih

/-- What the gluing depends on of the first new segment. -/
theorem Built.glues_eq
    (hb : Built o (pcb.mss - optflags.length) arg.length flags copy optflags arg pcb.snd_lbb
      queuelen queuelen' q qs)
    (u : TcpSeg) : glues pcb flags u q = glues pcb flags u (firstSeg pcb arg optflags) := by
  unfold glues firstSeg
  rw [hb.first.1, hb.first.2.1, (hb.each q List.mem_cons_self).2.2.1]

/-- What is left of the pbufs of a segment that is glued: the one with its data, if there are
any. -/
theorem Built.glued_pbufs
    (hb : Built o room arg.length flags copy optflags arg pcb.snd_lbb queuelen queuelen' q qs)
    (hroom : arg.length = 0 ∨ 0 < room) :
    (q.len = 0 ↔ arg.length = 0) ∧
      ((if (!copy || decide (q.len = 0)) = true then q.p.tail else q.p) = [] ↔ arg.length = 0) := by
  have hlen : q.len = 0 ↔ arg.length = 0 := by
    rw [hb.first.1]
    omega
  refine ⟨hlen, ?_⟩
  have hp := (hb.each q List.mem_cons_self).2.2.2
  rw [← List.length_eq_zero_iff]
  by_cases hdata : arg.length = 0
  · rw [if_pos (by simp [hlen.mpr hdata]), List.length_tail, hp]
    simp [pbufsOf, hdata]
  · have hpos : arg.length > 0 := by omega
    have hcond : (!copy || decide (q.len = 0)) = !copy := by
      rw [decide_eq_false fun h => hdata (hlen.mp h), Bool.or_false]
    rw [hcond]
    cases copy with
    | true => simp [hp, pbufsOf, hdata]
    | false => simp [hp, pbufsOf, hdata, hpos]

variable (m) in
/-- The ways in which the first new segment is glued. -/
theorem Built.append_glued
    (hb : Built o room arg.length flags copy optflags arg pcb.snd_lbb queuelen queuelen' q qs)
    (hroom : arg.length = 0 ∨ 0 < room) (hu : pcb.unsent.getLast? = some u)
    (hg : glues pcb flags u q = true) :
    (GlueStops arg flags ∧ ∃ a, append pcb flags copy q qs n m = .error (.abort a)) ∨
      (flags.fin = true ∧ arg.length = 0 ∧ ∃ n' m', append pcb flags copy q qs n m =
        .ok (modifyLast (fun u => { u with flags := { u.flags with fin := true } })
        pcb.unsent, n', m')) ∨
      (flags.fin = false ∧ arg.length ≠ 0 ∧ ∃ p n' m', append pcb flags copy q qs n m =
        .ok (modifyLast (fun u =>
          { u with len := u.len + q.len, data := u.data ++ q.data, p := u.p ++ p })
          pcb.unsent ++ qs, n', m')) := by
  obtain ⟨hlen, hp⟩ := hb.glued_pbufs hroom
  unfold append
  rw [hu]
  dsimp only
  rw [if_pos hg]
  generalize (if (!copy || decide (q.len = 0)) = true then q.p.tail else q.p) = p at hp
  by_cases hfin : flags.fin = true
  · rw [if_pos hfin]
    by_cases hdata : arg.length = 0
    · rw [show lwipAssert (Stop.abort .finWithData) (p = [] ∧ q.len = 0) = .ok () from
        if_pos ⟨hp.mpr hdata, hlen.mpr hdata⟩]
      exact .inr (.inl ⟨hfin, hdata, _, _, rfl⟩)
    · rw [show lwipAssert (Stop.abort .finWithData) (p = [] ∧ q.len = 0) =
        .error (.abort .finWithData) from
        if_neg fun h => hdata (hp.mp h.1)]
      exact .inl ⟨.inl ⟨hfin, hdata⟩, .finWithData, rfl⟩
  · rw [if_neg hfin]
    have hfin : flags.fin = false := Bool.eq_false_of_not_eq_true hfin
    by_cases hdata : arg.length = 0
    · rw [show lwipAssert (Stop.abort .zeroLengthPbuf) (p ≠ [] ∧ 0 < q.len) =
        .error (.abort .zeroLengthPbuf) from if_neg fun h => h.1 (hp.mpr hdata)]
      exact .inl ⟨.inr ⟨hfin, hdata⟩, .zeroLengthPbuf, rfl⟩
    · rw [show lwipAssert (Stop.abort .zeroLengthPbuf) (p ≠ [] ∧ 0 < q.len) = .ok () from
        if_pos ⟨fun h => hdata (hp.mp h), Nat.pos_of_ne_zero fun h => hdata (hlen.mp h)⟩]
      exact .inr (.inr ⟨hfin, hdata, p, _, _, rfl⟩)

/-- An assertion that fails is the result. -/
theorem assert_ok_error {α : Type} {a : Abort} {p : Prop} [Decidable p] {r : α}
    (h : (do lwipAssert (Stop.abort a) p; .ok r) = Except.error stop) : stop = .abort a := by
  by_cases hp : p
  · rw [show lwipAssert (Stop.abort a) p = .ok () from if_pos hp] at h
    cases h
  · rw [show lwipAssert (Stop.abort a) p = .error (.abort a) from if_neg hp] at h
    cases h
    rfl

/-- The assertions of the gluing. -/
theorem append_error_ne (h : append pcb flags copy q qs n m = .error stop) :
    stop ≠ .rounds ∧ stop ≠ .abort .firstPbufTooShort := by
  unfold append at h
  split at h
  · cases h
  · split at h
    · split at h
      · rw [assert_ok_error h]
        decide
      · rw [assert_ok_error h]
        decide
    · cases h

/-- What it takes for a segment to be glued. -/
theorem glues_true (h : glues pcb flags u q = true) :
    u.flags.syn = false ∧ u.flags.fin = false ∧ (flags.fin = false → flags.syn = false) ∧
      u.len + q.len ≤ pcb.mss ∧ u.optflags = q.optflags ∧ u.seqno.adv u.len = q.seqno := by
  simp only [glues, Bool.and_eq_true, Bool.not_eq_true', Bool.or_eq_false_iff, Bool.or_eq_true,
    decide_eq_true_eq] at h
  obtain ⟨⟨⟨⟨⟨-, husyn, hufin⟩, hflags⟩, hlen⟩, hopt⟩, hseq⟩ := h
  refine ⟨husyn, hufin, fun hfin => ?_, hlen, hopt, hseq⟩
  rcases hflags with hnone | hflags
  · exact hnone.1
  · rw [hflags] at hfin
    cases hfin

/-- An assertion of the gluing fails only where data and FIN do not go together. -/
theorem Built.append_error
    (hb : Built o (pcb.mss - optflags.length) arg.length flags copy optflags arg pcb.snd_lbb
      queuelen queuelen' q qs)
    (hroom : arg.length = 0 ∨ optflags.length < pcb.mss)
    (h : append pcb flags copy q qs n m = .error stop) : SegmentsFit pcb arg flags optflags := by
  have hroom' : arg.length = 0 ∨ 0 < pcb.mss - optflags.length := hroom.imp_right Nat.sub_pos_of_lt
  cases hu : pcb.unsent.getLast? with
  | none =>
    unfold append at h
    rw [hu] at h
    cases h
  | some u =>
    by_cases hg : glues pcb flags u q = true
    · unfold SegmentsFit
      rw [hu, Option.filter_some_pos (by rw [← hb.glues_eq, hg])]
      rcases hb.append_glued m hroom' hu hg
        with ⟨hstops, -⟩ | ⟨-, -, n', m', happ⟩ | ⟨-, -, p, n', m', happ⟩
      · exact .inl hstops
      · rw [happ] at h
        cases h
      · rw [happ] at h
        cases h
    · unfold append at h
      rw [hu] at h
      dsimp only at h
      rw [if_neg hg] at h
      cases h

/-- A call that has enqueued its segments has done it as it should exactly if the conditions on the
first one, or on what it is glued to, are met. -/
theorem Built.segmented_iff
    (hb : Built o (pcb.mss - optflags.length) arg.length flags copy optflags arg pcb.snd_lbb
      queuelen queuelen' q qs)
    (hopt : optflags.length ≤ pcb.mss) (hroom : arg.length = 0 ∨ optflags.length < pcb.mss)
    (h : append pcb flags copy q qs n m = .ok (unsent, n', m')) :
    Segmented pcb (commit pcb arg.length flags more unsent n') arg flags.fin optflags.length ↔
      SegmentsFit pcb arg flags optflags := by
  have hroom' : arg.length = 0 ∨ 0 < pcb.mss - optflags.length := hroom.imp_right Nat.sub_pos_of_lt
  have hsum : pcb.mss - optflags.length + optflags.length ≤ pcb.mss := (Nat.sub_add_cancel hopt).le
  -- If nothing is glued, the new segments are as the loop has built them.
  have hbehind : unsent = pcb.unsent ++ q :: qs →
      (Segmented pcb (commit pcb arg.length flags more unsent n') arg flags.fin optflags.length ↔
        (flags.syn = true → arg.length = 0) ∧
        (flags.fin = true → arg.length ≤ pcb.mss - optflags.length)) := by
    rintro rfl
    obtain ⟨segs, hunsent, hsegs⟩ :=
      commit_unsent pcb arg.length flags more pcb.unsent (List.cons_ne_nil q qs) n'
    have hne : segs ≠ [] := by
      rintro rfl
      cases hsegs
    rw [segmented_behind hunsent hne (hb.carries.noPsh hsegs), ← hb.fitting_iff hsum hroom']
    exact ⟨fun hfit => hfit.noPsh hsegs.symm, fun hfit => hfit.noPsh hsegs⟩
  cases hu : pcb.unsent.getLast? with
  | none =>
    have hnil : pcb.unsent = [] := List.getLast?_eq_none_iff.mp hu
    unfold append at h
    rw [hu] at h
    cases h
    unfold SegmentsFit
    rw [hu]
    refine hbehind ?_
    rw [hnil]
    rfl
  | some u =>
    obtain ⟨init, hinit⟩ := List.getLast?_eq_some_iff.mp hu
    by_cases hg : glues pcb flags u q = true
    · obtain ⟨husyn, hufin, hsyn, -, -, hseq⟩ := glues_true hg
      unfold SegmentsFit
      rw [hu, Option.filter_some_pos (by rw [← hb.glues_eq, hg])]
      dsimp only
      rw [← hb.first.1]
      rw [hb.first.2.1] at hseq
      rcases hb.append_glued m hroom' hu hg with ⟨-, a, happ⟩ | ⟨hfin, hdata, _, m₁, happ⟩ |
        ⟨hfin, hdata, p, _, m₁, happ⟩
      · rw [happ] at h
        cases h
      -- The FIN goes to the last segment.
      · rw [happ] at h
        cases h
        have hstops : ¬ GlueStops arg flags := by
          rintro (⟨-, hne⟩ | ⟨hno, -⟩)
          · exact hne hdata
          · rw [hfin] at hno
            cases hno
        have hzero : q.len = 0 := (hb.glued_pbufs hroom').1.mpr hdata
        rw [or_iff_right hstops, hzero, Nat.add_zero, hinit, modifyLast_concat]
        obtain ⟨segs, hunsent, hsegs⟩ := commit_unsent pcb arg.length flags more init
          (List.cons_ne_nil { u with flags := { u.flags with fin := true } } []) n'
        obtain ⟨u', rfl, hu'⟩ := List.map_eq_singleton_iff.mp hsegs.symm
        obtain ⟨hseqno', hlen', hdata', hsyn', hfin'⟩ := noPsh_fields hu'
        have harg : arg = [] := List.length_eq_zero_iff.mp hdata
        rw [segmented_glued hinit hunsent ?_ hseqno' hseq (Nat.zero_le _) (k := 0), hfin]
        · rw [fitting_fin (hsyn'.trans husyn) hfin', hlen']
        · exact hlen'
        · rw [List.take_zero, List.append_nil]
          exact hdata'
        · exact harg
        · rintro rfl
          rw [hufin] at hfin'
          cases hfin'
      -- The first of the data go to it.
      · rw [happ] at h
        cases h
        have hstops : ¬ GlueStops arg flags := by
          rintro (⟨hyes, -⟩ | ⟨-, hzero⟩)
          · rw [hfin] at hyes
            cases hyes
          · exact hdata hzero
        have hpos : q.len ≠ 0 := fun hzero => hdata ((hb.glued_pbufs hroom').1.mp hzero)
        obtain ⟨-, hqlen, hqdata, hcarries⟩ := hb.carries
        rw [or_iff_right hstops, hinit, modifyLast_concat, List.append_assoc, List.singleton_append]
        obtain ⟨segs, hunsent, hsegs⟩ := commit_unsent pcb arg.length flags more init
          (List.cons_ne_nil
            { u with len := u.len + q.len, data := u.data ++ q.data, p := u.p ++ p } qs) n'
        obtain ⟨u', segs, rfl, hu', htail⟩ := List.map_eq_cons_iff.mp hsegs.symm
        obtain ⟨hseqno', hlen', hdata', hsyn', hfin'⟩ := noPsh_fields hu'
        have hlen' : u'.len = u.len + q.len := hlen'
        rw [segmented_glued hinit hunsent ?_ hseqno' hseq hqlen hlen' ?_
          (hcarries.noPsh htail.symm)]
        · rw [← hlen', ← hb.fitting_glued hsum (hsyn hfin) hfin (hsyn'.trans husyn)
            (hfin'.trans hufin)]
          exact ⟨fun hfit => hfit.noPsh (by rw [List.map_cons, List.map_cons, htail]),
            fun hfit => hfit.noPsh (by rw [List.map_cons, List.map_cons, htail])⟩
        · rintro rfl
          omega
        · rw [← hqdata]
          exact hdata'
    · unfold append at h
      rw [hu] at h
      dsimp only at h
      rw [if_neg hg] at h
      cases h
      unfold SegmentsFit
      rw [hu, Option.filter_some_neg (by rw [← hb.glues_eq]; exact Bool.eq_false_of_not_eq_true hg)]
      exact hbehind rfl

end Append

/-! ## The whole call -/

section Call

variable {o : Opts} {alloc : ℕ → Bool} {pcb pcb' : Pcb} {arg : List UInt8} {flags : TcpFlags}
  {copy more : Bool} {optflags : OptFlags} {stop : Stop} {m : Ledger}

/-- A call that passes the checks comes to its loop. -/
theorem Enters.tcpEnqueue_eq (h : Enters o pcb arg flags optflags) (alloc : ℕ → Bool) :
    tcpEnqueue o alloc pcb arg flags copy more optflags = (do
      match ← loop o alloc pcb.mss flags copy optflags (o.TCP_SND_QUEUELEN + 1) 0 [] arg arg.length
          pcb.snd_lbb pcb.snd_queuelen {} with
      | .memerr queue m | .done queue@([]) _ m =>
        lwipAssert (.abort .invalidQueueLength) (pcb.snd_queuelen = 0 ∨ pcb.unacked ≠ [] ∨
          pcb.unsent ≠ [])
        .ok (.MEM, { pcb with naglememerr := true }, m.tcpSegsFree queue)
      | .done (q :: qs) queuelen m =>
        let (unsent, queuelen, m) ← append pcb flags copy q qs queuelen m
        .ok (.OK, commit pcb arg.length flags more unsent queuelen, m)) := by
  obtain ⟨hsome, hbuf, hlen, hmax, hqueued, hnone⟩ := h
  unfold tcpEnqueue
  dsimp only
  rw [show lwipAssert (Stop.abort .enqueueNothing) _ = .ok () from if_pos hsome, if_neg (by omega),
    if_neg (by omega), show lwipAssert (Stop.abort .pbufsButQueuesEmpty) _ = .ok ()
    from if_pos hqueued,
    show lwipAssert (Stop.abort .noPbufsButQueueNonempty) _ = .ok () from if_pos hnone]
  rfl

/-- The call returns the memory error, or an assertion fails that is not the one on the segment
length. -/
def Barred : Except Stop (Err × Pcb × Ledger) → Prop
  | .ok (e, _, _) => e = .MEM
  | .error stop => stop ≠ .rounds ∧ stop ≠ .abort .firstPbufTooShort

/-- An assertion does not stop the loop in another way. -/
theorem Barred.assert {a : Abort} (ha : a ≠ .firstPbufTooShort) {p : Prop} [Decidable p]
    {k : Unit → Except Stop (Err × Pcb × Ledger)} (h : p → Barred (k ())) :
    Barred (lwipAssert (Stop.abort a) p >>= k) := by
  by_cases hp : p
  · rw [show lwipAssert (Stop.abort a) p = .ok () from if_pos hp]
    exact h hp
  · rw [show lwipAssert (Stop.abort a) p = .error (.abort a) from if_neg hp]
    exact ⟨nofun, fun heq => ha (Stop.abort.inj heq)⟩

/-- So does a call that does not pass the checks. -/
theorem barred_of_not_enters (h : ¬ Enters o pcb arg flags optflags) :
    Barred (tcpEnqueue o alloc pcb arg flags copy more optflags) := by
  unfold tcpEnqueue
  refine .assert (by decide) fun hsome => ?_
  dsimp only
  split
  · exact rfl
  split
  · exact rfl
  · next hbuf hlimit =>
    refine .assert (by decide) fun hqueued => .assert (by decide) fun hnone => ?_
    exact absurd ⟨hsome, by omega, by omega, by omega, hqueued, hnone⟩ h

/-- If the condition is met, what the loop has built fits. -/
theorem SplitsWhen.built (h : SplitsWhen o pcb arg flags copy optflags)
    (hin : Enters o pcb arg flags optflags) (hmss : pcb.mss ≤ 0xffff) (hbuf : pcb.snd_buf ≤ 0xffff)
    {rounds queuelen : ℕ} {queue : List TcpSeg}
    (hloop : loop o alloc pcb.mss flags copy optflags rounds 0 [] arg arg.length pcb.snd_lbb
      pcb.snd_queuelen {} = .ok (.done queue queuelen m)) :
    optflags.length ≤ pcb.mss ∧ (arg.length = 0 ∨ optflags.length < pcb.mss) ∧
      SegmentsFit pcb arg flags optflags ∧ ∃ q qs, queue = q :: qs ∧
        Built o (pcb.mss - optflags.length) arg.length flags copy optflags arg pcb.snd_lbb
          pcb.snd_queuelen queuelen q qs := by
  obtain ⟨hlong, hshort⟩ := h hin
  have hlen : arg.length ≤ 0xffff := hin.2.1.trans hbuf
  have hopt : optflags.length ≤ pcb.mss := by
    by_contra hwraps
    obtain ⟨rfl, hnot⟩ := hlong (Nat.lt_of_not_le hwraps)
    exact hnot (loop_wraps_done (Nat.lt_of_not_le hwraps) hlen hloop).1
  have hroom : arg.length = 0 ∨ optflags.length < pcb.mss := by
    by_contra hno
    push Not at hno
    exact loop_empty (Nat.le_antisymm hopt hno.2) (Nat.pos_of_ne_zero hno.1) hlen hloop
  obtain ⟨q, qs, hqueue, hb⟩ := loop_done hopt hmss hroom hlen rfl hloop
  refine ⟨hopt, hroom, hshort hopt hroom ?_, q, qs, hqueue, hb⟩
  rw [← hb.pbufs]
  exact hb.limit

/-- The condition is enough. -/
theorem SplitsWhen.splits (h : SplitsWhen o pcb arg flags copy optflags) (hmss : pcb.mss ≤ 0xffff)
    (hbuf : pcb.snd_buf ≤ 0xffff) : Splits o pcb arg flags copy more optflags := by
  intro alloc
  -- A call that is barred does nothing wrong.
  have hbarred : Barred (tcpEnqueue o alloc pcb arg flags copy more optflags) →
      (∀ stop, tcpEnqueue o alloc pcb arg flags copy more optflags = .error stop →
        stop ≠ .rounds ∧ stop ≠ .abort .firstPbufTooShort) ∧
      ∀ pcb' m, tcpEnqueue o alloc pcb arg flags copy more optflags = .ok (.OK, pcb', m) →
        Segmented pcb pcb' arg flags.fin optflags.length := by
    intro hb
    refine ⟨fun stop heq => ?_, fun pcb' m heq => ?_⟩
    · rw [heq] at hb
      exact hb
    · rw [heq] at hb
      cases hb
  by_cases hin : Enters o pcb arg flags optflags
  · have hfits : copy = false ∨ optflags.length ≤ pcb.mss := by
      by_cases hopt : optflags.length ≤ pcb.mss
      · exact .inr hopt
      · exact .inl ((h hin).1 (Nat.lt_of_not_le hopt)).1
    have hsame := loop_refines o alloc flags copy optflags hmss (o.TCP_SND_QUEUELEN + 1) 0 [] arg
      arg.length pcb.snd_lbb pcb.snd_queuelen {} (by omega) hin.2.2.1.le fun _ _ => hfits
    rw [hin.tcpEnqueue_eq alloc] at hbarred ⊢
    cases hloop : loop o alloc pcb.mss flags copy optflags (o.TCP_SND_QUEUELEN + 1) 0
      [] arg arg.length
        pcb.snd_lbb pcb.snd_queuelen {} with
    | error stop =>
      rw [hloop] at hsame
      cases hsame
    | ok e =>
      rw [hloop] at hbarred
      cases e with
      | memerr queue m => exact hbarred (.assert (by decide) fun _ => rfl)
      | done queue queuelen m =>
        obtain ⟨hopt, hroom, hfit, q, qs, rfl, hb⟩ := h.built hin hmss hbuf hloop
        change (∀ stop, (append pcb flags copy q qs queuelen m >>= fun r => _) = _ → _) ∧
          ∀ pcb' m', (append pcb flags copy q qs queuelen m >>= fun r => _) = _ → _
        refine ⟨fun stop hstop => ?_, fun pcb' m' hok => ?_⟩
        · cases happ : append pcb flags copy q qs queuelen m with
          | error stop' =>
            rw [happ] at hstop
            cases hstop
            exact append_error_ne happ
          | ok r =>
            rw [happ] at hstop
            cases hstop
        · obtain ⟨⟨unsent, queuelen', m₁⟩, happ, heq⟩ := bind_eq_ok.mp hok
          cases heq
          exact (hb.segmented_iff hopt hroom happ).mpr hfit
  · exact hbarred (barred_of_not_enters hin)

/-- The condition is necessary: with memory for all, what it rules out happens. -/
theorem Splits.splitsWhen (h : Splits o pcb arg flags copy more optflags) (hmss : pcb.mss ≤ 0xffff)
    (hbuf : pcb.snd_buf ≤ 0xffff) : SplitsWhen o pcb arg flags copy optflags := by
  intro hin
  obtain ⟨herror, hok⟩ := h fun _ => true
  rw [hin.tcpEnqueue_eq] at herror hok
  have hlen : arg.length ≤ 0xffff := hin.2.1.trans hbuf
  have hall : ∀ n, (fun _ : ℕ => true) n = true := fun _ => rfl
  refine ⟨fun hwraps => ?_, fun hopt hroom hlimit => ?_⟩
  · have hcopy : copy = false := by
      cases copy with
      | false => rfl
      | true =>
        rw [loop_too_short hwraps (hall 0) (hall 1)] at herror
        exact absurd rfl (herror _ rfl).2
    subst hcopy
    refine ⟨rfl, ?_⟩
    rintro ⟨k, hk, hdvd, hlimit⟩
    have hrounds : k ≤ o.TCP_SND_QUEUELEN + 1 := by
      have hle : k ≤ wrapPbufs arg.length k := by
        unfold wrapPbufs
        split <;> omega
      have := hlimit.1
      omega
    obtain ⟨queue, queuelen, m, hloop⟩ := loop_wraps_ok hall hwraps hk hlen hdvd hlimit hrounds
    obtain ⟨-, q, qs, rfl, hqlen⟩ := loop_wraps_done hwraps hlen hloop
    have hlong : pcb.mss < q.len := by
      have := optflags.length_le
      omega
    -- Such a segment is too long to be glued.
    have happ : append pcb flags false q qs queuelen m =
        .ok (pcb.unsent ++ q :: qs, queuelen, m) := by
      unfold append
      cases hu : pcb.unsent.getLast? with
      | none =>
        rw [List.getLast?_eq_none_iff.mp hu]
        rfl
      | some u =>
        dsimp only
        rw [if_neg]
        intro hg
        have := (glues_true hg).2.2.2.1
        omega
    rw [hloop] at hok
    have hseg := hok _ _ (bind_eq_ok.mpr ⟨_, rfl, bind_eq_ok.mpr ⟨_, happ, rfl⟩⟩)
    obtain ⟨segs, hunsent, hsegs⟩ :=
      commit_unsent pcb arg.length flags more pcb.unsent (List.cons_ne_nil q qs) queuelen
    obtain ⟨q', segs, rfl, hq', -⟩ := List.map_eq_cons_iff.mp hsegs.symm
    have hq'len : q'.len = q.len := (noPsh_fields hq').2.1
    have hle : q'.len + optflags.length ≤ pcb.mss := by
      rcases hseg with ⟨segs', heq, -, hfit⟩ | ⟨init, u, u', segs', k, hu,
        heq, -, -, -, -, -, -, hfit⟩
      · rw [hunsent] at heq
        exact hfit.len q' (by rw [← List.append_cancel_left heq]; exact List.mem_cons_self)
      · rw [hunsent, hu, List.append_assoc] at heq
        refine hfit.len q' ?_
        rw [← List.append_cancel_left heq]
        exact List.mem_cons_of_mem u List.mem_cons_self
    omega
  · have hrounds : segCount (pcb.mss - optflags.length) arg.length ≤ o.TCP_SND_QUEUELEN + 1 := by
      have hle : segCount (pcb.mss - optflags.length) arg.length ≤
          pbufCount copy arg.length (segCount (pcb.mss - optflags.length) arg.length) := by
        unfold pbufCount
        split
        · exact Nat.le_refl _
        · split
          · next hzero =>
            unfold segCount
            rw [if_pos hzero]
          · omega
      have := hlimit.1
      omega
    obtain ⟨queue, queuelen, m, hloop⟩ := loop_ok hall hopt hmss hroom hlen hlimit hrounds
    obtain ⟨q, qs, rfl, hb⟩ := loop_done hopt hmss hroom hlen rfl hloop
    rw [List.nil_append] at hloop
    rw [hloop] at hok
    cases happ : append pcb flags copy q qs queuelen m with
    | error stop => exact hb.append_error hroom happ
    | ok r =>
      obtain ⟨unsent, queuelen', m'⟩ := r
      exact (hb.segmented_iff hopt hroom happ).mp (hok _ _
        (bind_eq_ok.mpr ⟨_, rfl, bind_eq_ok.mpr ⟨_, happ, rfl⟩⟩))

/-- The data are segmented as they should be exactly if the options fit in the MSS, as they do in
what is glued, and FIN goes with data for one segment alone. -/
theorem splits_iff (hmss : pcb.mss ≤ 0xffff) (hbuf : pcb.snd_buf ≤ 0xffff) :
    Splits o pcb arg flags copy more optflags ↔ SplitsWhen o pcb arg flags copy optflags :=
  ⟨fun h => h.splitsWhen hmss hbuf, fun h => h.splits hmss hbuf⟩

/-- Six bytes for a peer that takes four at a time. -/
theorem splits_six : Splits .sane fourBytes [1, 2, 3, 4, 5, 6] {} true false {} := by
  refine (splits_iff (by decide) (by decide)).mpr fun _ => ⟨fun h => ?_, fun _ _ _ => ?_⟩
  · exact absurd h (by decide)
  · exact ⟨nofun, nofun⟩

/-- A pcb with timestamps, whose peer takes segments of 24 bytes; one of twelve bytes waits. -/
def stamped : Pcb :=
  { mss := 24, snd_buf := 64, snd_queuelen := 1, snd_lbb := 12, unacked := []
    unsent := [{ seqno := 0, len := 12, flags := { ack := true }, data := List.replicate 12 0
                 optflags := { ts := true }, cell := 0, p := [1] }] }

/-- Twelve more bytes are glued to the segment, which with its timestamp is then twelve too long. -/
theorem glued_past_mss : ¬ Splits .sane stamped (List.replicate 12 1) {} true false
    { ts := true } := by
  intro h
  have hin : Enters .sane stamped (List.replicate 12 1) {} { ts := true } := by
    unfold Enters
    decide
  have hfit := (h.splitsWhen (by decide) (by decide) hin).2 (by decide) (.inr (by decide))
    ⟨by decide, by decide⟩
  rcases hfit with (⟨hfin, -⟩ | ⟨-, hdata⟩) | hle
  · cases hfin
  · cases hdata
  · exact absurd hle (by decide)

end Call

end Lwip.Tcp.Enqueue
