import Lwip.Ip.Reass
import Mathlib.Data.List.Chain
import Mathlib.Data.List.TakeWhile

/-!
# Where a fragment lands in its queue

The loop of `ip_reass_chain_frag_into_datagram_and_validate` cuts the queue at the new fragment:
into the fragments it passes, which end before the new one starts, and the rest. This file states
what the function does in terms of that cut. The holes it looks for are those among the fragments
passed, those from the new fragment on and, at the end of the queue only, the one between the two
parts.
-/

namespace Lwip.Ip

/-- The queue has no hole: every fragment ends where the next one starts. -/
def Gapless (q : List Held) : Prop := q.IsChain fun a b => a.stop = b.start

instance (q : List Held) : Decidable (Gapless q) :=
  inferInstanceAs (Decidable (q.IsChain fun a b : Held => a.stop = b.start))

/-- There is no hole between the first two fragments, nor behind. -/
theorem gapless_cons_cons {a b : Held} {q : List Held} :
    Gapless (a :: b :: q) ↔ a.stop = b.start ∧ Gapless (b :: q) :=
  List.isChain_cons_cons

/-- Two queues have no hole if they meet. -/
theorem gapless_append {q q' : List Held} :
    Gapless (q ++ q') ↔
      Gapless q ∧ Gapless q' ∧ ∀ x ∈ q.getLast?, ∀ y ∈ q'.head?, x.stop = y.start :=
  List.isChain_append

/-- A fragment more has no hole in front of it. -/
theorem gapless_concat {q : List Held} {t : Held} :
    Gapless (q ++ [t]) ↔ Gapless q ∧ ∀ x ∈ q.getLast?, x.stop = t.start := by
  rw [gapless_append]
  simp [Gapless]

/-- The loop goes past a fragment that starts and ends before the new one. -/
def Held.passes (iprh t : Held) : Bool := t.start < iprh.start && t.stop ≤ iprh.start

/-- The fragments the loop passes. -/
def before (iprh : Held) (q : List Held) : List Held := q.takeWhile iprh.passes

/-- The fragments from where the loop stops. -/
def behind (iprh : Held) (q : List Held) : List Held := q.dropWhile iprh.passes

/-- The two parts are the queue. -/
theorem before_append_behind (iprh : Held) (q : List Held) : before iprh q ++ behind iprh q = q :=
  List.takeWhile_append_dropWhile

/-- A fragment that was passed ends before the new one. -/
theorem stop_le_of_mem_before {iprh t : Held} {q : List Held} (h : t ∈ before iprh q) :
    t.stop ≤ iprh.start := by
  have := List.mem_takeWhile_imp h
  simp only [Held.passes, Bool.and_eq_true, decide_eq_true_eq] at this
  exact this.2

/-- The fragment is queued: the loop comes to the end of the queue, or stops at a fragment that
starts later. Only in the latter case, and behind another fragment, its end is looked at. -/
def Queued (iprh : Held) (q : List Held) : Prop :=
  ∀ t ∈ (behind iprh q).head?, iprh.start < t.start ∧ (before iprh q = [] ∨ iprh.stop ≤ t.start)

instance (iprh : Held) (q : List Held) : Decidable (Queued iprh q) :=
  inferInstanceAs (Decidable (∀ t ∈ (behind iprh q).head?,
    iprh.start < t.start ∧ (before iprh q = [] ∨ iprh.stop ≤ t.start)))

/-- The queue with the new fragment in it. -/
def queueWith (iprh : Held) (q : List Held) : List Held := before iprh q ++ iprh :: behind iprh q

/-- The loop, from a cut where nothing has been decided yet. -/
theorem chainLoop_eq (iprh : Held) (passed q : List Held)
    (hp : ∀ t ∈ passed, t.stop ≤ iprh.start) :
    chainLoop iprh passed (decide (Gapless passed)) q =
      if ∀ t ∈ (behind iprh q).head?,
          iprh.start < t.start ∧ (passed ++ before iprh q = [] ∨ iprh.stop ≤ t.start) then
        some (passed ++ before iprh q, behind iprh q, decide (Gapless (passed ++ before iprh q)))
      else none := by
  induction q generalizing passed with
  | nil => simp [chainLoop, before, behind]
  | cons tmp q ih =>
    by_cases hpass : iprh.passes tmp = true
    · -- The loop goes on behind `tmp`.
      have hlt := hpass
      simp only [Held.passes, Bool.and_eq_true, decide_eq_true_eq] at hlt
      have hv : (decide (Gapless passed) && passed.getLast?.all fun prev => prev.stop = tmp.start) =
          decide (Gapless (passed ++ [tmp])) := by
        rw [Bool.eq_iff_iff, Bool.and_eq_true, decide_eq_true_eq, decide_eq_true_eq, gapless_concat]
        cases passed.getLast? <;> simp
      have hp' : ∀ t ∈ passed ++ [tmp], t.stop ≤ iprh.start := by
        intro t ht
        rcases List.mem_append.mp ht with ht | ht
        · exact hp t ht
        · cases List.mem_singleton.mp ht
          exact hlt.2
      have hcut : before iprh (tmp :: q) = tmp :: before iprh q ∧
          behind iprh (tmp :: q) = behind iprh q :=
        ⟨List.takeWhile_cons_of_pos hpass, List.dropWhile_cons_of_pos hpass⟩
      rw [chainLoop, if_neg (by omega), if_neg (by omega), if_neg (by omega), hv, ih _ hp', hcut.1,
        hcut.2, List.append_assoc, List.singleton_append]
    · -- The loop stops at `tmp`.
      have hcut : before iprh (tmp :: q) = [] ∧ behind iprh (tmp :: q) = tmp :: q :=
        ⟨List.takeWhile_cons_of_neg hpass, List.dropWhile_cons_of_neg hpass⟩
      simp only [Held.passes, Bool.and_eq_true, decide_eq_true_eq, not_and] at hpass
      rw [hcut.1, hcut.2, List.append_nil, chainLoop]
      simp only [List.head?_cons, Option.mem_some_iff, forall_eq']
      by_cases hlt : iprh.start < tmp.start
      · rw [if_pos hlt]
        cases hlast : passed.getLast? with
        | none =>
          have : passed = [] := List.getLast?_eq_none_iff.mp hlast
          simp [this, hlt]
        | some prev =>
          have hprev : prev.stop ≤ iprh.start := hp prev (List.mem_of_getLast? hlast)
          have hne : passed ≠ [] := by rintro rfl; cases hlast
          simp only [hlt, hne, true_and, false_or]
          by_cases hstop : iprh.stop ≤ tmp.start
          · rw [if_neg (by omega), if_pos hstop]
          · rw [if_pos (by omega), if_neg hstop]
      · have hno : ¬(iprh.start < tmp.start ∧ (passed = [] ∨ iprh.stop ≤ tmp.start)) :=
          fun h => hlt h.1
        rw [if_neg hlt, if_neg hno]
        by_cases heq : iprh.start = tmp.start
        · rw [if_pos heq]
        · rw [if_neg heq, if_pos (by omega)]

/-- The loop queues the fragment at the cut or throws it away. -/
theorem chainLoop_nil (iprh : Held) (q : List Held) :
    chainLoop iprh [] true q =
      if Queued iprh q then
        some (before iprh q, behind iprh q, decide (Gapless (before iprh q)))
      else none := by
  have h := chainLoop_eq iprh [] q (fun t ht => by cases ht)
  rw [List.nil_append] at h
  have ht : decide (Gapless []) = true := by simp [Gapless]
  rw [ht] at h
  exact h

/-- The second loop looks for a hole from the new fragment on. -/
theorem rescanLoop_fst (prev : Held) (q : List Held) :
    (rescanLoop prev q).1 = decide (Gapless (prev :: q)) := by
  induction q generalizing prev with
  | nil => simp [rescanLoop, Gapless]
  | cons t q ih =>
    rw [rescanLoop]
    by_cases h : prev.stop = t.start
    · rw [if_neg (not_not.mpr h), ih, decide_eq_decide, gapless_cons_cons]
      exact ⟨fun hg => ⟨h, hg⟩, And.right⟩
    · rw [if_pos h, eq_comm, decide_eq_false_iff_not, gapless_cons_cons]
      exact fun hg => h hg.1

/-- Without a hole the second loop ends at the last fragment. -/
theorem rescanLoop_snd {prev : Held} {q : List Held} (h : Gapless (prev :: q)) :
    (rescanLoop prev q).2 = ((prev :: q).getLast (List.cons_ne_nil _ _), []) := by
  induction q generalizing prev with
  | nil => rfl
  | cons t q ih =>
    obtain ⟨ht, hq⟩ := gapless_cons_cons.mp h
    rw [rescanLoop, if_neg (not_not.mpr ht), ih hq, List.getLast_cons_cons]

/-! ## The completeness test -/

/-- The test that the datagram is complete passes with the fragment `iprh` in the queue: the last
fragment is known, and there is no hole where the code looks for one. -/
def Passes (ipr : ReassData) (iprh : Held) : Prop :=
  ipr.lastfrag = true ∧ Gapless (before iprh ipr.p) ∧ Gapless (iprh :: behind iprh ipr.p) ∧
    (behind iprh ipr.p = [] → Gapless (before iprh ipr.p ++ [iprh])) ∧
    ∀ t ∈ (queueWith iprh ipr.p).head?, t.start = 0

instance (ipr : ReassData) (iprh : Held) : Decidable (Passes ipr iprh) :=
  inferInstanceAs (Decidable (_ ∧ _ ∧ _ ∧ (_ → _) ∧ _))

/-- The last fragment of the queue with `iprh` in it. -/
def lastWith (iprh : Held) (q : List Held) : Held :=
  (iprh :: behind iprh q).getLast (List.cons_ne_nil _ _)

/-- A fragment that is not queued is thrown away. -/
theorem chain_not_queued {ipr : ReassData} {iprh : Held} (h : ¬Queued iprh ipr.p) :
    ipReassChainFragIntoDatagramAndValidate ipr iprh = .ok none := by
  rw [ipReassChainFragIntoDatagramAndValidate, chainLoop_nil, if_neg h]

/-- The step behind the loop does not abort, and looks at the seam at the end of the queue. -/
theorem chainAppend_eq (ipr : ReassData) (iprh : Held) (hb : behind iprh ipr.p = []) :
    chainAppend ipr iprh (before iprh ipr.p) (decide (Gapless (before iprh ipr.p))) =
      .ok (decide (Gapless (before iprh ipr.p ++ [iprh]))) := by
  rw [chainAppend]
  cases hlast : (before iprh ipr.p).getLast? with
  | none =>
    have hnil : before iprh ipr.p = [] := List.getLast?_eq_none_iff.mp hlast
    have hp : ipr.p = [] := by
      have := before_append_behind iprh ipr.p
      rw [hb, hnil] at this
      exact this.symm
    dsimp only
    rw [(lwipAssert_eq_ok (u := ())).mpr hp, hnil]
    simp [Gapless]
    rfl
  | some prev =>
    have hle : prev.stop ≤ iprh.start := stop_le_of_mem_before (List.mem_of_getLast? hlast)
    dsimp only
    rw [(lwipAssert_eq_ok (u := ())).mpr hle]
    change Except.ok _ = _
    congr 1
    rw [Bool.eq_iff_iff, Bool.and_eq_true, decide_eq_true_eq, decide_eq_true_eq, decide_eq_true_eq,
      gapless_concat, hlast]
    simp

/-- What the function returns for a queued fragment comes from the validation. -/
theorem chain_queued {ipr : ReassData} {iprh : Held} (h : Queued iprh ipr.p) :
    ipReassChainFragIntoDatagramAndValidate ipr iprh =
      (validateDatagram ipr (before iprh ipr.p) iprh (behind iprh ipr.p)
        (decide (Gapless (before iprh ipr.p) ∧
          (behind iprh ipr.p = [] → Gapless (before iprh ipr.p ++ [iprh]))))) >>= fun valid =>
      .ok (some (queueWith iprh ipr.p, valid)) := by
  rw [ipReassChainFragIntoDatagramAndValidate, chainLoop_nil, if_pos h]
  dsimp only
  by_cases hb : behind iprh ipr.p = []
  · have hpre : Gapless (before iprh ipr.p ++ [iprh]) → Gapless (before iprh ipr.p) :=
      fun hg => (gapless_concat.mp hg).1
    rw [if_pos hb, chainAppend_eq ipr iprh hb]
    have heq : decide (Gapless (before iprh ipr.p) ∧
        (behind iprh ipr.p = [] → Gapless (before iprh ipr.p ++ [iprh]))) =
        decide (Gapless (before iprh ipr.p ++ [iprh])) := by
      rw [decide_eq_decide]
      exact ⟨fun hg => hg.2 hb, fun hg => ⟨hpre hg, fun _ => hg⟩⟩
    rw [heq]
    rfl
  · rw [if_neg hb]
    have heq : decide (Gapless (before iprh ipr.p) ∧
        (behind iprh ipr.p = [] → Gapless (before iprh ipr.p ++ [iprh]))) =
        decide (Gapless (before iprh ipr.p)) := by
      rw [decide_eq_decide]
      exact ⟨And.left, fun hg => ⟨hg, fun h' => absurd h' hb⟩⟩
    rw [heq]
    rfl

/-- The first fragment of the queue with a new one in it. -/
theorem exists_queueWith_eq_cons (iprh : Held) (q : List Held) :
    ∃ first rest, queueWith iprh q = first :: rest ∧ (rest = [] ↔ q = []) := by
  have hsplit := before_append_behind iprh q
  cases hb : before iprh q with
  | nil =>
    rw [hb, List.nil_append] at hsplit
    exact ⟨iprh, behind iprh q, by rw [queueWith, hb, List.nil_append], by rw [hsplit]⟩
  | cons first pre =>
    refine ⟨first, pre ++ iprh :: behind iprh q, by rw [queueWith, hb, List.cons_append], ?_⟩
    constructor
    · intro h
      exact absurd h (by simp)
    · intro h
      rw [hb, h] at hsplit
      cases hsplit

/-- The datagram is not complete as long as the test does not pass. -/
theorem chain_not_passes {ipr : ReassData} {iprh : Held} (h : Queued iprh ipr.p)
    (hp : ¬Passes ipr iprh) :
    ipReassChainFragIntoDatagramAndValidate ipr iprh =
      .ok (some (queueWith iprh ipr.p, false)) := by
  rw [chain_queued h, validateDatagram]
  split
  · rename_i hv
    obtain ⟨first, rest, hcons, -⟩ := exists_queueWith_eq_cons iprh ipr.p
    rw [← queueWith, hcons]
    dsimp only
    split
    · rfl
    · rename_i hfirst
      rw [decide_eq_true_eq] at hv
      have hgap : ¬Gapless (iprh :: behind iprh ipr.p) := by
        intro hg
        refine hp ⟨hv.1, hv.2.1, hg, hv.2.2, ?_⟩
        rw [hcons]
        simpa using hfirst
      rw [rescanLoop_fst, decide_eq_false hgap]
      rfl
  · rfl

/-- When the test passes, the assertions behind it decide. -/
theorem chain_passes {ipr : ReassData} {iprh : Held} (h : Queued iprh ipr.p)
    (hp : Passes ipr iprh) :
    ipReassChainFragIntoDatagramAndValidate ipr iprh =
      (do
        lwipAssert .sanityCheck (ipr.p ≠ [])
        lwipAssert .datagramEndNotLen ((lastWith iprh ipr.p).stop = ipr.datagram_len)
        .ok (some (queueWith iprh ipr.p, true))) := by
  obtain ⟨hl, hpre, hgap, hseam, hfirst⟩ := hp
  obtain ⟨first, rest, hcons, hrest⟩ := exists_queueWith_eq_cons iprh ipr.p
  have hv : ipr.lastfrag = true ∧ decide (Gapless (before iprh ipr.p) ∧
      (behind iprh ipr.p = [] → Gapless (before iprh ipr.p ++ [iprh]))) = true :=
    ⟨hl, decide_eq_true ⟨hpre, hseam⟩⟩
  rw [hcons] at hfirst
  rw [chain_queued h, validateDatagram, if_pos hv, ← queueWith, hcons]
  dsimp only
  rw [if_neg (not_not.mpr (hfirst first rfl)), rescanLoop_fst, decide_eq_true hgap,
    rescanLoop_snd hgap, if_pos rfl, (lwipAssert_eq_ok (u := ())).mpr rfl]
  have hassert : lwipAssert Abort.sanityCheck (rest ≠ []) =
      lwipAssert Abort.sanityCheck (ipr.p ≠ []) := by
    simp only [lwipAssert, ne_eq, hrest]
  rw [hassert]
  change (lwipAssert Abort.sanityCheck (ipr.p ≠ []) >>= fun _ =>
    lwipAssert Abort.datagramEndNotLen ((lastWith iprh ipr.p).stop = ipr.datagram_len) >>= fun _ =>
    .ok true) >>= _ = _
  cases lwipAssert Abort.sanityCheck (ipr.p ≠ []) with
  | error a => rfl
  | ok u =>
    cases lwipAssert Abort.datagramEndNotLen
        ((lastWith iprh ipr.p).stop = ipr.datagram_len) with
    | error a => rfl
    | ok u => rfl

/-- The function returns unless the test passes on a queue that does not end where the datagram
ends, or on a single fragment. -/
theorem chain_isOk_iff (ipr : ReassData) (iprh : Held) :
    (∃ x, ipReassChainFragIntoDatagramAndValidate ipr iprh = .ok x) ↔
      (Queued iprh ipr.p → Passes ipr iprh →
        ipr.p ≠ [] ∧ (lastWith iprh ipr.p).stop = ipr.datagram_len) := by
  constructor
  · rintro ⟨x, hx⟩ hq hp
    rw [chain_passes hq hp] at hx
    obtain ⟨u, hne, hx⟩ := bind_eq_ok.mp hx
    obtain ⟨u', hend, -⟩ := bind_eq_ok.mp hx
    exact ⟨lwipAssert_eq_ok.mp hne, lwipAssert_eq_ok.mp hend⟩
  · intro h
    by_cases hq : Queued iprh ipr.p
    · by_cases hp : Passes ipr iprh
      · obtain ⟨hne, hend⟩ := h hq hp
        refine ⟨some (queueWith iprh ipr.p, true), ?_⟩
        rw [chain_passes hq hp, (lwipAssert_eq_ok (u := ())).mpr hne,
          (lwipAssert_eq_ok (u := ())).mpr hend]
        rfl
      · exact ⟨_, chain_not_passes hq hp⟩
    · exact ⟨_, chain_not_queued hq⟩

/-- The function throws the fragment away, queues it, or completes the datagram with it. -/
theorem chain_cases {ipr : ReassData} {iprh : Held} {x : Option (List Held × Bool)}
    (h : ipReassChainFragIntoDatagramAndValidate ipr iprh = .ok x) :
    (¬Queued iprh ipr.p ∧ x = none) ∨
    (Queued iprh ipr.p ∧ x = some (queueWith iprh ipr.p, false)) ∨
    (Queued iprh ipr.p ∧ Passes ipr iprh ∧ (lastWith iprh ipr.p).stop = ipr.datagram_len ∧
      x = some (queueWith iprh ipr.p, true)) := by
  by_cases hq : Queued iprh ipr.p
  · by_cases hp : Passes ipr iprh
    · have hend := ((chain_isOk_iff ipr iprh).mp ⟨x, h⟩ hq hp).2
      rw [chain_passes hq hp] at h
      obtain ⟨-, -, h⟩ := bind_eq_ok.mp h
      obtain ⟨-, -, h⟩ := bind_eq_ok.mp h
      cases h
      exact .inr (.inr ⟨hq, hp, hend, rfl⟩)
    · rw [chain_not_passes hq hp] at h
      cases h
      exact .inr (.inl ⟨hq, rfl⟩)
  · rw [chain_not_queued hq] at h
    cases h
    exact .inl ⟨hq, rfl⟩

end Lwip.Ip
