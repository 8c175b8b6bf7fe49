import Lwip.Arch
import Lwip.Lib.Delta
import Lwip.Lib.Run

/-!
# Timeouts

`sys_timeout` and `sys_untimeout` of `sys.c`, and what `sys_mbox_fetch` does with the list when it
has waited. The list of a thread is a list of entries; the pool they come from has a number of free
ones. The time of an entry is a `u32_t`, relative to the entry before.

As numbers, the times are a list of differences (`delta`), and the two functions are `Delta.insert`
and `Delta.erase` on it. `sys_untimeout` adds a time to the next one modulo `2^32`; that is the sum
as long as no entry expires at `2^32` or later, which is so in every run (`run_fits`).
-/

namespace Lwip.Sys

/-- The assertions of `sys.c`. -/
inductive Abort where
  /-- `sys_timeout: timeout != NULL` -/
  | timeoutNull
  deriving DecidableEq, Repr

/-- `struct sys_timeo`. -/
structure SysTimeo (H A : Type*) where
  time : UInt32
  h : H
  arg : A
  deriving DecidableEq, Repr

/-- `struct sys_timeouts`, with the number of free elements of the pool `MEMP_SYS_TIMEOUT`. -/
structure SysTimeouts (H A : Type*) where
  next : List (SysTimeo H A) := []
  free : ℕ
  deriving DecidableEq, Repr

variable {H A : Type*}

/-- The loop of `sys_timeout`, from `t` on. -/
def timeoutLoop (timeout : SysTimeo H A) : List (SysTimeo H A) → List (SysTimeo H A)
  | [] => []
  | t :: rest =>
    let timeout := { timeout with time := timeout.time - t.time }
    match rest with
    | [] => [t, timeout]
    | next :: tail =>
      if next.time > timeout.time then
        t :: timeout :: { next with time := next.time - timeout.time } :: tail
      else t :: timeoutLoop timeout (next :: tail)

/-- `sys_timeout`. -/
def sysTimeout (timeouts : SysTimeouts H A) (msecs : UInt32) (h : H) (arg : A) :
    Except Abort (SysTimeouts H A) :=
  match timeouts.free with
  | 0 => .error .timeoutNull
  | free + 1 =>
    let timeout : SysTimeo H A := { time := msecs, h, arg }
    match timeouts.next with
    | [] => .ok { next := [timeout], free }
    | next :: tail =>
      if next.time > msecs then
        .ok { next := timeout :: { next with time := next.time - msecs } :: tail, free }
      else .ok { next := timeoutLoop timeout (next :: tail), free }

/-- The loop of `sys_untimeout`, from `t` on: the rest of the list without the match, if there is
one. -/
def untimeoutLoop [DecidableEq H] [DecidableEq A] (h : H) (arg : A) :
    List (SysTimeo H A) → Option (List (SysTimeo H A))
  | [] => none
  | t :: rest =>
    if t.h = h ∧ t.arg = arg then
      -- if not the last one, add time of this one back to next
      match rest with
      | [] => some []
      | next :: tail => some ({ next with time := next.time + t.time } :: tail)
    else (untimeoutLoop h arg rest).map (t :: ·)

/-- `sys_untimeout`. -/
def sysUntimeout [DecidableEq H] [DecidableEq A] (timeouts : SysTimeouts H A) (h : H) (arg : A) :
    SysTimeouts H A :=
  match untimeoutLoop h arg timeouts.next with
  | none => timeouts
  | some next => { next, free := timeouts.free + 1 }

/-- What `sys_mbox_fetch` does with the list when it has waited: `none` is `SYS_ARCH_TIMEOUT`. The
handler that it calls is returned. -/
def sysMboxFetchRound (timeouts : SysTimeouts H A) (time_needed : Option UInt32) :
    SysTimeouts H A × Option (H × A) :=
  match timeouts.next with
  | [] => (timeouts, none)
  | next :: tail =>
    match if next.time > 0 then time_needed else none with
    | none => ({ next := tail, free := timeouts.free + 1 }, some (next.h, next.arg))
    | some time_needed =>
      let time := if time_needed < next.time then next.time - time_needed else 0
      ({ timeouts with next := { next with time } :: tail }, none)

/-! ## The list as differences -/

/-- The entries, with their times as numbers. -/
def delta (l : List (SysTimeo H A)) :
    List (ℕ × (H × A)) := l.map fun t => (t.time.toNat, (t.h, t.arg))

/-- The handlers with their arguments, and when they expire. -/
def expiries (timeouts : SysTimeouts H A) :
    List (ℕ × (H × A)) := Delta.expand 0 (delta timeouts.next)

/-- The differences of the first entry and of the rest. -/
theorem delta_cons (t : SysTimeo H A) (l : List (SysTimeo H A)) :
    delta (t :: l) = (t.time.toNat, (t.h, t.arg)) :: delta l := rfl

/-- The loop of `sys_timeout` is an insertion, if the new entry is not due before the first one. -/
theorem delta_timeoutLoop (timeout t : SysTimeo H A) (rest : List (SysTimeo H A))
    (hle : t.time ≤ timeout.time) : delta (timeoutLoop timeout (t :: rest)) =
      Delta.insert timeout.time.toNat (timeout.h, timeout.arg) (delta (t :: rest)) := by
  have hnot : ¬ timeout.time.toNat < t.time.toNat := Nat.not_lt.mpr (UInt32.le_iff_toNat_le.mp hle)
  induction rest generalizing timeout t with
  | nil =>
    have hsub := UInt32.toNat_sub_of_le _ _ hle
    rw [delta_cons, Delta.insert, if_neg hnot, ← hsub]
    rfl
  | cons next tail ih =>
    have hsub := UInt32.toNat_sub_of_le _ _ hle
    rw [delta_cons, Delta.insert, if_neg hnot, ← hsub, timeoutLoop]
    dsimp only
    by_cases hlt : next.time > timeout.time - t.time
    · have hlt' : (timeout.time - t.time).toNat < next.time.toNat := UInt32.lt_iff_toNat_lt.mp hlt
      have hnext := UInt32.toNat_sub_of_le _ _ (UInt32.le_of_lt hlt)
      rw [if_pos hlt, delta_cons next, Delta.insert, if_pos hlt', ← hnext]
      rfl
    · have hle' : next.time ≤ timeout.time - t.time := UInt32.not_lt.mp hlt
      rw [if_neg hlt, delta_cons, ih _ next hle' (Nat.not_lt.mpr (UInt32.le_iff_toNat_le.mp hle'))]

/-- `sys_timeout` is an insertion. -/
theorem sysTimeout_eq (timeouts : SysTimeouts H A) (hfree : 0 < timeouts.free)
    (msecs : UInt32) (h : H)
    (arg : A) : ∃ next, sysTimeout timeouts msecs h arg = .ok { next, free := timeouts.free - 1 } ∧
      delta next = Delta.insert msecs.toNat (h, arg) (delta timeouts.next) := by
  obtain ⟨next, _ | free⟩ := timeouts
  · cases hfree
  unfold sysTimeout
  dsimp only
  cases next with
  | nil => exact ⟨_, rfl, rfl⟩
  | cons next tail =>
    dsimp only
    by_cases hlt : next.time > msecs
    · have hlt' : msecs.toNat < next.time.toNat := UInt32.lt_iff_toNat_lt.mp hlt
      have hsub := UInt32.toNat_sub_of_le _ _ (UInt32.le_of_lt hlt)
      refine ⟨_, if_pos hlt, ?_⟩
      rw [delta_cons next, Delta.insert, if_pos hlt', ← hsub]
      rfl
    · exact ⟨_, if_neg hlt, delta_timeoutLoop _ next tail (UInt32.not_lt.mp hlt)⟩

/-- No entry expires at `2^32` or later. -/
def Fits (timeouts : SysTimeouts H A) : Prop := Delta.Within (2^32) 0 (delta timeouts.next)

section

variable [DecidableEq H] [DecidableEq A]

/-- The entry is a timeout with this handler and argument. -/
def isTimeout (h : H) (arg : A) (e : H × A) : Bool := e.1 = h ∧ e.2 = arg

/-- The loop of `sys_untimeout` takes an entry out, as long as no sum of two times wraps. -/
theorem delta_untimeoutLoop {now : ℕ} (h : H) (arg : A) {l : List (SysTimeo H A)}
    (hfits : Delta.Within (2^32) now (delta l)) :
    delta ((untimeoutLoop h arg l).getD l) = Delta.erase (isTimeout h arg) (delta l) := by
  induction l generalizing now with
  | nil => rfl
  | cons t rest ih =>
    rw [untimeoutLoop.eq_def, delta_cons, Delta.erase]
    dsimp only
    by_cases hm : t.h = h ∧ t.arg = arg
    · rw [if_pos hm, if_pos (by simpa [isTimeout] using hm)]
      cases rest with
      | nil => rfl
      | cons next tail =>
        have hlt : now + t.time.toNat + next.time.toNat < 2^32 :=
          hfits.tail (now + t.time.toNat + next.time.toNat, (next.h, next.arg)) List.mem_cons_self
        have hsum : (next.time + t.time).toNat = next.time.toNat + t.time.toNat := by
          rw [UInt32.toNat_add]
          exact Nat.mod_eq_of_lt (by omega)
        show delta ({ next with time := next.time + t.time } :: tail) = _
        rw [delta_cons, hsum]
        rfl
    · rw [if_neg hm, if_neg (by simpa [isTimeout] using hm), ← ih hfits.tail]
      cases untimeoutLoop h arg rest <;> rfl

/-- `sys_untimeout` takes an entry out. -/
theorem delta_sysUntimeout {timeouts : SysTimeouts H A} (hfits : Fits timeouts) (h : H) (arg : A) :
    delta (sysUntimeout timeouts h arg).next = Delta.erase (isTimeout h arg)
    (delta timeouts.next) := by
  rw [← delta_untimeoutLoop h arg hfits, sysUntimeout]
  cases untimeoutLoop h arg timeouts.next <;> rfl

/-- The first match is what `sys_timeout` put into the list, and the next entry gets its time
back. -/
theorem untimeoutLoop_timeoutLoop (timeout : SysTimeo H A) {l : List (SysTimeo H A)} (hne : l ≠ [])
    (hl : ∀ t ∈ l, ¬ (t.h = timeout.h ∧ t.arg = timeout.arg)) :
    untimeoutLoop timeout.h timeout.arg (timeoutLoop timeout l) = some l := by
  induction l generalizing timeout with
  | nil => exact absurd rfl hne
  | cons t rest ih =>
    have ht := hl t List.mem_cons_self
    cases rest with
    | nil =>
      rw [timeoutLoop, untimeoutLoop, if_neg ht, untimeoutLoop, if_pos ⟨rfl, rfl⟩]
      rfl
    | cons next tail =>
      rw [timeoutLoop]
      dsimp only
      split
      · have hback : next.time - (timeout.time - t.time) + (timeout.time - t.time) = next.time :=
          UInt32.sub_add_cancel _ _
        rw [untimeoutLoop, if_neg ht, untimeoutLoop, if_pos ⟨rfl, rfl⟩]
        dsimp only
        rw [hback]
        rfl
      · have hrest := ih { timeout with time := timeout.time - t.time } (List.cons_ne_nil next tail)
          fun t ht => hl t (List.mem_cons_of_mem _ ht)
        dsimp only at hrest
        rw [untimeoutLoop.eq_def]
        dsimp only
        rw [if_neg ht, hrest]
        rfl

/-- `sys_untimeout` undoes `sys_timeout`. -/
theorem sysUntimeout_sysTimeout {timeouts timeouts' : SysTimeouts H A} {msecs : UInt32} {h : H}
    {arg : A} (hrun : sysTimeout timeouts msecs h arg = .ok timeouts')
    (hnew : ∀ t ∈ timeouts.next, ¬ (t.h = h ∧ t.arg = arg)) :
    sysUntimeout timeouts' h arg = timeouts := by
  obtain ⟨l, _ | free⟩ := timeouts
  · cases hrun
  unfold sysTimeout at hrun
  dsimp only at hrun
  cases l with
  | nil =>
    cases hrun
    rw [sysUntimeout]
    dsimp only
    rw [untimeoutLoop, if_pos ⟨rfl, rfl⟩]
  | cons next tail =>
    dsimp only at hrun
    split at hrun
    · cases hrun
      have hback : next.time - msecs + msecs = next.time := UInt32.sub_add_cancel _ _
      rw [sysUntimeout]
      dsimp only
      rw [untimeoutLoop, if_pos ⟨rfl, rfl⟩]
      dsimp only
      rw [hback]
    · cases hrun
      have hloop := untimeoutLoop_timeoutLoop { time := msecs, h, arg }
        (List.cons_ne_nil next tail) hnew
      dsimp only at hloop
      rw [sysUntimeout]
      dsimp only
      rw [hloop]

/-! ## Runs -/

/-- What can happen to the list of a thread. -/
inductive Event (H A : Type*) where
  | timeout (msecs : UInt32) (h : H) (arg : A)
  | untimeout (h : H) (arg : A)
  /-- `sys_mbox_fetch` has waited. -/
  | fetched (time_needed : Option UInt32)

/-- The list after an event. -/
def step (timeouts : SysTimeouts H A) : Event H A → Except Abort (SysTimeouts H A)
  | .timeout msecs h arg => sysTimeout timeouts msecs h arg
  | .untimeout h arg => .ok (sysUntimeout timeouts h arg)
  | .fetched time_needed => .ok (sysMboxFetchRound timeouts time_needed).1

omit [DecidableEq H] [DecidableEq A] in
/-- `sys_timeout` keeps the times in range. -/
theorem Fits.sysTimeout {timeouts timeouts' : SysTimeouts H A} (hfits : Fits timeouts)
    {msecs : UInt32}
    {h : H} {arg : A} (hrun : sysTimeout timeouts msecs h arg = .ok timeouts') :
    Fits timeouts' := by
  have hfree : 0 < timeouts.free := by
    rcases Nat.eq_zero_or_pos timeouts.free with hzero | hpos
    · unfold Sys.sysTimeout at hrun
      rw [hzero] at hrun
      cases hrun
    · exact hpos
  obtain ⟨next, hrun', hdelta⟩ := sysTimeout_eq timeouts hfree msecs h arg
  obtain rfl := Except.ok.inj (hrun.symm.trans hrun')
  unfold Fits
  rw [hdelta]
  refine Delta.Within.insert hfits ?_ _
  rw [Nat.zero_add]
  exact msecs.toNat_lt

omit [DecidableEq H] [DecidableEq A] in
/-- A wait keeps the times in range. -/
theorem Fits.sysMboxFetchRound {timeouts : SysTimeouts H A} (hfits : Fits timeouts)
    (time_needed : Option UInt32) : Fits (sysMboxFetchRound timeouts time_needed).1 := by
  obtain ⟨l, free⟩ := timeouts
  unfold Sys.sysMboxFetchRound
  cases l with
  | nil => exact hfits
  | cons next tail =>
    dsimp only
    split
    · exact hfits.tail.mono (Nat.zero_le _)
    · next needed _ =>
      -- The time of the first entry gets smaller.
      have htime : (if needed < next.time then next.time - needed else 0).toNat =
          next.time.toNat - needed.toNat := by
        split
        · next hlt => exact UInt32.toNat_sub_of_le _ _ (UInt32.le_of_lt hlt)
        · next hnot =>
          have hle := UInt32.le_iff_toNat_le.mp (UInt32.not_lt.mp hnot)
          exact (Nat.sub_eq_zero_of_le hle).symm
      unfold Fits
      rw [delta_cons]
      dsimp only
      rw [htime]
      exact Delta.Within.elapse hfits needed.toNat

/-- `sys_untimeout` keeps the times in range. -/
theorem Fits.sysUntimeout {timeouts : SysTimeouts H A} (hfits : Fits timeouts) (h : H) (arg : A) :
    Fits (sysUntimeout timeouts h arg) := by
  unfold Fits
  rw [delta_sysUntimeout hfits]
  exact Delta.Within.erase hfits _

/-- In every run, the entries expire before `2^32`. -/
theorem run_fits {free : ℕ} {es : List (Event H A)} {timeouts : SysTimeouts H A}
    (hrun : run step { free } es = .ok timeouts) : Fits timeouts := by
  have hstep : ∀ (s : SysTimeouts H A) (e : Event H A) (s' : SysTimeouts H A), Fits s → True →
      step s e = .ok s' → Fits s' := by
    intro s e s' hfits _ hs
    cases e with
    | timeout msecs h arg => exact hfits.sysTimeout hs
    | untimeout h arg =>
      cases hs
      exact hfits.sysUntimeout h arg
    | fetched time_needed =>
      cases hs
      exact hfits.sysMboxFetchRound time_needed
  have hinit : Fits ({ free } : SysTimeouts H A) := fun e he => by cases he
  exact run_invariant hstep hinit (Along.of_forall _ fun _ _ => trivial) hrun

/-- With a free element in the pool `sys_timeout` adds one entry, behind those that expire no later,
and `sys_untimeout` takes it out again. `sys_untimeout` takes out the first entry of its kind from a
list that fits, as the lists of all runs do. No other entry expires at another time. -/
theorem timeouts_keep_expiries :
    (∀ (timeouts : SysTimeouts H A) (msecs : UInt32) (h : H) (arg : A), 0 < timeouts.free →
      ∃ timeouts' pre post, sysTimeout timeouts msecs h arg = .ok timeouts' ∧
        expiries timeouts = pre ++ post ∧
        expiries timeouts' = pre ++ (msecs.toNat, (h, arg)) :: post ∧
        (∀ e ∈ pre, e.1 ≤ msecs.toNat) ∧ (∀ e ∈ post, msecs.toNat < e.1) ∧
        ((∀ t ∈ timeouts.next, ¬ (t.h = h ∧ t.arg = arg)) →
        sysUntimeout timeouts' h arg = timeouts)) ∧
    (∀ (timeouts : SysTimeouts H A) (h : H) (arg : A), Fits timeouts →
      expiries (sysUntimeout timeouts h arg) = (expiries timeouts).eraseP fun e =>
      isTimeout h arg e.2) ∧
    (∀ timeouts : SysTimeouts H A, (expiries timeouts).Pairwise fun e e' => e.1 ≤ e'.1) ∧
    ∀ (free : ℕ) (es : List (Event H A)) (timeouts : SysTimeouts H A),
      run step { free } es = .ok timeouts → Fits timeouts := by
  refine ⟨fun timeouts msecs h arg hfree => ?_, fun timeouts h arg hfits => ?_,
    fun timeouts => Delta.expand_sorted 0 _, fun free es timeouts => run_fits⟩
  · obtain ⟨next, hrun, hdelta⟩ := sysTimeout_eq timeouts hfree msecs h arg
    obtain ⟨pre, post, hl, hins, hpre, hpost⟩ :=
      Delta.expand_insert 0 msecs.toNat (h, arg) (delta timeouts.next)
    rw [Nat.zero_add] at hins hpre hpost
    refine ⟨_, pre, post, hrun, hl, ?_, hpre, hpost, sysUntimeout_sysTimeout hrun⟩
    unfold expiries
    rw [hdelta, hins]
  · unfold expiries
    rw [delta_sysUntimeout hfits, Delta.expand_erase]

end

/-- Two timeouts, after 5 and after 8 milliseconds. -/
def exampleTimeouts : SysTimeouts ℕ ℕ := { next := [⟨5, 1, 1⟩, ⟨3, 2, 2⟩], free := 1 }

/-- An entry that is added and removed leaves the others as they were. -/
theorem timeouts_keep_expiries_exampleTimeouts :
    (∃ timeouts', sysTimeout exampleTimeouts 6 3 3 = .ok timeouts' ∧
      sysUntimeout timeouts' 3 3 = exampleTimeouts) ∧
    expiries (sysUntimeout exampleTimeouts 1 1) = [(8, (2, 2))] := by
  obtain ⟨hadd, hremove, -⟩ := timeouts_keep_expiries (H := ℕ) (A := ℕ)
  obtain ⟨timeouts', -, -, hrun, -, -, -, -, hback⟩ := hadd exampleTimeouts 6 3 3 (by decide)
  have hfits : Fits exampleTimeouts := by
    intro e he
    have hmem : e ∈ [(5, (1, 1)), (8, (2, 2))] := he
    rcases List.mem_cons.mp hmem with rfl | hmem
    · decide
    · rw [List.mem_singleton.mp hmem]
      decide
  exact ⟨⟨timeouts', hrun, hback (by decide)⟩, hremove exampleTimeouts 1 1 hfits⟩

/-- With an empty pool `sys_timeout` adds nothing but stops, and in a list that no run leads to, a
sum of times may wrap. -/
theorem timeouts_full_and_wrap :
    sysTimeout ({ free := 0 } : SysTimeouts ℕ ℕ) 5 1 1 = .error .timeoutNull ∧
    expiries ({ next := [⟨4294967295, 1, 1⟩, ⟨2, 2, 2⟩], free := 1 } : SysTimeouts ℕ ℕ) =
      [(4294967295, (1, 1)), (4294967297, (2, 2))] ∧
    expiries (sysUntimeout ({ next := [⟨4294967295, 1, 1⟩, ⟨2, 2, 2⟩], free := 1 } :
      SysTimeouts ℕ ℕ) 1 1) = [(1, (2, 2))] := by
  decide

end Lwip.Sys
