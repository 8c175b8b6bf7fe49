import Lwip.Ip.Reass
import Mathlib.Data.List.Induction

/-!
# The list of datagrams

What the functions that take a datagram out of the list do: `ip_reass_free_complete_datagram`,
`ip_reass_tmr` and `ip_reass_remove_oldest_datagram`.

The last one always passes the entry before the end of the list as the predecessor of the entry it
frees. New entries go to the front of the list, so the timers do not increase along it, and the
oldest entry is the last one that is not the datagram of the new fragment. The predecessor is right
as long as that is the last entry at all.
-/

namespace Lwip.Ip

/-- The pbufs of two queues. -/
theorem heldPbufs_append (q q' : List Held) :
    heldPbufs (q ++ q') = heldPbufs q + heldPbufs q' := by
  simp [heldPbufs]

/-- The pbufs of two lists of datagrams. -/
theorem pbufs_append (l l' : List ReassData) : pbufs (l ++ l') = pbufs l + pbufs l' := by
  simp [pbufs]

/-- No datagrams hold no pbufs. -/
theorem pbufs_nil : pbufs [] = 0 := rfl

/-- The pbufs of a list with one datagram more. -/
theorem pbufs_concat (l : List ReassData) (d : ReassData) :
    pbufs (l ++ [d]) = pbufs l + heldPbufs d.p := by
  simp [pbufs]

/-- The pbufs of the first datagram and of the rest. -/
theorem pbufs_cons (d : ReassData) (l : List ReassData) :
    pbufs (d :: l) = heldPbufs d.p + pbufs l := by
  simp [pbufs]

/-- The entry before the one at the index `i`. -/
def predIdx (i : ℕ) : Option ℕ := if i = 0 then none else some (i - 1)

/-- Taking an entry out behind its predecessor. -/
theorem dequeue_eq (A C : List ReassData) (d : ReassData) :
    ipReassDequeueDatagram (A ++ d :: C) A.length (predIdx A.length) = .ok (A ++ C) := by
  rcases List.eq_nil_or_concat A with rfl | ⟨A', a, rfl⟩
  · rfl
  · have hsplit : A'.concat a ++ d :: C = (A' ++ [a]) ++ d :: C := by simp
    have htake : (A' ++ [a] ++ d :: C).take (A' ++ [a]).length = A' ++ [a] := List.take_left
    have hdrop : (A' ++ [a] ++ d :: C).drop ((A' ++ [a]).length + 1) = C := by
      rw [← List.drop_drop, List.drop_left]
      rfl
    rw [List.length_append, List.length_singleton] at htake hdrop
    simp only [ipReassDequeueDatagram, predIdx, List.length_concat, Nat.succ_ne_zero, if_false,
      Nat.add_sub_cancel, hsplit, htake, hdrop]
    simp

/-- Freeing an entry behind its predecessor. -/
theorem free_eq {A C : List ReassData} {d : ReassData} {cnt : ℕ} (hp : d.p ≠ [])
    (hle : heldPbufs d.p ≤ cnt) :
    ipReassFreeCompleteDatagram ⟨A ++ d :: C, cnt⟩ A.length (predIdx A.length) =
      .ok (⟨A ++ C, cnt - heldPbufs d.p⟩, heldPbufs d.p) := by
  have hne : predIdx A.length ≠ some A.length := by
    rw [predIdx]
    split
    · simp
    · rw [ne_eq, Option.some_inj]
      omega
  have hnext : (predIdx A.length).all (· + 1 = A.length) = true := by
    rw [predIdx]
    split
    · rfl
    · rw [Option.all_some, decide_eq_true_eq]
      omega
  have hget : (A ++ d :: C)[A.length]? = some d := by simp
  rw [ipReassFreeCompleteDatagram, (lwipAssert_eq_ok (u := ())).mpr hne,
    (lwipAssert_eq_ok (u := ())).mpr hnext]
  dsimp only [bind, Except.bind]
  rw [hget]
  dsimp only
  rw [(lwipAssert_eq_ok (u := ())).mpr hp, dequeue_eq, (lwipAssert_eq_ok (u := ())).mpr hle]

/-! ## `ip_reass_tmr` -/

/-- The entries the timer keeps, one tick older. -/
def aged (l : List ReassData) : List ReassData :=
  (l.filter fun d => 0 < d.timer).map fun d => { d with timer := d.timer - 1 }

/-- The loop of the timer frees the entries whose time is over. -/
theorem tmrLoop_eq (done rest : List ReassData) (cnt : ℕ) (hp : ∀ d ∈ rest, d.p ≠ [])
    (hle : pbufs rest ≤ cnt) :
    ∃ freed, pbufs rest = pbufs (aged rest) + freed ∧
      ipReassTmrLoop rest.length ⟨done ++ rest, cnt⟩ done.length (predIdx done.length) =
        .ok ⟨done ++ aged rest, cnt - freed⟩ := by
  induction rest generalizing done cnt with
  | nil => exact ⟨0, rfl, rfl⟩
  | cons d rest ih =>
    have hp' : ∀ d ∈ rest, d.p ≠ [] := fun x hx => hp x (List.mem_cons_of_mem _ hx)
    have hget : (done ++ d :: rest)[done.length]? = some d := by simp
    rw [pbufs_cons] at hle ⊢
    rw [List.length_cons, ipReassTmrLoop, hget]
    dsimp only
    by_cases ht : 0 < d.timer
    · -- The entry gets older and the loop goes on behind it.
      have hset : (done ++ d :: rest).set done.length { d with timer := d.timer - 1 } =
          (done ++ [{ d with timer := d.timer - 1 }]) ++ rest := by simp
      have hlen : (done ++ [{ d with timer := d.timer - 1 }]).length = done.length + 1 := by simp
      have haged : aged (d :: rest) = { d with timer := d.timer - 1 } :: aged rest := by
        simp [aged, ht]
      obtain ⟨freed, hsum, hloop⟩ :=
        ih (done ++ [{ d with timer := d.timer - 1 }]) cnt hp' (by omega)
      rw [hlen, predIdx, if_neg (Nat.succ_ne_zero _), Nat.add_sub_cancel] at hloop
      refine ⟨freed, by rw [haged, pbufs_cons]; dsimp only; omega, ?_⟩
      rw [if_pos ht, hset, haged, hloop, List.append_assoc, List.singleton_append]
    · have haged : aged (d :: rest) = aged rest := by simp [aged, ht]
      obtain ⟨freed, hsum, hloop⟩ := ih done (cnt - heldPbufs d.p) hp' (by omega)
      refine ⟨heldPbufs d.p + freed, by rw [haged]; omega, ?_⟩
      rw [if_neg ht, free_eq (hp d List.mem_cons_self) (by omega), haged, Nat.sub_add_eq]
      exact hloop

/-! ## `ip_reass_remove_oldest_datagram` -/

section Oldest

variable {f : IpHdr}

/-- The loop counts the datagrams of others. -/
theorem findOldest_otherDatagrams (i : ℕ) (x : Oldest) (l : List ReassData) :
    (findOldest f i x l).otherDatagrams = x.otherDatagrams + l.countP (!·.isOf f) := by
  induction l generalizing i x with
  | nil => rfl
  | cons r next ih =>
    rw [findOldest, ih, oldestStep, List.countP_cons]
    cases r.isOf f with
    | true => simp
    | false => simp; omega

/-- The predecessor found is the last entry but one. -/
theorem findOldest_prev (i : ℕ) (x : Oldest) (l : List ReassData) :
    (findOldest f i x l).prev = if 2 ≤ l.length then some (i + l.length - 2) else x.prev := by
  induction l generalizing i x with
  | nil => rfl
  | cons r next ih =>
    rw [findOldest, ih, oldestStep]
    dsimp only
    cases next with
    | nil => rfl
    | cons r' next =>
      rw [if_pos (c := 2 ≤ (r :: r' :: next).length) (by simp)]
      simp only [List.length_cons, reduceCtorEq, if_false]
      split
      · congr 1
        omega
      · congr 1
        omega

/-- Entries of the fragment's own datagram are not the oldest. -/
theorem findOldest_oldest_of_isOf (i : ℕ) (x : Oldest) (l : List ReassData)
    (h : ∀ d ∈ l, d.isOf f = true) : (findOldest f i x l).oldest = x.oldest := by
  induction l generalizing i x with
  | nil => rfl
  | cons r next ih =>
    rw [findOldest, ih _ _ fun d hd => h d (List.mem_cons_of_mem _ hd), oldestStep]
    exact if_pos (h r List.mem_cons_self)

/-- Newer entries are not the oldest. -/
theorem findOldest_oldest_of_newer (i : ℕ) (x : Oldest) (l : List ReassData) {j t : ℕ}
    (hx : x.oldest = some (j, t)) (h : ∀ d ∈ l, d.isOf f = false → t < d.timer) :
    (findOldest f i x l).oldest = some (j, t) := by
  induction l generalizing i x with
  | nil => exact hx
  | cons r next ih =>
    obtain ⟨hr, hnext⟩ := List.forall_mem_cons.mp h
    refine ih _ _ ?_ hnext
    rw [oldestStep, hx]
    dsimp only
    cases hf : r.isOf f with
    | true => rfl
    | false => exact if_neg (Nat.not_le_of_lt (hr hf))

/-- The last one of the oldest entries of other datagrams is the oldest. -/
theorem findOldest_oldest (i : ℕ) (x : Oldest) (A C : List ReassData) (d : ReassData)
    (hd : d.isOf f = false) (hC : ∀ c ∈ C, c.isOf f = false → d.timer < c.timer)
    (hA : ∀ a ∈ A, a.isOf f = false → d.timer ≤ a.timer)
    (hx : ∀ j t, x.oldest = some (j, t) → d.timer ≤ t) :
    (findOldest f i x (A ++ d :: C)).oldest = some (i + A.length, d.timer) := by
  induction A generalizing i x with
  | nil =>
    rw [List.nil_append, findOldest, List.length_nil, Nat.add_zero]
    refine findOldest_oldest_of_newer _ _ _ ?_ hC
    rw [oldestStep]
    simp only [hd, Bool.false_eq_true, if_false]
    cases hox : x.oldest with
    | none => rfl
    | some jt =>
      obtain ⟨j, t⟩ := jt
      exact if_pos (hx j t hox)
  | cons a A ih =>
    obtain ⟨ha, hA⟩ := List.forall_mem_cons.mp hA
    rw [List.cons_append, findOldest, ih _ _ hA]
    · rw [List.length_cons]
      congr 2
      omega
    · -- Whatever the oldest entry is now, it is not older than `d`.
      intro j t ht
      rw [oldestStep] at ht
      dsimp only at ht
      cases haf : a.isOf f with
      | true =>
        rw [haf, if_pos rfl] at ht
        exact hx j t ht
      | false =>
        rw [haf, if_neg Bool.false_ne_true] at ht
        split at ht
        · cases ht
          exact ha haf
        · rename_i j' t' hox
          split at ht
          · cases ht
            exact ha haf
          · cases ht
            exact hx _ _ hox

end Oldest

/-- What the timers and queues of the entries satisfy. -/
structure Wf (l : List ReassData) : Prop where
  /-- No two entries are of one datagram. -/
  keys : l.Pairwise fun a b => a.isOf b.iphdr = false
  /-- The timers do not increase along the list. -/
  timers : l.Pairwise fun a b => b.timer ≤ a.timer
  /-- No timer is above that of a new entry. -/
  timer_le : ∀ d ∈ l, d.timer ≤ IP_REASS_MAXAGE
  /-- No queue is empty. -/
  held : ∀ d ∈ l, d.p ≠ []

/-- A part of the list is as well-formed. -/
theorem Wf.sublist {l l' : List ReassData} (h : Wf l) (hs : l'.Sublist l) : Wf l' where
  keys := h.keys.sublist hs
  timers := h.timers.sublist hs
  timer_le d hd := h.timer_le d (hs.subset hd)
  held d hd := h.held d (hs.subset hd)

/-- The timers in front of an entry are not smaller. -/
theorem Wf.timer_front {A C : List ReassData} {d : ReassData} (h : Wf (A ++ d :: C)) :
    ∀ a ∈ A, d.timer ≤ a.timer :=
  fun a ha => (List.pairwise_append.mp h.timers).2.2 a ha d List.mem_cons_self

/-- The entry at the end of the list, if it is of another datagram than the fragment and no other
such one is older, is freed. -/
theorem removeOldest_round {f : IpHdr} {needed n cnt freed : ℕ} {l : List ReassData}
    {d : ReassData} (hd : d.isOf f = false) (hl : ∀ a ∈ l, a.isOf f = false → d.timer ≤ a.timer)
    (hp : d.p ≠ []) (hle : heldPbufs d.p ≤ cnt) :
    removeOldestLoop f needed (n + 1) ⟨l ++ [d], cnt⟩ freed =
      if freed + heldPbufs d.p < needed ∧ 1 < l.countP (!·.isOf f) + 1 then
        removeOldestLoop f needed n ⟨l, cnt - heldPbufs d.p⟩ (freed + heldPbufs d.p)
      else .ok (⟨l, cnt - heldPbufs d.p⟩, freed + heldPbufs d.p) := by
  have hold : (findOldest f 0 {} (l ++ [d])).oldest = some (l.length, d.timer) := by
    have := findOldest_oldest 0 {} l [] d hd nofun hl nofun
    rwa [Nat.zero_add] at this
  have hprev : (findOldest f 0 {} (l ++ [d])).prev = predIdx l.length := by
    rw [findOldest_prev, List.length_append, List.length_singleton, predIdx]
    split
    · rw [if_neg (by omega)]
      congr 1
      omega
    · rw [if_pos (by omega)]
  have hother : (findOldest f 0 {} (l ++ [d])).otherDatagrams = l.countP (!·.isOf f) + 1 := by
    rw [findOldest_otherDatagrams, List.countP_append, List.countP_singleton]
    simp [hd]
  have hfree := free_eq (A := l) (C := []) hp hle
  rw [List.append_nil] at hfree
  rw [removeOldestLoop]
  dsimp only
  rw [hold, hprev, hother]
  dsimp only
  rw [hfree]
  rfl

/-- Without another datagram nothing is freed. -/
theorem removeOldest_round_none {f : IpHdr} {needed n freed : ℕ} {s : Reass}
    (h : ∀ d ∈ s.datagrams, d.isOf f = true) :
    removeOldestLoop f needed n s freed = .ok (s, freed) := by
  cases n with
  | zero => rfl
  | succ n =>
    have hold := findOldest_oldest_of_isOf 0 {} s.datagrams h
    have hother : (findOldest f 0 {} s.datagrams).otherDatagrams = 0 := by
      rw [findOldest_otherDatagrams, List.countP_eq_zero.mpr fun d hd => by simp [h d hd]]
    rw [removeOldestLoop]
    simp only [hold, hother, bind, Except.bind, Nat.add_zero]
    exact if_neg (by omega)

/-- The fragment's own datagram at the end of the list is taken for the predecessor of the entry in
front of it, which is the entry itself. -/
theorem removeOldest_round_abort {f : IpHdr} {needed n cnt freed : ℕ} {A : List ReassData}
    {d own : ReassData} (hd : d.isOf f = false) (hown : own.isOf f = true)
    (hwf : Wf (A ++ [d, own])) :
    removeOldestLoop f needed (n + 1) ⟨A ++ [d, own], cnt⟩ freed = .error .prevIsIpr := by
  have hold : (findOldest f 0 {} (A ++ [d, own])).oldest = some (A.length, d.timer) := by
    have hC : ∀ c ∈ [own], c.isOf f = false → d.timer < c.timer := by
      intro c hc hcf
      rw [List.mem_singleton.mp hc, hown] at hcf
      cases hcf
    have := findOldest_oldest 0 {} A [own] d hd hC (fun a ha _ => hwf.timer_front a ha) nofun
    rwa [Nat.zero_add] at this
  have hprev : (findOldest f 0 {} (A ++ [d, own])).prev = some A.length := by
    rw [findOldest_prev, if_pos (by simp)]
    simp
  rw [removeOldestLoop]
  dsimp only
  rw [hold, hprev]
  dsimp only
  rw [ipReassFreeCompleteDatagram, lwipAssert, if_neg (not_not.mpr rfl)]
  rfl

/-- The list is cut behind the datagram of the fragment: `P` ends with it or is empty, and no entry
of `C` is of that datagram. -/
structure Cut (f : IpHdr) (P C : List ReassData) : Prop where
  own : P = [] ∨ ∃ A own, P = A ++ [own] ∧ own.isOf f = true ∧ ∀ a ∈ A, a.isOf f = false
  others : ∀ c ∈ C, c.isOf f = false

namespace Cut

variable {f : IpHdr} {P C : List ReassData}

/-- The cut of the front part. -/
theorem left {C' : List ReassData} (h : Cut f P (C ++ C')) : Cut f P C :=
  ⟨h.own, fun c hc => h.others c (List.mem_append_left _ hc)⟩

/-- There is another datagram in front of the fragment's own unless that is the first. -/
theorem countP_pos_iff (h : Cut f P C) : 0 < P.countP (!·.isOf f) ↔ 2 ≤ P.length := by
  obtain rfl | ⟨A, own, rfl, hown, hA⟩ := h.own
  · simp
  · have hcount : A.countP (!·.isOf f) = A.length :=
      List.countP_eq_length.mpr fun a ha => by simp [hA a ha]
    rw [List.countP_append, hcount, List.countP_singleton]
    simp only [hown, Bool.not_true, Bool.false_eq_true, if_false, List.length_append,
      List.length_singleton]
    omega

end Cut

/-- The loop frees entries from the end of the list until enough pbufs are freed or only the
fragment's own datagram is left. With a datagram in front of that one, it must find enough of them
behind it. -/
theorem removeOldestLoop_ok {f : IpHdr} {needed : ℕ} {P C : List ReassData} {n cnt freed : ℕ}
    (hcut : Cut f P C) (hwf : Wf (P ++ C)) (hle : pbufs (P ++ C) ≤ cnt) (hn : C.length ≤ n)
    (hneed : P.length ≤ 1 ∨ freed < needed ∧ needed ≤ freed + pbufs C) :
    ∃ k ≤ C.length, removeOldestLoop f needed n ⟨P ++ C, cnt⟩ freed =
        .ok (⟨P ++ C.take k, cnt - pbufs (C.drop k)⟩, freed + pbufs (C.drop k)) ∧
      (needed ≤ freed + pbufs (C.drop k) ∨ k = 0) := by
  induction C using List.reverseRecOn generalizing n cnt freed with
  | nil =>
    rw [pbufs_nil] at hneed
    have hP : P.length ≤ 1 := by omega
    refine ⟨0, le_rfl, ?_, .inr rfl⟩
    rw [removeOldest_round_none]
    · simp [pbufs]
    · intro d hd
      obtain rfl | ⟨A, own, rfl, hown, -⟩ := hcut.own
      · cases hd
      · rw [List.length_append, List.length_singleton] at hP
        have hA : A = [] := List.eq_nil_of_length_eq_zero (by omega)
        subst hA
        simp only [List.nil_append, List.append_nil, List.mem_singleton] at hd
        rw [hd, hown]
  | append_singleton C d ih =>
    have hd : d.isOf f = false := hcut.others d (by simp)
    have hassoc : P ++ (C ++ [d]) = P ++ C ++ [d] := (List.append_assoc _ _ _).symm
    rw [pbufs_concat] at hneed
    rw [hassoc] at hwf hle ⊢
    rw [pbufs_concat] at hle
    rw [List.length_append, List.length_singleton] at hn
    obtain ⟨m, rfl⟩ : ∃ m, n = m + 1 := ⟨n - 1, by omega⟩
    have hC : C.countP (!·.isOf f) = C.length :=
      List.countP_eq_length.mpr fun c hc => by simp [hcut.left.others c hc]
    have hcount : (P ++ C).countP (!·.isOf f) = P.countP (!·.isOf f) + C.length := by
      rw [List.countP_append, hC]
    rw [removeOldest_round hd (fun a ha _ => hwf.timer_front a ha) (hwf.held d (by simp))
      (by omega), hcount]
    have hP := hcut.countP_pos_iff
    by_cases hgo : freed + heldPbufs d.p < needed ∧ 1 < P.countP (!·.isOf f) + C.length + 1
    · rw [if_pos hgo]
      have hle' : pbufs (P ++ C) ≤ cnt - heldPbufs d.p := by omega
      have hneed' : P.length ≤ 1 ∨ freed + heldPbufs d.p < needed ∧
          needed ≤ freed + heldPbufs d.p + pbufs C := by omega
      obtain ⟨k, hk, hloop, hfreed⟩ := ih hcut.left
        (hwf.sublist (List.sublist_append_left _ _)) hle' (by omega : C.length ≤ m) hneed'
      have hdrop : pbufs ((C ++ [d]).drop k) = pbufs (C.drop k) + heldPbufs d.p := by
        rw [List.drop_append_of_le_length hk, pbufs_concat]
      refine ⟨k, by rw [List.length_append]; omega, ?_, by omega⟩
      have hcnt : cnt - heldPbufs d.p - pbufs (C.drop k) =
          cnt - (pbufs (C.drop k) + heldPbufs d.p) := by omega
      have hsum : freed + heldPbufs d.p + pbufs (C.drop k) =
          freed + (pbufs (C.drop k) + heldPbufs d.p) := by omega
      rw [hloop, hdrop, List.take_append_of_le_length hk, hcnt, hsum]
    · rw [if_neg hgo]
      refine ⟨C.length, by simp, ?_, ?_⟩
      · simp [pbufs]
      · rw [List.drop_left, pbufs_cons, pbufs_nil]
        omega

/-- With a datagram in front of the fragment's own and not enough pbufs behind it, the loop runs
into the assertion. -/
theorem removeOldestLoop_abort {f : IpHdr} {needed : ℕ} {P C : List ReassData} {n cnt freed : ℕ}
    (hcut : Cut f P C) (hwf : Wf (P ++ C)) (hle : pbufs (P ++ C) ≤ cnt) (hn : C.length < n)
    (hP : 2 ≤ P.length) (hneed : freed + pbufs C < needed) :
    removeOldestLoop f needed n ⟨P ++ C, cnt⟩ freed = .error .prevIsIpr := by
  induction C using List.reverseRecOn generalizing n cnt freed with
  | nil =>
    obtain ⟨m, rfl⟩ : ∃ m, n = m + 1 := ⟨n - 1, by omega⟩
    obtain rfl | ⟨A, own, rfl, hown, hA⟩ := hcut.own
    · simp at hP
    · rcases List.eq_nil_or_concat A with rfl | ⟨A', d, rfl⟩
      · simp at hP
      · have hassoc : A'.concat d ++ [own] ++ [] = A' ++ [d, own] := by simp
        rw [hassoc] at hwf ⊢
        exact removeOldest_round_abort (hA d (by simp)) hown hwf
  | append_singleton C d ih =>
    have hd : d.isOf f = false := hcut.others d (by simp)
    have hassoc : P ++ (C ++ [d]) = P ++ C ++ [d] := (List.append_assoc _ _ _).symm
    rw [pbufs_concat] at hneed
    rw [hassoc] at hwf hle ⊢
    rw [pbufs_concat] at hle
    rw [List.length_append, List.length_singleton] at hn
    obtain ⟨m, rfl⟩ : ∃ m, n = m + 1 := ⟨n - 1, by omega⟩
    have hcount : P.countP (!·.isOf f) ≤ (P ++ C).countP (!·.isOf f) := by
      rw [List.countP_append]
      omega
    have hpos := hcut.countP_pos_iff
    rw [removeOldest_round hd (fun a ha _ => hwf.timer_front a ha) (hwf.held d (by simp))
      (by omega), if_pos (by omega)]
    exact ih hcut.left (hwf.sublist (List.sublist_append_left _ _)) (by omega) (by omega) (by omega)

end Lwip.Ip
