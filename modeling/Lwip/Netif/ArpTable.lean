import Lwip.Netif.Etharp
import Lwip.Lib.Slots

/-!
# The invariant of the ARP table

No address has two entries, only a pending entry has packets, and the hardware address of a stable
entry was claimed by a packet (`TableInv`). `find_entry` keeps this, and returns the one entry of
the address asked for, found or new; so the test of the cached entry only saves the sweep
(`findEntry_eq_scan`). The other functions change the entry that it returns.

The assertion of `etharp_query` against packet queues looks at `len` and `tot_len`. They are also
equal in a packet whose remaining pbufs are empty, such as the one that `udp_sendto` makes of an
empty `PBUF_ROM` payload, and then it fails although there is but one packet.
-/

namespace Lwip.Netif

variable {n : ℕ}

/-- The invariant of the table, when the packets received so far claim `claims`. -/
structure TableInv (claims : List (IpAddr × EthAddr)) (s : Etharp n) : Prop where
  unique : UniqueKeys (fun e : EtharpEntry => e.state ≠ .EMPTY) EtharpEntry.ipaddr s.arp_table
  queued : ∀ i, (s.arp_table i).q ≠ [] → (s.arp_table i).state = .PENDING
  claimed : ∀ i, (s.arp_table i).state = .STABLE →
    ((s.arp_table i).ipaddr, (s.arp_table i).ethaddr) ∈ claims

section Table

variable {claims claims' : List (IpAddr × EthAddr)} {s s' : Etharp n} {i : Fin n} {e : EtharpEntry}

/-- More claims do not matter for the table. -/
theorem TableInv.mono (h : TableInv claims s) (hc : ∀ c ∈ claims, c ∈ claims') :
    TableInv claims' s :=
  ⟨h.unique, h.queued, fun i hi => hc _ (h.claimed i hi)⟩

/-- Only the table counts. -/
theorem TableInv.congr (h : TableInv claims s) (ht : s'.arp_table = s.arp_table) :
    TableInv claims s' := by
  constructor
  · rw [ht]
    exact h.unique
  · rw [ht]
    exact h.queued
  · rw [ht]
    exact h.claimed

/-- An entry may be replaced by one that is alone with its address, and right by itself. -/
theorem TableInv.set (h : TableInv claims s)
    (hu : e.state ≠ .EMPTY → ∀ j, j ≠ i → (s.arp_table j).state ≠ .EMPTY →
      (s.arp_table j).ipaddr ≠ e.ipaddr)
    (hq : e.q ≠ [] → e.state = .PENDING) (hc : e.state = .STABLE → (e.ipaddr, e.ethaddr) ∈ claims) :
    TableInv claims (s.set i e) := by
  constructor
  · exact h.unique.update hu
  · intro j hj
    by_cases hji : j = i
    · rw [hji, Etharp.set_self] at hj ⊢
      exact hq hj
    · rw [Etharp.set_of_ne s hji] at hj ⊢
      exact h.queued j hj
  · intro j hj
    by_cases hji : j = i
    · rw [hji, Etharp.set_self] at hj ⊢
      exact hc hj
    · rw [Etharp.set_of_ne s hji] at hj ⊢
      exact h.claimed j hj

/-- A tick only empties entries. -/
theorem TableInv.tmr (h : TableInv claims s) : TableInv claims (etharpTmr s) := by
  have hkeep : ∀ e : EtharpEntry, (etharpTmrEntry e).state ≠ .EMPTY →
      (etharpTmrEntry e).state = e.state ∧ (etharpTmrEntry e).q = e.q := by
    intro e he
    unfold etharpTmrEntry at he ⊢
    dsimp only at he ⊢
    split at he
    · exact absurd rfl he
    · next hyoung =>
      rw [if_neg hyoung]
      exact ⟨rfl, rfl⟩
  have hsame : ∀ e : EtharpEntry, (etharpTmrEntry e).ipaddr = e.ipaddr ∧
      (etharpTmrEntry e).ethaddr = e.ethaddr := by
    intro e
    unfold etharpTmrEntry
    dsimp only
    split <;> exact ⟨rfl, rfl⟩
  have hqueue : ∀ e : EtharpEntry, (etharpTmrEntry e).q ≠ [] → e.q ≠ [] ∧
      (etharpTmrEntry e).state = e.state := by
    intro e he
    unfold etharpTmrEntry at he ⊢
    dsimp only at he ⊢
    split at he
    · exact absurd rfl he
    · next hyoung =>
      rw [if_neg hyoung]
      exact ⟨he, rfl⟩
  constructor
  · refine h.unique.map (fun e he => ?_) fun e => (hsame e).1
    rwa [← (hkeep e he).1]
  · intro i hi
    obtain ⟨hq, hst⟩ := hqueue _ hi
    exact hst.trans (h.queued i hq)
  · intro i hi
    have hst : (etharpTmrEntry (s.arp_table i)).state = .STABLE := hi
    have hstable : (s.arp_table i).state = .STABLE :=
      (hkeep _ (by rw [hst]; decide)).1.symm.trans hst
    show ((etharpTmrEntry (s.arp_table i)).ipaddr,
      (etharpTmrEntry (s.arp_table i)).ethaddr) ∈ claims
    rw [(hsame _).1, (hsame _).2]
    exact h.claimed i hstable

/-- The table is right at first. -/
theorem TableInv.init (n : ℕ) [NeZero n] : TableInv claims (Etharp.init n) := by
  constructor
  · exact fun i j hi => absurd rfl hi
  · exact fun i hi => absurd rfl hi
  · intro i hi
    cases hi

end Table

/-! ## `find_entry` -/

section Find

variable {claims : List (IpAddr × EthAddr)} {s s' : Etharp n} {t : Fin n → EtharpEntry} {i : Fin n}
  {ipaddr : Option IpAddr} {c : Candidates n} {flags : FindFlags}

/-- An entry is for its address, unless it is empty. -/
theorem isFor_iff {e : EtharpEntry} :
    e.isFor ipaddr = true ↔ e.state ≠ .EMPTY ∧ ipaddr = some e.ipaddr := by
  unfold EtharpEntry.isFor
  rw [Bool.and_eq_true, decide_eq_true_eq, decide_eq_true_eq]

/-- The candidates are what they are remembered as. An age is that of a candidate. -/
structure Candidates.Sound (t : Fin n → EtharpEntry) (c : Candidates n) : Prop where
  empty : ∀ i ∈ c.empty, (t i).state = .EMPTY
  old_stable : ∀ i ∈ c.old_stable, (t i).state = .STABLE
  old_pending : ∀ i ∈ c.old_pending, (t i).state = .PENDING ∧ (t i).q = []
  old_queue : ∀ i ∈ c.old_queue, (t i).state = .PENDING ∧ (t i).q ≠ []
  age_stable : c.old_stable = none → c.age_stable = 0
  age_pending : c.old_pending = none → c.age_pending = 0
  age_queue : c.old_queue = none → c.age_queue = 0

/-- There is a candidate. -/
def Candidates.Any (c : Candidates n) : Prop :=
  c.empty ≠ none ∨ c.old_stable ≠ none ∨ c.old_pending ≠ none ∨ c.old_queue ≠ none

/-- The sweep notes what it has seen. -/
theorem Candidates.Sound.note (h : c.Sound t) (i : Fin n) : (c.note i (t i)).Sound t := by
  obtain ⟨h1, h2, h3, h4, h5, h6, h7⟩ := h
  unfold Candidates.note
  split
  · next hempty =>
    refine ⟨fun j hj => ?_, h2, h3, h4, h5, h6, h7⟩
    obtain rfl := Option.some.inj hj
    exact hempty.2
  · split
    · exact ⟨h1, h2, h3, h4, h5, h6, h7⟩
    · next hst =>
      split
      · next hq =>
        split
        · refine ⟨h1, h2, h3, fun j hj => ?_, h5, h6, fun hn => (by cases hn)⟩
          obtain rfl := Option.some.inj hj
          exact ⟨hst, hq⟩
        · exact ⟨h1, h2, h3, h4, h5, h6, h7⟩
      · next hq =>
        split
        · refine ⟨h1, h2, fun j hj => ?_, h4, h5, fun hn => (by cases hn), h7⟩
          obtain rfl := Option.some.inj hj
          exact ⟨hst, not_not.mp hq⟩
        · exact ⟨h1, h2, h3, h4, h5, h6, h7⟩
    · next hst =>
      split
      · refine ⟨h1, fun j hj => ?_, h3, h4, fun hn => (by cases hn), h6, h7⟩
        obtain rfl := Option.some.inj hj
        exact hst
      · exact ⟨h1, h2, h3, h4, h5, h6, h7⟩

/-- An entry that does not match is a candidate, unless there is an older one. -/
theorem Candidates.Sound.note_any (h : c.Sound t) (i : Fin n) (e : EtharpEntry) :
    (c.note i e).Any := by
  unfold Candidates.note
  split
  · exact .inl (Option.some_ne_none i)
  next hempty =>
  split
  · next hst => exact .inl fun hnone => hempty ⟨hnone, hst⟩
  · split
    · split
      · exact .inr (.inr (.inr (Option.some_ne_none i)))
      · next hage =>
        refine .inr (.inr (.inr fun hnone => hage ?_))
        rw [h.age_queue hnone]
        exact Nat.zero_le _
    · split
      · exact .inr (.inr (.inl (Option.some_ne_none i)))
      · next hage =>
        refine .inr (.inr (.inl fun hnone => hage ?_))
        rw [h.age_pending hnone]
        exact Nat.zero_le _
  · split
    · exact .inr (.inl (Option.some_ne_none i))
    · next hage =>
      refine .inr (.inl fun hnone => hage ?_)
      rw [h.age_stable hnone]
      exact Nat.zero_le _

/-- What the sweep finds. -/
theorem findLoop_spec (is : List (Fin n)) (hc : c.Sound t) :
    match findLoop ipaddr t is c with
    | .inl i => (t i).isFor ipaddr = true
    | .inr c' => (∀ i ∈ is, (t i).isFor ipaddr = false) ∧ c'.Sound t ∧
      (c.Any ∨ is ≠ [] → c'.Any) := by
  induction is generalizing c with
  | nil => exact ⟨fun i hi => (by cases hi), hc, fun h => h.resolve_right fun hn => hn rfl⟩
  | cons i is ih =>
    unfold findLoop
    by_cases hi : (t i).isFor ipaddr = true
    · rw [if_pos hi]
      exact hi
    · rw [if_neg hi]
      have hrest := ih (hc.note i)
      cases hres : findLoop ipaddr t is (c.note i (t i)) with
      | inl j =>
        rw [hres] at hrest
        exact hrest
      | inr c' =>
        rw [hres] at hrest
        obtain ⟨hno, hsound, hany⟩ := hrest
        refine ⟨fun j hj => ?_, hsound, fun _ => hany (.inl (hc.note_any i (t i)))⟩
        rcases List.mem_cons.mp hj with rfl | hj
        · exact Bool.eq_false_iff.mpr hi
        · exact hno j hj

/-- At first nothing was seen. -/
theorem Candidates.sound_none : ({} : Candidates n).Sound t :=
  ⟨fun i hi => (by cases hi), fun i hi => (by cases hi), fun i hi => (by cases hi),
    fun i hi => (by cases hi), fun _ => rfl, fun _ => rfl, fun _ => rfl⟩

/-- If one entry alone matches, the sweep finds it. -/
theorem findLoop_unique (hu :
    UniqueKeys (fun e : EtharpEntry => e.state ≠ .EMPTY) EtharpEntry.ipaddr t)
    (hi : (t i).isFor ipaddr = true) : findLoop ipaddr t (List.finRange n) {} = .inl i := by
  have hspec := @findLoop_spec n t ipaddr {} (List.finRange n) Candidates.sound_none
  cases hres : findLoop ipaddr t (List.finRange n) {} with
  | inl j =>
    rw [hres] at hspec
    obtain ⟨hj, hjp⟩ := isFor_iff.mp hspec
    obtain ⟨hi, hip⟩ := isFor_iff.mp hi
    have hkey : (t j).ipaddr = (t i).ipaddr := Option.some.inj (hjp.symm.trans hip)
    rw [hu j i hj hi hkey]
  | inr c =>
    rw [hres] at hspec
    exact absurd hi (by rw [hspec.1 i (List.mem_finRange i)]; decide)

/-- The cached entry is the one that the sweep would find. -/
theorem findEntry_eq_scan (h : TableInv claims s) (ipaddr : Option IpAddr) (flags : FindFlags) :
    findEntry ipaddr flags s = findEntryScan ipaddr flags s := by
  unfold findEntry
  by_cases hhit : cacheHit ipaddr s = true
  · rw [if_pos hhit]
    unfold cacheHit at hhit
    rw [Bool.and_eq_true, decide_eq_true_eq, decide_eq_true_eq] at hhit
    have hfor : (s.arp_table s.etharp_cached_entry).isFor ipaddr = true := by
      rw [isFor_iff, hhit.1]
      exact ⟨by decide, hhit.2⟩
    unfold findEntryScan
    rw [findLoop_unique h.unique hfor]
  · rw [if_neg hhit]

/-- What `find_entry` returns for an address: a table with the invariant, and the index of the one
entry of the address, if any. It is stable if the address had a stable entry before. -/
structure Found (claims : List (IpAddr × EthAddr)) (ip : IpAddr) (s s' : Etharp n)
    (r : Option (Fin n)) : Prop where
  inv : TableInv claims s'
  addr : ∀ i ∈ r, (s'.arp_table i).ipaddr = ip
  alone : ∀ i ∈ r, ∀ j, j ≠ i → (s'.arp_table j).state ≠ .EMPTY → (s'.arp_table j).ipaddr ≠ ip
  stable : ∀ i ∈ r, (s'.arp_table i).state = .STABLE ↔
    ∃ j, (s.arp_table j).state = .STABLE ∧ (s.arp_table j).ipaddr = ip

/-- A new entry for an address that has none. -/
theorem newEntry_found {ip : IpAddr} (h : TableInv claims s)
    (hno : ∀ j, (s.arp_table j).isFor (some ip) = false) (hq : (s.arp_table i).q = []) :
    Found claims ip s (newEntry (some ip) i s) (some i) := by
  have hnone : ∀ j, (s.arp_table j).state ≠ .EMPTY → (s.arp_table j).ipaddr ≠ ip := by
    intro j hj heq
    have hfor : (s.arp_table j).isFor (some ip) = true := isFor_iff.mpr ⟨hj, by rw [heq]⟩
    rw [hno j] at hfor
    cases hfor
  have hself : (newEntry (some ip) i s).arp_table i =
      { s.arp_table i with state := .EMPTY, ipaddr := ip, ctime := 0 } := Etharp.set_self s i _
  have hother : ∀ j, j ≠ i → (newEntry (some ip) i s).arp_table j = s.arp_table j :=
    fun j hj => Etharp.set_of_ne s hj _
  have hinv : TableInv claims (s.set i { s.arp_table i with
      state := .EMPTY, ipaddr := ip, ctime := 0 }) := by
    apply h.set
    · exact fun hst => absurd rfl hst
    · exact fun hne => absurd hq hne
    · intro hst
      cases hst
  refine ⟨hinv.congr rfl, ?_, ?_, ?_⟩
  · rintro j ⟨⟩
    rw [hself]
  · rintro _ ⟨⟩ j hj hst
    rw [hother j hj] at hst ⊢
    exact hnone j hst
  · rintro j ⟨⟩
    rw [hself]
    constructor
    · intro hst
      cases hst
    · rintro ⟨j, hst, hip⟩
      exact absurd hip (hnone j (by rw [hst]; decide))

/-- The choice of the entry to recycle. In each case the new entry has no queue any more. -/
theorem recycle_spec {ip : IpAddr} (h : TableInv claims s)
    (hno : ∀ j, (s.arp_table j).isFor (some ip) = false) (hc : c.Sound s.arp_table) (hany : c.Any) :
    ∃ i s', recycle (some ip) c s = .ok (some i, s') ∧ Found claims ip s s' (some i) := by
  have hqueue : ∀ i, (s.arp_table i).state ≠ .PENDING → (s.arp_table i).q = [] := by
    intro i hst
    by_contra hne
    exact hst (h.queued i hne)
  unfold recycle
  cases he : c.empty with
  | some i =>
    have hst := hc.empty i he
    exact ⟨i, _, rfl, newEntry_found h hno (hqueue i (by rw [hst]; decide))⟩
  | none =>
  cases hs : c.old_stable with
  | some i =>
    have hst := hc.old_stable i hs
    have hq := hqueue i (by rw [hst]; decide)
    dsimp only
    rw [(lwipAssert_eq_ok (u := ())).mpr hq]
    exact ⟨i, _, rfl, newEntry_found h hno hq⟩
  | none =>
  cases hp : c.old_pending with
  | some i => exact ⟨i, _, rfl, newEntry_found h hno (hc.old_pending i hp).2⟩
  | none =>
  cases ho : c.old_queue with
  | none =>
    rcases hany with ha | ha | ha | ha
    · exact absurd he ha
    · exact absurd hs ha
    · exact absurd hp ha
    · exact absurd ho ha
  | some i =>
    obtain ⟨hst, hq⟩ := hc.old_queue i ho
    dsimp only
    rw [(lwipAssert_eq_ok (u := ())).mpr hq]
    -- The queue is freed first, which no other entry sees.
    set u := s.set i { s.arp_table i with q := [] } with hu
    have huself : u.arp_table i = { s.arp_table i with q := [] } := Etharp.set_self s i _
    have huother : ∀ j, j ≠ i → u.arp_table j = s.arp_table j :=
      fun j hj => Etharp.set_of_ne s hj _
    have hinv : TableInv claims u := by
      apply h.set
      · intro hne j hj hstj heq
        exact hj (h.unique j i hstj hne heq)
      · exact fun hne => absurd rfl hne
      · exact fun hst' => h.claimed i hst'
    have hsame : ∀ j, (u.arp_table j).state = (s.arp_table j).state ∧
        (u.arp_table j).ipaddr = (s.arp_table j).ipaddr := by
      intro j
      by_cases hj : j = i
      · rw [hj, huself]
        exact ⟨rfl, rfl⟩
      · rw [huother j hj]
        exact ⟨rfl, rfl⟩
    have huno : ∀ j, (u.arp_table j).isFor (some ip) = false := by
      intro j
      unfold EtharpEntry.isFor
      rw [(hsame j).1, (hsame j).2]
      exact hno j
    have hfound := newEntry_found hinv huno (congrArg EtharpEntry.q huself)
    refine ⟨i, _, rfl, hfound.inv, hfound.addr, hfound.alone, fun k hk => ?_⟩
    rw [hfound.stable k hk]
    exact exists_congr fun j => by rw [(hsame j).1, (hsame j).2]

/-- `find_entry` for an address. No assertion fails in it, and if it may recycle, it finds an
entry. -/
theorem findEntry_spec (h : TableInv claims s) (ip : IpAddr) (flags : FindFlags) :
    ∃ r s', findEntry (some ip) flags s = .ok (r, s') ∧ Found claims ip s s' r ∧
      (flags.ETHARP_TRY_HARD = true → flags.ETHARP_FIND_ONLY = false → r ≠ none) := by
  have hsame : Found claims ip s s none :=
    ⟨h, fun i hi => (by cases hi), fun i hi => (by cases hi), fun i hi => (by cases hi)⟩
  rw [findEntry_eq_scan h]
  unfold findEntryScan
  have hspec := @findLoop_spec n s.arp_table (some ip) {} (List.finRange n) Candidates.sound_none
  cases hres : findLoop (some ip) s.arp_table (List.finRange n) {} with
  | inl i =>
    -- The entry of the address is there.
    rw [hres] at hspec
    obtain ⟨hst, hip⟩ := isFor_iff.mp hspec
    have hip : (s.arp_table i).ipaddr = ip := (Option.some.inj hip).symm
    refine ⟨some i, _, rfl, ⟨h.congr rfl, ?_, ?_, ?_⟩, fun _ _ => Option.some_ne_none i⟩
    · rintro j ⟨⟩
      exact hip
    · rintro _ ⟨⟩ j hj hst' heq
      exact hj (h.unique j i hst' hst (heq.trans hip.symm))
    · rintro _ ⟨⟩
      constructor
      · exact fun hst' => ⟨i, hst', hip⟩
      · rintro ⟨j, hst', hip'⟩
        have hlive : (s.arp_table j).state ≠ .EMPTY := by
          rw [hst']
          decide
        have hji : j = i := h.unique j i hlive hst (hip'.trans hip.symm)
        rwa [hji] at hst'
  | inr c =>
    rw [hres] at hspec
    obtain ⟨hno, hsound, hany⟩ := hspec
    have hany : c.Any := hany (.inr (List.ne_nil_of_mem (List.mem_finRange s.etharp_cached_entry)))
    dsimp only
    split
    · next hgiveup =>
      refine ⟨none, s, rfl, hsame, fun htry hfind => ?_⟩
      rw [htry, hfind] at hgiveup
      rcases hgiveup with ⟨-, hf⟩ | hf <;> cases hf
    · obtain ⟨i, s', hrun, hfound⟩ :=
        recycle_spec h (fun j => hno j (List.mem_finRange j)) hsound hany
      exact ⟨some i, s', hrun, hfound, fun _ _ => Option.some_ne_none i⟩

end Find

end Lwip.Netif
