import Lwip.Dns.Callbacks

/-!
# Eviction from the DNS table

The calls of `dns_enqueue` that take an entry are numbered; an entry keeps the number of the call
that took it last, and `dns_seqno` and the numbers in the table are these numbers modulo 2^8
(`Numbered`). The scan of `dns_enqueue` compares the residues as they stand, so the completed entry
that it takes is the one enqueued least recently only if the residues are in the right order
(`InOrder`), as they are until `dns_seqno` wraps (`inOrder_of_same_round`).
-/

namespace Lwip.Dns

variable {o : Opts}

/-- The resolver, the number of calls of `dns_enqueue` that have taken an entry, and for each entry
the number of the call that took it last. -/
structure History (o : Opts) where
  sys : Sys o := {}
  calls : ℕ := 0
  number : Fin o.DNS_TABLE_SIZE → ℕ := fun _ => 0

/-- The entry that an event takes by a call of `dns_enqueue`. -/
def taken (s : Resolver o) : Event → Option (Fin o.DNS_TABLE_SIZE)
  | .dns_gethostbyname q => if Unknown s q then dnsFreeEntry s else none
  | _ => none

/-- One event, with the calls of `dns_enqueue` numbered. -/
def History.step (o : Opts) (h : History o) (e : Event) : Except Abort (History o) := do
  let sys ← Dns.step o h.sys e
  match taken h.sys.dns e with
  | none => .ok { h with sys }
  | some i => .ok ⟨sys, h.calls + 1, Function.update h.number i h.calls⟩

/-- What a call of `dns_enqueue` is to do: it fails only if no entry is unused or completed, and it
puts the request into an unused entry if there is one, or else into the completed entry that was
enqueued least recently. -/
structure Evicts (h : History o) (name : List UInt8) (s' : Resolver o) (err : Err) : Prop where
  full : err = .MEM → ∀ i,
    (h.sys.dns.dns_table i).state ≠ .UNUSED ∧ (h.sys.dns.dns_table i).state ≠ .DONE
  uses : err ≠ .MEM → ∃ i, OnlyEntry i h.sys.dns s' ∧ (s'.dns_table i).state = .ASKING ∧
    (s'.dns_table i).name = name ∧
    ((h.sys.dns.dns_table i).state = .UNUSED ∨
      (∀ j, (h.sys.dns.dns_table j).state ≠ .UNUSED) ∧ (h.sys.dns.dns_table i).state = .DONE ∧
        ∀ j, (h.sys.dns.dns_table j).state = .DONE → h.number i ≤ h.number j)

/-- The completed entry that was enqueued least recently. -/
def History.Oldest (h : History o) (k : Fin o.DNS_TABLE_SIZE) : Prop :=
  (h.sys.dns.dns_table k).state = .DONE ∧
    ∀ j, (h.sys.dns.dns_table j).state = .DONE → h.number k ≤ h.number j

/-- Modulo 2^8, the number of the entry is below that of the next call and below those of the other
completed entries, or the same as one of an entry behind it in the table; or it is the first entry
of the table, and no completed entry has a number below that of the next call. -/
def History.Leads (h : History o) (k : Fin o.DNS_TABLE_SIZE) : Prop :=
  h.number k % 2^8 < h.calls % 2^8 ∧
      (∀ j < k, (h.sys.dns.dns_table j).state = .DONE → h.number k % 2^8 < h.number j % 2^8) ∧
      (∀ j > k, (h.sys.dns.dns_table j).state = .DONE → h.number k % 2^8 ≤ h.number j % 2^8) ∨
    k.val = 0 ∧ ∀ j, (h.sys.dns.dns_table j).state = .DONE → h.calls % 2^8 ≤ h.number j % 2^8

/-- There is an unused entry, or no completed one, or the completed entry that was enqueued least
recently leads modulo 2^8. -/
def History.InOrder (h : History o) : Prop :=
  (∃ i, (h.sys.dns.dns_table i).state = .UNUSED) ∨ (∀ i, (h.sys.dns.dns_table i).state ≠ .DONE) ∨
    ∃ k, h.Oldest k ∧ h.Leads k

/-! ## The numbers -/

/-- The entries keep their sequence numbers, and none that is unused is taken. -/
structure SameNumbers (s s' : Resolver o) : Prop where
  dns_seqno : s'.dns_seqno = s.dns_seqno
  seqno : ∀ i, (s'.dns_table i).seqno = (s.dns_table i).seqno
  unused : ∀ i, (s.dns_table i).state = .UNUSED → (s'.dns_table i).state = .UNUSED

namespace SameNumbers

variable {s s' s'' : Resolver o}

/-- The numbers stay. -/
theorem refl (s : Resolver o) : SameNumbers s s := ⟨rfl, fun _ => rfl, fun _ h => h⟩

/-- The numbers stay in two steps. -/
theorem trans (h : SameNumbers s s') (h' : SameNumbers s' s'') : SameNumbers s s'' :=
  ⟨h'.dns_seqno.trans h.dns_seqno, fun i => (h'.seqno i).trans (h.seqno i),
    fun i hi => h'.unused i (h.unused i hi)⟩

/-- A store to one entry. -/
theorem set {i : Fin o.DNS_TABLE_SIZE} {e : Entry} (hseqno : e.seqno = (s.dns_table i).seqno)
    (hunused : (s.dns_table i).state = .UNUSED → e.state = .UNUSED) :
    SameNumbers s (s.set i e) := by
  refine ⟨rfl, fun j => ?_, fun j hj => ?_⟩
  · by_cases hji : j = i
    · rw [hji, Resolver.set_self, hseqno]
    · rw [Resolver.set_of_ne e hji]
  · by_cases hji : j = i
    · rw [hji, Resolver.set_self]
      exact hunused (hji ▸ hj)
    · rwa [Resolver.set_of_ne e hji]

/-- A flush keeps the numbers. -/
theorem flush (s : Resolver o) (i : Fin o.DNS_TABLE_SIZE) : SameNumbers s (dnsFlush s i) :=
  set rfl fun _ => rfl

/-- A server has no number. -/
theorem setserver (s : Resolver o) (numdns : ℕ) (dnsserver : BitVec 32) :
    SameNumbers s (dnsSetserver s numdns dnsserver) := by
  unfold dnsSetserver
  split
  · exact ⟨rfl, fun _ => rfl, fun _ h => h⟩
  · exact refl s

/-- The initialisation keeps the numbers. -/
theorem init (s : Resolver o) (udp : Bool) : SameNumbers s (dnsInit s udp) := by
  unfold dnsInit
  split
  · exact refl s
  split
  · have hpcb : SameNumbers s { s with dns_pcb := true } := ⟨rfl, fun _ => rfl, fun _ h => h⟩
    exact hpcb.trans (setserver _ _ _)
  · exact refl s

end SameNumbers

section

variable {s s' : Resolver o} {i : Fin o.DNS_TABLE_SIZE}

/-- The check of an entry keeps the numbers. -/
theorem dnsCheckEntry_same {call : Bool} (h : dnsCheckEntry s i = .ok (s', call)) :
    SameNumbers s s' := by
  have hset : ∀ e : Entry, (s.dns_table i).state ≠ .UNUSED → e.seqno = (s.dns_table i).seqno →
      SameNumbers s (s.set i e) := fun e hused hseqno => .set hseqno fun hunused =>
      absurd hunused hused
  unfold dnsCheckEntry at h
  dsimp only at h
  split at h
  · next hst =>
    obtain ⟨_, -, h⟩ := bind_eq_ok.mp h
    cases h
    exact hset _ (by rw [hst]; nofun) rfl
  · next hst =>
    have hused : (s.dns_table i).state ≠ .UNUSED := by rw [hst]; nofun
    split at h
    · split at h
      · split at h
        · cases h
          exact hset _ hused rfl
        · split at h
          · cases h
            exact hset _ hused rfl
          · cases h
            refine (hset _ hused ?_).trans (.flush _ i)
            rfl
      · obtain ⟨_, -, h⟩ := bind_eq_ok.mp h
        cases h
        exact hset _ hused rfl
    · cases h
      exact hset _ hused rfl
  · next hst =>
    have hused : (s.dns_table i).state ≠ .UNUSED := by rw [hst]; nofun
    split at h
    · cases h
      refine (hset _ hused ?_).trans (.flush _ i)
      rfl
    · cases h
      exact hset _ hused rfl
  · cases h
    exact .refl s

/-- A response keeps the numbers. -/
theorem dnsRecv_same {m : Datagram} {r : Option (Fin o.DNS_TABLE_SIZE × Option ARecord)}
    (h : dnsRecv s m = .ok (s', r)) : SameNumbers s s' := by
  unfold dnsRecv at h
  split at h
  · cases h
    exact .refl s
  split at h
  · cases h
    exact .refl s
  split at h
  · next hid =>
    dsimp only at h
    split at h
    · next hst =>
      have hdone : SameNumbers s (s.set ⟨m.id, hid⟩
          { s.dns_table ⟨m.id, hid⟩ with state := .DONE, err := m.flags2 &&& 0x0f }) :=
        .set rfl fun hunused => by rw [hst] at hunused; cases hunused
      split at h
      · obtain ⟨differ, -, h⟩ := bind_eq_ok.mp h
        split at h
        · cases h
          exact hdone
        obtain ⟨ans, -, h⟩ := bind_eq_ok.mp h
        split at h
        · cases h
          exact hdone
        · cases h
          refine hdone.trans (.set ?_ fun hunused => ?_)
          · rw [Resolver.set_self]
          · rw [Resolver.set_self] at hunused
            cases hunused
      · cases h
        exact hdone
    · cases h
      exact .refl s
  · cases h
    exact .refl s

/-- The check of all entries keeps the numbers. -/
theorem dnsCheckEntries_same {s s' : Sys o} {rest : List (Fin o.DNS_TABLE_SIZE)}
    (h : dnsCheckEntries s rest = .ok s') : SameNumbers s.dns s'.dns := by
  induction rest generalizing s with
  | nil =>
    cases h
    exact .refl _
  | cons i rest ih =>
    obtain ⟨⟨dns, call⟩, hcheck, h⟩ := bind_eq_ok.mp h
    have hsame := dnsCheckEntry_same hcheck
    dsimp only at h
    split at h
    · cases h
      exact hsame
    · exact hsame.trans (ih h)

/-- The end of a response keeps the numbers. -/
theorem dnsRecvEntry_same (s : Sys o) (m : Datagram) (dns : Resolver o) (i : Fin o.DNS_TABLE_SIZE)
    (ans : Option ARecord) : SameNumbers dns (dnsRecvEntry s m dns i ans).dns := by
  unfold dnsRecvEntry
  split
  · dsimp only
    split
    · exact .refl dns
    · exact .refl dns
  · split
    · exact .refl dns
    · exact .flush dns i

/-- An event that takes no entry. -/
theorem step_same {s s' : Sys o} {e : Event} (htaken : taken s.dns e = none)
    (h : step o s e = .ok s') : SameNumbers s.dns s'.dns := by
  unfold step at h
  split at h
  · cases h
    exact .init _ _
  · cases h
    exact .setserver _ _ _
  · next q =>
    obtain ⟨⟨dns, err, addr⟩, hget, h⟩ := bind_eq_ok.mp h
    cases h
    obtain ⟨-, rfl, -⟩ | ⟨hunknown, name, -, henq⟩ := dnsGethostbyname_enqueue hget
    · exact .refl s.dns
    · rw [taken, if_pos hunknown] at htaken
      obtain ⟨-, rfl, -⟩ | ⟨-, i, hfree, -⟩ := dnsEnqueue_eq_ok henq
      · exact .refl s.dns
      · rw [hfree] at htaken
        cases htaken
  · next m =>
    split at h
    · cases h
      exact .refl s.dns
    · split at h
      · obtain ⟨⟨dns, r⟩, hrecv, h⟩ := bind_eq_ok.mp h
        have hsame := dnsRecv_same hrecv
        dsimp only at h
        split at h
        · cases h
          exact hsame
        · cases h
          exact hsame.trans (dnsRecvEntry_same s m dns _ _)
      · cases h
        exact .refl s.dns
  · split at h
    · cases h
      exact .refl s.dns
    · split at h
      · exact dnsCheckEntries_same (s := { s with ticks := s.ticks + 1 }) h
      · cases h
        exact .refl s.dns
  · split at h
    · cases h
      exact .refl s.dns
    · cases h
      exact .refl s.dns
    · cases h
      exact .flush s.dns _
    · exact (SameNumbers.flush s.dns _).trans (dnsCheckEntries_same h)

/-- An event that takes an entry. -/
theorem step_taken {s s' : Sys o} {e : Event} (htaken : taken s.dns e = some i)
    (h : step o s e = .ok s') :
    OnlyEntry i s.dns s'.dns ∧ s'.dns.dns_seqno = (s.dns.dns_seqno + 1) % 2^8 ∧
      (s'.dns.dns_table i).seqno = s.dns.dns_seqno := by
  cases e with
  | dns_gethostbyname q =>
    change (if Unknown s.dns q then dnsFreeEntry s.dns else none) = some i at htaken
    split at htaken
    · next hunknown =>
      obtain ⟨⟨dns, err, addr⟩, hget, h⟩ := bind_eq_ok.mp h
      cases h
      obtain ⟨-, -, hnot⟩ | ⟨-, name, -, henq⟩ := dnsGethostbyname_enqueue hget
      · exact absurd hunknown hnot
      · obtain ⟨-, -, hnone⟩ | ⟨-, j, hfree, honly, hseqno, hj⟩ := dnsEnqueue_eq_ok henq
        · rw [htaken] at hnone
          cases hnone
        · obtain rfl : i = j := Option.some.inj (htaken.symm.trans hfree)
          exact ⟨honly, hseqno, by rw [hj]⟩
    · cases htaken
  | _ => exact absurd htaken nofun

end

/-- The numbers in the table are those of the calls, modulo 2^8. -/
structure Numbered (h : History o) : Prop where
  dns_seqno : h.sys.dns.dns_seqno = h.calls % 2^8
  seqno : ∀ i, (h.sys.dns.dns_table i).state ≠ .UNUSED →
    h.number i < h.calls ∧ (h.sys.dns.dns_table i).seqno = h.number i % 2^8
  unique : ∀ i j, (h.sys.dns.dns_table i).state ≠ .UNUSED →
    (h.sys.dns.dns_table j).state ≠ .UNUSED → h.number i = h.number j → i = j

/-- One event. -/
theorem step_numbered {h h' : History o} {e : Event} (hn : Numbered h) (hs : h.step o e = .ok h') :
    Numbered h' := by
  obtain ⟨sys, hsys, hs⟩ := bind_eq_ok.mp hs
  cases htaken : taken h.sys.dns e with
  | none =>
    rw [htaken] at hs
    cases hs
    have hsame := step_same htaken hsys
    have hused : ∀ i, (sys.dns.dns_table i).state ≠ .UNUSED →
        (h.sys.dns.dns_table i).state ≠ .UNUSED :=
      fun i hi hunused => hi (hsame.unused i hunused)
    refine ⟨hsame.dns_seqno.trans hn.dns_seqno, fun i hi => ?_,
      fun i j hi hj => hn.unique i j (hused i hi) (hused j hj)⟩
    obtain ⟨hlt, hseqno⟩ := hn.seqno i (hused i hi)
    exact ⟨hlt, (hsame.seqno i).trans hseqno⟩
  | some i =>
    rw [htaken] at hs
    cases hs
    obtain ⟨honly, hnext, hi⟩ := step_taken htaken hsys
    have hlt : ∀ j, j ≠ i → (sys.dns.dns_table j).state ≠ .UNUSED → h.number j < h.calls :=
      fun j hji hj => (hn.seqno j (by rwa [← honly j hji])).1
    refine ⟨?_, fun j hj => ?_, fun j k hj hk => ?_⟩
    · show sys.dns.dns_seqno = _
      rw [hnext, hn.dns_seqno, Nat.mod_add_mod]
    · show Function.update h.number i h.calls j < h.calls + 1 ∧
        (sys.dns.dns_table j).seqno = Function.update h.number i h.calls j % 2^8
      by_cases hji : j = i
      · subst hji
        rw [Function.update_self, hi, hn.dns_seqno]
        exact ⟨Nat.lt_succ_self _, rfl⟩
      · rw [Function.update_of_ne hji, honly j hji]
        obtain ⟨hlt, hseqno⟩ := hn.seqno j (by rwa [← honly j hji])
        exact ⟨hlt.trans (Nat.lt_succ_self _), hseqno⟩
    · show Function.update h.number i h.calls j = Function.update h.number i h.calls k → j = k
      by_cases hji : j = i
      · by_cases hki : k = i
        · exact fun _ => hji.trans hki.symm
        · rw [hji, Function.update_self, Function.update_of_ne hki]
          exact fun heq => absurd heq (Nat.ne_of_gt (hlt k hki hk))
      · by_cases hki : k = i
        · rw [hki, Function.update_self, Function.update_of_ne hji]
          exact fun heq => absurd heq (Nat.ne_of_lt (hlt j hji hj))
        · rw [Function.update_of_ne hji, Function.update_of_ne hki]
          exact hn.unique j k (by rwa [← honly j hji]) (by rwa [← honly k hki])

/-- The numbers are right in every run. -/
theorem run_numbered {h : History o} {es : List Event} (hr : run (History.step o) {} es = .ok h) :
    Numbered h := by
  have hinit : Numbered ({} : History o) :=
    ⟨rfl, fun _ hi => absurd rfl hi, fun _ _ hi => absurd rfl hi⟩
  exact run_invariant (C := fun _ _ => True) (fun _ _ _ hn _ hs => step_numbered hn hs) hinit
    (.of_forall _ fun _ _ => trivial) hr

/-! ## The entry that is taken -/

/-- `dns_enqueue` finds no entry only if none is unused, no completed entry is older than the next
call, and the first entry is not completed. -/
theorem dnsFreeEntry_eq_none {s : Resolver o} (h : dnsFreeEntry s = none) :
    (∀ j, (s.dns_table j).state ≠ .UNUSED) ∧
      ∀ j, (s.dns_table j).state = .DONE → s.age j = 0 ∧ j.val ≠ 0 := by
  have hall : ∀ j, j ∈ List.finRange o.DNS_TABLE_SIZE := List.mem_finRange
  unfold dnsFreeEntry at h
  obtain ⟨i, hscan, -⟩ | ⟨lseq, lseqi, hscan, hseen⟩ := dnsScan_finRange s
  · rw [hscan] at h
    cases h
  · rw [hscan] at h
    refine ⟨fun j => hseen.full j (hall j), fun j hdone => ?_⟩
    have hpos : 0 < o.DNS_TABLE_SIZE := Nat.lt_of_le_of_lt (Nat.zero_le j.val) j.isLt
    obtain ⟨rfl, rfl⟩ | ⟨k, -, rfl, hk, -⟩ := hseen.first
    · refine ⟨Nat.le_zero.mp (hseen.le j (hall j) hdone), fun hj => ?_⟩
      obtain rfl : j = ⟨0, hpos⟩ := Fin.ext hj
      dsimp only at h
      rw [dif_pos hpos, if_pos hdone] at h
      cases h
    · dsimp only at h
      rw [dif_pos k.isLt, if_pos hk] at h
      cases h

/-- There is at most one entry to recycle. -/
theorem Recycled.unique {s : Resolver o} {i j : Fin o.DNS_TABLE_SIZE} (hi : Recycled s i)
    (hj : Recycled s j) : i = j := by
  obtain ⟨hdone, -, hbefore, hafter, -⟩ := hi
  obtain ⟨hdone', -, hbefore', hafter', -⟩ := hj
  rcases lt_trichotomy i j with hlt | heq | hgt
  · exact absurd (hbefore' i hlt hdone) (Nat.not_lt.mpr (hafter j hlt hdone'))
  · exact heq
  · exact absurd (hbefore j hgt hdone') (Nat.not_lt.mpr (hafter' i hgt hdone))

/-- The entry to recycle is the one that is used. -/
theorem Recycled.free {s : Resolver o} {i : Fin o.DNS_TABLE_SIZE} (h : Recycled s i) :
    dnsFreeEntry s = some i := by
  obtain ⟨hdone, hfull, -, -, hage⟩ := id h
  cases hfree : dnsFreeEntry s with
  | none =>
    obtain ⟨hzero, hne⟩ := (dnsFreeEntry_eq_none hfree).2 i hdone
    omega
  | some j =>
    obtain hunused | hj := dnsFreeEntry_eq_some hfree
    · exact absurd hunused (hfull j)
    · rw [hj.unique h]

section

variable {h : History o} (hn : Numbered h)
include hn

/-- The age that `dns_enqueue` computes, from the numbers of the calls. -/
theorem Numbered.age_eq {j : Fin o.DNS_TABLE_SIZE} (hj : (h.sys.dns.dns_table j).state = .DONE) :
    h.sys.dns.age j = h.calls % 2^8 - h.number j % 2^8 := by
  rw [Resolver.age, hn.dns_seqno, (hn.seqno j (by rw [hj]; nofun)).2]

/-- A completed entry of a full table is recycled exactly if it leads. -/
theorem Numbered.recycled_iff (hfull : ∀ j, (h.sys.dns.dns_table j).state ≠ .UNUSED)
    {k : Fin o.DNS_TABLE_SIZE} (hk : (h.sys.dns.dns_table k).state = .DONE) :
    Recycled h.sys.dns k ↔ h.Leads k := by
  constructor
  · rintro ⟨-, -, hbefore, hafter, hpos⟩
    rw [hn.age_eq hk] at hpos
    by_cases hlt : h.number k % 2^8 < h.calls % 2^8
    · refine .inl ⟨hlt, fun j hj hdone => ?_, fun j hj hdone => ?_⟩
      · have := hbefore j hj hdone
        rw [hn.age_eq hk, hn.age_eq hdone] at this
        omega
      · have := hafter j hj hdone
        rw [hn.age_eq hk, hn.age_eq hdone] at this
        omega
    · -- No age is positive.
      have hzero : k.val = 0 := by omega
      refine .inr ⟨hzero, fun j hdone => ?_⟩
      by_cases hjk : j = k
      · rw [hjk]
        omega
      · have hgt : j > k := by
          rw [gt_iff_lt, Fin.lt_def]
          have := Fin.val_ne_of_ne hjk
          omega
        have := hafter j hgt hdone
        rw [hn.age_eq hk, hn.age_eq hdone] at this
        omega
  · rintro (⟨hlt, hbefore, hafter⟩ | ⟨hzero, hall⟩)
    · refine ⟨hk, hfull, fun j hj hdone => ?_, fun j hj hdone => ?_, .inl ?_⟩
      · have := hbefore j hj hdone
        rw [hn.age_eq hk, hn.age_eq hdone]
        omega
      · have := hafter j hj hdone
        rw [hn.age_eq hk, hn.age_eq hdone]
        omega
      · rw [hn.age_eq hk]
        omega
    · refine ⟨hk, hfull, fun j hj _ => ?_, fun j _ hdone => ?_, .inr hzero⟩
      · rw [Fin.lt_def] at hj
        omega
      · have := hall j hdone
        rw [hn.age_eq hdone]
        omega

/-- What a call of `dns_enqueue` does. -/
theorem Numbered.evicts_iff {ticket arg : ℕ} {name : List UInt8} {found : Option ℕ}
    {s' : Resolver o}
    {err : Err} (hs : dnsEnqueue h.sys.dns ticket name found arg = .ok (s', err)) :
    Evicts h name s' err ↔ h.InOrder := by
  constructor
  · intro he
    by_cases hunused : ∃ i, (h.sys.dns.dns_table i).state = .UNUSED
    · exact .inl hunused
    by_cases hdone : ∃ i, (h.sys.dns.dns_table i).state = .DONE
    · push Not at hunused
      obtain ⟨j, hj⟩ := hdone
      obtain ⟨hmem, -⟩ | ⟨hok, i, hfree, honly, -, hi⟩ := dnsEnqueue_eq_ok hs
      · exact absurd hj (he.full hmem j).2
      · obtain ⟨k, honly', hask, -, hk⟩ := he.uses (by rw [hok]; nofun)
        obtain hk | ⟨-, hkdone, hleast⟩ := hk
        · exact absurd hk (hunused k)
        -- No other entry than `i` has changed, and `k` has.
        have hki : k = i := by
          by_contra hki
          rw [honly k hki, hkdone] at hask
          cases hask
        subst hki
        obtain hk | hrec := dnsFreeEntry_eq_some hfree
        · exact absurd hk (hunused k)
        · exact .inr (.inr ⟨k, ⟨hkdone, hleast⟩, (hn.recycled_iff hunused hkdone).mp hrec⟩)
    · push Not at hdone
      exact .inr (.inl hdone)
  · intro hin
    have hrec : (∀ i, (h.sys.dns.dns_table i).state ≠ .UNUSED) →
        ∀ j, (h.sys.dns.dns_table j).state = .DONE → ∃ k, h.Oldest k ∧ Recycled h.sys.dns k := by
      intro hfull j hj
      obtain ⟨i, hi⟩ | hnone | ⟨k, hk, hleads⟩ := hin
      · exact absurd hi (hfull i)
      · exact absurd hj (hnone j)
      · exact ⟨k, hk, (hn.recycled_iff hfull hk.1).mpr hleads⟩
    obtain ⟨rfl, -, hfree⟩ | ⟨rfl, i, hfree, honly, -, hi⟩ := dnsEnqueue_eq_ok hs
    · have hfull := (dnsFreeEntry_eq_none hfree).1
      refine ⟨fun _ j => ⟨hfull j, fun hj => ?_⟩, fun hne => absurd rfl hne⟩
      obtain ⟨k, -, hk⟩ := hrec hfull j hj
      rw [hk.free] at hfree
      cases hfree
    · refine ⟨nofun, fun _ => ⟨i, honly, by rw [hi], by rw [hi], ?_⟩⟩
      obtain hunused | hi := dnsFreeEntry_eq_some hfree
      · exact .inl hunused
      · obtain ⟨k, hk, hk'⟩ := hrec hi.2.1 i hi.1
        obtain rfl := hi.unique hk'
        exact .inr ⟨hi.2.1, hk⟩

/-- The numbers are in order as long as `dns_seqno` has not wrapped since a completed entry was
enqueued. -/
theorem Numbered.inOrder_of_same_round
    (hround : ∀ j, (h.sys.dns.dns_table j).state = .DONE → h.number j / 2^8 = h.calls / 2^8) :
    h.InOrder := by
  by_cases hdone : ∃ n k, (h.sys.dns.dns_table k).state = .DONE ∧ h.number k = n
  · obtain ⟨k, hk, hnum⟩ := Nat.find_spec hdone
    have hleast : ∀ j, (h.sys.dns.dns_table j).state = .DONE → h.number k ≤
      h.number j := fun j hj =>
      hnum.trans_le (Nat.find_min' hdone ⟨j, hj, rfl⟩)
    have hused : ∀ {j}, (h.sys.dns.dns_table j).state = .DONE →
        (h.sys.dns.dns_table j).state ≠ .UNUSED :=
      fun hj => by rw [hj]; nofun
    have hcalls := (hn.seqno k (hused hk)).1
    have hk' := hround k hk
    refine .inr (.inr ⟨k, ⟨hk, hleast⟩, .inl ⟨by omega, fun j hjk hj => ?_, fun j _ hj => ?_⟩⟩)
    · have hne : h.number k ≠ h.number j :=
        fun heq => hjk.ne' (hn.unique k j (hused hk) (hused hj) heq)
      have hlt := hleast j hj
      have hj' := hround j hj
      omega
    · have hle := hleast j hj
      have hj' := hround j hj
      omega
  · push Not at hdone
    exact .inr (.inl fun i hi => hdone _ i hi rfl)

end

/-- After every history of the resolver, `dns_enqueue` does what it is to do exactly if the numbers
are in order. -/
theorem dnsEnqueue_evicts_iff (o : Opts) (es : List Event) (h : History o)
    (hr : run (History.step o) {} es = .ok h) (ticket arg : ℕ) (name : List UInt8)
    (found : Option ℕ)
    (s' : Resolver o) (err : Err)
    (hs : dnsEnqueue h.sys.dns ticket name found arg = .ok (s', err)) :
    Evicts h name s' err ↔ h.InOrder :=
  (run_numbered hr).evicts_iff hs

/-- A second name, in a table with unused entries. -/
theorem dnsEnqueue_evicts_iff_exampleRun :
    ∃ h s', run (History.step Opts.names) {} [.dns_init true, ask 97 1] = .ok h ∧
      dnsEnqueue h.sys.dns 1 [98] none 0 = .ok (s', .INPROGRESS) ∧ Evicts h [98] s' .INPROGRESS :=
  ⟨_, _, rfl, rfl,
    (dnsEnqueue_evicts_iff Opts.names [.dns_init true, ask 97 1] _ rfl 1 0 [98] none _ _ rfl).mpr
      (.inl ⟨(1 : Fin 4), rfl⟩)⟩

/-- A request for the host name `"a"` without a callback. -/
def askQuietly : Event := .dns_gethostbyname { hostname := some [97], found := none, arg := 0 }

/-- A request that is answered with an error. -/
def failedRequest : List Event := [askQuietly, nameError 0]

/-- The first entry after such a request. -/
def flushedEntry (seqno : ℕ) : Entry := { tmr := 1, seqno, err := 3, name := [97] }

/-- The history of `n + 1` such requests. -/
def failedRequests (n : ℕ) : History Opts.names where
  sys.dns.dns_pcb := true
  sys.dns.dns_seqno := (n + 1) % 2^8
  sys.dns.dns_table := Function.update (fun _ => {}) (0 : Fin 4) (flushedEntry (n % 2^8))
  sys.dns.dns_servers := Function.update (fun _ => 0) 0 0xd043dede
  calls := n + 1
  number := Function.update (fun _ => 0) (0 : Fin 4) n

/-- The stores of such a request to the first entry, one after the other; only the last one
counts. -/
def failedStores (table : Fin 4 → Entry) (seqno : ℕ) : Fin 4 → Entry :=
  let e := flushedEntry seqno
  let err : UInt8 := 3 &&& 0x0f
  let table := Function.update table 0
    { e with state := .NEW, tmr := (table 0).tmr, err := (table 0).err }
  let table := Function.update table 0 { e with state := .ASKING, err := (table 0).err }
  let table := Function.update table 0 { e with state := .DONE, err }
  Function.update table 0 { e with err }

/-- The stores of a failed request. -/
theorem failedStores_eq (table : Fin 4 → Entry) (seqno : ℕ) :
    failedStores table seqno = Function.update table 0 (flushedEntry seqno) := by
  simp only [failedStores, Function.update_idem]
  rfl

set_option maxRecDepth 2000 in
/-- The first request of the example. -/
theorem run_firstRequest :
    run (History.step Opts.names) {} (.dns_init true :: failedRequest) = .ok
    (failedRequests 0) := by
  have hrun : run (History.step Opts.names) {} (.dns_init true :: failedRequest) = .ok {
      failedRequests 0 with sys.dns.dns_table := failedStores (fun _ => {}) 0 } := rfl
  rw [hrun, failedStores_eq]
  rfl

set_option maxRecDepth 2000 in
/-- One more request of the example. -/
theorem run_failedRequest (n : ℕ) :
    run (History.step Opts.names) (failedRequests n) failedRequest = .ok
    (failedRequests (n + 1)) := by
  let number : Fin 4 → ℕ := Function.update (Function.update (fun _ => 0) 0 n) 0 (n + 1)
  have hnumber : number = Function.update (fun _ => 0) 0 (n + 1) := Function.update_idem ..
  have hrun : run (History.step Opts.names) (failedRequests n) failedRequest = .ok {
      sys.dns.dns_pcb := true
      sys.dns.dns_seqno := ((n + 1) % 2^8 + 1) % 2^8
      sys.dns.dns_table :=
        failedStores (Function.update (fun _ => {}) 0 (flushedEntry (n % 2^8))) ((n + 1) % 2^8)
      sys.dns.dns_servers := Function.update (fun _ => 0) 0 0xd043dede
      calls := n + 2
      number } := rfl
  rw [hrun, failedStores_eq, Function.update_idem, Nat.mod_add_mod, hnumber]
  rfl

/-- All requests of the example. -/
theorem run_failedRequests (k n : ℕ) :
    run (History.step Opts.names) (failedRequests n) (List.replicate k failedRequest).flatten =
      .ok (failedRequests (n + k)) := by
  induction k generalizing n with
  | zero => rfl
  | succ k ih =>
    rw [List.replicate_succ, List.flatten_cons, run_append, run_failedRequest]
    show run _ (failedRequests (n + 1)) _ = _
    rw [ih, Nat.add_assoc, Nat.add_comm 1]

/-- The answer to the query of this entry for `"a"`. -/
def answerA (id : UInt8) : Event :=
  .dns_recv { p := [0, id, 0x80, 0, 0, 1, 0, 1, 0, 0, 0, 0, 1, 97, 0, 0, 1, 0, 1,
    0xc0, 12, 0, 1, 0, 1, 0, 0, 0, 1, 0, 4, 127, 0, 0, 1] }

/-- Four requests that fill the table, and answers to those in the second, third and fourth
entry. -/
def threeAnswers : List Event := List.replicate 4 askQuietly ++ [answerA 1, answerA 2, answerA 3]

/-- After 252 failed requests the next number but four is 0 modulo 2^8. When the table has been
filled and its first entry is still asking, `dns_enqueue` finds no entry, although three are
completed. -/
theorem dnsEnqueue_full_at_wrap :
    ∃ es h s' err, run (History.step Opts.names) {} es = .ok h ∧
      dnsEnqueue h.sys.dns 0 [98] none 0 = .ok (s', err) ∧ ¬ Evicts h [98] s' err := by
  obtain ⟨h, hlast, hmem, hdone⟩ : ∃ h,
      run (History.step Opts.names) (failedRequests 251) threeAnswers = .ok h ∧
      dnsEnqueue h.sys.dns 0 [98] none 0 = .ok (h.sys.dns, .MEM) ∧
      (h.sys.dns.dns_table (1 : Fin 4)).state = .DONE := ⟨_, rfl, rfl, rfl⟩
  have hmiddle := run_failedRequests 251 0
  rw [Nat.zero_add] at hmiddle
  refine ⟨(.dns_init true :: failedRequest) ++
    ((List.replicate 251 failedRequest).flatten ++ threeAnswers),
    h, h.sys.dns, .MEM, ?_, hmem, fun he => (he.full rfl (1 : Fin 4)).2 hdone⟩
  rw [run_append]
  refine bind_eq_ok.mpr ⟨failedRequests 0, run_firstRequest, ?_⟩
  rw [run_append]
  exact bind_eq_ok.mpr ⟨failedRequests 251, hmiddle, hlast⟩

end Lwip.Dns
