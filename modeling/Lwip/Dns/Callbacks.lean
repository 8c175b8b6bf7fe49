import Lwip.Dns.Resolver
import Lwip.Lib.Tickets

/-!
# The `found` callbacks

A request for which `dns_gethostbyname` returns `ERR_INPROGRESS` is a ticket that waits in an entry
in the state `ASKING`; its callback serves it. The tickets stay balanced but for one case: the
callback of an error response runs while its entry is in the state `DONE`, a call in it may recycle
this very entry, and `dns_recv` then flushes the new request (`Keeps`).
-/

namespace Lwip.Dns

variable {o : Opts}

/-! ## The entry that `dns_enqueue` uses -/

/-- The age of an entry, as far as the `u8_t` numbers tell it. -/
def Resolver.age (s : Resolver o) (i : Fin o.DNS_TABLE_SIZE) :
    ℕ := s.dns_seqno - (s.dns_table i).seqno

/-- No entry is unused, and this is the first of the oldest completed ones. -/
def Recycled (s : Resolver o) (i : Fin o.DNS_TABLE_SIZE) : Prop :=
  (s.dns_table i).state = .DONE ∧ (∀ j, (s.dns_table j).state ≠ .UNUSED) ∧
    (∀ j < i, (s.dns_table j).state = .DONE → s.age j < s.age i) ∧
    (∀ j > i, (s.dns_table j).state = .DONE → s.age j ≤ s.age i) ∧ (0 < s.age i ∨ i.val = 0)

instance (s : Resolver o) (i : Fin o.DNS_TABLE_SIZE) : Decidable (Recycled s i) :=
  inferInstanceAs (Decidable (_ ∧ _))

/-- What the scan knows of the entries it has seen. -/
structure Scanned (s : Resolver o) (seen : List (Fin o.DNS_TABLE_SIZE)) (lseq lseqi : ℕ) :
    Prop where
  full : ∀ j ∈ seen, (s.dns_table j).state ≠ .UNUSED
  le : ∀ j ∈ seen, (s.dns_table j).state = .DONE → s.age j ≤ lseq
  first : lseq = 0 ∧ lseqi = 0 ∨ ∃ i ∈ seen, lseqi = i.val ∧ (s.dns_table i).state = .DONE ∧
    s.age i = lseq ∧ 0 < lseq ∧ ∀ j ∈ seen, j < i → (s.dns_table j).state = .DONE → s.age j < lseq

/-- The scan meets an unused entry, or has seen all. -/
theorem dnsScan_spec (s : Resolver o) (seen is : List (Fin o.DNS_TABLE_SIZE)) (lseq lseqi : ℕ)
    (hsorted : (seen ++ is).Pairwise (· < ·)) (h : Scanned s seen lseq lseqi) :
    (∃ i ∈ is, dnsScan s is lseq lseqi = .inl i ∧ (s.dns_table i).state = .UNUSED) ∨
      ∃ lseq' lseqi', dnsScan s is lseq lseqi = .inr lseqi' ∧
      Scanned s (seen ++ is) lseq' lseqi' := by
  induction is generalizing seen lseq lseqi with
  | nil => exact .inr ⟨lseq, lseqi, rfl, by rwa [List.append_nil]⟩
  | cons i is ih =>
    have hassoc : seen ++ i :: is = (seen ++ [i]) ++ is := by simp
    rw [hassoc] at hsorted ⊢
    have hbefore : ∀ j ∈ seen, j < i := by
      have := (List.pairwise_append.mp (List.pairwise_append.mp hsorted).1).2.2
      exact fun j hj => this j hj i List.mem_cons_self
    have hmem : ∀ {j}, j ∈ seen ++ [i] → j ∈ seen ∨ j = i := fun hj =>
      (List.mem_append.mp hj).imp_right List.mem_singleton.mp
    unfold dnsScan
    by_cases hunused : (s.dns_table i).state = .UNUSED
    · exact .inl ⟨i, List.mem_cons_self, by rw [if_pos hunused], hunused⟩
    dsimp only
    rw [if_neg hunused]
    have hage : ((s.dns_table i).state = .DONE ∧ (s.dns_seqno : ℤ) - (s.dns_table i).seqno > lseq) ↔
        (s.dns_table i).state = .DONE ∧ lseq < s.age i := by
      apply and_congr_right
      intro _
      unfold Resolver.age
      omega
    have hfull : ∀ j ∈ seen ++ [i], (s.dns_table j).state ≠ .UNUSED := fun j hj => by
      obtain hj | rfl := hmem hj
      · exact h.full j hj
      · exact hunused
    have hnext : ∀ lseq lseqi, Scanned s (seen ++ [i]) lseq lseqi →
        (∃ j ∈ i :: is, dnsScan s is lseq lseqi = .inl j ∧ (s.dns_table j).state = .UNUSED) ∨
          ∃ lseq' lseqi', dnsScan s is lseq lseqi = .inr lseqi' ∧
            Scanned s (seen ++ [i] ++ is) lseq' lseqi' := fun lseq lseqi h =>
      (ih (seen ++ [i]) lseq lseqi hsorted h).imp_left fun ⟨j, hj, hs⟩ =>
        ⟨j, List.mem_cons_of_mem i hj, hs⟩
    by_cases hold : (s.dns_table i).state = .DONE ∧ lseq < s.age i
    · -- An older completed entry.
      rw [if_pos (hage.mpr hold)]
      apply hnext
      refine ⟨hfull, fun j hj hdone => ?_,
        .inr ⟨i, by simp, rfl, hold.1, rfl, ?_, fun j hj hji hdone => ?_⟩⟩
      · obtain hj | rfl := hmem hj
        · exact (h.le j hj hdone).trans hold.2.le
        · exact le_refl _
      · change 0 < s.age i
        omega
      · obtain hj | rfl := hmem hj
        · exact (h.le j hj hdone).trans_lt hold.2
        · exact absurd hji (lt_irrefl _)
    · rw [if_neg fun hc => hold (hage.mp hc)]
      apply hnext
      refine ⟨hfull, fun j hj hdone => ?_, ?_⟩
      · obtain hj | rfl := hmem hj
        · exact h.le j hj hdone
        · exact Nat.not_lt.mp fun hlt => hold ⟨hdone, hlt⟩
      · refine h.first.imp_right fun ⟨k, hk, hki, hdone, hage, hpos, hfirst⟩ =>
          ⟨k, List.mem_append_left _ hk, hki, hdone, hage, hpos, fun j hj hjk hdone => ?_⟩
        obtain hj | rfl := hmem hj
        · exact hfirst j hj hjk hdone
        · exact absurd (hbefore k hk) (lt_asymm hjk)

/-- The scan of the whole table. -/
theorem dnsScan_finRange (s : Resolver o) :
    (∃ i, dnsScan s (List.finRange o.DNS_TABLE_SIZE) 0 0 = .inl i ∧
    (s.dns_table i).state = .UNUSED) ∨
      ∃ lseq lseqi, dnsScan s (List.finRange o.DNS_TABLE_SIZE) 0 0 = .inr lseqi ∧
        Scanned s (List.finRange o.DNS_TABLE_SIZE) lseq lseqi := by
  have hinit : Scanned s [] 0 0 :=
    ⟨fun j hj => (by cases hj), fun j hj => (by cases hj), .inl ⟨rfl, rfl⟩⟩
  exact (dnsScan_spec s [] (List.finRange o.DNS_TABLE_SIZE) 0 0 (List.pairwise_lt_finRange _)
    hinit).imp_left fun ⟨i, _, hscan⟩ => ⟨i, hscan⟩

/-- `dns_enqueue` uses an unused entry, or recycles one. -/
theorem dnsFreeEntry_eq_some {s : Resolver o} {i : Fin o.DNS_TABLE_SIZE}
    (h : dnsFreeEntry s = some i) : (s.dns_table i).state = .UNUSED ∨ Recycled s i := by
  unfold dnsFreeEntry at h
  obtain ⟨j, hscan, hunused⟩ | ⟨lseq, lseqi, hscan, hseen⟩ := dnsScan_finRange s
  · rw [hscan] at h
    cases h
    exact .inl hunused
  · rw [hscan] at h
    dsimp only at h
    split at h
    · next hlt =>
      split at h
      · next hdone =>
        cases h
        have hall : ∀ j, j ∈ List.finRange o.DNS_TABLE_SIZE := List.mem_finRange
        refine .inr ⟨hdone, fun j => hseen.full j (hall j), ?_⟩
        obtain ⟨hzero, hlseqi⟩ | ⟨k, -, hk, -, hage, hpos, hfirst⟩ := hseen.first
        · -- No age is positive, and the scan falls back to the first entry.
          refine ⟨fun j hj => ?_, fun j _ hj => ?_, .inr hlseqi⟩
          · rw [Fin.lt_def] at hj
            change j.val < lseqi at hj
            omega
          · have := hseen.le j (hall j) hj
            omega
        · subst hk
          refine ⟨fun j hj hdone => ?_, fun j _ hj => ?_, .inl ?_⟩
          · exact (hfirst j (hall j) hj hdone).trans_eq hage.symm
          · exact (hseen.le j (hall j) hj).trans_eq hage.symm
          · exact hpos.trans_eq hage.symm
      · cases h
    · cases h

/-! ## What the functions do to the table -/

/-- The entry that was assigned is read. -/
@[simp] theorem Resolver.set_self (s : Resolver o) (i : Fin o.DNS_TABLE_SIZE) (e : Entry) :
    (s.set i e).dns_table i = e := Function.update_self ..

/-- The other entries stay as they are. -/
theorem Resolver.set_of_ne {s : Resolver o} {i j : Fin o.DNS_TABLE_SIZE} (e : Entry) (h : j ≠ i) :
    (s.set i e).dns_table j = s.dns_table j := Function.update_of_ne h ..

/-- Only this entry is touched. -/
def OnlyEntry (i : Fin o.DNS_TABLE_SIZE) (s s' : Resolver o) : Prop :=
  ∀ j, j ≠ i → s'.dns_table j = s.dns_table j

/-- An assignment changes one entry. -/
theorem onlyEntry_set (s : Resolver o) (i : Fin o.DNS_TABLE_SIZE) (e : Entry) :
    OnlyEntry i s (s.set i e) := fun _ hj => Resolver.set_of_ne e hj

/-- One entry is changed in two steps. -/
theorem OnlyEntry.trans {i : Fin o.DNS_TABLE_SIZE} {s s' s'' : Resolver o} (h : OnlyEntry i s s')
    (h' : OnlyEntry i s' s'') : OnlyEntry i s s'' := fun j hj => (h' j hj).trans (h j hj)

/-- A server is not in the table. -/
theorem dnsSetserver_table (s : Resolver o) (numdns : ℕ) (dnsserver : BitVec 32) :
    (dnsSetserver s numdns dnsserver).dns_table = s.dns_table := by
  unfold dnsSetserver
  split <;> rfl

/-- The initialisation leaves the table alone. -/
theorem dnsInit_table (s : Resolver o) (udp : Bool) : (dnsInit s udp).dns_table = s.dns_table := by
  unfold dnsInit
  split
  · rfl
  split
  · rw [dnsSetserver_table]
  · rfl

/-- The name is to be asked for: it is not read as an address, and not in the table. -/
def Unknown (s : Resolver o) (q : Request) : Prop :=
  ∃ name ∈ q.hostname, s.dns_pcb = true ∧ q.addr = true ∧ name ≠ [] ∧
    name.length < o.DNS_MAX_NAME_LENGTH ∧ ¬ (o.LWIP_HAVE_LOOPIF = true ∧ name = localhost) ∧
    o.inet_addr name = INADDR_NONE ∧ dnsLookup s name = INADDR_NONE

instance (s : Resolver o) (q : Request) : Decidable (Unknown s q) :=
  inferInstanceAs (Decidable (∃ name ∈ q.hostname, _))

/-- `dns_enqueue` takes an entry, or finds none; a new entry is asked for at once. -/
theorem dnsEnqueue_eq_ok {s s' : Resolver o} {ticket arg : ℕ} {name : List UInt8} {found : Option ℕ}
    {err : Err} (h : dnsEnqueue s ticket name found arg = .ok (s', err)) :
    err = .MEM ∧ s' = s ∧ dnsFreeEntry s = none ∨
      err = .INPROGRESS ∧ ∃ i, dnsFreeEntry s = some i ∧ OnlyEntry i s s' ∧
        s'.dns_seqno = (s.dns_seqno + 1) % 2^8 ∧ s'.dns_table i = { s.dns_table i with
          state := .ASKING, numdns := 0, tmr := 1, retries := 0, seqno := s.dns_seqno,
          found, arg, name, ticket } := by
  unfold dnsEnqueue at h
  split at h
  · next hfree =>
    cases h
    exact .inl ⟨rfl, rfl, hfree⟩
  next i hfree =>
  obtain ⟨⟨s₂, b⟩, hcheck, h⟩ := bind_eq_ok.mp h
  cases h
  unfold dnsCheckEntry at hcheck
  simp only [Resolver.set_self] at hcheck
  obtain ⟨_, -, hcheck⟩ := bind_eq_ok.mp hcheck
  cases hcheck
  refine .inr ⟨rfl, i, hfree, fun j hj => ?_, rfl, ?_⟩
  · rw [Resolver.set_of_ne _ hj]
    exact Resolver.set_of_ne _ hj
  · rw [Resolver.set_self]

/-- `dns_gethostbyname` calls `dns_enqueue` for a name that is to be asked for, and leaves all as it
is otherwise. -/
theorem dnsGethostbyname_enqueue {s s' : Resolver o} {ticket : ℕ} {q : Request} {err : Err}
    {addr : BitVec 32} (h : dnsGethostbyname s ticket q = .ok (s', err, addr)) :
    err ≠ .INPROGRESS ∧ s' = s ∧ ¬ Unknown s q ∨
      Unknown s q ∧ ∃ name, q.hostname = some name ∧
        dnsEnqueue s ticket name q.found q.arg = .ok (s', err) := by
  unfold dnsGethostbyname at h
  split at h
  · next hname =>
    cases h
    refine .inl ⟨nofun, rfl, fun ⟨name, hmem, _⟩ => ?_⟩
    rw [hname] at hmem
    cases hmem
  next hostname hname =>
  have hunknown : Unknown s q ↔ s.dns_pcb = true ∧ q.addr = true ∧ hostname ≠ [] ∧
      hostname.length < o.DNS_MAX_NAME_LENGTH ∧
      ¬ (o.LWIP_HAVE_LOOPIF = true ∧ hostname = localhost) ∧
      o.inet_addr hostname = INADDR_NONE ∧ dnsLookup s hostname = INADDR_NONE := by
    unfold Unknown
    rw [hname]
    exact ⟨fun ⟨name, hmem, h⟩ => Option.some.inj hmem ▸ h, fun h => ⟨hostname, rfl, h⟩⟩
  split at h
  · next hvalid =>
    cases h
    refine .inl ⟨nofun, rfl, fun hu => ?_⟩
    obtain ⟨hpcb, haddr, hne, hlen, -⟩ := hunknown.mp hu
    rcases hvalid with hvalid | hvalid | hvalid | hvalid
    · exact hvalid hpcb
    · exact hvalid haddr
    · exact hne hvalid
    · exact absurd hlen (Nat.not_lt.mpr hvalid)
  next hvalid =>
  split at h
  · next hloop =>
    cases h
    exact .inl ⟨nofun, rfl, fun hu => (hunknown.mp hu).2.2.2.2.1 hloop⟩
  next hloop =>
  split at h
  · next hinet =>
    cases h
    exact .inl ⟨nofun, rfl, fun hu => hinet (hunknown.mp hu).2.2.2.2.2.1⟩
  next hinet =>
  split at h
  · next hlookup =>
    cases h
    exact .inl ⟨nofun, rfl, fun hu => hlookup (hunknown.mp hu).2.2.2.2.2.2⟩
  next hlookup =>
  obtain ⟨⟨s₁, err₁⟩, henq, h⟩ := bind_eq_ok.mp h
  cases h
  push Not at hvalid hinet hlookup
  exact .inr ⟨hunknown.mpr ⟨hvalid.1, hvalid.2.1, hvalid.2.2.1, hvalid.2.2.2, hloop, hinet,
    hlookup⟩, hostname, hname, henq⟩

/-- `dns_gethostbyname` takes the request, into an entry that is unused or recycled, or leaves all
as it is. -/
theorem dnsGethostbyname_eq_ok {s s' : Resolver o} {ticket : ℕ} {q : Request} {err : Err}
    {addr : BitVec 32} (h : dnsGethostbyname s ticket q = .ok (s', err, addr)) :
    err ≠ .INPROGRESS ∧ s' = s ∨
      err = .INPROGRESS ∧ Unknown s q ∧ ∃ i name, q.hostname = some name ∧ dnsFreeEntry s = some i ∧
        OnlyEntry i s s' ∧ s'.dns_table i = { s.dns_table i with
          state := .ASKING, numdns := 0, tmr := 1, retries := 0, seqno := s.dns_seqno,
          found := q.found, arg := q.arg, name, ticket } := by
  obtain ⟨herr, hs, -⟩ | ⟨hunknown, name, hname, henq⟩ := dnsGethostbyname_enqueue h
  · exact .inl ⟨herr, hs⟩
  · obtain ⟨rfl, hs, -⟩ | ⟨rfl, i, hfree, honly, -, hi⟩ := dnsEnqueue_eq_ok henq
    · exact .inl ⟨nofun, hs⟩
    · exact .inr ⟨rfl, hunknown, i, name, hname, hfree, honly, hi⟩

/-- The request that waits in an entry. -/
def Entry.waiting (e : Entry) : Option (ℕ × ℕ × ℕ) :=
  if e.state = .ASKING then e.found.map fun f => (e.ticket, f, e.arg) else none

/-- Only an entry that asks keeps a ticket waiting. -/
theorem Entry.waiting_of_ne {e : Entry} (h : e.state ≠ .ASKING) : e.waiting = none := if_neg h

/-- Without a callback no ticket waits. -/
theorem Entry.waiting_none {e : Entry} (h : e.found = none) : e.waiting = none := by
  unfold Entry.waiting
  rw [h, Option.map_none, ite_self]

/-- A flushed entry is unused. -/
theorem dnsFlush_state (s : Resolver o) (i : Fin o.DNS_TABLE_SIZE) :
    ((dnsFlush s i).dns_table i).state = .UNUSED := by
  unfold dnsFlush
  rw [Resolver.set_self]

/-- A flush changes one entry. -/
theorem onlyEntry_flush (s : Resolver o) (i : Fin o.DNS_TABLE_SIZE) :
    OnlyEntry i s (dnsFlush s i) :=
  onlyEntry_set s i _

/-- No ticket waits in a flushed entry. -/
theorem dnsFlush_waiting (s : Resolver o) (i : Fin o.DNS_TABLE_SIZE) :
    ((dnsFlush s i).dns_table i).waiting = none := by
  apply Entry.waiting_of_ne
  rw [dnsFlush_state]
  decide

/-- `dns_check_entry` calls the callback of an entry that is asking, or leaves waiting what
waited. -/
theorem dnsCheckEntry_waiting {s s' : Resolver o} {i : Fin o.DNS_TABLE_SIZE} {call : Bool}
    (hnew : (s.dns_table i).state ≠ .NEW) (h : dnsCheckEntry s i = .ok (s', call)) :
    OnlyEntry i s s' ∧ (s'.dns_table i).state ≠ .NEW ∧
      (s'.dns_table i).waiting = (s.dns_table i).waiting ∧
      (call = true → (s'.dns_table i).state = .ASKING ∧ (s'.dns_table i).found.isSome) := by
  unfold dnsCheckEntry at h
  dsimp only at h
  split at h
  · next hst => exact absurd hst hnew
  · next hst =>
    have hask : ∀ (e : Entry) (call : Bool), e.state = .ASKING → e.found = (s.dns_table i).found →
        e.ticket = (s.dns_table i).ticket → e.arg = (s.dns_table i).arg →
        (call = true → (s.dns_table i).found.isSome) →
        OnlyEntry i s (s.set i e) ∧ ((s.set i e).dns_table i).state ≠ .NEW ∧
          ((s.set i e).dns_table i).waiting = (s.dns_table i).waiting ∧
          (call = true → ((s.set i e).dns_table i).state = .ASKING ∧
            ((s.set i e).dns_table i).found.isSome) := by
      intro e call he hf ht ha hcall
      rw [Resolver.set_self]
      refine ⟨onlyEntry_set s i e, ?_, ?_, fun hc => ⟨he, hf ▸ hcall hc⟩⟩
      · rw [he]
        decide
      · unfold Entry.waiting
        rw [he, hst, hf, ht, ha]
    split at h
    · split at h
      · split at h
        · cases h
          exact hask _ _ hst rfl rfl rfl nofun
        · split at h
          · next hfound =>
            cases h
            exact hask _ _ hst rfl rfl rfl fun _ => hfound
          · next hfound =>
            -- Nothing waits in an entry without a callback.
            cases h
            have hfound : (s.dns_table i).found = none := by simpa using hfound
            refine ⟨(onlyEntry_set s i _).trans (onlyEntry_set _ i _), ?_, ?_, nofun⟩
            · rw [dnsFlush_state]
              decide
            · rw [dnsFlush_waiting, Entry.waiting_none hfound]
      · obtain ⟨_, -, h⟩ := bind_eq_ok.mp h
        cases h
        exact hask _ _ hst rfl rfl rfl nofun
    · cases h
      exact hask _ _ hst rfl rfl rfl nofun
  · next hst =>
    have hwait : (s.dns_table i).waiting = none := Entry.waiting_of_ne (by rw [hst]; decide)
    split at h
    · cases h
      refine ⟨(onlyEntry_set s i _).trans (onlyEntry_set _ i _), ?_, ?_, fun hc => by cases hc⟩
      · rw [dnsFlush_state]
        decide
      · rw [dnsFlush_waiting, hwait]
    · cases h
      refine ⟨onlyEntry_set s i _, ?_, ?_, fun hc => by cases hc⟩
      · rw [Resolver.set_self]
        exact hnew
      · rw [Resolver.set_self, hwait]
        exact Entry.waiting_of_ne (by rw [hst]; decide)
  · cases h
    exact ⟨fun _ _ => rfl, hnew, rfl, fun hc => by cases hc⟩

/-- `dns_recv` drops a datagram, or completes an entry that was asking. -/
theorem dnsRecv_eq_ok {s s' : Resolver o} {m : Datagram}
    {r : Option (Fin o.DNS_TABLE_SIZE × Option ARecord)} (h : dnsRecv s m = .ok (s', r)) :
    r = none ∧ s' = s ∨ ∃ i ans, r = some (i, ans) ∧ i.val = m.id ∧ OnlyEntry i s s' ∧
      (s.dns_table i).state = .ASKING ∧
      (match ans with
        | none => s'.dns_table i = { s.dns_table i with state := .DONE, err := m.flags2 &&& 0x0f }
        | some rr => m.p.length ≥ 26 ∧ m.responds = true ∧
          m.compare (s.dns_table i).name = some false ∧
            m.answer = some (some rr) ∧ s'.dns_table i = { s.dns_table i with
              state := .DONE, err := m.flags2 &&& 0x0f
              ttl := min rr.ttl o.DNS_MAX_TTL, ipaddr := rr.ipaddr }) := by
  unfold dnsRecv at h
  split at h
  · cases h
    exact .inl ⟨rfl, rfl⟩
  split at h
  · cases h
    exact .inl ⟨rfl, rfl⟩
  next hlen =>
  split at h
  · next hid =>
    dsimp only at h
    split at h
    · next hst =>
      have hone := onlyEntry_set s ⟨m.id, hid⟩
        { s.dns_table ⟨m.id, hid⟩ with state := .DONE, err := m.flags2 &&& 0x0f }
      split at h
      · next hresponds =>
        obtain ⟨differ, hcompare, h⟩ := bind_eq_ok.mp h
        have hcompare : m.compare (s.dns_table ⟨m.id, hid⟩).name = some differ :=
          inMemory_eq_ok.mp hcompare
        split at h
        · cases h
          exact .inr ⟨_, none, rfl, rfl, hone, hst, Resolver.set_self ..⟩
        next hsame =>
        obtain ⟨ans, hans, h⟩ := bind_eq_ok.mp h
        have hans : m.answer = some ans := inMemory_eq_ok.mp hans
        split at h
        · cases h
          exact .inr ⟨_, none, rfl, rfl, hone, hst, Resolver.set_self ..⟩
        · next rr _ =>
          cases h
          have hsame : differ = false := by simpa using hsame
          refine .inr ⟨_, some rr, rfl, rfl, hone.trans (onlyEntry_set _ _ _), hst, by omega,
            hresponds, hsame ▸ hcompare, hans, Resolver.set_self ..⟩
      · cases h
        exact .inr ⟨_, none, rfl, rfl, hone, hst, Resolver.set_self ..⟩
    · cases h
      exact .inl ⟨rfl, rfl⟩
  · cases h
    exact .inl ⟨rfl, rfl⟩

/-! ## The tickets -/

/-- The callback of this entry runs because of a timeout. -/
def Sys.timedOut (s : Sys o) (i : Fin o.DNS_TABLE_SIZE) : Bool :=
  match s.cont with
  | some (.timeout j _) => i == j
  | _ => false

/-- The request that waits in an entry for its callback. -/
def Sys.waiting (s : Sys o) (i : Fin o.DNS_TABLE_SIZE) : Option (ℕ × ℕ × ℕ) :=
  if s.timedOut i then none else (s.dns.dns_table i).waiting

/-- The invariant. -/
structure Tickets (s : Sys o) : Prop where
  balanced : Balanced s.asked s.invoked s.waiting
  settled : ∀ i, (s.dns.dns_table i).state ≠ .NEW
  timeout : ∀ i rest, s.cont = some (.timeout i rest) → (s.dns.dns_table i).state = .ASKING
  responseerr : ∀ i, s.cont = some (.responseerr i) →
    (s.dns.dns_table i).state ≠ .UNUSED ∧ s.waiting i = none

/-- The entry of the error response whose callback runs. -/
def Sys.failing (s : Sys o) : Option (Fin o.DNS_TABLE_SIZE) :=
  match s.cont with
  | some (.responseerr i) => some i
  | _ => none

def Event.request : Event → Option Request
  | .dns_gethostbyname q => some q
  | _ => none

/-- A call in the callback of an error response does not recycle the entry of the response. -/
def Keeps (o : Opts) (s : Sys o) (e : Event) : Prop :=
  ∀ i ∈ s.failing, ∀ q ∈ e.request, q.found.isSome = true → Unknown s.dns q → ¬ Recycled s.dns i

instance (s : Sys o) (e : Event) : Decidable (Keeps o s e) :=
  inferInstanceAs (Decidable (∀ i ∈ s.failing, ∀ q ∈ e.request, _ → _ → ¬ _))

/-- Between two events the tickets are in the table. -/
theorem Sys.waiting_of_cont {s : Sys o} (h : s.cont = none) (i : Fin o.DNS_TABLE_SIZE) :
    s.waiting i = (s.dns.dns_table i).waiting := by
  unfold Sys.waiting Sys.timedOut
  rw [h]
  rfl

section Steps

variable {s s' : Sys o} {i : Fin o.DNS_TABLE_SIZE}

/-- Only the entry `i` changes, and what waits in it stays. -/
theorem Tickets.same {dns : Resolver o} (h : Tickets s) (hcont : s.cont = none)
    (honly : OnlyEntry i s.dns dns) (hnew : (dns.dns_table i).state ≠ .NEW)
    (hw : (dns.dns_table i).waiting = (s.dns.dns_table i).waiting) : Tickets { s with dns } := by
  have hwaiting : ∀ j, ({ s with dns } : Sys o).waiting j = s.waiting j := by
    intro j
    rw [Sys.waiting_of_cont hcont, Sys.waiting_of_cont (s := { s with dns }) hcont]
    by_cases hj : j = i
    · rw [hj, hw]
    · rw [honly j hj]
  refine ⟨?_, fun j => ?_, fun j rest hc => ?_, fun j hc => ?_⟩
  · rw [funext hwaiting]
    exact h.balanced
  · by_cases hj : j = i
    · rw [hj]
      exact hnew
    · rw [honly j hj]
      exact h.settled j
  · rw [hcont] at hc
    cases hc
  · rw [hcont] at hc
    cases hc

/-- The callback of the entry `i` is invoked; nothing waits in it any more. -/
theorem Tickets.invoke {dns : Resolver o} {k : Cont o} (h : Tickets s) (hcont : s.cont = none)
    (honly : OnlyEntry i s.dns dns) (hnew : (dns.dns_table i).state ≠ .NEW)
    (hticket : (dns.dns_table i).ticket = (s.dns.dns_table i).ticket)
    (hst : (s.dns.dns_table i).state = .ASKING) (hfound : (s.dns.dns_table i).found.isSome)
    (hk : ∀ j rest, k = .timeout j rest → j = i ∧ (dns.dns_table i).state = .ASKING)
    (herr : ∀ j, k = .responseerr j → j = i ∧ (dns.dns_table i).state ≠ .UNUSED)
    (hdone : (s.invoke dns i k).waiting i = none) : Tickets (s.invoke dns i k) := by
  obtain ⟨f, hf⟩ := Option.isSome_iff_exists.mp hfound
  have hwait : s.waiting i = some ((s.dns.dns_table i).ticket, f, (s.dns.dns_table i).arg) := by
    rw [Sys.waiting_of_cont hcont]
    unfold Entry.waiting
    rw [if_pos hst, hf]
    rfl
  have hrest : ∀ j, j ≠ i → (s.invoke dns i k).waiting j = s.waiting j := by
    intro j hj
    have hout : (s.invoke dns i k).timedOut j = false := by
      unfold Sys.timedOut Sys.invoke
      dsimp only
      split
      · next l rest hl =>
        rw [(hk l rest (Option.some.inj hl)).1]
        exact beq_false_of_ne hj
      · rfl
    rw [Sys.waiting_of_cont hcont]
    unfold Sys.waiting
    rw [hout]
    show (dns.dns_table j).waiting = _
    rw [honly j hj]
  refine ⟨?_, fun j => ?_, fun j rest hc => ?_, fun j hc => ?_⟩
  · show Balanced s.asked (s.invoked ++ [(dns.dns_table i).ticket]) _
    rw [hticket]
    exact h.balanced.serve hwait hdone hrest
  · show (dns.dns_table j).state ≠ .NEW
    by_cases hj : j = i
    · rw [hj]
      exact hnew
    · rw [honly j hj]
      exact h.settled j
  · obtain ⟨rfl, hask⟩ := hk j rest (Option.some.inj hc)
    exact hask
  · obtain ⟨rfl, hused⟩ := herr j (Option.some.inj hc)
    exact ⟨hused, hdone⟩

/-- An entry in which nothing waits is flushed. -/
theorem Tickets.flush (h : Tickets s) (hw : s.waiting i = none)
    (hcont : ∀ j rest, s.cont = some (.timeout j rest) → j = i) :
    Tickets { s with dns := dnsFlush s.dns i, cont := none } := by
  have hwaiting : ∀ j, ({ s with dns := dnsFlush s.dns i, cont := none } : Sys o).waiting j =
      s.waiting j := by
    intro j
    rw [Sys.waiting_of_cont rfl]
    by_cases hj : j = i
    · rw [hj, hw]
      exact dnsFlush_waiting s.dns i
    · have hout : s.timedOut j = false := by
        unfold Sys.timedOut
        split
        · next l rest hl =>
          rw [hcont l rest hl]
          exact beq_false_of_ne hj
        · rfl
      unfold Sys.waiting
      rw [hout]
      show ((dnsFlush s.dns i).dns_table j).waiting = (s.dns.dns_table j).waiting
      rw [onlyEntry_flush s.dns i j hj]
  refine ⟨?_, fun j => ?_, nofun, nofun⟩
  · rw [funext hwaiting]
    exact h.balanced
  · by_cases hj : j = i
    · rw [hj]
      show ((dnsFlush s.dns i).dns_table i).state ≠ .NEW
      rw [dnsFlush_state]
      decide
    · show ((dnsFlush s.dns i).dns_table j).state ≠ .NEW
      rw [onlyEntry_flush s.dns i j hj]
      exact h.settled j

/-- The rest of a tick. -/
theorem dnsCheckEntries_tickets {rest : List (Fin o.DNS_TABLE_SIZE)} (h : Tickets s)
    (hcont : s.cont = none) (hs : dnsCheckEntries s rest = .ok s') : Tickets s' := by
  induction rest generalizing s with
  | nil =>
    cases hs
    exact h
  | cons i rest ih =>
    obtain ⟨⟨dns, call⟩, hcheck, hs⟩ := bind_eq_ok.mp hs
    obtain ⟨honly, hnew, hw, hcall⟩ := dnsCheckEntry_waiting (h.settled i) hcheck
    dsimp only at hs
    split at hs
    · next htrue =>
      cases hs
      obtain ⟨hst, hfound⟩ := hcall htrue
      obtain ⟨f, hf⟩ := Option.isSome_iff_exists.mp hfound
      -- The entry was asking before, with the same ticket.
      have hold : (s.dns.dns_table i).state = .ASKING ∧ (s.dns.dns_table i).found.isSome ∧
          (dns.dns_table i).ticket = (s.dns.dns_table i).ticket := by
        unfold Entry.waiting at hw
        rw [if_pos hst, hf] at hw
        split at hw
        · next hask =>
          cases hf' : (s.dns.dns_table i).found with
          | none =>
            rw [hf'] at hw
            cases hw
          | some f' =>
            rw [hf'] at hw
            injection hw with hw
            injection hw with ht hw
            exact ⟨hask, rfl, ht⟩
        · cases hw
      refine h.invoke hcont honly hnew hold.2.2 hold.1 hold.2.1 ?_ nofun ?_
      · intro j r hk
        cases hk
        exact ⟨rfl, hst⟩
      · unfold Sys.waiting Sys.timedOut
        exact if_pos (beq_self_eq_true i)
    · exact ih (h.same hcont honly hnew hw) hcont hs

/-- The table and what goes on stay as they are. -/
theorem Tickets.of_table {dns : Resolver o} (h : Tickets s)
    (htable : dns.dns_table = s.dns.dns_table) : Tickets { s with dns } := by
  have hwaiting : ({ s with dns } : Sys o).waiting = s.waiting := by
    funext j
    unfold Sys.waiting
    rw [htable]
    rfl
  refine ⟨?_, fun j => ?_, fun j rest hc => ?_, fun j hc => ?_⟩
  · rw [hwaiting]
    exact h.balanced
  · rw [htable]
    exact h.settled j
  · rw [htable]
    exact h.timeout j rest hc
  · rw [htable, hwaiting]
    exact h.responseerr j hc

/-- A request is taken. -/
theorem Tickets.ask {dns : Resolver o} {q : Request} {name : List UInt8} (h : Tickets s)
    (hfree : (s.dns.dns_table i).state = .UNUSED ∨ (s.dns.dns_table i).state = .DONE)
    (honly : OnlyEntry i s.dns dns)
    (hi : dns.dns_table i = { s.dns.dns_table i with
      state := .ASKING, numdns := 0, tmr := 1, retries := 0, seqno := s.dns.dns_seqno
      found := q.found, arg := q.arg, name, ticket := s.asked.length })
    (hkeeps : s.cont = some (.responseerr i) → q.found = none) :
    Tickets { s with dns, asked := s.asked ++ q.found.toList.map (·, q.arg) } := by
  have hnot : (s.dns.dns_table i).state ≠ .ASKING := by
    obtain hst | hst := hfree <;> rw [hst] <;> decide
  have hout : s.timedOut i = false := by
    unfold Sys.timedOut
    split
    · next j rest hc =>
      apply beq_false_of_ne
      rintro rfl
      exact hnot (h.timeout i rest hc)
    · rfl
  have hbefore : s.waiting i = none := by
    unfold Sys.waiting
    rw [hout]
    exact Entry.waiting_of_ne hnot
  set s₁ : Sys o := { s with dns, asked := s.asked ++ q.found.toList.map (·, q.arg) } with hs₁
  have hafter : s₁.waiting i = q.found.map fun f => (s.asked.length, f, q.arg) := by
    unfold Sys.waiting
    show (if s.timedOut i then none else (dns.dns_table i).waiting) = _
    rw [hout, hi]
    rfl
  have hrest : ∀ j, j ≠ i → s₁.waiting j = s.waiting j := by
    intro j hj
    unfold Sys.waiting
    show (if s.timedOut j then none else (dns.dns_table j).waiting) = _
    rw [honly j hj]
  refine ⟨?_, fun j => ?_, fun j rest hc => ?_, fun j hc => ?_⟩
  · show Balanced (s.asked ++ q.found.toList.map (·, q.arg)) s.invoked s₁.waiting
    cases hf : q.found with
    | none =>
      have hsame : s₁.waiting = s.waiting := by
        funext j
        by_cases hj : j = i
        · rw [hj, hafter, hbefore, hf]
          rfl
        · exact hrest j hj
      rw [hsame]
      show Balanced (s.asked ++ []) s.invoked s.waiting
      rw [List.append_nil]
      exact h.balanced
    | some f =>
      rw [hf] at hafter
      exact h.balanced.ask hbefore hafter hrest
  · show (dns.dns_table j).state ≠ .NEW
    by_cases hj : j = i
    · rw [hj, hi]
      nofun
    · rw [honly j hj]
      exact h.settled j
  · show (dns.dns_table j).state = .ASKING
    have hask := h.timeout j rest hc
    have hj : j ≠ i := fun hj => hnot (hj ▸ hask)
    rw [honly j hj]
    exact hask
  · obtain ⟨hused, hnone⟩ := h.responseerr j hc
    by_cases hj : j = i
    · subst hj
      refine ⟨?_, ?_⟩
      · show (dns.dns_table j).state ≠ .UNUSED
        rw [hi]
        nofun
      · rw [hafter, hkeeps hc]
        rfl
    · refine ⟨?_, ?_⟩
      · show (dns.dns_table j).state ≠ .UNUSED
        rw [honly j hj]
        exact hused
      · rw [hrest j hj]
        exact hnone

/-- A response completes an entry. -/
theorem dnsRecvEntry_tickets {m : Datagram} {dns : Resolver o} {ans : Option ARecord}
    (h : Tickets s) (hcont : s.cont = none) (honly : OnlyEntry i s.dns dns)
    (hst : (s.dns.dns_table i).state = .ASKING) (hdone : (dns.dns_table i).state = .DONE)
    (hfound : (dns.dns_table i).found = (s.dns.dns_table i).found)
    (hticket : (dns.dns_table i).ticket = (s.dns.dns_table i).ticket) :
    Tickets (dnsRecvEntry s m dns i ans) := by
  have hnew : (dns.dns_table i).state ≠ .NEW := by
    rw [hdone]
    decide
  have hw : (dns.dns_table i).waiting = none := Entry.waiting_of_ne (by rw [hdone]; decide)
  have hquiet : ∀ k, (∀ j rest, k ≠ Cont.timeout j rest) → (s.invoke dns i k).waiting i = none := by
    intro k hk
    have hout : (s.invoke dns i k).timedOut i = false := by
      unfold Sys.timedOut Sys.invoke
      dsimp only
      split
      · next l rest hl => exact absurd (Option.some.inj hl) (hk l rest)
      · rfl
    unfold Sys.waiting
    rw [hout]
    exact hw
  unfold dnsRecvEntry
  split
  · dsimp only
    -- The list of responses plays no part here.
    set s₁ : Sys o := { s with accepted := s.accepted ++ [.mk (dns.dns_table i).name m.p s.ticks] }
    have h₁ : Tickets s₁ := ⟨h.balanced, h.settled, h.timeout, h.responseerr⟩
    split
    · next hsome =>
      exact h₁.invoke hcont honly hnew hticket hst (hfound ▸ hsome) nofun nofun
        (hquiet .memerr2 nofun)
    · next hnone =>
      have hnone : (s.dns.dns_table i).found = none := by simpa [hfound] using hnone
      exact h₁.same hcont honly hnew (hw.trans (Entry.waiting_none hnone).symm)
  · split
    · next hsome =>
      refine h.invoke hcont honly hnew hticket hst (hfound ▸ hsome) nofun ?_ (hquiet _ nofun)
      intro j hk
      cases hk
      refine ⟨rfl, ?_⟩
      rw [hdone]
      decide
    · next hnone =>
      have hnone : (s.dns.dns_table i).found = none := by simpa [hfound] using hnone
      refine h.same hcont (honly.trans (onlyEntry_flush dns i)) ?_ ?_
      · rw [dnsFlush_state]
        decide
      · rw [dnsFlush_waiting, Entry.waiting_none hnone]

/-- One event. -/
theorem step_tickets {e : Event} (h : Tickets s) (hkeeps : Keeps o s e) (hs : step o s e = .ok s') :
    Tickets s' := by
  unfold step at hs
  split at hs
  · cases hs
    exact h.of_table (dnsInit_table _ _)
  · cases hs
    exact h.of_table (dnsSetserver_table _ _ _)
  · next q =>
    obtain ⟨⟨dns, err, addr⟩, hget, hs⟩ := bind_eq_ok.mp hs
    cases hs
    obtain ⟨herr, rfl⟩ | ⟨rfl, hunknown, i, name, -, hfree, honly, hi⟩ :=
      dnsGethostbyname_eq_ok hget
    · dsimp only
      rw [if_neg herr]
      exact h
    · dsimp only
      rw [if_pos rfl]
      have hfree := dnsFreeEntry_eq_some hfree
      refine h.ask (hfree.imp_right And.left) honly hi fun hc => ?_
      -- The entry of the error response is not unused, so it would be recycled.
      by_contra hsome
      have hfailing : i ∈ s.failing := by
        unfold Sys.failing
        rw [hc]
        rfl
      obtain hunused | hrec := hfree
      · exact (h.responseerr i hc).1 hunused
      · exact hkeeps i hfailing q rfl (Option.isSome_iff_ne_none.mpr hsome) hunknown hrec
  · next m =>
    split at hs
    · cases hs
      exact h
    · next hcont =>
      split at hs
      · obtain ⟨⟨dns, r⟩, hrecv, hs⟩ := bind_eq_ok.mp hs
        obtain ⟨rfl, rfl⟩ | ⟨i, ans, rfl, -, honly, hst, hi⟩ := dnsRecv_eq_ok hrecv
        · cases hs
          exact h
        · cases hs
          cases ans with
          | none =>
            dsimp only at hi
            exact dnsRecvEntry_tickets h hcont honly hst (by rw [hi]) (by rw [hi]) (by rw [hi])
          | some rr =>
            obtain ⟨-, -, -, -, hi⟩ := hi
            exact dnsRecvEntry_tickets h hcont honly hst (by rw [hi]) (by rw [hi]) (by rw [hi])
      · cases hs
        exact h
  · split at hs
    · cases hs
      exact h
    · next hcont =>
      have hticks : Tickets { s with ticks := s.ticks + 1 } :=
        ⟨h.balanced, h.settled, h.timeout, h.responseerr⟩
      split at hs
      · exact dnsCheckEntries_tickets hticks hcont hs
      · cases hs
        exact h
  · split at hs
    · cases hs
      exact h
    · next hcont =>
      cases hs
      have hwaiting : ({ s with cont := none } : Sys o).waiting = s.waiting := by
        funext j
        unfold Sys.waiting Sys.timedOut
        rw [hcont]
      exact ⟨hwaiting ▸ h.balanced, h.settled, nofun, nofun⟩
    · next i hcont =>
      cases hs
      exact h.flush (h.responseerr i hcont).2 fun j rest hc => by rw [hcont] at hc; cases hc
    · next i rest hcont =>
      have hw : s.waiting i = none := by
        unfold Sys.waiting Sys.timedOut
        rw [hcont]
        exact if_pos (beq_self_eq_true i)
      have hflush := h.flush hw fun j rest' hc => by
        rw [hcont] at hc
        cases hc
        rfl
      exact dnsCheckEntries_tickets hflush rfl hs

end Steps

/-- No callback was invoked twice, and each request whose callback was not invoked is still asked
for. -/
def Kept (s : Sys o) : Prop :=
  s.invoked.Nodup ∧ ∀ t found arg, s.asked[t]? = some (found, arg) → t ∉ s.invoked →
    ∃ i, (s.dns.dns_table i).state = .ASKING ∧ (s.dns.dns_table i).found = some found ∧
      (s.dns.dns_table i).arg = arg ∧ (s.dns.dns_table i).ticket = t

/-- Balanced tickets are kept. -/
theorem Tickets.kept {s : Sys o} (h : Tickets s) : Kept s := by
  refine ⟨h.balanced.nodup, fun t found arg hr ht => ?_⟩
  obtain ⟨i, hi⟩ := h.balanced.waits hr ht
  unfold Sys.waiting at hi
  split at hi
  · cases hi
  · unfold Entry.waiting at hi
    split at hi
    · next hst =>
      obtain ⟨f, hf, heq⟩ := Option.map_eq_some_iff.mp hi
      cases heq
      exact ⟨i, hst, hf, rfl, rfl⟩
    · cases hi

/-- In every run whose calls from the callback of an error response leave the entry of the response
alone, no callback is invoked twice, and no request is dropped. -/
theorem found_callback_once (o : Opts) (es : List Event) (h : Along (step o) (Keeps o) {} es) :
    Always (step o) Kept {} es := by
  have hinit : Tickets ({} : Sys o) :=
    ⟨.init fun i => (by rfl), fun i => nofun, nofun, nofun⟩
  rintro es' es'' s rfl hr
  exact (run_invariant (fun s e s' hs hkeeps hstep => step_tickets hs hkeeps hstep) hinit
    h.left hr).kept

/-- The shipped options, for host names that are not addresses. -/
def Opts.names : Opts := { inet_addr := fun _ => INADDR_NONE }

/-- A request for the host name of one octet, with this callback. -/
def ask (name : UInt8) (found : ℕ) : Event :=
  .dns_gethostbyname { hostname := some [name], found := some found, arg := 0 }

/-- A response with an error to the query of this entry. -/
def nameError (id : UInt8) : Event :=
  .dns_recv { p := [0, id, 0x80, 3, 0, 1] ++ List.replicate 20 0 }

/-- Requests are taken, the first is answered with an error, and its callback asks for another
name. -/
def retryRun (names : List UInt8) : List Event :=
  .dns_init true :: names.map (ask · 1) ++ [nameError 0, ask 101 2, .ret]

/-- A run with three requests serves all of them. -/
theorem found_callback_once_retryRun :
    Always (step Opts.names) Kept {} (retryRun [97, 98, 99]) :=
  found_callback_once Opts.names _ (by decide +kernel)

/-- With a full table the new request takes the entry of the error response, and is flushed with it:
its callback is never invoked, and it is not asked for. -/
theorem retryRun_drops_a_request : ¬ ∀ es, Always (step Opts.names) Kept {} es := by
  intro h
  obtain ⟨s, hr, hasked, hnot, hlost⟩ :
      ∃ s, run (step Opts.names) {} (retryRun [97, 98, 99, 100]) = .ok s ∧
        s.asked[4]? = some (2, 0) ∧ 4 ∉ s.invoked ∧
        ∀ i, (s.dns.dns_table i).ticket = 4 → (s.dns.dns_table i).state ≠ .ASKING :=
    exists_of_any (by decide +kernel)
  obtain ⟨i, hst, -, -, ht⟩ :=
    (h (retryRun [97, 98, 99, 100]) _ [] s (List.append_nil _).symm hr).2 4 2 0 hasked hnot
  exact hlost i ht hst

end Lwip.Dns
