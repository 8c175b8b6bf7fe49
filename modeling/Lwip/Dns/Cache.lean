import Lwip.Dns.Callbacks

/-!
# The cache

An entry in the state `DONE` answers lookups. `Backed` says that its address is one that a response
for its name carried, and that the time to live of that record, capped by `DNS_MAX_TTL`, is not
over. This is kept by every event, but for a record that expires at once, for a walk over the
answers that leaves the record structure of the response (`PlainAnswer`), and for a lookup from the
callback of an error response, which finds the entry of that response before it is flushed
(`NoStaleLookup`).
-/

namespace Lwip.Dns

variable {o : Opts}

def Event.datagram : Event → Option Datagram
  | .dns_recv m => some m
  | _ => none

/-- The name is neither an address nor `localhost`. -/
def Ordinary (o : Opts) (name : List UInt8) : Prop :=
  ¬ (o.LWIP_HAVE_LOOPIF = true ∧ name = localhost) ∧ o.inet_addr name = INADDR_NONE

instance (name : List UInt8) : Decidable (Ordinary o name) := inferInstanceAs (Decidable (_ ∧ _))

/-- A response whose answers are read is plain. -/
def PlainAnswer (s : Sys o) (e : Event) : Prop :=
  ∀ m ∈ e.datagram, s.cont.isNone = true → ∀ i : Fin o.DNS_TABLE_SIZE, i.val = m.id →
    (s.dns.dns_table i).state = .ASKING → m.responds = true →
    m.compare (s.dns.dns_table i).name = some false →
    plainMessage o.DNS_MAX_TTL m.nanswers m.p = true

/-- The entry is the first completed one of this name. -/
def Finds (s : Resolver o) (name : List UInt8) (i : Fin o.DNS_TABLE_SIZE) : Prop :=
  (s.dns_table i).state = .DONE ∧ (s.dns_table i).name = name ∧
    ∀ j < i, ¬ ((s.dns_table j).state = .DONE ∧ (s.dns_table j).name = name)

instance (s : Resolver o) (name : List UInt8) (i : Fin o.DNS_TABLE_SIZE) :
    Decidable (Finds s name i) :=
  inferInstanceAs (Decidable (_ ∧ _))

/-- A lookup from the callback of an error response does not find the entry of that response. -/
def NoStaleLookup (s : Sys o) (e : Event) : Prop :=
  ∀ i ∈ s.failing, ∀ q ∈ e.request, ∀ name ∈ q.hostname, Ordinary o name → Finds s.dns name i →
    (s.dns.dns_table i).ipaddr = INADDR_NONE

def CacheFits (o : Opts) (s : Sys o) (e : Event) : Prop := PlainAnswer s e ∧ NoStaleLookup s e

instance (s : Sys o) (e : Event) : Decidable (CacheFits o s e) :=
  have : Decidable (PlainAnswer s e) := inferInstanceAs (Decidable (∀ m ∈ e.datagram, _ → _))
  have : Decidable (NoStaleLookup s e) :=
    inferInstanceAs (Decidable (∀ i ∈ s.failing, ∀ q ∈ e.request, ∀ name ∈ q.hostname, _ → _))
  inferInstanceAs (Decidable (_ ∧ _))

/-- An address that `dns_gethostbyname` returns for an ordinary name was carried by a response to a
query of this name, which arrived at most the time to live of its record ago. -/
def Answered (o : Opts) (s : Sys o) (e : Event) : Prop :=
  ∀ q ∈ e.request, ∀ name ∈ q.hostname, Ordinary o name →
    ∀ dns addr, dnsGethostbyname s.dns s.asked.length q = .ok (dns, .OK, addr) →
      ∃ r ∈ s.accepted, r.name = name ∧ ∃ rr, Carries r.p rr ∧ rr.ipaddr = addr ∧
        r.tick ≤ s.ticks ∧ s.ticks - r.tick ≤ min rr.ttl o.DNS_MAX_TTL

/-! ## The invariant -/

/-- The entries that the tick has yet to check. -/
def Sys.unchecked (s : Sys o) : List (Fin o.DNS_TABLE_SIZE) :=
  match s.cont with
  | some (.timeout _ rest) => rest
  | _ => []

/-- A completed entry holds what a response brought; `due` is 1 if the current tick has yet to age
it. -/
def Backed (s : Sys o) (due : ℕ) (e : Entry) : Prop :=
  ∃ r ∈ s.accepted, r.name = e.name ∧ ∃ rr, Carries r.p rr ∧ rr.ipaddr = e.ipaddr ∧
    r.tick ≤ s.ticks ∧ 1 ≤ e.ttl ∧ e.ttl + (s.ticks - r.tick) ≤ min rr.ttl o.DNS_MAX_TTL + due

/-- The completed entries are backed, all but the one whose error is being reported. -/
structure Cached (s : Sys o) (rest : List (Fin o.DNS_TABLE_SIZE)) : Prop where
  backed : ∀ i, (s.dns.dns_table i).state = .DONE → i ∉ s.failing →
    Backed s (if i ∈ rest then 1 else 0) (s.dns.dns_table i)
  nodup : rest.Nodup

/-- Only the entry `i` changes. -/
theorem Cached.only {s : Sys o} {i : Fin o.DNS_TABLE_SIZE} {rest : List (Fin o.DNS_TABLE_SIZE)}
    (h : Cached s rest) (s' : Sys o) (honly : OnlyEntry i s.dns s'.dns)
    (hfailing : ∀ j, j ≠ i → j ∉ s'.failing → j ∉ s.failing) (haccepted : s.accepted ⊆ s'.accepted)
    (hticks : s'.ticks = s.ticks) (hi : (s'.dns.dns_table i).state = .DONE → i ∉ s'.failing →
      Backed s' (if i ∈ rest then 1 else 0) (s'.dns.dns_table i)) : Cached s' rest where
  backed j hj hjf := by
    by_cases hji : j = i
    · subst hji
      exact hi hj hjf
    · rw [honly j hji] at hj ⊢
      obtain ⟨r, hr, hname, rr, hcarries, haddr, htick, hpos, hle⟩ :=
        h.backed j hj (hfailing j hji hjf)
      refine ⟨r, haccepted hr, hname, rr, hcarries, haddr, ?_, hpos, ?_⟩
      · rw [hticks]
        exact htick
      · rw [hticks]
        exact hle
  nodup := h.nodup

/-- `dns_check_entry` ages a completed entry, and completes none. -/
theorem dnsCheckEntry_done {s s' : Resolver o} {i : Fin o.DNS_TABLE_SIZE} {call : Bool}
    (h : dnsCheckEntry s i = .ok (s', call)) :
    OnlyEntry i s s' ∧ ((s'.dns_table i).state = .DONE → (s.dns_table i).state = .DONE ∧
      (s'.dns_table i).name = (s.dns_table i).name ∧
      (s'.dns_table i).ipaddr = (s.dns_table i).ipaddr ∧
      (s'.dns_table i).ttl = ((s.dns_table i).ttl + (2^32 - 1)) % 2^32 ∧
      (s'.dns_table i).ttl ≠ 0) := by
  have hset : ∀ e : Entry, e.state ≠ .DONE → OnlyEntry i s (s.set i e) ∧
      (((s.set i e).dns_table i).state = .DONE → (s.dns_table i).state = .DONE ∧
        ((s.set i e).dns_table i).name = (s.dns_table i).name ∧
        ((s.set i e).dns_table i).ipaddr = (s.dns_table i).ipaddr ∧
        ((s.set i e).dns_table i).ttl = ((s.dns_table i).ttl + (2^32 - 1)) % 2^32 ∧
        ((s.set i e).dns_table i).ttl ≠ 0) := by
    intro e he
    refine ⟨onlyEntry_set s i e, fun hd => ?_⟩
    rw [Resolver.set_self] at hd
    exact absurd hd he
  have hflush : ∀ e : Entry, OnlyEntry i s (dnsFlush (s.set i e) i) ∧
      ((dnsFlush (s.set i e) i).dns_table i).state ≠ .DONE := by
    intro e
    refine ⟨(onlyEntry_set s i e).trans (onlyEntry_flush _ i), ?_⟩
    rw [dnsFlush_state]
    decide
  unfold dnsCheckEntry at h
  dsimp only at h
  split at h
  · obtain ⟨_, -, h⟩ := bind_eq_ok.mp h
    cases h
    exact hset _ nofun
  · next hst =>
    have hne : (s.dns_table i).state ≠ .DONE := by
      rw [hst]
      decide
    split at h
    · split at h
      · split at h
        · cases h
          exact hset _ hne
        · split at h
          · cases h
            exact hset _ hne
          · cases h
            exact ⟨(hflush _).1, fun hd => absurd hd (hflush _).2⟩
      · obtain ⟨_, -, h⟩ := bind_eq_ok.mp h
        cases h
        exact hset _ hne
    · cases h
      exact hset _ hne
  · next hst =>
    split at h
    · cases h
      exact ⟨(hflush _).1, fun hd => absurd hd (hflush _).2⟩
    · next httl =>
      cases h
      refine ⟨onlyEntry_set s i _, fun _ => ?_⟩
      rw [Resolver.set_self]
      exact ⟨hst, rfl, rfl, rfl, httl⟩
  · next hst =>
    cases h
    refine ⟨fun _ _ => rfl, fun hd => ?_⟩
    rw [hst] at hd
    cases hd

section Steps

variable {s s' : Sys o} {i : Fin o.DNS_TABLE_SIZE}

/-- Between two events no response has failed. -/
theorem Sys.failing_of_cont (h : s.cont = none) : s.failing = none := by
  unfold Sys.failing
  rw [h]

/-- The rest of a tick. -/
theorem dnsCheckEntries_cached {rest : List (Fin o.DNS_TABLE_SIZE)} (h : Cached s rest)
    (hcont : s.cont = none) (hs : dnsCheckEntries s rest = .ok s') : Cached s' s'.unchecked := by
  induction rest generalizing s with
  | nil =>
    cases hs
    unfold Sys.unchecked
    rw [hcont]
    exact h
  | cons i rest ih =>
    obtain ⟨⟨dns, call⟩, hcheck, hs⟩ := bind_eq_ok.mp hs
    obtain ⟨honly, hdone⟩ := dnsCheckEntry_done hcheck
    obtain ⟨hi, hnodup⟩ := List.nodup_cons.mp h.nodup
    -- The entry is a second older, and the others wait for their turn as before.
    have hnext : ∀ s₁ : Sys o, s₁.dns = dns → s₁.failing = none → s₁.accepted = s.accepted →
        s₁.ticks = s.ticks → Cached s₁ rest := by
      intro s₁ hdns hfailing haccepted hticks
      refine ⟨fun j hj _ => ?_, hnodup⟩
      rw [hdns] at hj ⊢
      by_cases hji : j = i
      · subst hji
        obtain ⟨hst, hname, haddr, httl, hne⟩ := hdone hj
        obtain ⟨r, hr, hrname, rr, hcarries, hraddr, htick, hpos, hle⟩ := h.backed j hst (by
          rw [Sys.failing_of_cont hcont]
          nofun)
        rw [if_pos List.mem_cons_self] at hle
        rw [if_neg hi]
        refine ⟨r, haccepted ▸ hr, hname ▸ hrname, rr, hcarries, haddr ▸ hraddr, hticks ▸ htick,
          Nat.pos_of_ne_zero hne, ?_⟩
        rw [hticks, httl]
        have : ((s.dns.dns_table j).ttl + (2^32 - 1)) % 2^32 ≤ (s.dns.dns_table j).ttl - 1 := by
          have hshift : (s.dns.dns_table j).ttl + (2^32 - 1) = (s.dns.dns_table j).ttl - 1 +
              2^32 := by omega
          rw [hshift, Nat.add_mod_right]
          exact Nat.mod_le _ _
        omega
      · rw [honly j hji] at hj ⊢
        have hmem : (j ∈ i :: rest) = (j ∈ rest) := by
          rw [List.mem_cons]
          exact propext (or_iff_right hji)
        obtain ⟨r, hr, hrname, rr, hcarries, hraddr, htick, hpos, hle⟩ := h.backed j hj (by
          rw [Sys.failing_of_cont hcont]
          nofun)
        simp only [hmem] at hle
        refine ⟨r, haccepted ▸ hr, hrname, rr, hcarries, hraddr, hticks ▸ htick, hpos, ?_⟩
        rw [hticks]
        exact hle
    dsimp only at hs
    split at hs
    · cases hs
      exact hnext (s.invoke dns i (.timeout i rest)) rfl rfl rfl rfl
    · exact ih (hnext { s with dns } rfl (Sys.failing_of_cont hcont) rfl rfl) hcont hs

/-- `dns_lookup` gives the address of the first completed entry of the name. -/
theorem dnsLookup_finds {dns : Resolver o} {name : List UInt8}
    (h : dnsLookup dns name ≠ INADDR_NONE) :
    ∃ i, Finds dns name i ∧ dnsLookup dns name = (dns.dns_table i).ipaddr := by
  unfold dnsLookup at h ⊢
  split at h
  · next i hfind =>
    obtain ⟨hi, as, bs, hsplit, hbefore⟩ := List.find?_eq_some_iff_append.mp hfind
    obtain ⟨hst, hname⟩ := of_decide_eq_true hi
    refine ⟨i, ⟨hst, hname, fun j hj hdone => ?_⟩, rfl⟩
    -- The entries before it are not completed entries of the name.
    have hsorted := List.pairwise_lt_finRange o.DNS_TABLE_SIZE
    rw [hsplit] at hsorted
    have hmem : j ∈ as ++ i :: bs := hsplit ▸ List.mem_finRange j
    obtain hmem | hmem := List.mem_append.mp hmem
    · have := hbefore j hmem
      rw [decide_eq_true hdone] at this
      cases this
    · obtain rfl | hmem := List.mem_cons.mp hmem
      · exact lt_irrefl j hj
      · have hafter := (List.pairwise_cons.mp (List.pairwise_append.mp hsorted).2.1).1 j hmem
        exact lt_asymm hj hafter
  · exact absurd rfl h

/-- An address that is returned for an ordinary name is that of an entry. -/
theorem dnsGethostbyname_ok {dns : Resolver o} {ticket : ℕ} {q : Request} {name : List UInt8}
    {addr : BitVec 32} {dns' : Resolver o} (hname : q.hostname = some name) (hord : Ordinary o name)
    (h : dnsGethostbyname dns ticket q = .ok (dns', .OK, addr)) :
    addr = dnsLookup dns name ∧ dnsLookup dns name ≠ INADDR_NONE := by
  unfold dnsGethostbyname at h
  rw [hname] at h
  dsimp only at h
  split at h
  · cases h
  split at h
  · next hloop => exact absurd hloop hord.1
  split at h
  · next hinet => exact absurd hord.2 hinet
  split at h
  · next hlookup =>
    cases h
    exact ⟨rfl, hlookup⟩
  · obtain ⟨⟨dns₁, err⟩, henq, h⟩ := bind_eq_ok.mp h
    cases h
    unfold dnsEnqueue at henq
    split at henq
    · cases henq
    · obtain ⟨_, -, henq⟩ := bind_eq_ok.mp henq
      cases henq

/-- What the cache answers is backed. -/
theorem Cached.answered {e : Event} (h : Cached s s.unchecked) (hfits : NoStaleLookup s e) :
    Answered o s e := by
  intro q hq name hname hord dns addr hget
  obtain ⟨rfl, hne⟩ := dnsGethostbyname_ok hname hord hget
  obtain ⟨i, hfinds, haddr⟩ := dnsLookup_finds hne
  rw [haddr] at hne ⊢
  have hok : i ∉ s.failing := fun hi => hne (hfits i hi q hq name hname hord hfinds)
  obtain ⟨r, hr, hrname, rr, hcarries, hraddr, htick, hpos, hle⟩ := h.backed i hfinds.1 hok
  refine ⟨r, hr, hrname.trans hfinds.2.1, rr, hcarries, hraddr, htick, ?_⟩
  split at hle <;> omega

/-- The record that `dns_recv` takes from a plain response is one that the response carries. -/
theorem Datagram.answer_carries {m : Datagram} {maxTtl : ℕ} {rr : ARecord}
    (hplain : plainMessage maxTtl m.nanswers m.p = true) (h : m.answer = some (some rr)) :
    Carries m.p rr ∧ min rr.ttl maxTtl ≠ 0 := by
  unfold Datagram.answer at h
  obtain ⟨rest, hparse, hwalk⟩ := Option.bind_eq_some_iff.mp h
  exact plainMessage_carries hplain (Nat.mod_le _ _) hparse hwalk

/-- The table and what goes on stay as they are. -/
theorem Cached.of_table {rest : List (Fin o.DNS_TABLE_SIZE)} (h : Cached s rest)
    (htable : s'.dns.dns_table = s.dns.dns_table) (hfailing : s'.failing = s.failing)
    (haccepted : s'.accepted = s.accepted) (hticks : s'.ticks = s.ticks) : Cached s' rest where
  backed i hi hf := by
    rw [htable] at hi ⊢
    rw [hfailing] at hf
    have hb := h.backed i hi hf
    unfold Backed at hb ⊢
    rw [haccepted, hticks]
    exact hb
  nodup := h.nodup

/-- A response completes an entry. -/
theorem dnsRecvEntry_cached {m : Datagram} {dns : Resolver o} {ans : Option ARecord}
    (h : Cached s []) (hcont : s.cont = none) (honly : OnlyEntry i s.dns dns)
    (hans : ∀ rr, ans = some rr → Carries m.p rr ∧ min rr.ttl o.DNS_MAX_TTL ≠ 0 ∧
      (dns.dns_table i).ttl = min rr.ttl o.DNS_MAX_TTL ∧ (dns.dns_table i).ipaddr = rr.ipaddr) :
    Cached (dnsRecvEntry s m dns i ans) [] := by
  have hfailing : s.failing = none := Sys.failing_of_cont hcont
  have hnot : ∀ j : Fin o.DNS_TABLE_SIZE, j ∉ s.failing := fun j => by
    rw [hfailing]
    nofun
  unfold dnsRecvEntry
  split
  · next rr =>
    obtain ⟨hcarries, hne, httl, haddr⟩ := hans rr rfl
    dsimp only
    set s₁ : Sys o := { s with
      accepted := s.accepted ++ [.mk (dns.dns_table i).name m.p s.ticks] } with hs₁
    have hsub : s.accepted ⊆ s₁.accepted := List.subset_append_left _ _
    have hnew : ∀ s₂ : Sys o, s₂.accepted = s₁.accepted → s₂.ticks = s.ticks →
        Backed s₂ (if i ∈ ([] : List (Fin o.DNS_TABLE_SIZE)) then 1 else 0) (dns.dns_table i) := by
      intro s₂ haccepted hticks
      refine ⟨.mk (dns.dns_table i).name m.p s.ticks, ?_, rfl, rr, hcarries, haddr.symm, ?_, ?_, ?_⟩
      · rw [haccepted]
        exact List.mem_append_right _ List.mem_cons_self
      · exact hticks.ge
      · rw [httl]
        omega
      · rw [httl, hticks, Nat.sub_self]
        exact Nat.le_add_right _ _
    split
    · exact h.only (s₁.invoke dns i .memerr2) honly (fun j _ _ => hnot j) hsub rfl
        fun _ _ => hnew _ rfl rfl
    · exact h.only { s₁ with dns } honly (fun j _ _ => hnot j) hsub rfl fun _ _ => hnew _ rfl rfl
  · split
    · exact h.only (s.invoke dns i (.responseerr i)) honly (fun j _ _ => hnot j)
        (List.Subset.refl _) rfl fun _ hf => absurd rfl hf
    · refine h.only { s with dns := dnsFlush dns i } (honly.trans (onlyEntry_flush dns i))
        (fun j _ _ => hnot j) (List.Subset.refl _) rfl fun hd _ => ?_
      have hflushed := dnsFlush_state dns i
      exact absurd (hd.symm.trans hflushed) (by decide)

/-- One event. -/
theorem step_cached {e : Event} (h : Cached s s.unchecked) (hfits : PlainAnswer s e)
    (hs : step o s e = .ok s') : Cached s' s'.unchecked := by
  have hrest : s.cont = none → Cached s [] := fun hcont => by
    unfold Sys.unchecked at h
    rw [hcont] at h
    exact h
  unfold step at hs
  split at hs
  · cases hs
    exact h.of_table (dnsInit_table _ _) rfl rfl rfl
  · cases hs
    exact h.of_table (dnsSetserver_table _ _ _) rfl rfl rfl
  · next q =>
    obtain ⟨⟨dns, err, addr⟩, hget, hs⟩ := bind_eq_ok.mp hs
    cases hs
    obtain ⟨-, rfl⟩ | ⟨-, -, i, name, -, -, honly, hi⟩ := dnsGethostbyname_eq_ok hget
    · exact h.of_table rfl rfl rfl rfl
    · refine h.only _ honly (fun j _ hj => hj) (List.Subset.refl _) rfl fun hd _ => ?_
      change (dns.dns_table i).state = .DONE at hd
      rw [hi] at hd
      cases hd
  · next m =>
    split at hs
    · cases hs
      exact h
    · next hcont =>
      split at hs
      · obtain ⟨⟨dns, r⟩, hrecv, hs⟩ := bind_eq_ok.mp hs
        obtain ⟨rfl, rfl⟩ | ⟨i, ans, rfl, hid, honly, hst, hi⟩ := dnsRecv_eq_ok hrecv
        · cases hs
          exact h
        · cases hs
          have hcached : Cached (dnsRecvEntry s m dns i ans) [] := by
            refine dnsRecvEntry_cached (hrest hcont) hcont honly fun rr hrr => ?_
            subst hrr
            obtain ⟨-, hresponds, hcompare, hanswer, hi⟩ := hi
            have hplain := hfits m rfl (Option.isNone_iff_eq_none.mpr hcont) i
              hid hst hresponds hcompare
            obtain ⟨hcarries, hne⟩ := Datagram.answer_carries hplain hanswer
            exact ⟨hcarries, hne, by rw [hi], by rw [hi]⟩
          have hnone : (dnsRecvEntry s m dns i ans).unchecked = [] := by
            unfold dnsRecvEntry Sys.unchecked Sys.invoke
            cases ans with
            | none =>
              dsimp only
              split_ifs
              · rfl
              · dsimp only
                rw [hcont]
            | some rr =>
              dsimp only
              split_ifs
              · rfl
              · dsimp only
                rw [hcont]
          rw [hnone]
          exact hcached
      · cases hs
        exact h
  · split at hs
    · cases hs
      exact h
    · next hcont =>
      -- All entries are a second older from now on.
      have hticked : Cached { s with ticks := s.ticks + 1 } (List.finRange o.DNS_TABLE_SIZE) := by
        refine ⟨fun i hi hf => ?_, List.nodup_finRange _⟩
        obtain ⟨r, hr, hname, rr, hcarries, haddr, htick, hpos, hle⟩ := (hrest hcont).backed i hi hf
        rw [if_neg List.not_mem_nil] at hle
        rw [if_pos (List.mem_finRange i)]
        refine ⟨r, hr, hname, rr, hcarries, haddr, Nat.le_succ_of_le htick, hpos, ?_⟩
        dsimp only
        omega
      split at hs
      · exact dnsCheckEntries_cached hticked hcont hs
      · cases hs
        exact h
  · split at hs
    · cases hs
      exact h
    · next hcont =>
      cases hs
      have hsame : Cached s [] := by
        unfold Sys.unchecked at h
        rw [hcont] at h
        exact h
      refine hsame.of_table rfl ?_ rfl rfl
      unfold Sys.failing
      rw [hcont]
    · next i hcont =>
      cases hs
      have hsame : Cached s [] := by
        unfold Sys.unchecked at h
        rw [hcont] at h
        exact h
      refine hsame.only { s with dns := dnsFlush s.dns i, cont := none }
        (onlyEntry_flush s.dns i) (fun j hj _ hf => ?_) (List.Subset.refl _) rfl fun hd _ => ?_
      · unfold Sys.failing at hf
        rw [hcont] at hf
        exact hj (Option.some.inj hf).symm
      · exact absurd (hd.symm.trans (dnsFlush_state s.dns i)) (by decide)
    · next i rest hcont =>
      have hsame : Cached s rest := by
        unfold Sys.unchecked at h
        rw [hcont] at h
        exact h
      have hflushed := hsame.only { s with dns := dnsFlush s.dns i, cont := none }
        (onlyEntry_flush s.dns i) (fun j _ _ hf => ?_) (List.Subset.refl _) rfl fun hd _ =>
          absurd (hd.symm.trans (dnsFlush_state s.dns i)) (by decide)
      · exact dnsCheckEntries_cached hflushed rfl hs
      · unfold Sys.failing at hf
        rw [hcont] at hf
        cases hf

end Steps

/-- In every run whose responses are plain, and whose lookups from the callback of an error response
do not find the entry of that response, the cache answers with what a response carried, and not too
late. -/
theorem cache_sound (o : Opts) (es : List Event) (h : Along (step o) (CacheFits o) {} es) :
    Along (step o) (Answered o) {} es := by
  have hinit : Cached ({} : Sys o) ({} : Sys o).unchecked :=
    ⟨fun i hi => (by cases hi), List.nodup_nil⟩
  exact run_along (I := fun s => Cached s s.unchecked)
    (fun s e s' hs hfits hstep => step_cached hs hfits.1 hstep)
    (fun s e hs hfits => hs.answered hfits.2) hinit h

/-- A response with one A record, for the query of this entry and the host name of one octet. -/
def addressResponse (id name ttl a : UInt8) : Event :=
  .dns_recv { p := [0, id, 0x80, 0, 0, 1, 0, 1, 0, 0, 0, 0] ++ [1, name, 0, 0, 1, 0, 1] ++
    [0xc0, 12, 0, 1, 0, 1, 0, 0, 0, ttl, 0, 4, 10, 0, 0, a] }

/-- A name is resolved, and looked up at once and after a tick. -/
def resolveRun (ttl : UInt8) : List Event :=
  [.dns_init true, ask 97 1, addressResponse 0 97 ttl 7, ask 97 2, .ret, .dns_tmr, ask 97 3]

/-- A name is resolved, and the cache answers. -/
theorem cache_sound_resolveRun : Along (step Opts.names) (Answered Opts.names) {} (resolveRun 2) :=
  cache_sound Opts.names _ (by decide +kernel)

/-- The callback of an error response asks for the same name again, and is told that its address is
the one in the entry, 0.0.0.0 here, although no response gave one. -/
theorem retry_finds_no_address : ¬ ∀ es, Along (step Opts.names) (Answered Opts.names) {} es := by
  intro h
  obtain ⟨s, hr, hnone, hend⟩ : ∃ s, run (step Opts.names) {} [.dns_init true, ask 97 1,
      nameError 0] = .ok s ∧ s.accepted.isEmpty = true ∧
        (dnsGethostbyname s.dns s.asked.length { hostname := some [97], found := some 2, arg := 0 }
          ).toOption.any (fun r => decide (r.2 = (Err.OK, 0))) = true :=
    exists_of_any (by decide +kernel)
  have hanswered := ((h ([.dns_init true, ask 97 1, nameError 0] ++ [ask 97 2])).right hr).1
  obtain ⟨⟨dns, res⟩, hget, hres⟩ := exists_of_any hend
  cases hres
  obtain ⟨r, hr', -⟩ := hanswered _ rfl [97] rfl (by decide) dns 0 hget
  rw [List.isEmpty_iff.mp hnone] at hr'
  cases hr'

end Lwip.Dns
