import Lwip.Netif.ArpRun

/-!
# Snooped addresses

A received IP packet, and an ARP packet for someone else, update the ARP table without
`ETHARP_TRY_HARD`. The description of `update_arp_entry` says that only existing entries are updated
then. `find_entry` does not recycle an entry without that flag, but it makes a new one of an empty
entry, so the addresses in the table stay the same only if there is an entry for the sender already,
or no empty one (`snooping_inserts`).
-/

namespace Lwip.Netif

variable {n : ℕ} {s s' : Etharp n} {t : Fin n → EtharpEntry} {ipaddr : IpAddr} {i j : Fin n}

/-- The IP addresses that have an entry. -/
def knownAddrs (s : Etharp n) : Set IpAddr :=
  {a | ∃ i, (s.arp_table i).state ≠ .EMPTY ∧ (s.arp_table i).ipaddr = a}

/-- There is no empty entry. -/
def NoneEmpty (s : Etharp n) : Prop := ∀ i, (s.arp_table i).state ≠ .EMPTY

/-! ## Finding without `ETHARP_TRY_HARD` -/

/-- The sweep remembers an empty entry, if there is one. -/
theorem findLoop_empty {ip : Option IpAddr} {c c' : Candidates n} (is : List (Fin n))
    (hrun : findLoop ip t is c = .inr c') (h : c.empty ≠ none ∨ ∃ i ∈ is, (t i).state = .EMPTY) :
    c'.empty ≠ none := by
  induction is generalizing c with
  | nil =>
    obtain rfl := Sum.inr.inj hrun
    exact h.resolve_right fun ⟨i, hi, _⟩ => by cases hi
  | cons i is ih =>
    unfold findLoop at hrun
    split at hrun
    · cases hrun
    · refine ih hrun ?_
      -- What is remembered stays, and an empty entry is remembered if nothing was.
      by_cases hc : c.empty = none
      · obtain ⟨j, hj, hempty⟩ := h.resolve_left fun hne => hne hc
        rcases List.mem_cons.mp hj with rfl | hj
        · left
          unfold Candidates.note
          rw [if_pos ⟨hc, hempty⟩]
          exact Option.some_ne_none j
        · exact .inr ⟨j, hj, hempty⟩
      · left
        unfold Candidates.note
        rw [if_neg fun hn => hc hn.1]
        split
        · exact hc
        · split <;> split <;> exact hc
        · split <;> exact hc

/-- What `find_entry` does without flags: it finds the entry of the address, or makes one of an
empty entry, or there is neither. -/
inductive Snooped (ipaddr : IpAddr) (s : Etharp n) :
    Except Abort (Option (Fin n) × Etharp n) → Prop where
  | found (i : Fin n) (s' : Etharp n) : (s.arp_table i).state ≠ .EMPTY →
    (s.arp_table i).ipaddr = ipaddr →
      s'.arp_table = s.arp_table → Snooped ipaddr s (.ok (some i, s'))
  | made (i : Fin n) : ipaddr ∉ knownAddrs s → (s.arp_table i).state = .EMPTY →
      Snooped ipaddr s (.ok (some i, newEntry (some ipaddr) i s))
  | none : ipaddr ∉ knownAddrs s → NoneEmpty s → Snooped ipaddr s (.ok (none, s))

/-- A search that is not hard takes an empty entry at most. -/
theorem findEntry_snooped (ipaddr : IpAddr) (s : Etharp n) :
    Snooped ipaddr s (findEntry (some ipaddr) {} s) := by
  unfold findEntry
  split
  · next hhit =>
    unfold cacheHit at hhit
    rw [Bool.and_eq_true, decide_eq_true_eq, decide_eq_true_eq] at hhit
    exact .found _ s (by rw [hhit.1]; decide) (Option.some.inj hhit.2).symm rfl
  · unfold findEntryScan
    have hspec := @findLoop_spec n s.arp_table (some ipaddr) {} (List.finRange n)
      Candidates.sound_none
    cases hres : findLoop (some ipaddr) s.arp_table (List.finRange n) {} with
    | inl i =>
      rw [hres] at hspec
      obtain ⟨hstate, hip⟩ := isFor_iff.mp hspec
      exact .found i _ hstate (Option.some.inj hip).symm rfl
    | inr c =>
      rw [hres] at hspec
      obtain ⟨hno, hsound, -⟩ := hspec
      have hunknown : ipaddr ∉ knownAddrs s := by
        rintro ⟨i, hstate, rfl⟩
        have hfor := isFor_iff.mpr ⟨hstate, rfl⟩
        rw [hno i (List.mem_finRange i)] at hfor
        cases hfor
      dsimp only
      cases hempty : c.empty with
      | none =>
        rw [if_pos (.inl ⟨rfl, rfl⟩)]
        refine .none hunknown fun i hi => ?_
        exact findLoop_empty (List.finRange n) hres (.inr ⟨i, List.mem_finRange i, hi⟩) hempty
      | some i =>
        rw [if_neg (by simp)]
        unfold recycle
        rw [hempty]
        exact .made i hunknown (hsound.empty i hempty)

/-! ## The addresses in the table -/

/-- An entry is assigned that has an address already. -/
theorem knownAddrs_set {e : EtharpEntry} (hi : (s.arp_table i).state ≠ .EMPTY)
    (he : e.state ≠ .EMPTY)
    (hip : e.ipaddr = (s.arp_table i).ipaddr) : knownAddrs (s.set i e) = knownAddrs s := by
  ext a
  constructor
  · rintro ⟨j, hstate, hj⟩
    by_cases hji : j = i
    · rw [hji, Etharp.set_self] at hj
      exact ⟨i, hi, hip.symm.trans hj⟩
    · rw [Etharp.set_of_ne _ hji] at hstate hj
      exact ⟨j, hstate, hj⟩
  · rintro ⟨j, hstate, hj⟩
    by_cases hji : j = i
    · subst hji
      exact ⟨j, by rwa [Etharp.set_self], by rw [Etharp.set_self]; exact hip.trans hj⟩
    · exact ⟨j, by rwa [Etharp.set_of_ne _ hji], by rwa [Etharp.set_of_ne _ hji]⟩

/-- The addresses depend on the table only. -/
theorem knownAddrs_congr (h : s'.arp_table = s.arp_table) : knownAddrs s' = knownAddrs s := by
  unfold knownAddrs
  rw [h]

/-- The address that was assigned is known. -/
theorem mem_knownAddrs_set {e : EtharpEntry} (he : e.state ≠ .EMPTY) (hip : e.ipaddr = ipaddr) :
    ipaddr ∈ knownAddrs (s.set i e) :=
  ⟨i, by rwa [Etharp.set_self], by rwa [Etharp.set_self]⟩

/-- `update_arp_entry` without flags. -/
theorem updateArpEntry_addrs (netif : NetIf) (ipaddr : IpAddr) (ethaddr : EthAddr) (s : Etharp n) :
    ∃ r, updateArpEntry netif ipaddr ethaddr {} s = .ok r ∧
      (knownAddrs r.2.1 = knownAddrs s ↔
        nonUnicast ipaddr netif = true ∨ ipaddr ∈ knownAddrs s ∨ NoneEmpty s) := by
  unfold updateArpEntry
  split
  · next hnon => exact ⟨_, rfl, iff_of_true rfl (.inl hnon)⟩
  next hnon =>
  have hfind := findEntry_snooped ipaddr s
  generalize findEntry (some ipaddr) {} s = x at hfind
  cases hfind with
  | found i s' hstate hip htable =>
    refine ⟨_, rfl, iff_of_true ?_ (.inr (.inl ⟨i, hstate, hip⟩))⟩
    rw [← knownAddrs_congr htable]
    exact knownAddrs_set (by rwa [htable]) EtharpState.noConfusion rfl
  | made i hunknown hempty =>
    refine ⟨_, rfl, iff_of_false (fun hsame => hunknown ?_) ?_⟩
    · rw [← hsame]
      exact mem_knownAddrs_set EtharpState.noConfusion (by simp [newEntry, Etharp.set])
    · rintro (h | h | h)
      · exact hnon h
      · exact hunknown h
      · exact h i hempty
  | none hunknown hfull => exact ⟨_, rfl, iff_of_true rfl (.inr (.inr hfull))⟩

/-! ## Received packets -/

/-- An IP packet, or an ARP packet that is not for this host, stops at no assertion, and leaves the
set of the addresses in the table as it is exactly when its sender is not looked up, has an entry
already, or no entry is empty. -/
theorem snooping_inserts (netif : NetIf) (s : Etharp n) :
    (∀ p : IpFrame, ∃ r, etharpIpInput netif p s = .ok r ∧
      (knownAddrs r.1 = knownAddrs s ↔
        ipAddrNetcmp p.src netif.ip_addr netif.netmask = false ∨ nonUnicast p.src netif = true ∨
          p.src ∈ knownAddrs s ∨ NoneEmpty s)) ∧
    ∀ (ethaddr : EthAddr) (p : ArpPacket), netif.ip_addr = 0 ∨ p.hdr.dipaddr ≠ netif.ip_addr →
      ∃ r, etharpArpInput netif ethaddr p s = .ok r ∧
        (knownAddrs r.1 = knownAddrs s ↔
          p.wellFormed = false ∨ nonUnicast p.hdr.sipaddr netif = true ∨
            p.hdr.sipaddr ∈ knownAddrs s ∨ NoneEmpty s) := by
  constructor
  · intro p
    obtain ⟨r, hr, haddrs⟩ := updateArpEntry_addrs netif p.src p.ethsrc s
    unfold etharpIpInput
    cases hlocal : ipAddrNetcmp p.src netif.ip_addr netif.netmask with
    | false => exact ⟨_, rfl, iff_of_true rfl (.inl rfl)⟩
    | true =>
      rw [hr]
      exact ⟨r.2, rfl, haddrs.trans (by simp)⟩
  · intro ethaddr p hother
    obtain ⟨r, hr, haddrs⟩ := updateArpEntry_addrs netif p.hdr.sipaddr p.hdr.shwaddr s
    unfold etharpArpInput
    cases hwf : p.wellFormed with
    | false => exact ⟨_, rfl, iff_of_true rfl (.inl rfl)⟩
    | true =>
      have hforus : (decide (netif.ip_addr ≠ 0) && decide (p.hdr.dipaddr = netif.ip_addr)) =
          false := by
        rcases hother with h | h
        · simp [h]
        · simp [h]
      dsimp only [bind, Except.bind]
      rw [if_neg (by simp), hforus, hr]
      dsimp only
      rw [if_neg (by simp)]
      exact ⟨r.2, rfl, haddrs.trans (by simp)⟩

/-- A request of one neighbour for another. -/
def exampleGossip : ArpPacket where
  hdr := { opcode := 1, shwaddr := ⟨#[2, 0, 0, 0, 0, 9].toVector⟩, sipaddr := 0x0a000009,
           dhwaddr := ethzero, dipaddr := 0x0a000007 }

/-- A table with one entry, which is taken. -/
def exampleFull : Etharp 1 := ⟨fun _ => { ipaddr := 0x0a000007, state := .STABLE }, 0⟩

/-- A full table learns nothing from the example. -/
theorem snooping_inserts_exampleFull :
    ∃ r, etharpArpInput exampleNetif exampleNetif.hwaddr exampleGossip exampleFull = .ok r ∧
      knownAddrs r.1 = knownAddrs exampleFull := by
  obtain ⟨r, hr, haddrs⟩ :=
    (snooping_inserts exampleNetif exampleFull).2 exampleNetif.hwaddr exampleGossip (by decide)
  exact ⟨r, hr, haddrs.mpr (.inr (.inr (.inr fun i => by simp [exampleFull])))⟩

/-- In the table before the first packet there is then an entry for the neighbour that asked for
another, and for one that has sent an IP packet to anyone. -/
theorem snooping_inserts_stranger :
    (∃ r, etharpArpInput exampleNetif exampleNetif.hwaddr exampleGossip (Etharp.init 10) = .ok r ∧
      0x0a000009 ∈ knownAddrs r.1) ∧
    (∃ r, etharpIpInput exampleNetif ⟨⟨#v[2, 0, 0, 0, 0, 9]⟩, 0x0a000009⟩ (Etharp.init 10) = .ok r ∧
      0x0a000009 ∈ knownAddrs r.1) ∧
    0x0a000009 ∉ knownAddrs (Etharp.init 10) :=
  ⟨⟨_, rfl, 0, by decide, by decide⟩, ⟨_, rfl, 0, by decide, by decide⟩,
    fun ⟨_, hstate, _⟩ => hstate rfl⟩

end Lwip.Netif
