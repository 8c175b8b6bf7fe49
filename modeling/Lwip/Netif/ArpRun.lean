import Lwip.Netif.ArpTable
import Mathlib.Data.List.TakeWhile

/-!
# Runs of the ARP code

Every event keeps the invariant of the table, and the only assertions that can fail are those about
a packet that has to wait for an address: that of `etharp_query` against packet queues, and those of
`pbuf_copy`, which copies the packet to a pbuf of the `tot_len` of the first pbuf that is not a
`PBUF_ROM` (`takeOver_eq_ok`, `etharpStep_spec`). So the table is right in all runs, and a run is
aborted at the first packet that has to wait for an address and cannot (`arp_table_right`).
-/

namespace Lwip.Netif

variable {n : ℕ}

section Step

variable {claims : List (IpAddr × EthAddr)} {s s' : Etharp n} {i : Fin n}

/-! ## Incoming packets -/

/-- `update_arp_entry` with a pair of addresses that was claimed. -/
theorem updateArpEntry_spec (h : TableInv claims s) (netif : NetIf) {ipaddr : IpAddr}
    {ethaddr : EthAddr} (flags : FindFlags) (hc : (ipaddr, ethaddr) ∈ claims) :
    ∃ r, updateArpEntry netif ipaddr ethaddr flags s = .ok r ∧ TableInv claims r.2.1 := by
  unfold updateArpEntry
  split
  · exact ⟨_, rfl, h⟩
  · obtain ⟨r, s', hfind, hfound, -⟩ := findEntry_spec h ipaddr flags
    rw [hfind]
    cases r with
    | none => exact ⟨_, rfl, hfound.inv⟩
    | some i =>
      have haddr : (s'.arp_table i).ipaddr = ipaddr := hfound.addr i rfl
      refine ⟨_, rfl, hfound.inv.set ?_ ?_ ?_⟩
      · intro _ j hj hst
        show (s'.arp_table j).ipaddr ≠ (s'.arp_table i).ipaddr
        rw [haddr]
        exact hfound.alone i rfl j hj hst
      · exact fun hne => absurd rfl hne
      · intro _
        show ((s'.arp_table i).ipaddr, ethaddr) ∈ claims
        rwa [haddr]

/-- An IP packet that comes in keeps the table right. -/
theorem etharpIpInput_spec (h : TableInv claims s) (netif : NetIf) (p : IpFrame)
    (hc : (p.src, p.ethsrc) ∈ claims) :
    ∃ r, etharpIpInput netif p s = .ok r ∧ TableInv claims r.1 := by
  unfold etharpIpInput
  split
  · exact ⟨_, rfl, h⟩
  · obtain ⟨r, hr, hinv⟩ := updateArpEntry_spec h netif {} hc
    rw [hr]
    exact ⟨_, rfl, hinv⟩

/-- An ARP packet that comes in keeps the table right. -/
theorem etharpArpInput_spec (h : TableInv claims s) (netif : NetIf) (ethaddr : EthAddr)
    (p : ArpPacket) (hc : p.wellFormed = true → (p.hdr.sipaddr, p.hdr.shwaddr) ∈ claims) :
    ∃ r, etharpArpInput netif ethaddr p s = .ok r ∧ TableInv claims r.1 := by
  unfold etharpArpInput
  cases hp : p.wellFormed with
  | false => exact ⟨_, rfl, h⟩
  | true =>
    obtain ⟨r, hr, hinv⟩ := updateArpEntry_spec h netif
      { ETHARP_TRY_HARD :=
          decide (netif.ip_addr ≠ 0) && decide (p.hdr.dipaddr = netif.ip_addr) } (hc hp)
    rw [Bool.not_true, if_neg Bool.false_ne_true]
    dsimp only
    rw [hr]
    dsimp only [bind, Except.bind]
    split <;> exact ⟨_, rfl, hinv⟩

/-! ## Outgoing packets -/

/-- The packet does not look like a packet queue to `etharp_query`: after a pbuf that it looks at,
there is either no pbuf or a byte. It looks at the pbufs up to the first one that has to be
copied. -/
def NotQueue : List OutPbuf → Prop
  | [] => True
  | p :: next => (next = [] ∨ bytes next ≠ []) ∧ (p.type = .ROM → NotQueue next)

instance NotQueue.decidable : (q : List OutPbuf) → Decidable (NotQueue q)
  | [] => .isTrue trivial
  | p :: next =>
    have := NotQueue.decidable next
    inferInstanceAs (Decidable ((next = [] ∨ bytes next ≠ []) ∧ (p.type = .ROM → NotQueue next)))

/-- `len` differs from `tot_len` in a pbuf that a byte follows. -/
theorem length_ne_totLen {p : OutPbuf} {next : List OutPbuf} :
    p.payload.length ≠ totLen (p :: next) ↔ bytes next ≠ [] := by
  have htot : totLen (p :: next) = p.payload.length + (bytes next).length := by
    unfold totLen bytes
    rw [List.map_cons, List.flatten_cons, List.length_append]
  rw [htot, ← List.length_pos_iff]
  omega

/-- A `PBUF_ROM`, which can be left as it is. -/
def OutPbuf.rom (p : OutPbuf) : Bool := decide (p.type = .ROM)

/-- The loop stops at the first pbuf that is not a `PBUF_ROM`, if nothing on its way there looks
like a packet queue. -/
theorem copyNeeded_eq_ok {q : List OutPbuf} {r : Option (List OutPbuf)} :
    copyNeeded q = .ok r ↔
      NotQueue q ∧ r = if q.dropWhile OutPbuf.rom = [] then none else some
      (q.dropWhile OutPbuf.rom) := by
  induction q with
  | nil => simpa [copyNeeded, NotQueue] using eq_comm
  | cons p next ih =>
    unfold copyNeeded NotQueue
    have hcond : (p.payload.length ≠ totLen (p :: next) ∨ next = []) ↔
        (next = [] ∨ bytes next ≠ []) := by
      rw [length_ne_totLen]
      exact or_comm
    rw [lwipAssert_congr hcond]
    by_cases hnext : next = [] ∨ bytes next ≠ []
    · rw [(lwipAssert_eq_ok (u := ())).mpr hnext]
      by_cases htype : p.type = .ROM
      · have hrom : p.rom = true := decide_eq_true htype
        rw [List.dropWhile_cons_of_pos hrom, and_iff_right hnext]
        simp only [htype, forall_const]
        exact ih
      · have hrom : ¬ p.rom = true := fun h => htype (of_decide_eq_true h)
        rw [List.dropWhile_cons_of_neg hrom, if_neg (List.cons_ne_nil _ _)]
        simp only [bind, Except.bind, htype, ne_eq, not_false_eq_true, if_true, false_implies,
          and_true, hnext, true_and, Except.ok.injEq]
        exact eq_comm
    · refine iff_of_false ?_ fun h => hnext h.1.1
      intro h
      obtain ⟨u, hu, -⟩ := bind_eq_ok.mp h
      exact hnext (lwipAssert_eq_ok.mp hu)

/-- A packet can wait for its address: it does not look like a packet queue, and, if it is copied,
the copy has room for it and is one packet. The copy is as long as what is left of the packet from
the first pbuf on that is not a `PBUF_ROM`. -/
def CanWait (e : QueryEnv) (q : Packet) : Prop :=
  NotQueue q.pbufs ∧
    ((∃ p ∈ q.pbufs, p.type ≠ .ROM) → e.copy = true →
      bytes (q.pbufs.takeWhile OutPbuf.rom) = [] ∧ Pbuf.OnePacket (q.pbufs.map OutPbuf.payload))

instance (e : QueryEnv) (q : Packet) : Decidable (CanWait e q) :=
  inferInstanceAs (Decidable (_ ∧ (_ → _ → _ ∧ _)))

/-- The whole packet in a new pbuf. -/
def Packet.copied (q : Packet) : Packet := .ram (bytes q.pbufs)

/-- What `etharp_query` takes over, if no assertion fails. -/
def taken (e : QueryEnv) (q : Packet) : Option Packet :=
  if ∀ p ∈ q.pbufs, p.type = .ROM then some q else if e.copy then some q.copied else none

/-- The copy is made if there is room for it in a pbuf of the length of `rest`, the end of the
packet. -/
theorem copyNew_rest (front : List OutPbuf) {rest : List OutPbuf} (hrest : rest ≠ [])
    (data : List UInt8) :
    Pbuf.copyNew (totLen rest) ((front ++ rest).map OutPbuf.payload) = .ok data ↔
      (bytes front = [] ∧ Pbuf.OnePacket ((front ++ rest).map OutPbuf.payload)) ∧
        data = bytes (front ++ rest) := by
  have hbytes : bytes (front ++ rest) = bytes front ++ bytes rest := by
    simp only [bytes, List.map_append, List.flatten_append]
  have hne : (front ++ rest).map OutPbuf.payload ≠ [] := by
    rw [ne_eq, List.map_eq_nil_iff]
    exact List.append_ne_nil_of_right_ne_nil _ hrest
  by_cases hfront : bytes front = []
  · have hlen : totLen rest = ((front ++ rest).map OutPbuf.payload).flatten.length := by
      show (bytes rest).length = (bytes (front ++ rest)).length
      rw [hbytes, hfront, List.nil_append]
    rw [hlen, Pbuf.copyNew_eq_ok hne, and_iff_right hfront]
    rfl
  · refine iff_of_false ?_ fun h => hfront h.1.1
    intro h
    obtain ⟨u, hu, -⟩ := bind_eq_ok.mp h
    have hroom : totLen rest ≥ (bytes (front ++ rest)).length := lwipAssert_eq_ok.mp hu
    rw [hbytes, List.length_append] at hroom
    exact hfront (List.eq_nil_of_length_eq_zero (by unfold totLen at hroom; omega))

/-- Whether a packet can be taken over, and what is taken over. -/
theorem takeOver_eq_ok {e : QueryEnv} {q : Packet} {r : Option Packet} :
    takeOver e q = .ok r ↔ CanWait e q ∧ r = taken e q := by
  unfold takeOver CanWait taken
  have hall : (q.pbufs.dropWhile OutPbuf.rom = []) ↔ ∀ p ∈ q.pbufs, p.type = .ROM := by
    simp [List.dropWhile_eq_nil_iff, OutPbuf.rom]
  by_cases hqueue : NotQueue q.pbufs
  · rw [copyNeeded_eq_ok.mpr ⟨hqueue, rfl⟩, and_iff_right hqueue]
    by_cases hrom : ∀ p ∈ q.pbufs, p.type = .ROM
    · have hnone : ¬ ∃ p ∈ q.pbufs, p.type ≠ .ROM := by
        rintro ⟨p, hp, hne⟩
        exact hne (hrom p hp)
      rw [if_pos hrom, if_pos (hall.mpr hrom)]
      simp only [bind, Except.bind, hnone, false_implies, true_and, Except.ok.injEq]
      exact eq_comm
    · have hsome : ∃ p ∈ q.pbufs, p.type ≠ .ROM := by simpa using hrom
      have hne : q.pbufs.dropWhile OutPbuf.rom ≠ [] := fun h => hrom (hall.mp h)
      rw [if_neg hrom, if_neg hne]
      cases hcopy : e.copy with
      | false =>
        simp only [bind, Except.bind, Bool.false_eq_true, if_false, false_implies, implies_true,
          true_and, Except.ok.injEq]
        exact eq_comm
      | true =>
        have hcopied := copyNew_rest (q.pbufs.takeWhile OutPbuf.rom) hne
        rw [List.takeWhile_append_dropWhile] at hcopied
        simp only [hsome, forall_const, if_true]
        change ((Pbuf.copyNew _ _).mapError Abort.pbuf >>=
          fun data => .ok (some (.ram data))) = .ok r ↔ _
        constructor
        · intro h
          obtain ⟨data, hdata, h⟩ := bind_eq_ok.mp h
          obtain ⟨hfits, rfl⟩ := (hcopied data).mp (mapError_eq_ok.mp hdata)
          cases h
          exact ⟨hfits, rfl⟩
        · rintro ⟨hfits, rfl⟩
          exact bind_eq_ok.mpr ⟨_, mapError_eq_ok.mpr ((hcopied _).mpr ⟨hfits, rfl⟩), rfl⟩
  · refine iff_of_false ?_ fun h => hqueue h.1.1
    intro h
    obtain ⟨p, hp, -⟩ := bind_eq_ok.mp h
    exact hqueue (copyNeeded_eq_ok.mp hp).1

/-- The assertions hold exactly for the packets that can wait. -/
theorem takeOver_isOk {e : QueryEnv} {q : Packet} : (∃ p, takeOver e q = .ok p) ↔ CanWait e q := by
  constructor
  · rintro ⟨p, hp⟩
    exact (takeOver_eq_ok.mp hp).1
  · exact fun h => ⟨_, takeOver_eq_ok.mpr ⟨h, rfl⟩⟩

/-- `etharp_query` at a pending or stable entry looks only at a packet that it has to queue. -/
theorem queryEntry_spec (h : TableInv claims s) (netif : NetIf) (ipaddr : IpAddr)
    (q : Option Packet)
    (e : QueryEnv) (hst : (s.arp_table i).state = .PENDING ∨ (s.arp_table i).state = .STABLE) :
    (∀ r, queryEntry netif ipaddr q e i s = .ok r → TableInv claims r.2.1) ∧
      ((∃ r, queryEntry netif ipaddr q e i s = .ok r) ↔
        ((s.arp_table i).state ≠ .STABLE → ∀ p ∈ q, CanWait e p)) := by
  unfold queryEntry
  dsimp only
  rw [(lwipAssert_eq_ok (u := ())).mpr hst]
  cases q with
  | none =>
    refine ⟨?_, iff_of_true ⟨_, rfl⟩ fun _ p hp => by cases hp⟩
    rintro r hr
    cases hr
    exact h
  | some q =>
    by_cases hstable : (s.arp_table i).state = .STABLE
    · simp only [hstable, bind, Except.bind, if_true]
      refine ⟨?_, iff_of_true ⟨_, rfl⟩ fun hne => absurd rfl hne⟩
      rintro r hr
      cases hr
      exact h
    · have hpending : (s.arp_table i).state = .PENDING := hst.resolve_right hstable
      have hsome : (∀ p ∈ some q, CanWait e p) ↔ CanWait e q := by simp
      have hcond : ((s.arp_table i).state ≠ .STABLE → ∀ p ∈ some q, CanWait e p) ↔
          ∃ p, takeOver e q = .ok p := by
        rw [takeOver_isOk, ← hsome]
        exact ⟨fun hp => hp hstable, fun hp _ => hp⟩
      rw [hcond]
      dsimp only [bind, Except.bind]
      rw [if_neg hstable]
      cases htake : takeOver e q with
      | error a =>
        refine ⟨fun r hr => (by cases hr), iff_of_false ?_ ?_⟩
        · rintro ⟨r, hr⟩
          cases hr
        · rintro ⟨p, hp⟩
          cases hp
      | ok p =>
        -- The packet is appended to the queue, which leaves the entry what it is.
        have hinv : ∀ p, TableInv claims
            (s.set i { s.arp_table i with q := (s.arp_table i).q ++ [p] }) := by
          intro p
          apply h.set
          · intro hne j hj hstj heq
            exact hj (h.unique j i hstj hne heq)
          · exact fun _ => hpending
          · exact fun hst' => absurd hst' hstable
        cases p with
        | none =>
          refine ⟨fun r hr => ?_, iff_of_true ⟨_, rfl⟩ ⟨_, rfl⟩⟩
          cases hr
          exact h
        | some p =>
          dsimp only
          split
          · refine ⟨fun r hr => ?_, iff_of_true ⟨_, rfl⟩ ⟨_, rfl⟩⟩
            cases hr
            exact hinv p
          · refine ⟨fun r hr => ?_, iff_of_true ⟨_, rfl⟩ ⟨_, rfl⟩⟩
            cases hr
            exact h

/-- The table has a stable entry for the address. -/
def HasStable (s : Etharp n) (ipaddr : IpAddr) : Prop :=
  ∃ j, (s.arp_table j).state = .STABLE ∧ (s.arp_table j).ipaddr = ipaddr

instance (s : Etharp n) (ipaddr : IpAddr) : Decidable (HasStable s ipaddr) :=
  inferInstanceAs (Decidable (∃ j, (s.arp_table j).state = .STABLE ∧
    (s.arp_table j).ipaddr = ipaddr))

/-- A packet for a unicast address that has no stable entry can wait. -/
def QueryOk (netif : NetIf) (ipaddr : IpAddr) (q : Option Packet) (e : QueryEnv) (s : Etharp n) :
    Prop :=
  nonUnicast ipaddr netif = false → ¬ HasStable s ipaddr → ∀ p ∈ q, CanWait e p

instance (netif : NetIf) (ipaddr : IpAddr) (q : Option Packet) (e : QueryEnv) (s : Etharp n) :
    Decidable (QueryOk netif ipaddr q e s) :=
  inferInstanceAs (Decidable (_ = false → ¬ HasStable s ipaddr → ∀ p ∈ q, CanWait e p))

/-- A query keeps the table right, and aborts exactly if the packet cannot wait. -/
theorem etharpQuery_spec [NeZero n] (h : TableInv claims s) (netif : NetIf) (ipaddr : IpAddr)
    (q : Option Packet) (e : QueryEnv) :
    (∀ r, etharpQuery netif ipaddr q e s = .ok r → TableInv claims r.2.1) ∧
      ((∃ r, etharpQuery netif ipaddr q e s = .ok r) ↔ QueryOk netif ipaddr q e s) := by
  unfold etharpQuery QueryOk
  cases huni : nonUnicast ipaddr netif with
  | true =>
    rw [if_pos rfl]
    refine ⟨fun r hr => ?_, iff_of_true ⟨_, rfl⟩ fun hf => by cases hf⟩
    cases hr
    exact h
  | false =>
    obtain ⟨r, s', hfind, hfound, hsome⟩ := findEntry_spec h ipaddr { ETHARP_TRY_HARD := true }
    rw [if_neg Bool.false_ne_true, hfind]
    cases r with
    | none => exact absurd rfl (hsome rfl rfl)
    | some i =>
      dsimp only [bind, Except.bind]
      set u := if (s'.arp_table i).state = .EMPTY
        then s'.set i { s'.arp_table i with state := .PENDING } else s' with hu
      -- The entry is made a pending one, if it is new.
      have hmark : TableInv claims u ∧
          ((u.arp_table i).state = .PENDING ∨ (u.arp_table i).state = .STABLE) ∧
          ((u.arp_table i).state = .STABLE ↔ (s'.arp_table i).state = .STABLE) := by
        by_cases hempty : (s'.arp_table i).state = .EMPTY
        · rw [if_pos hempty] at hu
          rw [hu, Etharp.set_self, hempty]
          refine ⟨?_, .inl rfl, iff_of_false (fun hf => by cases hf) (by decide)⟩
          apply hfound.inv.set
          · intro _ j hj hst
            show (s'.arp_table j).ipaddr ≠ (s'.arp_table i).ipaddr
            rw [hfound.addr i rfl]
            exact hfound.alone i rfl j hj hst
          · exact fun _ => rfl
          · intro hst
            cases hst
        · rw [if_neg hempty] at hu
          rw [hu]
          refine ⟨hfound.inv, ?_, Iff.rfl⟩
          cases hst : (s'.arp_table i).state with
          | EMPTY => exact absurd hst hempty
          | PENDING => exact .inl rfl
          | STABLE => exact .inr rfl
      obtain ⟨hinv, hst, hstable⟩ := hmark
      obtain ⟨hkeep, hok⟩ := queryEntry_spec hinv netif ipaddr q e hst
      refine ⟨hkeep, hok.trans ?_⟩
      have hhas : (u.arp_table i).state = .STABLE ↔ HasStable s ipaddr :=
        hstable.trans (hfound.stable i rfl)
      rw [ne_eq, hhas]
      exact ⟨fun hp _ => hp, fun hp => hp rfl⟩

/-- The packet that `etharp_output` hands to `etharp_query` meets the condition of it. -/
def OutputOk (netif : NetIf) (room : Bool) (q : Packet) (ipaddr : IpAddr) (e : QueryEnv)
    (s : Etharp n) : Prop :=
  room = true →
    match route netif ipaddr with
    | .query ip => QueryOk netif ip (some q) e s
    | _ => True

instance (netif : NetIf) (room : Bool) (q : Packet) (ipaddr : IpAddr) (e : QueryEnv)
    (s : Etharp n) : Decidable (OutputOk netif room q ipaddr e s) :=
  have : Decidable (match route netif ipaddr with
      | .query ip => QueryOk netif ip (some q) e s
      | _ => True) :=
    match route netif ipaddr with
    | .query ip => inferInstanceAs (Decidable (QueryOk netif ip (some q) e s))
    | .direct _ | .none => .isTrue trivial
  inferInstanceAs (Decidable (room = true → _))

/-- The output keeps the table right, and aborts exactly if the packet cannot wait. -/
theorem etharpOutput_spec [NeZero n] (h : TableInv claims s) (netif : NetIf) (room : Bool)
    (q : Packet) (ipaddr : IpAddr) (e : QueryEnv) :
    (∀ r, etharpOutput netif room q ipaddr e s = .ok r → TableInv claims r.2.1) ∧
      ((∃ r, etharpOutput netif room q ipaddr e s = .ok r) ↔ OutputOk netif room q ipaddr e s) := by
  have hsame : ∀ {x : Err × Etharp n × List Frame}, x.2.1 = s →
      ∀ r, (.ok x : Except Abort _) = .ok r → TableInv claims r.2.1 := by
    rintro x hx r ⟨⟩
    rwa [hx]
  unfold etharpOutput OutputOk
  cases room with
  | false => exact ⟨hsame rfl, iff_of_true ⟨_, rfl⟩ fun hf => by cases hf⟩
  | true =>
    rw [Bool.not_true, if_neg Bool.false_ne_true]
    cases hroute : route netif ipaddr with
    | direct dest => exact ⟨hsame rfl, iff_of_true ⟨_, rfl⟩ fun _ => trivial⟩
    | none => exact ⟨hsame rfl, iff_of_true ⟨_, rfl⟩ fun _ => trivial⟩
    | query ip =>
      obtain ⟨hkeep, hok⟩ := etharpQuery_spec h netif ip (some q) e
      exact ⟨hkeep, hok.trans ⟨fun hq _ => hq, fun hq => hq rfl⟩⟩

end Step

/-! ## Runs -/

/-- A packet that has to wait for its hardware address can wait. -/
def SinglePacket (s : Node n) : ArpEvent → Prop
  | .output netif room q ipaddr e => OutputOk netif room q ipaddr e s.arp
  | .query netif ipaddr q e => QueryOk netif ipaddr q e s.arp
  | _ => True

instance SinglePacket.decidable (s : Node n) : (ev : ArpEvent) → Decidable (SinglePacket s ev)
  | .output netif room q ipaddr e =>
    inferInstanceAs (Decidable (OutputOk netif room q ipaddr e s.arp))
  | .query netif ipaddr q e => inferInstanceAs (Decidable (QueryOk netif ipaddr q e s.arp))
  | .arpInput .. | .ipInput .. | .findAddr .. | .tmr => .isTrue trivial

/-- The table is right: it has the invariant, and the test of the cached entry only saves the sweep
through the table. -/
structure ArpOk (s : Node n) : Prop where
  inv : TableInv s.claims s.arp
  cached : ∀ ipaddr flags, findEntry ipaddr flags s.arp = findEntryScan ipaddr flags s.arp

/-- A step that hands on the table of a function. -/
theorem bind_table_spec {β : Type} {f : β → Etharp n} {P : Etharp n → Prop} {Q : Prop}
    {x : Except Abort β} (hkeep : ∀ r, x = .ok r → P (f r)) (hok : (∃ r, x = .ok r) ↔ Q) :
    (∀ a, (x >>= fun r => .ok (f r)) = .ok a → P a) ∧
      ((∃ a, (x >>= fun r => .ok (f r)) = .ok a) ↔ Q) := by
  constructor
  · intro a ha
    obtain ⟨r, hr, ha⟩ := bind_eq_ok.mp ha
    cases ha
    exact hkeep r hr
  · rw [← hok]
    constructor
    · rintro ⟨a, ha⟩
      obtain ⟨r, hr, -⟩ := bind_eq_ok.mp ha
      exact ⟨r, hr⟩
    · rintro ⟨r, hr⟩
      exact ⟨f r, bind_eq_ok.mpr ⟨r, hr, rfl⟩⟩

/-- The same for a function that always returns. -/
theorem bind_table_total {β : Type} {f : β → Etharp n} {P : Etharp n → Prop} {x : Except Abort β}
    (h : ∃ r, x = .ok r ∧ P (f r)) :
    (∀ a, (x >>= fun r => .ok (f r)) = .ok a → P a) ∧
      ((∃ a, (x >>= fun r => .ok (f r)) = .ok a) ↔ True) := by
  obtain ⟨r, hr, hP⟩ := h
  refine bind_table_spec (fun r' hr' => ?_) (iff_of_true ⟨r, hr⟩ trivial)
  rw [hr] at hr'
  cases hr'
  exact hP

/-- One event keeps the invariant of the table with the new claims, and is aborted only by a packet
that cannot wait. -/
theorem etharpStep_spec [NeZero n] {s : Node n} (h : TableInv s.claims s.arp) (ev : ArpEvent) :
    (∀ a, etharpStep s.arp ev = .ok a → TableInv (ev.claim.toList ++ s.claims) a) ∧
      ((∃ a, etharpStep s.arp ev = .ok a) ↔ SinglePacket s ev) := by
  have hmore : TableInv (ev.claim.toList ++ s.claims) s.arp :=
    h.mono fun c hc => List.mem_append_right _ hc
  cases ev with
  | arpInput netif ethaddr p =>
    apply bind_table_total
    apply etharpArpInput_spec hmore
    intro hp
    have hclaim : (ArpEvent.arpInput netif ethaddr p).claim = some (p.hdr.sipaddr, p.hdr.shwaddr) :=
      if_pos hp
    rw [hclaim]
    exact List.mem_append_left _ (List.mem_singleton_self _)
  | ipInput netif p =>
    apply bind_table_total
    apply etharpIpInput_spec hmore
    exact List.mem_append_left _ (List.mem_singleton_self _)
  | output netif room q ipaddr e =>
    obtain ⟨hkeep, hok⟩ := etharpOutput_spec hmore netif room q ipaddr e
    exact bind_table_spec hkeep hok
  | query netif ipaddr q e =>
    obtain ⟨hkeep, hok⟩ := etharpQuery_spec hmore netif ipaddr q e
    exact bind_table_spec hkeep hok
  | findAddr ipaddr =>
    apply bind_table_total
    obtain ⟨r, s', hfind, hfound, -⟩ := findEntry_spec hmore ipaddr { ETHARP_FIND_ONLY := true }
    unfold etharpFindAddr
    rw [hfind]
    cases r with
    | none => exact ⟨_, rfl, hfound.inv⟩
    | some i => exact ⟨_, rfl, hfound.inv⟩
  | tmr =>
    refine ⟨fun a ha => ?_, iff_of_true ⟨_, rfl⟩ trivial⟩
    cases ha
    exact hmore.tmr

/-- An event keeps the table right, and aborts exactly if a packet cannot wait. -/
theorem arpStep_spec [NeZero n] {s : Node n} (h : TableInv s.claims s.arp) (ev : ArpEvent) :
    (∀ s', arpStep s ev = .ok s' → TableInv s'.claims s'.arp) ∧
      ((∃ s', arpStep s ev = .ok s') ↔ SinglePacket s ev) := by
  obtain ⟨hkeep, hok⟩ := etharpStep_spec h ev
  constructor
  · intro s' hs'
    obtain ⟨a, ha, hs'⟩ := bind_eq_ok.mp hs'
    cases hs'
    exact hkeep a ha
  · rw [← hok]
    constructor
    · rintro ⟨s', hs'⟩
      obtain ⟨a, ha, -⟩ := bind_eq_ok.mp hs'
      exact ⟨a, ha⟩
    · rintro ⟨a, ha⟩
      exact ⟨_, bind_eq_ok.mpr ⟨a, ha, rfl⟩⟩

/-- Before the first event. -/
def Node.init (n : ℕ) [NeZero n] : Node n := { arp := Etharp.init n }

/-- Every table that ARP traffic leads to is right. -/
theorem run_tableInv [NeZero n] {es : List ArpEvent} {s : Node n}
    (hrun : run arpStep (Node.init n) es = .ok s) : TableInv s.claims s.arp :=
  run_invariant (fun _ ev _ h _ hs' => (arpStep_spec h ev).1 _ hs') (TableInv.init n)
    (Along.of_forall _ fun _ _ => trivial) hrun

/-- In every run of the ARP code, no address has two entries, only pending entries have packets that
wait, the hardware address of a stable entry was claimed by a received packet for its IP address,
and the cached entry is the one that the sweep through the table finds; and no assertion fails, if
and only if every packet that has to wait for its hardware address can wait. -/
theorem arp_table_right [NeZero n] (es : List ArpEvent) :
    ((∃ s, run arpStep (Node.init n) es = .ok s) ∧ Always arpStep ArpOk (Node.init n) es) ↔
      Along arpStep SinglePacket (Node.init n) es := by
  have hstep : ∀ (s : Node n) ev s', TableInv s.claims s.arp → True → arpStep s ev = .ok s' →
      TableInv s'.claims s'.arp := fun s ev s' h _ hs' => (arpStep_spec h ev).1 s' hs'
  have hinit : TableInv (Node.init n).claims (Node.init n).arp := TableInv.init n
  have htrue : Along arpStep (fun _ _ => True) (Node.init n) es := Along.of_forall _ fun _ _ =>
    trivial
  -- The table is right in any case.
  have hright : Always arpStep ArpOk (Node.init n) es := fun _ _ _ _ hrun =>
    ⟨run_tableInv hrun, findEntry_eq_scan (run_tableInv hrun)⟩
  rw [← run_isOk_iff hstep (fun s ev h _ => (arpStep_spec h ev).2) hinit htrue]
  exact and_iff_left hright

/-- 10.0.0.2 on a network of 256 addresses. -/
def exampleNetif : NetIf where
  ip_addr := 0x0a000002
  netmask := 0xffffff00
  gw := 0x0a000001
  hwaddr := ⟨#v[2, 0, 0, 0, 0, 2]⟩

/-- A neighbour's answer to the request for its hardware address. -/
def exampleReply : ArpPacket where
  hdr := { opcode := 2, shwaddr := ⟨#v[2, 0, 0, 0, 0, 7]⟩, sipaddr := 0x0a000007,
           dhwaddr := exampleNetif.hwaddr, dipaddr := exampleNetif.ip_addr }

/-- A packet for the neighbour, which waits for the answer, and one for a host elsewhere. -/
def exampleTraffic : List ArpEvent :=
  [.output exampleNetif true ⟨[⟨.RAM, [1, 2]⟩, ⟨.ROM, [3]⟩], by decide⟩ 0x0a000007 {},
    .arpInput exampleNetif exampleNetif.hwaddr exampleReply,
    .output exampleNetif true ⟨[⟨.RAM, [4]⟩], by decide⟩ 0x08080808 {}, .tmr,
    .ipInput exampleNetif ⟨⟨#v[2, 0, 0, 0, 0, 9]⟩, 0x0a000009⟩, .tmr, .tmr]

/-- The example is not aborted, and its table is right. -/
theorem arp_table_right_exampleTraffic :
    (∃ s, run arpStep (Node.init 10) exampleTraffic = .ok s) ∧
      Always arpStep ArpOk (Node.init 10) exampleTraffic :=
  (arp_table_right exampleTraffic).mpr (by decide +kernel)

/-- The empty datagram that `udp_sendto` makes of an empty `PBUF_ROM`, behind the headers it puts in
front: one packet, which is not a packet queue. -/
def emptyDatagram : Packet := ⟨[⟨.RAM, List.replicate 28 0⟩, ⟨.ROM, []⟩], by decide⟩

/-- The empty datagram, sent to a neighbour whose hardware address is not known, ends in
`abort()`. -/
theorem emptyDatagram_aborts :
    run arpStep (Node.init 10) [.output exampleNetif true emptyDatagram 0x0a000007 {}] =
      .error .packetQueue := by
  rfl

-- With a byte in front of the empty pbuf, it is `pbuf_copy` that takes the packet for a queue.
example : run arpStep (Node.init 10) [.output exampleNetif true
    ⟨[⟨.RAM, List.replicate 28 0⟩, ⟨.ROM, [7]⟩, ⟨.ROM, []⟩], by decide⟩ 0x0a000007 {}] =
      .error (.pbuf .copyQueue) := by
  rfl

-- The pbuf for the copy is as long as what is behind the `PBUF_ROM` in front.
example : run arpStep (Node.init 10)
    [.query exampleNetif 0x0a000007 (some ⟨[⟨.ROM, [1, 2]⟩, ⟨.RAM, [3]⟩], by decide⟩) {}] =
      .error (.pbuf .copyTarget) := by
  rfl

end Lwip.Netif
