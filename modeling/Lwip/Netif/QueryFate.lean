import Lwip.Netif.ArpQueue

/-!
# What `etharp_query` says of a packet

The result of `etharp_query` is to say whether the packet was sent or waits for the address. It is
one variable for the ARP request and for the packet: `{ result == ERR_MEM } through initialization`
in the branches without memory is wrong when a request went out before, and `ERR_OK` is returned for
a packet that is gone. And a packet that cannot wait ends in an assertion (`query_reports_fate`).
-/

namespace Lwip.Netif

variable {n : ℕ} {claims : List (IpAddr × EthAddr)} {s s' u : Etharp n} {i : Fin n} {ip : IpAddr}
  {netif : NetIf} {q : Packet} {e : QueryEnv} {r : Err × Etharp n × List Frame}

/-- The packets that wait for `ip` in the entry `i`. -/
def queueOf (s : Etharp n) (i : Fin n) (ip : IpAddr) : List Packet :=
  if (s.arp_table i).isFor (some ip) then (s.arp_table i).q else []

/-- The packet was handed to `linkoutput`, which returned `ERR_OK`. -/
def Sent (netif : NetIf) (q : Packet) (e : QueryEnv) (out : List Frame) : Prop :=
  e.send = .OK ∧ ∃ dest, .ip dest netif.hwaddr q ∈ out

/-- A copy of the packet, or a reference to it, is behind the packets that waited for `ip` in
`s`. -/
def Appended (ip : IpAddr) (q : Packet) (s s' : Etharp n) : Prop :=
  ∃ i p, (s'.arp_table i).state = .PENDING ∧ (s'.arp_table i).ipaddr = ip ∧ (p = q ∨ p = q.copied) ∧
    (s'.arp_table i).q = queueOf s i ip ++ [p]

/-- No packet waits that did not wait in `s`. -/
def NothingKept (s s' : Etharp n) : Prop :=
  ∀ i, (s'.arp_table i).q = (s.arp_table i).q ∨ (s'.arp_table i).q = []

/-- The result of `etharp_query` is what became of the packet. -/
def ReportsFate (netif : NetIf) (ip : IpAddr) (q : Packet) (e : QueryEnv) (s : Etharp n)
    (r : Err × Etharp n × List Frame) : Prop :=
  (r.1 = .OK ↔ Sent netif q e r.2.2 ∨ Appended ip q s r.2.1) ∧ (r.1 ≠ .OK → NothingKept s r.2.1)

/-- There is memory for the packet: for its copy, if it has one, and for the queue entry. -/
def RoomFor (q : Packet) (e : QueryEnv) : Prop :=
  ((∀ p ∈ q.pbufs, p.type = .ROM) ∨ e.copy = true) ∧ e.queue = true

/-- The packet does not have to wait, or no request went out, or there is memory. -/
def FateKnown (netif : NetIf) (ip : IpAddr) (q : Packet) (e : QueryEnv) (s : Etharp n) : Prop :=
  nonUnicast ip netif = true ∨ HasStable s ip ∨ e.request = false ∨ e.requestErr ≠ .OK ∨ RoomFor q e

/-! ## The entry of the address -/

/-- The queue of an address is that of its entry. -/
theorem queueOf_eq (hst : (s.arp_table i).state ≠ .EMPTY) (hip : (s.arp_table i).ipaddr = ip) :
    queueOf s i ip = (s.arp_table i).q :=
  if_pos (isFor_iff.mpr ⟨hst, by rw [hip]⟩)

/-- The entry that `find_entry` returns has the packets that waited for the address. -/
theorem findEntry_queue (h : TableInv claims s) {flags : FindFlags}
    (hf : findEntry (some ip) flags s = .ok (some i, s')) (haddr : (s'.arp_table i).ipaddr = ip) :
    (s'.arp_table i).q = queueOf s i ip := by
  have hkept := findEntry_kept h hf i
  rw [findEntry_eq_scan h] at hf
  unfold findEntryScan at hf
  have hspec := @findLoop_spec n s.arp_table (some ip) {} (List.finRange n) Candidates.sound_none
  cases hres : findLoop (some ip) s.arp_table (List.finRange n) {} with
  | inl j =>
    rw [hres] at hf hspec
    cases hf
    exact (if_pos hspec).symm
  | inr c =>
    rw [hres] at hspec
    have hno := hspec.1 i (List.mem_finRange i)
    have hempty : queueOf s i ip = [] := if_neg (by rw [hno]; exact Bool.false_ne_true)
    rw [hempty]
    rcases hkept with hsame | ⟨-, hq⟩
    · -- An entry with the address that does not match is an empty one.
      rw [hsame] at haddr ⊢
      refine h.unqueued fun hst => ?_
      rw [isFor_iff.mpr ⟨by rw [hst]; decide, by rw [haddr]⟩] at hno
      cases hno
    · exact hq

/-- What `etharp_query` is about from the point on where there is an entry. -/
structure Entry (ip : IpAddr) (s : Etharp n) (i : Fin n) (u : Etharp n) : Prop where
  addr : (u.arp_table i).ipaddr = ip
  state : (u.arp_table i).state = .PENDING ∨ (u.arp_table i).state = .STABLE
  stable : (u.arp_table i).state = .STABLE ↔ HasStable s ip
  queue : (u.arp_table i).q = queueOf s i ip
  alone : ∀ j, (u.arp_table j).state ≠ .EMPTY → (u.arp_table j).ipaddr = ip → j = i
  kept : NothingKept s u

/-- `etharp_query` for a unicast address finds an entry or makes one. -/
theorem etharpQuery_entry [NeZero n] (h : TableInv claims s) (huni : nonUnicast ip netif = false)
    {q : Option Packet} (hr : etharpQuery netif ip q e s = .ok r) :
    ∃ i u, Entry ip s i u ∧ queryEntry netif ip q e i u = .ok r := by
  unfold etharpQuery at hr
  rw [huni, if_neg Bool.false_ne_true] at hr
  obtain ⟨r', s', hfind, hfound, hsome⟩ := findEntry_spec h ip { ETHARP_TRY_HARD := true }
  rw [hfind] at hr
  cases r' with
  | none => exact absurd rfl (hsome rfl rfl)
  | some i =>
    have haddr := hfound.addr i rfl
    have hqueue := findEntry_queue h hfind haddr
    have hkept : NothingKept s s' := fun j =>
      (findEntry_kept h hfind j).imp (congrArg EtharpEntry.q) And.right
    dsimp only [bind, Except.bind] at hr
    refine ⟨i, _, ?_, hr⟩
    -- A fresh entry is marked as pending.
    split
    · next hempty =>
      have hself : ((s'.set i { s'.arp_table i with state := .PENDING }).arp_table i) =
          { s'.arp_table i with state := .PENDING } := Etharp.set_self s' i _
      have hnot : ¬ HasStable s ip := fun hst => by
        rw [(hfound.stable i rfl).mpr hst] at hempty
        cases hempty
      refine ⟨by rw [hself]; exact haddr, by rw [hself]; exact .inl rfl,
        by rw [hself]; exact iff_of_false (fun hf => by cases hf) hnot,
        by rw [hself]; exact hqueue, fun j hst hip => ?_, fun j => ?_⟩
      · by_contra hj
        rw [Etharp.set_of_ne s' hj] at hst hip
        exact hfound.alone i rfl j hj hst hip
      · by_cases hj : j = i
        · rw [hj, hself]
          exact hkept i
        · rw [Etharp.set_of_ne s' hj]
          exact hkept j
    · next hempty =>
      refine ⟨haddr, ?_, hfound.stable i rfl, hqueue, fun j hst hip => ?_, hkept⟩
      · cases hst : (s'.arp_table i).state with
        | EMPTY => exact absurd hst hempty
        | PENDING => exact .inl rfl
        | STABLE => exact .inr rfl
      · by_contra hj
        exact hfound.alone i rfl j hj hst hip

/-! ## The packet -/

/-- Whether there is memory for a packet, and what is taken over. -/
theorem takeOver_eq {p : Option Packet} (h : takeOver e q = .ok p) :
    ((∀ b ∈ q.pbufs, b.type = .ROM) ∨ e.copy = true ↔ p ≠ none) ∧
      ∀ p' ∈ p, p' = q ∨ p' = q.copied := by
  rw [(takeOver_eq_ok.mp h).2]
  unfold taken
  by_cases hrom : ∀ b ∈ q.pbufs, b.type = .ROM
  · rw [if_pos hrom]
    refine ⟨iff_of_true (.inl hrom) (Option.some_ne_none q), ?_⟩
    rintro p' ⟨⟩
    exact .inl rfl
  · rw [if_neg hrom]
    cases hcopy : e.copy with
    | false =>
      refine ⟨iff_of_false ?_ fun hne => hne rfl, fun p' hp' => by cases hp'⟩
      rintro (hall | hf)
      · exact hrom hall
      · cases hf
    | true =>
      refine ⟨iff_of_true (.inr rfl) (Option.some_ne_none _), ?_⟩
      rintro p' ⟨⟩
      exact .inr rfl

/-- What has no new packet in the queue of the address. -/
theorem Entry.not_appended (h : Entry ip s i u) : ¬ Appended ip q s u := by
  rintro ⟨j, p, hst, hip, -, hq⟩
  obtain rfl := h.alone j (by rw [hst]; decide) hip
  rw [h.queue] at hq
  have hlen := congrArg List.length hq
  rw [List.length_append, List.length_singleton] at hlen
  omega

/-- The ARP request is not the packet. -/
theorem etharpRequest_not_sent : ¬ Sent netif q e (etharpRequest netif ip e).2 := by
  rintro ⟨-, dest, hmem⟩
  unfold etharpRequest at hmem
  split at hmem
  · cases List.mem_singleton.mp hmem
  · cases hmem

/-- A request succeeds if there is memory and the frame is sent. -/
theorem etharpRequest_ok : (etharpRequest netif ip e).1 = .OK ↔ e.request = true ∧
    e.requestErr = .OK := by
  unfold etharpRequest
  split
  · next h => exact (and_iff_right h).symm
  · next h => exact iff_of_false (by decide) fun hand => h hand.1

/-- A packet that could not be queued: the result is that of the ARP request. -/
theorem Entry.lost (h : Entry ip s i u) (hst : (u.arp_table i).state = .PENDING)
    (huni : nonUnicast ip netif = false) (hroom : ¬ RoomFor q e) :
    ReportsFate netif ip q e s ((etharpRequest netif ip e).1, u, (etharpRequest netif ip e).2) ↔
      FateKnown netif ip q e s := by
  have hnot : ¬ HasStable s ip := fun hs => by
    rw [h.stable.mpr hs] at hst
    cases hst
  have hfate : ¬ (Sent netif q e (etharpRequest netif ip e).2 ∨ Appended ip q s u) := by
    rintro (hs | ha)
    · exact etharpRequest_not_sent hs
    · exact h.not_appended ha
  unfold ReportsFate FateKnown
  dsimp only
  rw [iff_false_right hfate, etharpRequest_ok, huni]
  constructor
  · rintro ⟨hfail, -⟩
    by_cases hreq : e.request = true
    · exact .inr (.inr (.inr (.inl fun herr => hfail ⟨hreq, herr⟩)))
    · exact .inr (.inr (.inl (Bool.eq_false_iff.mpr hreq)))
  · intro hknown
    refine ⟨?_, fun _ => h.kept⟩
    rintro ⟨hreq, herr⟩
    rcases hknown with hk | hk | hk | hk | hk
    · cases hk
    · exact hnot hk
    · rw [hreq] at hk
      cases hk
    · exact hk herr
    · exact hroom hk

/-- `etharp_query` at the entry of the address. -/
theorem Entry.reports (h : Entry ip s i u) (huni : nonUnicast ip netif = false)
    (hr : queryEntry netif ip (some q) e i u = .ok r) :
    ReportsFate netif ip q e s r ↔ FateKnown netif ip q e s := by
  unfold queryEntry at hr
  dsimp only at hr
  rw [(lwipAssert_eq_ok (u := ())).mpr h.state] at hr
  dsimp only [bind, Except.bind] at hr
  by_cases hstable : (u.arp_table i).state = .STABLE
  · -- The packet is sent.
    rw [if_pos hstable, if_neg (by rw [hstable]; simp)] at hr
    cases hr
    refine iff_of_true ⟨?_, fun _ => h.kept⟩ (.inr (.inl (h.stable.mp hstable)))
    constructor
    · exact fun hok => .inl ⟨hok, _, List.mem_singleton_self _⟩
    · rintro (hsent | happ)
      · exact hsent.1
      · exact absurd happ h.not_appended
  -- The packet has to wait for the answer, if there is room for a copy of it.
  · have hpending : (u.arp_table i).state = .PENDING := h.state.resolve_right hstable
    rw [if_neg hstable, if_pos (.inl hpending)] at hr
    cases htake : takeOver e q with
    | error a =>
      rw [htake] at hr
      cases hr
    | ok p =>
      obtain ⟨hroom, hcopy⟩ := takeOver_eq htake
      rw [htake] at hr
      cases p with
      | none =>
        cases hr
        exact h.lost hpending huni fun hrf => hroom.mp hrf.1 rfl
      | some p =>
        dsimp only at hr
        split at hr
        · next hqueue =>
          cases hr
          -- It is put behind the packets that wait already.
          have hself : (u.set i { u.arp_table i with q := (u.arp_table i).q ++ [p] }).arp_table i =
              { u.arp_table i with q := (u.arp_table i).q ++ [p] } := Etharp.set_self u i _
          refine iff_of_true ⟨iff_of_true rfl (.inr ⟨i, p, ?_, ?_, hcopy p rfl, ?_⟩),
            fun hne => absurd rfl hne⟩
            (.inr (.inr (.inr (.inr ⟨hroom.mpr (Option.some_ne_none p), hqueue⟩))))
          · rw [hself]
            exact hpending
          · rw [hself]
            exact h.addr
          · rw [hself, ← h.queue]
        · next hqueue =>
          cases hr
          exact h.lost hpending huni fun hrf => hqueue hrf.2

/-- `etharp_query` for an address that no entry is for. -/
theorem reports_nonUnicast :
    ReportsFate netif ip q e s (.ARG, s, []) := by
  refine ⟨iff_of_false (fun hf => by cases hf) ?_, fun _ j => .inl rfl⟩
  rintro (⟨-, dest, hmem⟩ | ⟨j, p, hst, hip, -, hq⟩)
  · cases hmem
  · rw [queueOf_eq (by rw [hst]; decide) hip] at hq
    have hlen := congrArg List.length hq
    rw [List.length_append, List.length_singleton] at hlen
    omega

/-- A result of `etharp_query` in a right table. -/
theorem etharpQuery_reports [NeZero n] (h : TableInv claims s)
    (hr : etharpQuery netif ip (some q) e s = .ok r) :
    ReportsFate netif ip q e s r ↔ FateKnown netif ip q e s := by
  cases huni : nonUnicast ip netif with
  | false =>
    obtain ⟨i, u, hentry, hquery⟩ := etharpQuery_entry h huni hr
    exact hentry.reports huni hquery
  | true =>
    unfold etharpQuery at hr
    rw [if_pos huni] at hr
    cases hr
    exact iff_of_true reports_nonUnicast (.inl huni)

/-- In every table that ARP traffic leads to, with every outcome of the allocations and of
`linkoutput`: `etharp_query` returns, and its result is what became of the packet, exactly when the
packet can wait, if it has to (`QueryOk`), and it does not have to, or the ARP request failed, or
there was memory (`FateKnown`). -/
theorem query_reports_fate [NeZero n] (es : List ArpEvent) {s : Node n}
    (hrun : run arpStep (Node.init n) es = .ok s) (netif : NetIf) (ip : IpAddr) (q : Packet)
    (e : QueryEnv) :
    (∃ r, etharpQuery netif ip (some q) e s.arp = .ok r ∧ ReportsFate netif ip q e s.arp r) ↔
      QueryOk netif ip (some q) e s.arp ∧ FateKnown netif ip q e s.arp := by
  have h : TableInv s.claims s.arp := run_tableInv hrun
  have hok := (etharpQuery_spec h netif ip (some q) e).2
  constructor
  · rintro ⟨r, hr, hreports⟩
    exact ⟨hok.mp ⟨r, hr⟩, (etharpQuery_reports h hr).mp hreports⟩
  · rintro ⟨hcan, hknown⟩
    obtain ⟨r, hr⟩ := hok.mpr hcan
    exact ⟨r, hr, (etharpQuery_reports h hr).mpr hknown⟩

/-- A packet that has to be copied. -/
def examplePacket : Packet := ⟨[⟨.RAM, [1, 2, 3]⟩], by decide⟩

/-- With memory, the packet waits for the answer. -/
theorem query_reports_fate_examplePacket :
    ∃ r, etharpQuery exampleNetif 0x0a000007 (some examplePacket) {} (Etharp.init 10) = .ok r ∧
      ReportsFate exampleNetif 0x0a000007 examplePacket {} (Etharp.init 10) r :=
  (query_reports_fate (n := 10) [] rfl exampleNetif 0x0a000007 examplePacket {}).mpr
    ⟨by decide +kernel, .inr (.inr (.inr (.inr ⟨.inr rfl, rfl⟩)))⟩

/-- Without memory for the copy, the request goes out, the packet is gone, and the result is
`ERR_OK`. -/
theorem query_noCopy_reports_ok :
    ∃ r, etharpQuery exampleNetif 0x0a000007 (some examplePacket) { copy := false }
    (Etharp.init 10) = .ok r ∧
      r.1 = .OK ∧ ¬ Sent exampleNetif examplePacket { copy := false } r.2.2 ∧
      ¬ Appended 0x0a000007 examplePacket (Etharp.init 10) r.2.1 := by
  refine ⟨_, rfl, rfl, ?_, ?_⟩
  · rintro ⟨-, dest, hmem⟩
    cases List.mem_singleton.mp hmem
  · rintro ⟨i, p, -, -, -, hq⟩
    have hnone : ∀ i : Fin 10, ((((Etharp.init 10).set 0 { ipaddr := 0x0a000007 }).set 0
        { ipaddr := 0x0a000007, state := .PENDING }).arp_table i).q = [] := by decide
    cases (hnone i).symm.trans (hq.trans (by rfl : _ = [] ++ [p]))

end Lwip.Netif
