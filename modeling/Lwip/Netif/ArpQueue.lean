import Lwip.Lib.Queues
import Lwip.Netif.ArpRun

/-!
# The packets that wait for an address

What becomes of the packets that `etharp_query` takes over. Beside the ARP table runs the record of
them (`Courier`): each is taken for the address that was asked for, and ends when the queue of this
address is sent by `update_arp_entry`, or is freed by `free_etharp_q` in `etharp_tmr` or
`find_entry`, which are the places where the table loses a queue. The table holds just what waits
(`Holds`), so that packets are sent once, in order and to the hardware address that was learned, or
are freed, within two ticks (`arp_queue_delivers`).
-/

namespace Lwip.Netif

variable {n : ℕ}

/-- A packet that was taken over, and the number of ticks before. -/
structure Queued where
  packet : Packet
  tick : ℕ
  deriving DecidableEq

/-- What becomes of a packet that waits. -/
inductive Fate where
  | sent (dest : EthAddr)
  | freed
  deriving DecidableEq

/-- The packets taken over, by the IP address for which they wait. -/
abbrev Post := Queues IpAddr Queued Fate

/-- The addresses whose queues a function has freed. -/
def gone (s s' : Etharp n) : List IpAddr :=
  ((List.finRange n).filter fun i => (s.arp_table i).q ≠ [] ∧ (s'.arp_table i).q = []).map
    fun i => (s.arp_table i).ipaddr

/-- `update_arp_entry`: what `find_entry` recycles is freed, and the queue of the address is
sent. -/
def updateQueues (netif : NetIf) (ipaddr : IpAddr) (ethaddr : EthAddr) (flags : FindFlags)
    (s : Etharp n) (Q : Post) : Post :=
  if nonUnicast ipaddr netif then Q
  else match findEntry (some ipaddr) flags s with
    | .ok (some _, s') => (Q.closeAll (gone s s') .freed).close ipaddr (.sent ethaddr)
    | _ => Q

/-- The packet that `etharp_query` appends to the queue of an entry. -/
def accepted (q : Option Packet) (e : QueryEnv) (entry : EtharpEntry) : Option Packet :=
  match q with
  | none => none
  | some q =>
    if entry.state = .STABLE then none
    else match takeOver e q with
      | .ok (some p) => if e.queue then some p else none
      | _ => none

/-- `etharp_query`: what `find_entry` recycles is freed, and the packet is taken over. -/
def queryQueues (netif : NetIf) (ipaddr : IpAddr) (q : Option Packet) (e : QueryEnv) (tick : ℕ)
    (s : Etharp n) (Q : Post) : Post :=
  if nonUnicast ipaddr netif then Q
  else match findEntry (some ipaddr) { ETHARP_TRY_HARD := true } s with
    | .ok (some i, s') =>
      let Q := Q.closeAll (gone s s') .freed
      match accepted q e (s'.arp_table i) with
      | some p => Q.take ipaddr ⟨p, tick⟩
      | none => Q
    | _ => Q

/-- What an event does to the packets that wait. -/
def eventQueues (tick : ℕ) (s : Etharp n) (Q : Post) : ArpEvent → Post
  | .arpInput netif _ p =>
    if !p.wellFormed then Q
    else updateQueues netif p.hdr.sipaddr p.hdr.shwaddr
      { ETHARP_TRY_HARD :=
          decide (netif.ip_addr ≠ 0) && decide (p.hdr.dipaddr = netif.ip_addr) } s Q
  | .ipInput netif p =>
    if !ipAddrNetcmp p.src netif.ip_addr netif.netmask then Q
      else updateQueues netif p.src p.ethsrc {} s Q
  | .output netif room q ipaddr e =>
    if !room then Q
    else match route netif ipaddr with
      | .query ip => queryQueues netif ip (some q) e tick s Q
      | .direct _ | .none => Q
  | .query netif ipaddr q e => queryQueues netif ipaddr q e tick s Q
  | .findAddr _ => Q
  | .tmr => Q.closeAll (gone s (etharpTmr s)) .freed

/-- The IP packets among frames, with their destinations. -/
def ipFrames (out : List Frame) : List (EthAddr × Packet) :=
  out.filterMap fun
    | .ip dest _ p => some (dest, p)
    | .arp _ _ _ => none

/-- The IP packets that are transmitted when a packet is received. -/
def inputFrames (s : Etharp n) : ArpEvent → Except Abort (List (EthAddr × Packet))
  | .arpInput netif ethaddr p => do
    let r ← etharpArpInput netif ethaddr p s
    .ok (ipFrames r.2)
  | .ipInput netif p => do
    let r ← etharpIpInput netif p s
    .ok (ipFrames r.2)
  | _ => .ok []

/-- The ARP code with the record of the packets that wait, the IP packets that it transmitted when
it received packets, and the number of ticks so far. -/
structure Courier (n : ℕ) where
  node : Node n
  post : Post := {}
  transmitted : List (EthAddr × Packet) := []
  ticks : ℕ := 0

/-- One event. -/
def courierStep (s : Courier n) (ev : ArpEvent) : Except Abort (Courier n) := do
  let node ← arpStep s.node ev
  let frames ← inputFrames s.node.arp ev
  .ok {
    node
    post := eventQueues s.ticks s.node.arp s.post ev
    transmitted := s.transmitted ++ frames
    ticks := match ev with
      | .tmr => s.ticks + 1
      | _ => s.ticks }

/-- The packets sent according to the record, with their destinations. -/
def sentFrames (Q : Post) : List (EthAddr × Packet) :=
  Q.ended.filterMap fun (it, fate) => match fate with
    | .sent dest => some (dest, it.content.packet)
    | .freed => none

/-- The packets that wait are delivered. -/
structure Delivers (s : Courier n) : Prop where
  /-- Each packet taken over waits once, for its address, or has ended once. -/
  once : ∀ it ∈ s.post.taken,
    (s.post.ended.map Prod.fst).count it + (s.post.waiting it.key).count it = 1
  /-- What was taken over for an address ends in this order, and then comes what still waits. -/
  order : ∀ ip, (s.post.ended.map Prod.fst).filter (·.key = ip) ++ s.post.waiting ip =
    s.post.taken.filter (·.key = ip)
  /-- A packet is sent to a hardware address that was learned for the address it waited for. -/
  learned : ∀ it dest, (it, .sent dest) ∈ s.post.ended → (it.key, dest) ∈ s.node.claims
  /-- The record of the packets sent is what was transmitted. -/
  transmitted : s.transmitted = sentFrames s.post
  /-- An entry has the packets that wait for its address, and what waits is in the entry of its
  address. -/
  queue : ∀ i, (s.node.arp.arp_table i).state = .PENDING →
    (s.node.arp.arp_table i).q = (s.post.waiting (s.node.arp.arp_table i).ipaddr).map
    (·.content.packet)
  entry : ∀ ip, s.post.waiting ip ≠ [] → ∃ i,
    (s.node.arp.arp_table i).state = .PENDING ∧ (s.node.arp.arp_table i).ipaddr = ip
  others : ∀ i, (s.node.arp.arp_table i).state ≠ .PENDING → (s.node.arp.arp_table i).q = []
  /-- No packet waits for `ARP_MAXPENDING` ticks. -/
  soon : ∀ ip, ∀ it ∈ s.post.waiting ip, s.ticks < it.content.tick + ARP_MAXPENDING

/-! ## What `find_entry` does to the queues -/

section Find

variable {claims : List (IpAddr × EthAddr)} {s s' : Etharp n} {i : Fin n} {ip : IpAddr} {Q : Post}

/-- Only a pending entry has a queue. -/
theorem TableInv.unqueued (h : TableInv claims s) (hst : (s.arp_table i).state ≠ .PENDING) :
    (s.arp_table i).q = [] := by
  by_contra hne
  exact hst (h.queued i hne)

/-- An entry keeps what the record looks at, or is emptied. -/
def KeptOrEmptied (e e' : EtharpEntry) : Prop :=
  e'.state = e.state ∧ e'.ipaddr = e.ipaddr ∧ e'.q = e.q ∨ e'.state = .EMPTY ∧ e'.q = []

/-- A new entry is empty, and the other ones are left alone. -/
theorem newEntry_kept {ipaddr : Option IpAddr} (hq : (s.arp_table i).q = [])
    (hother : ∀ j, j ≠ i → s.arp_table j = s'.arp_table j) (j : Fin n) :
    (newEntry ipaddr i s).arp_table j = s'.arp_table j ∨
      ((newEntry ipaddr i s).arp_table j).state = .EMPTY ∧
      ((newEntry ipaddr i s).arp_table j).q = [] := by
  by_cases hj : j = i
  · right
    have hself : (newEntry ipaddr i s).arp_table i = _ := Etharp.set_self s i _
    rw [hj, hself]
    exact ⟨rfl, hq⟩
  · exact .inl ((Etharp.set_of_ne s hj _).trans (hother j hj))

/-- `find_entry` leaves every entry alone, but for one that it empties. -/
theorem findEntry_kept (h : TableInv claims s) {ipaddr : Option IpAddr} {flags : FindFlags}
    {r : Option (Fin n)} (hf : findEntry ipaddr flags s = .ok (r, s')) (j : Fin n) :
    s'.arp_table j = s.arp_table j ∨ (s'.arp_table j).state = .EMPTY ∧ (s'.arp_table j).q = [] := by
  rw [findEntry_eq_scan h] at hf
  unfold findEntryScan at hf
  have hspec := @findLoop_spec n s.arp_table ipaddr {} (List.finRange n) Candidates.sound_none
  cases hres : findLoop ipaddr s.arp_table (List.finRange n) {} with
  | inl i =>
    rw [hres] at hf
    cases hf
    exact .inl rfl
  | inr c =>
    rw [hres] at hf hspec
    obtain ⟨-, hc, -⟩ := hspec
    dsimp only at hf
    split at hf
    · cases hf
      exact .inl rfl
    unfold recycle at hf
    cases he : c.empty with
    | some i =>
      rw [he] at hf
      cases hf
      have hst := hc.empty i he
      exact newEntry_kept (h.unqueued (by rw [hst]; decide)) (fun _ _ => rfl) j
    | none =>
    cases hs : c.old_stable with
    | some i =>
      rw [he, hs] at hf
      obtain ⟨u, hq, hf⟩ := bind_eq_ok.mp hf
      cases hf
      exact newEntry_kept (lwipAssert_eq_ok.mp hq) (fun _ _ => rfl) j
    | none =>
    cases hp : c.old_pending with
    | some i =>
      rw [he, hs, hp] at hf
      cases hf
      exact newEntry_kept (hc.old_pending i hp).2 (fun _ _ => rfl) j
    | none =>
    cases ho : c.old_queue with
    | some i =>
      rw [he, hs, hp, ho] at hf
      obtain ⟨u, -, hf⟩ := bind_eq_ok.mp hf
      cases hf
      exact newEntry_kept (congrArg EtharpEntry.q (Etharp.set_self s i _))
        (fun j hj => Etharp.set_of_ne s hj _) j
    | none =>
      rw [he, hs, hp, ho] at hf
      cases hf
      exact .inl rfl

/-- Without an entry nothing has changed. -/
theorem findEntry_none {ipaddr : Option IpAddr} {flags : FindFlags}
    (hf : findEntry ipaddr flags s = .ok (none, s')) : s' = s := by
  unfold findEntry at hf
  split at hf
  · cases hf
  unfold findEntryScan at hf
  split at hf
  · cases hf
  split at hf
  · cases hf
    rfl
  unfold recycle at hf
  split at hf
  · cases hf
  · obtain ⟨u, -, hf⟩ := bind_eq_ok.mp hf
    cases hf
  · cases hf
  · obtain ⟨u, -, hf⟩ := bind_eq_ok.mp hf
    cases hf
  · cases hf
    rfl

/-- A new entry is at the start of its life. -/
theorem findEntry_ctime (h : TableInv claims s) {ipaddr : Option IpAddr} {flags : FindFlags}
    (hf : findEntry ipaddr flags s = .ok (some i, s')) (hst : (s'.arp_table i).state = .EMPTY) :
    (s'.arp_table i).ctime = 0 := by
  have hnew : ∀ j (u : Etharp n), ((newEntry ipaddr j u).arp_table j).ctime = 0 :=
    fun j u => congrArg EtharpEntry.ctime (Etharp.set_self u j _)
  rw [findEntry_eq_scan h] at hf
  unfold findEntryScan at hf
  have hspec := @findLoop_spec n s.arp_table ipaddr {} (List.finRange n) Candidates.sound_none
  cases hres : findLoop ipaddr s.arp_table (List.finRange n) {} with
  | inl j =>
    rw [hres] at hf hspec
    cases hf
    exact absurd hst (isFor_iff.mp hspec).1
  | inr c =>
    rw [hres] at hf
    dsimp only at hf
    split at hf
    · cases hf
    unfold recycle at hf
    split at hf
    · cases hf
      exact hnew _ _
    · obtain ⟨u, -, hf⟩ := bind_eq_ok.mp hf
      cases hf
      exact hnew _ _
    · cases hf
      exact hnew _ _
    · obtain ⟨u, -, hf⟩ := bind_eq_ok.mp hf
      cases hf
      exact hnew _ _
    · cases hf

/-! ## The table and the record -/

/-- The entries hold what waits for their addresses, and the pending ones are young. -/
structure Holds (t : Fin n → EtharpEntry) (Q : Post) (ticks : ℕ) : Prop where
  queue : ∀ i, (t i).state ≠ .EMPTY → (t i).q = (Q.waiting (t i).ipaddr).map (·.content.packet)
  entry : ∀ ip, Q.waiting ip ≠ [] → ∃ i, (t i).state ≠ .EMPTY ∧ (t i).ipaddr = ip
  young : ∀ i, (t i).state = .PENDING → (t i).ctime < ARP_MAXPENDING ∧
    ∀ it ∈ Q.waiting (t i).ipaddr, ticks ≤ it.content.tick + (t i).ctime

/-- The entry of an address and its queue change. -/
theorem Holds.update {t : Fin n → EtharpEntry} {Q' : Post} {ticks : ℕ} (hQ : Holds t Q ticks)
    (e : EtharpEntry) (hip : (t i).ipaddr = ip)
    (halone : ∀ j, j ≠ i → (t j).state ≠ .EMPTY → (t j).ipaddr ≠ ip)
    (he : e.ipaddr = ip) (hst : e.state ≠ .EMPTY)
    (hq : e.q = (Q'.waiting ip).map (·.content.packet))
    (hother : ∀ k, k ≠ ip → Q'.waiting k = Q.waiting k)
    (hyoung : e.state = .PENDING → e.ctime < ARP_MAXPENDING ∧
      ∀ it ∈ Q'.waiting ip, ticks ≤ it.content.tick + e.ctime) :
    Holds (Function.update t i e) Q' ticks := by
  refine ⟨fun j hj => ?_, fun k hk => ?_, fun j hj => ?_⟩
  · by_cases hji : j = i
    · rw [hji, Function.update_self, he, hq]
    · rw [Function.update_of_ne hji] at hj ⊢
      rw [hQ.queue j hj, hother _ (halone j hji hj)]
  · by_cases hkip : k = ip
    · exact ⟨i, by rwa [Function.update_self], by rw [Function.update_self, he, hkip]⟩
    · rw [hother k hkip] at hk
      obtain ⟨j, hj, hjk⟩ := hQ.entry k hk
      have hji : j ≠ i := fun hji => hkip (by rw [← hjk, hji, hip])
      exact ⟨j, by rwa [Function.update_of_ne hji], by rwa [Function.update_of_ne hji]⟩
  · by_cases hji : j = i
    · rw [hji, Function.update_self] at hj ⊢
      rw [he]
      exact hyoung hj
    · rw [Function.update_of_ne hji] at hj ⊢
      rw [hother _ (halone j hji (by rw [hj]; decide))]
      exact hQ.young j hj

/-- A queue is gone if its entry has lost it. -/
theorem mem_gone : ip ∈ gone s s' ↔
    ∃ i, (s.arp_table i).q ≠ [] ∧ (s'.arp_table i).q = [] ∧ (s.arp_table i).ipaddr = ip := by
  unfold gone
  simp [List.mem_map, and_assoc]

/-- What the emptied entries held is freed. -/
theorem Holds.emptied {ticks ticks' : ℕ} (hQ : Holds s.arp_table Q ticks) (h : TableInv claims s)
    (hkept : ∀ j, KeptOrEmptied (s.arp_table j) (s'.arp_table j))
    (hyoung : ∀ j, (s'.arp_table j).state = .PENDING → (s'.arp_table j).ctime < ARP_MAXPENDING ∧
      ticks' + (s.arp_table j).ctime ≤ ticks + (s'.arp_table j).ctime) :
    Holds s'.arp_table (Q.closeAll (gone s s') .freed) ticks' := by
  -- An entry that is still there has lost no packet.
  have hwait : ∀ i, (s'.arp_table i).state ≠ .EMPTY →
      (Q.closeAll (gone s s') .freed).waiting (s'.arp_table i).ipaddr =
      Q.waiting (s.arp_table i).ipaddr := by
    intro i hst
    obtain ⟨hst', hip, hq⟩ | ⟨hempty, -⟩ := hkept i
    · rw [Queues.closeAll_waiting, hip]
      refine if_neg fun hgone => ?_
      obtain ⟨j, hj, hj', hjp⟩ := mem_gone.mp hgone
      have hji : j = i := by
        apply h.unique j i _ _ hjp
        · show (s.arp_table j).state ≠ .EMPTY
          rw [h.queued j hj]
          decide
        · show (s.arp_table i).state ≠ .EMPTY
          rwa [← hst']
      rw [hji, hq] at hj'
      rw [hji] at hj
      exact hj hj'
    · exact absurd hempty hst
  refine ⟨fun i hst => ?_, fun ip hip => ?_, fun i hst => ?_⟩
  · rw [hwait i hst]
    obtain ⟨hst', -, hq⟩ | ⟨hempty, -⟩ := hkept i
    · rw [hq]
      apply hQ.queue i
      rwa [← hst']
    · exact absurd hempty hst
  · rw [Queues.closeAll_waiting] at hip
    split at hip
    · exact absurd rfl hip
    next hgone =>
    obtain ⟨i, hst, hipi⟩ := hQ.entry ip hip
    obtain ⟨hst', hip', -⟩ | ⟨-, hq⟩ := hkept i
    · exact ⟨i, by rwa [hst'], hip'.trans hipi⟩
    · have hne : (s.arp_table i).q ≠ [] := by
        rw [hQ.queue i hst, hipi]
        exact fun hnil => hip (List.map_eq_nil_iff.mp hnil)
      exact absurd (mem_gone.mpr ⟨i, hne, hq, hipi⟩) hgone
  · obtain ⟨hlt, hle⟩ := hyoung i hst
    refine ⟨hlt, fun it hit => ?_⟩
    rw [hwait i (by rw [hst]; decide)] at hit
    obtain ⟨hst', -⟩ | ⟨hempty, -⟩ := hkept i
    · have hage := (hQ.young i (hst'.symm.trans hst)).2 it hit
      omega
    · rw [hst] at hempty
      cases hempty

/-- The record after `find_entry`: if there is an entry of the address, it holds what waits for
it. -/
theorem findEntry_holds {flags : FindFlags} {ticks : ℕ} (hQ : Holds s.arp_table Q ticks)
    (h : TableInv claims s) (hf : findEntry (some ip) flags s = .ok (some i, s')) :
    Found claims ip s s' (some i) ∧ Holds s'.arp_table (Q.closeAll (gone s s') .freed) ticks ∧
      (s'.arp_table i).q = ((Q.closeAll (gone s s') .freed).waiting ip).map (·.content.packet) := by
  obtain ⟨r, u, hf', hfound, -⟩ := findEntry_spec h ip flags
  rw [hf] at hf'
  cases hf'
  have hholds : Holds s'.arp_table (Q.closeAll (gone s s') .freed) ticks := by
    refine hQ.emptied h (fun j => ?_) fun j hst => ?_
    · obtain heq | hempty := findEntry_kept h hf j
      · rw [heq]
        exact .inl ⟨rfl, rfl, rfl⟩
      · exact .inr hempty
    · obtain heq | ⟨hempty, -⟩ := findEntry_kept h hf j
      · rw [heq] at hst ⊢
        exact ⟨(hQ.young j hst).1, Nat.le_refl _⟩
      · rw [hst] at hempty
        cases hempty
  refine ⟨hfound, hholds, ?_⟩
  have haddr := hfound.addr i rfl
  by_cases hst : (s'.arp_table i).state = .EMPTY
  · -- For a new entry nothing waits.
    rw [hfound.inv.unqueued (by rw [hst]; decide)]
    by_contra hne
    have hwait : (Q.closeAll (gone s s') .freed).waiting ip ≠ [] :=
      fun hnil => hne (by rw [hnil]; rfl)
    obtain ⟨j, hj, hjp⟩ := hholds.entry ip hwait
    by_cases hji : j = i
    · rw [hji] at hj
      exact hj hst
    · exact hfound.alone i rfl j hji hj hjp
  · rw [hholds.queue i hst, haddr]

end Find

/-- The table and the record are right. -/
structure Right (claims : List (IpAddr × EthAddr)) (s : Etharp n) (Q : Post) (ticks : ℕ) :
    Prop where
  inv : TableInv claims s
  inOrder : Q.InOrder
  holds : Holds s.arp_table Q ticks
  learned : ∀ it dest, (it, .sent dest) ∈ Q.ended → (it.key, dest) ∈ claims

section Record

variable {Q : Post} {ip : IpAddr}

/-- What is freed was not sent. -/
theorem sent_close_freed : sentFrames (Q.close ip .freed) = sentFrames Q := by
  unfold sentFrames Queues.close
  rw [List.filterMap_append, List.filterMap_map]
  simp

/-- What is freed was not sent, for several addresses. -/
theorem sent_closeAll_freed (ips : List IpAddr) :
    sentFrames (Q.closeAll ips .freed) = sentFrames Q := by
  induction ips generalizing Q with
  | nil => rfl
  | cons ip ips ih => exact ih.trans sent_close_freed

/-- What is sent was waiting, and goes out in its order. -/
theorem sent_close (dest : EthAddr) :
    sentFrames (Q.close ip (.sent dest)) =
      sentFrames Q ++ (Q.waiting ip).map fun it => (dest, it.content.packet) := by
  unfold sentFrames Queues.close
  rw [List.filterMap_append, List.filterMap_map]
  simp

/-- The frames of packets carry these packets. -/
theorem ipFrames_map (dest src : EthAddr) (ps : List Packet) :
    ipFrames (ps.map (.ip dest src)) = ps.map (dest, ·) := by
  unfold ipFrames
  rw [List.filterMap_map]
  simp

end Record

section Step

variable {claims : List (IpAddr × EthAddr)} {s s' : Etharp n} {i : Fin n} {Q : Post} {ticks : ℕ}

/-- Freeing queues sends nothing. -/
theorem learned_closeAll (ips : List IpAddr)
    (h : ∀ it dest, (it, .sent dest) ∈ Q.ended → (it.key, dest) ∈ claims) :
    ∀ it dest, (it, .sent dest) ∈ (Q.closeAll ips .freed).ended → (it.key, dest) ∈ claims := by
  intro it dest hit
  obtain hit | hf := Queues.mem_closeAll_ended hit
  · exact h it dest hit
  · cases hf

/-- `update_arp_entry` sends what waits for the address. -/
theorem updateArpEntry_right (h : Right claims s Q ticks) (netif : NetIf) {ipaddr : IpAddr}
    {ethaddr : EthAddr} (flags : FindFlags) (hc : (ipaddr, ethaddr) ∈ claims)
    {r : Err × Etharp n × List Frame} (hr : updateArpEntry netif ipaddr ethaddr flags s = .ok r) :
    Right claims r.2.1 (updateQueues netif ipaddr ethaddr flags s Q) ticks ∧
      sentFrames (updateQueues netif ipaddr ethaddr flags s Q) =
      sentFrames Q ++ ipFrames r.2.2 := by
  obtain ⟨r', hr', hinv⟩ := updateArpEntry_spec h.inv netif flags hc
  rw [hr] at hr'
  cases hr'
  unfold updateArpEntry at hr
  unfold updateQueues
  cases huni : nonUnicast ipaddr netif with
  | true =>
    rw [huni] at hr
    cases hr
    exact ⟨h, (List.append_nil _).symm⟩
  | false =>
    rw [huni] at hr
    obtain ⟨⟨r', s'⟩, hfind, hr⟩ := bind_eq_ok.mp hr
    rw [hfind]
    cases r' with
    | none =>
      cases hr
      rw [findEntry_none hfind]
      exact ⟨h, (List.append_nil _).symm⟩
    | some i =>
      cases hr
      obtain ⟨hfound, hholds, hq⟩ := findEntry_holds h.holds h.inv hfind
      set Q' := Q.closeAll (gone s s') .freed with hQ'
      show Right claims _ (Q'.close ipaddr (.sent ethaddr)) ticks ∧
        sentFrames (Q'.close ipaddr (.sent ethaddr)) = _
      have haddr := hfound.addr i rfl
      refine ⟨⟨hinv, (h.inOrder.closeAll _ _).close _ _, ?_, ?_⟩, ?_⟩
      · apply hholds.update { s'.arp_table i with state := .STABLE, ethaddr, ctime := 0, q := [] }
          haddr (hfound.alone i rfl) haddr
        · exact fun hf => by cases hf
        · rw [Queues.close_waiting_self]
          rfl
        · exact fun k hk => Queues.close_waiting_of_ne hk _
        · exact fun hf => by cases hf
      · intro it dest hit
        obtain hit | hit := List.mem_append.mp hit
        · exact learned_closeAll _ h.learned it dest hit
        · obtain ⟨it', hit', heq⟩ := List.mem_map.mp hit
          cases heq
          rw [((h.inOrder.closeAll _ _).mem_waiting hit').2]
          exact hc
      · rw [sent_close, hQ', sent_closeAll_freed, hq, ipFrames_map, List.map_map]
        rfl

/-- The packet that `etharp_query` takes over is appended to the queue. -/
theorem queryEntry_table {netif : NetIf} {ipaddr : IpAddr} {q : Option Packet} {e : QueryEnv}
    {r : Err × Etharp n × List Frame} (hr : queryEntry netif ipaddr q e i s = .ok r) :
    r.2.1 = match accepted q e (s.arp_table i) with
      | some p => s.set i { s.arp_table i with q := (s.arp_table i).q ++ [p] }
      | none => s := by
  unfold queryEntry at hr
  obtain ⟨u, -, hr⟩ := bind_eq_ok.mp hr
  unfold accepted
  cases q with
  | none =>
    cases hr
    rfl
  | some q =>
    dsimp only at hr ⊢
    split at hr
    · next hstable =>
      rw [if_pos hstable]
      cases hr
      rfl
    next hstable =>
    rw [if_neg hstable]
    obtain ⟨p, hp, hr⟩ := bind_eq_ok.mp hr
    rw [hp]
    cases p with
    | none =>
      cases hr
      rfl
    | some p =>
      dsimp only at hr ⊢
      split at hr
      · next hq =>
        rw [if_pos hq]
        cases hr
        rfl
      · next hq =>
        rw [if_neg hq]
        cases hr
        rfl

/-- Only a pending entry takes packets over. -/
theorem accepted_eq_some {q : Option Packet} {e : QueryEnv} {entry : EtharpEntry} {p : Packet}
    (h : accepted q e entry = some p) : entry.state ≠ .STABLE := by
  intro hst
  unfold accepted at h
  cases q with
  | none => cases h
  | some q =>
    dsimp only at h
    rw [if_pos hst] at h
    cases h

/-- Whether a packet is accepted depends on whether the entry is stable. -/
theorem accepted_congr (q : Option Packet) (e : QueryEnv) {e₁ e₂ : EtharpEntry}
    (h : e₁.state = .STABLE ↔ e₂.state = .STABLE) : accepted q e e₁ = accepted q e e₂ := by
  unfold accepted
  simp only [h]

/-- A new entry is made a pending one. -/
theorem pending_holds {ip : IpAddr} {u : Etharp n} (hholds : Holds s.arp_table Q ticks)
    (h : TableInv claims s)
    (haddr : (s.arp_table i).ipaddr = ip)
    (halone : ∀ j, j ≠ i → (s.arp_table j).state ≠ .EMPTY → (s.arp_table j).ipaddr ≠ ip)
    (hq : (s.arp_table i).q = (Q.waiting ip).map (·.content.packet))
    (hctime : (s.arp_table i).state = .EMPTY → (s.arp_table i).ctime = 0)
    (hu : u = if (s.arp_table i).state = .EMPTY
      then s.set i { s.arp_table i with state := .PENDING } else s) :
    Holds u.arp_table Q ticks ∧ (u.arp_table i).state ≠ .EMPTY ∧
      ((u.arp_table i).state = .STABLE ↔ (s.arp_table i).state = .STABLE) ∧
      (u.arp_table i).ipaddr = (s.arp_table i).ipaddr ∧ (u.arp_table i).q = (s.arp_table i).q ∧
      ∀ j, j ≠ i → u.arp_table j = s.arp_table j := by
  by_cases hempty : (s.arp_table i).state = .EMPTY
  · rw [if_pos hempty] at hu
    have hnil : Q.waiting ip = [] := by
      rw [h.unqueued (by rw [hempty]; decide)] at hq
      exact List.map_eq_nil_iff.mp hq.symm
    subst hu
    rw [Etharp.set_self, hempty]
    refine ⟨?_, fun hf => (by cases hf), iff_of_false (fun hf => by cases hf) (by decide), rfl, rfl,
      fun j hj => Etharp.set_of_ne s hj _⟩
    apply hholds.update { s.arp_table i with state := .PENDING } haddr halone haddr
    · exact fun hf => by cases hf
    · exact hq
    · exact fun _ _ => rfl
    · intro _
      show (s.arp_table i).ctime < ARP_MAXPENDING ∧ ∀ it ∈ Q.waiting ip, _
      rw [hctime hempty, hnil]
      exact ⟨by decide, fun it hit => by cases hit⟩
  · rw [if_neg hempty] at hu
    subst hu
    exact ⟨hholds, hempty, Iff.rfl, rfl, rfl, fun _ _ => rfl⟩

/-- `etharp_query` takes the packet over for the address. -/
theorem etharpQuery_right [NeZero n] (h : Right claims s Q ticks) (netif : NetIf) (ipaddr : IpAddr)
    (q : Option Packet) (e : QueryEnv) {r : Err × Etharp n × List Frame}
    (hr : etharpQuery netif ipaddr q e s = .ok r) :
    Right claims r.2.1 (queryQueues netif ipaddr q e ticks s Q) ticks ∧
      sentFrames (queryQueues netif ipaddr q e ticks s Q) = sentFrames Q := by
  have hinv := (etharpQuery_spec h.inv netif ipaddr q e).1 r hr
  unfold etharpQuery at hr
  unfold queryQueues
  cases huni : nonUnicast ipaddr netif with
  | true =>
    rw [huni] at hr
    cases hr
    exact ⟨h, rfl⟩
  | false =>
    rw [huni] at hr
    obtain ⟨⟨r', s'⟩, hfind, hr⟩ := bind_eq_ok.mp hr
    rw [hfind]
    cases r' with
    | none =>
      cases hr
      rw [findEntry_none hfind]
      exact ⟨h, rfl⟩
    | some i =>
      obtain ⟨hfound, hholds, hq⟩ := findEntry_holds h.holds h.inv hfind
      have horder := h.inOrder.closeAll (gone s s') .freed
      have hlearned := learned_closeAll (gone s s') h.learned
      have hsent := sent_closeAll_freed (Q := Q) (gone s s')
      set Q' := Q.closeAll (gone s s') .freed with hQ'
      have haddr := hfound.addr i rfl
      dsimp only at hr
      set u := if (s'.arp_table i).state = .EMPTY
        then s'.set i { s'.arp_table i with state := .PENDING } else s' with hu
      obtain ⟨hu, hst, hstable, hip, hqu, hother⟩ := pending_holds hholds hfound.inv haddr
        (hfound.alone i rfl) hq (findEntry_ctime h.inv hfind) hu
      have hacc : accepted q e (u.arp_table i) = accepted q e (s'.arp_table i) :=
        accepted_congr q e hstable
      have htable := queryEntry_table hr
      rw [hacc] at htable
      dsimp only
      cases hp : accepted q e (s'.arp_table i) with
      | none =>
        rw [hp] at htable
        rw [htable] at hinv ⊢
        exact ⟨⟨hinv, horder, hu, hlearned⟩, hsent⟩
      | some p =>
        rw [hp] at htable
        rw [htable] at hinv ⊢
        show Right claims _ (Q'.take ipaddr ⟨p, ticks⟩) ticks ∧
          sentFrames (Q'.take ipaddr ⟨p, ticks⟩) = sentFrames Q
        refine ⟨⟨hinv, horder.take _ _, ?_, hlearned⟩, hsent⟩
        have haddru := hip.trans haddr
        have hpending : (u.arp_table i).state = .PENDING := by
          have hne := accepted_eq_some (hacc.trans hp)
          cases hs : (u.arp_table i).state with
          | EMPTY => exact absurd hs hst
          | PENDING => rfl
          | STABLE => exact absurd hs hne
        obtain ⟨hlt, hage⟩ := hu.young i hpending
        apply hu.update { u.arp_table i with q := (u.arp_table i).q ++ [p] } haddru _ haddru hst
        · rw [Queues.take_waiting_self, List.map_append, ← hq, ← hqu]
          rfl
        · exact fun k hk => Queues.take_waiting_of_ne hk _
        · refine fun _ => ⟨hlt, fun it hit => ?_⟩
          rw [Queues.take_waiting_self] at hit
          obtain hit | hit := List.mem_append.mp hit
          · exact hage it (by rwa [haddru])
          · rw [List.mem_singleton.mp hit]
            exact Nat.le_add_right _ _
        · intro j hj hstj
          rw [hother j hj] at hstj ⊢
          exact hfound.alone i rfl j hj hstj

/-- More claims do not matter for the queues. -/
theorem Right.mono {claims' : List (IpAddr × EthAddr)} (h : Right claims s Q ticks)
    (hc : ∀ c ∈ claims, c ∈ claims') : Right claims' s Q ticks :=
  ⟨h.inv.mono hc, h.inOrder, h.holds, fun it dest hit => hc _ (h.learned it dest hit)⟩

/-- An ARP packet updates the entry of its sender; the reply is no IP packet. -/
theorem etharpArpInput_right (h : Right claims s Q ticks) (netif : NetIf) (ethaddr : EthAddr)
    (p : ArpPacket)
    (hc : p.wellFormed = true → (p.hdr.sipaddr, p.hdr.shwaddr) ∈ claims) {r : Etharp n × List Frame}
    (hr : etharpArpInput netif ethaddr p s = .ok r) :
    Right claims r.1 (eventQueues ticks s Q (.arpInput netif ethaddr p)) ticks ∧
      sentFrames (eventQueues ticks s Q (.arpInput netif ethaddr p)) =
      sentFrames Q ++ ipFrames r.2 := by
  unfold etharpArpInput at hr
  unfold eventQueues
  dsimp only
  cases hp : p.wellFormed with
  | false =>
    rw [hp] at hr
    cases hr
    exact ⟨h, (List.append_nil _).symm⟩
  | true =>
    rw [hp] at hr
    obtain ⟨r', hr', hr⟩ := bind_eq_ok.mp hr
    obtain ⟨hright, hsent⟩ := updateArpEntry_right h netif _ (hc hp) hr'
    have hreply : ∀ hdr dest src, ipFrames (r'.2.2 ++ [.arp dest src hdr]) = ipFrames r'.2.2 := by
      intro hdr dest src
      unfold ipFrames
      rw [List.filterMap_append]
      exact List.append_nil _
    dsimp only at hr
    split at hr
    · cases hr
      exact ⟨hright, by rw [hreply]; exact hsent⟩
    · cases hr
      exact ⟨hright, hsent⟩

/-- An IP packet that comes in keeps the queues right. -/
theorem etharpIpInput_right (h : Right claims s Q ticks) (netif : NetIf) (p : IpFrame)
    (hc : (p.src, p.ethsrc) ∈ claims) {r : Etharp n × List Frame}
    (hr : etharpIpInput netif p s = .ok r) :
    Right claims r.1 (eventQueues ticks s Q (.ipInput netif p)) ticks ∧
      sentFrames (eventQueues ticks s Q (.ipInput netif p)) = sentFrames Q ++ ipFrames r.2 := by
  unfold etharpIpInput at hr
  unfold eventQueues
  dsimp only
  cases hlocal : ipAddrNetcmp p.src netif.ip_addr netif.netmask with
  | false =>
    rw [hlocal] at hr
    cases hr
    exact ⟨h, (List.append_nil _).symm⟩
  | true =>
    rw [hlocal] at hr
    obtain ⟨r', hr', hr⟩ := bind_eq_ok.mp hr
    cases hr
    exact updateArpEntry_right h netif _ hc hr'

/-- A packet that is sent keeps the queues right. -/
theorem etharpOutput_right [NeZero n] (h : Right claims s Q ticks) (netif : NetIf) (room : Bool)
    (q : Packet) (ipaddr : IpAddr) (e : QueryEnv) {r : Err × Etharp n × List Frame}
    (hr : etharpOutput netif room q ipaddr e s = .ok r) :
    Right claims r.2.1 (eventQueues ticks s Q (.output netif room q ipaddr e)) ticks ∧
      sentFrames (eventQueues ticks s Q (.output netif room q ipaddr e)) = sentFrames Q := by
  unfold etharpOutput at hr
  unfold eventQueues
  cases room with
  | false =>
    cases hr
    exact ⟨h, rfl⟩
  | true =>
    rw [Bool.not_true, if_neg Bool.false_ne_true] at hr
    dsimp only
    rw [Bool.not_true, if_neg Bool.false_ne_true]
    cases hroute : route netif ipaddr with
    | direct dest =>
      rw [hroute] at hr
      cases hr
      exact ⟨h, rfl⟩
    | none =>
      rw [hroute] at hr
      cases hr
      exact ⟨h, rfl⟩
    | query ip =>
      rw [hroute] at hr
      exact etharpQuery_right h netif ip (some q) e hr

/-- A tick frees the queues of the entries that are too old. -/
theorem etharpTmr_right (h : Right claims s Q ticks) :
    Right claims (etharpTmr s) (eventQueues ticks s Q .tmr) (ticks + 1) := by
  refine ⟨h.inv.tmr, h.inOrder.closeAll _ _, ?_, learned_closeAll _ h.learned⟩
  refine h.holds.emptied h.inv (fun j => ?_) fun j hst => ?_
  · show KeptOrEmptied (s.arp_table j) (etharpTmrEntry (s.arp_table j))
    unfold etharpTmrEntry
    dsimp only
    split
    · exact .inr ⟨rfl, rfl⟩
    · exact .inl ⟨rfl, rfl, rfl⟩
  · change (etharpTmrEntry (s.arp_table j)).state = .PENDING at hst
    show (etharpTmrEntry (s.arp_table j)).ctime < ARP_MAXPENDING ∧
      ticks + 1 + (s.arp_table j).ctime ≤ ticks + (etharpTmrEntry (s.arp_table j)).ctime
    unfold etharpTmrEntry at hst ⊢
    dsimp only at hst ⊢
    split at hst
    · cases hst
    next hyoung =>
    rw [if_neg hyoung]
    have hlt := (h.holds.young j hst).1
    have hlt' : ¬ (s.arp_table j).ctime + 1 ≥ ARP_MAXPENDING := fun hge => by
      apply hyoung
      rw [Nat.mod_eq_of_lt (by unfold ARP_MAXPENDING at hlt; omega)]
      exact .inr ⟨hst, hge⟩
    dsimp only
    rw [Nat.mod_eq_of_lt (by unfold ARP_MAXPENDING at hlt; omega)]
    omega

/-- Looking for an address changes nothing. -/
theorem etharpFindAddr_table {ipaddr : IpAddr} {r : Option (Fin n) × Etharp n}
    (hr : etharpFindAddr ipaddr s = .ok r) : r.2.arp_table = s.arp_table := by
  obtain ⟨⟨i, s'⟩, hfind, hr⟩ := bind_eq_ok.mp hr
  have htable : s'.arp_table = s.arp_table := by
    unfold findEntry at hfind
    split at hfind
    · cases hfind
      rfl
    unfold findEntryScan at hfind
    split at hfind
    · cases hfind
      rfl
    rw [if_pos (.inr rfl)] at hfind
    cases hfind
    rfl
  cases i with
  | none =>
    cases hr
    exact htable
  | some i =>
    cases hr
    exact htable

/-- The invariant of a courier. -/
structure Courier.Inv (s : Courier n) : Prop where
  right : Right s.node.claims s.node.arp s.post s.ticks
  transmitted : s.transmitted = sentFrames s.post

/-- Every event keeps the invariant of the courier. -/
theorem courierStep_inv [NeZero n] {s s' : Courier n} {ev : ArpEvent} (h : s.Inv)
    (hs : courierStep s ev = .ok s') : s'.Inv := by
  obtain ⟨node, hnode, hs⟩ := bind_eq_ok.mp hs
  obtain ⟨frames, hframes, hs⟩ := bind_eq_ok.mp hs
  obtain ⟨arp, harp, hnode⟩ := bind_eq_ok.mp hnode
  cases hnode
  cases hs
  have hmore : Right (ev.claim.toList ++ s.node.claims) s.node.arp s.post s.ticks :=
    h.right.mono fun c hc => List.mem_append_right _ hc
  have hsame : ∀ {Q : Post}, sentFrames Q = sentFrames s.post →
      s.transmitted ++ [] = sentFrames Q :=
    fun hQ => by rw [List.append_nil, hQ, h.transmitted]
  cases ev with
  | arpInput netif ethaddr p =>
    obtain ⟨r, hr, harp⟩ := bind_eq_ok.mp harp
    obtain ⟨r', hr', hframes⟩ := bind_eq_ok.mp hframes
    cases harp
    cases hframes
    obtain rfl : r = r' := Except.ok.inj (hr.symm.trans hr')
    have hclaim : p.wellFormed = true → (p.hdr.sipaddr, p.hdr.shwaddr) ∈
        (ArpEvent.arpInput netif ethaddr p).claim.toList ++ s.node.claims := fun hp => by
      rw [show (ArpEvent.arpInput netif ethaddr p).claim = some (p.hdr.sipaddr, p.hdr.shwaddr)
        from if_pos hp]
      exact List.mem_append_left _ (List.mem_singleton_self _)
    obtain ⟨hright, hsent⟩ := etharpArpInput_right hmore netif ethaddr p hclaim hr
    exact ⟨hright, by rw [h.transmitted]; exact hsent.symm⟩
  | ipInput netif p =>
    obtain ⟨r, hr, harp⟩ := bind_eq_ok.mp harp
    obtain ⟨r', hr', hframes⟩ := bind_eq_ok.mp hframes
    cases harp
    cases hframes
    obtain rfl : r = r' := Except.ok.inj (hr.symm.trans hr')
    obtain ⟨hright, hsent⟩ := etharpIpInput_right hmore netif p
      (List.mem_append_left _ (List.mem_singleton_self _)) hr
    exact ⟨hright, by rw [h.transmitted]; exact hsent.symm⟩
  | output netif room q ipaddr e =>
    obtain ⟨r, hr, harp⟩ := bind_eq_ok.mp harp
    cases harp
    cases hframes
    obtain ⟨hright, hsent⟩ := etharpOutput_right hmore netif room q ipaddr e hr
    exact ⟨hright, hsame hsent⟩
  | query netif ipaddr q e =>
    obtain ⟨r, hr, harp⟩ := bind_eq_ok.mp harp
    cases harp
    cases hframes
    obtain ⟨hright, hsent⟩ := etharpQuery_right hmore netif ipaddr q e hr
    exact ⟨hright, hsame hsent⟩
  | findAddr ipaddr =>
    obtain ⟨r, hr, harp⟩ := bind_eq_ok.mp harp
    cases harp
    cases hframes
    have htable := etharpFindAddr_table hr
    refine ⟨⟨hmore.inv.congr htable, hmore.inOrder, ?_, hmore.learned⟩, hsame rfl⟩
    show Holds r.2.arp_table _ _
    rw [htable]
    exact hmore.holds
  | tmr =>
    cases harp
    cases hframes
    exact ⟨etharpTmr_right hmore, hsame (sent_closeAll_freed _)⟩

end Step

/-- What is right delivers. -/
theorem Courier.Inv.delivers {s : Courier n} (h : s.Inv) : Delivers s := by
  obtain ⟨⟨hinv, horder, hholds, hlearned⟩, htrans⟩ := h
  refine ⟨fun it hit => horder.once hit, horder.order, hlearned, htrans, fun i hst => ?_,
    fun ip hip => ?_, fun i hst => hinv.unqueued hst, fun ip it hit => ?_⟩
  · exact hholds.queue i (by rw [hst]; decide)
  all_goals
    -- What waits is in the queue of an entry, which is a pending one.
    have hpending : ∀ {ip : IpAddr}, s.post.waiting ip ≠ [] → ∃ i,
        (s.node.arp.arp_table i).state = .PENDING ∧ (s.node.arp.arp_table i).ipaddr = ip := by
      intro ip hip
      obtain ⟨i, hst, hipi⟩ := hholds.entry ip hip
      refine ⟨i, hinv.queued i ?_, hipi⟩
      rw [hholds.queue i hst, hipi]
      exact fun hnil => hip (List.map_eq_nil_iff.mp hnil)
  · exact hpending hip
  · obtain ⟨i, hst, hipi⟩ := hpending (List.ne_nil_of_mem hit)
    obtain ⟨hlt, hage⟩ := hholds.young i hst
    have := hage it (by rwa [hipi])
    omega

/-- Before the first event. -/
def Courier.init (n : ℕ) [NeZero n] : Courier n := { node := Node.init n }

/-- In every run of the ARP code, the packets that `etharp_query` takes over are delivered. -/
theorem arp_queue_delivers [NeZero n] (es : List ArpEvent) :
    Always courierStep Delivers (Courier.init n) es := by
  have hinit : (Courier.init n).Inv := by
    refine ⟨⟨TableInv.init n, .init, ⟨?_, ?_, ?_⟩, ?_⟩, rfl⟩
    · exact fun i hst => absurd rfl hst
    · exact fun ip hip => absurd rfl hip
    · intro i hst
      cases hst
    · intro it dest hit
      cases hit
  rintro es' es'' s rfl hr
  exact (run_invariant (C := fun _ _ => True) (fun s ev s' hs _ hstep => courierStep_inv hs hstep)
    hinit (Along.of_forall _ fun _ _ => trivial) hr).delivers

/-- What waits in the example is sent or freed. -/
theorem arp_queue_delivers_exampleTraffic :
    Always courierStep Delivers (Courier.init 10) exampleTraffic :=
  arp_queue_delivers exampleTraffic

/-- The first packet is sent when the neighbour answers, and the other one is freed by the ticks. -/
example : (run courierStep (Courier.init 10) exampleTraffic).map
    (fun s => s.post.ended.map fun (it, fate) => (it.number, it.key, fate)) =
    .ok [(0, 0x0a000007, .sent ⟨#v[2, 0, 0, 0, 0, 7]⟩), (1, 0x0a000001, .freed)] := by
  rfl

end Lwip.Netif
