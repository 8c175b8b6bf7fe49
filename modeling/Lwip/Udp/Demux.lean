import Lwip.Udp.Bind

/-!
# Which pcb gets a datagram

`udp_new`, `udp_disconnect`, `udp_remove`, and the search of `udp_input`, beside `udp_bind` and
`udp_connect` of `Bind.lean`: the whole life of a `udp_pcb`. The pcbs come from the pool
`MEMP_UDP_PCB`, whose free elements are a list here, with `memp_malloc` and `memp_free` at its head.
`udp_input` takes the first pcb of the list that matches both sides, and moves it to the front;
failing that, the first one that is not connected.

`Table` is what every run keeps: the list goes through exactly the pcbs in use that have a port,
each once. So a datagram gets to a pcb that matches it if there is one, wherever it stands on the
list, and the order of the list matters only between pcbs that match equally well.
-/

namespace Lwip.Udp

/-- What the search reads of a datagram. -/
structure Datagram where
  /-- The addresses of the IP header. -/
  src : IpAddr
  dest : IpAddr
  /-- The ports of the UDP header. -/
  srcPort : BitVec 16
  destPort : BitVec 16
  /-- `ip_addr_isbroadcast(&(iphdr->dest), inp)`. -/
  broadcast : Bool
  deriving DecidableEq, Repr

namespace UdpPcb

/-- `local_match`. -/
def localMatch (pcb : UdpPcb) (d : Datagram) : Bool :=
  pcb.local_port = d.destPort.toNat &&
    ((!d.broadcast && pcb.local_ip = 0) || pcb.local_ip = d.dest || d.broadcast)

/-- The remote side of the pcb is the source of the datagram. -/
def remoteMatch (pcb : UdpPcb) (d : Datagram) : Bool :=
  pcb.remote_port = d.srcPort.toNat && (pcb.remote_ip = 0 || pcb.remote_ip = d.src)

/-- `(pcb->flags & UDP_FLAGS_CONNECTED) != 0`. -/
def connected (pcb : UdpPcb) : Bool := pcb.flags &&& UDP_FLAGS_CONNECTED ≠ 0

end UdpPcb

/-- Where the loop of `udp_input` ends: the pcb at which it breaks, and `prev` and `uncon_pcb`
then. -/
structure Found where
  pcb : Option ℕ
  prev : Option ℕ
  uncon_pcb : Option ℕ
  deriving DecidableEq, Repr

/-- The loop of `udp_input`. -/
def findLoop (s : Pcbs) (d : Datagram) : ℕ → Option ℕ → Option ℕ → Option ℕ → Except Abort Found
  | _, none, prev, uncon_pcb => .ok ⟨none, prev, uncon_pcb⟩
  | 0, some _, _, _ => .error .hang
  | fuel + 1, some pcb, prev, uncon_pcb =>
    let local_match := (s.pcbs pcb).localMatch d
    -- the first unconnected matching PCB
    let uncon_pcb := if local_match && uncon_pcb.isNone && !(s.pcbs pcb).connected then some pcb
      else uncon_pcb
    if local_match && (s.pcbs pcb).remoteMatch d then .ok ⟨some pcb, prev, uncon_pcb⟩
    else findLoop s d fuel (s.next pcb) (some pcb) uncon_pcb

/-- The part of `udp_input` that looks for the pcb. -/
def udpInput (fuel : ℕ) (s : Pcbs) (d : Datagram) : Except Abort (Pcbs × Option ℕ) := do
  let found ← findLoop s d fuel s.udp_pcbs none none
  match found.pcb, found.prev with
  | some pcb, some prev =>
    -- move the pcb to the front of udp_pcbs so that is found faster next time
    let s := s.set prev { s.pcbs prev with next := s.next pcb }
    .ok (s.push pcb, some pcb)
  | some pcb, none => .ok (s, some pcb)
  | none, _ => .ok (s, found.uncon_pcb)

/-- `udp_disconnect`. -/
def udpDisconnect (s : Pcbs) (pcb : ℕ) : Pcbs :=
  s.set pcb { s.pcbs pcb with
    remote_ip := 0, remote_port := 0, flags := (s.pcbs pcb).flags &&& ~~~UDP_FLAGS_CONNECTED }

/-- The loop of `udp_remove`. It goes on behind the pcb that it has taken off the list. -/
def removeLoop (pcb : ℕ) : ℕ → Pcbs → Option ℕ → Except Abort Pcbs
  | _, s, none => .ok s
  | 0, _, some _ => .error .hang
  | fuel + 1, s, some pcb2 =>
    let s := if s.next pcb2 = some pcb then s.set pcb2
      { s.pcbs pcb2 with next := s.next pcb } else s
    removeLoop pcb fuel s (s.next pcb2)

/-- `udp_remove`, up to `memp_free`. -/
def udpRemove (fuel : ℕ) (s : Pcbs) (pcb : ℕ) : Except Abort Pcbs :=
  if s.udp_pcbs = some pcb then .ok { s with udp_pcbs := s.next pcb }
  else removeLoop pcb fuel s s.udp_pcbs

/-- A pcb with the flag is connected. -/
theorem connected_or (flags : UInt8) :
    (flags ||| UDP_FLAGS_CONNECTED) &&& UDP_FLAGS_CONNECTED = UDP_FLAGS_CONNECTED := by
  apply UInt8.toBitVec_inj.mp
  ext i
  simp only [UInt8.toBitVec_and, UInt8.toBitVec_or, BitVec.getElem_and, BitVec.getElem_or]
  grind

/-- A pcb without the flag is not connected. -/
theorem connected_and (flags : UInt8) :
    (flags &&& ~~~UDP_FLAGS_CONNECTED) &&& UDP_FLAGS_CONNECTED = 0 := by
  apply UInt8.toBitVec_inj.mp
  ext i
  simp

/-! ## The machine -/

/-- The pcbs with their pool. -/
structure State where
  pcbs : Pcbs
  /-- The free elements of the pool, the next one first. -/
  free : List ℕ

/-- The state after the start, with `n` elements in the pool. -/
def State.init (n : ℕ) : State := ⟨⟨fun _ => {}, none⟩, List.range n⟩

/-- The calls, and the arrival of a datagram. -/
inductive Event where
  | new
  | bind (pcb : ℕ) (ipaddr : Option IpAddr) (port : BitVec 16)
  | connect (pcb : ℕ) (ipaddr : Option IpAddr) (port : BitVec 16)
  /-- `udp_sendto`, which binds a pcb without a port. -/
  | sendto (pcb : ℕ)
  | disconnect (pcb : ℕ)
  | remove (pcb : ℕ)
  | input (d : Datagram)
  deriving DecidableEq, Repr

/-- One event. -/
def udpStep (fuel : ℕ) (s : State) : Event → Except Abort State
  | .new =>
    match s.free with
    | [] => .ok s
    | pcb :: free => .ok ⟨s.pcbs.set pcb {}, free⟩
  | .bind pcb ipaddr port => do
    let r ← udpBind fuel s.pcbs pcb ipaddr port.toNat
    .ok { s with pcbs := r.1 }
  | .connect pcb ipaddr port => do
    let r ← udpConnect fuel s.pcbs pcb ipaddr port.toNat
    .ok { s with pcbs := r.1 }
  | .sendto pcb =>
    if (s.pcbs.pcbs pcb).local_port = 0 then do
      let r ← udpBind fuel s.pcbs pcb (some (s.pcbs.pcbs pcb).local_ip) 0
      .ok { s with pcbs := r.1 }
    else .ok s
  | .disconnect pcb => .ok { s with pcbs := udpDisconnect s.pcbs pcb }
  | .remove pcb => do
    let pcbs ← udpRemove fuel s.pcbs pcb
    .ok ⟨pcbs, pcb :: s.free⟩
  | .input d => do
    let r ← udpInput fuel s.pcbs d
    .ok { s with pcbs := r.1 }

/-- The pcb is an element of the pool, and was given out. -/
def State.InUse (n : ℕ) (s : State) (pcb : ℕ) : Prop := pcb < n ∧ pcb ∉ s.free

/-- The pcb of a call is in use. -/
def OnUsed (n : ℕ) (s : State) : Event → Prop
  | .bind pcb _ _ | .connect pcb _ _ | .sendto pcb | .disconnect pcb | .remove pcb => s.InUse n pcb
  | .new | .input _ => True

instance (n : ℕ) (s : State) (pcb : ℕ) : Decidable (s.InUse n pcb) :=
  inferInstanceAs (Decidable (_ ∧ _))

instance (n : ℕ) (s : State) (e : Event) : Decidable (OnUsed n s e) := by
  cases e <;> unfold OnUsed <;> infer_instance

/-- The list goes through exactly the pcbs in use that have a port. A pcb that is not connected has
no remote side. -/
structure Table (n : ℕ) (s : State) (l : List ℕ) : Prop where
  walk : Walk s.pcbs.next s.pcbs.udp_pcbs l
  mem_iff : ∀ i, i ∈ l ↔ s.InUse n i ∧ (s.pcbs.pcbs i).local_port ≠ 0
  remote : ∀ i, s.InUse n i → (s.pcbs.pcbs i).connected = false →
    (s.pcbs.pcbs i).remote_ip = 0 ∧ (s.pcbs.pcbs i).remote_port = 0
  bound : ∀ i, s.InUse n i → (s.pcbs.pcbs i).connected = true → (s.pcbs.pcbs i).local_port ≠ 0
  /-- The ports are 16-bit numbers. -/
  ports : ∀ i, s.InUse n i → (s.pcbs.pcbs i).local_port < 2^16 ∧ (s.pcbs.pcbs i).remote_port < 2^16
  free : s.free.Nodup ∧ ∀ i ∈ s.free, i < n

/-! ## The search -/

section Search

variable {s : Pcbs} {d : Datagram} {pcb i : ℕ} {p : UdpPcb} {l l' : List ℕ} {r prev : Option ℕ}

/-- The pcb matches both sides. -/
def Pcbs.full (s : Pcbs) (d : Datagram) (i : ℕ) :
    Bool := (s.pcbs i).localMatch d && (s.pcbs i).remoteMatch d

/-- The pcb matches the local side, and has no remote side. -/
def Pcbs.uncon (s : Pcbs) (d : Datagram) (i : ℕ) :
    Bool := (s.pcbs i).localMatch d && !(s.pcbs i).connected

/-- The loop breaks at the first pcb that matches both sides, with the pcb before it. -/
theorem findLoop_full {k k' : List ℕ} {fuel : ℕ} (h : Walk s.next r (k ++ i :: k'))
    (hfuel : (k ++ i :: k').length ≤ fuel) (hi : s.full d i = true)
    (hk : ∀ j ∈ k, s.full d j = false) (prev uncon : Option ℕ) :
    ∃ u, findLoop s d fuel r prev uncon = .ok ⟨some i, k.getLast?.or prev, u⟩ := by
  induction k generalizing r fuel prev uncon with
  | nil =>
    cases h with
    | cons h =>
      obtain ⟨fuel, rfl⟩ : ∃ n, fuel = n + 1 :=
        Nat.exists_eq_succ_of_ne_zero (by rintro rfl; cases hfuel)
      unfold findLoop
      dsimp only
      unfold Pcbs.full at hi
      rw [if_pos hi]
      exact ⟨_, rfl⟩
  | cons j k ih =>
    cases h with
    | cons h =>
      obtain ⟨fuel, rfl⟩ : ∃ n, fuel = n + 1 :=
        Nat.exists_eq_succ_of_ne_zero (by rintro rfl; cases hfuel)
      unfold findLoop
      dsimp only
      have hj : ((s.pcbs j).localMatch d && (s.pcbs j).remoteMatch d) = false :=
        hk j List.mem_cons_self
      rw [hj, if_neg Bool.false_ne_true]
      rw [List.cons_append, List.length_cons] at hfuel
      obtain ⟨u, hu⟩ := ih h (Nat.le_of_succ_le_succ hfuel)
        (fun x hx => hk x (List.mem_cons_of_mem j hx)) (some j)
        (if (s.pcbs j).localMatch d && uncon.isNone && !(s.pcbs j).connected then some j else uncon)
      refine ⟨u, hu.trans ?_⟩
      rw [List.getLast?_cons]
      cases k.getLast? <;> rfl

/-- Without such a pcb the loop comes to the end with the first one that is not connected. -/
theorem findLoop_none {fuel : ℕ} (h : Walk s.next r l) (hfuel : l.length ≤ fuel)
    (hl : ∀ j ∈ l, s.full d j = false) (prev uncon : Option ℕ) :
    ∃ q, findLoop s d fuel r prev uncon = .ok ⟨none, q, uncon.or (l.find? (s.uncon d))⟩ := by
  induction h generalizing fuel prev uncon with
  | nil => cases fuel <;> exact ⟨prev, by simp [findLoop]⟩
  | @cons j l hw ih =>
    obtain ⟨fuel, rfl⟩ : ∃ n, fuel = n + 1 :=
      Nat.exists_eq_succ_of_ne_zero (by rintro rfl; cases hfuel)
    unfold findLoop
    dsimp only
    have hj : ((s.pcbs j).localMatch d && (s.pcbs j).remoteMatch d) = false :=
      hl j List.mem_cons_self
    rw [hj, if_neg Bool.false_ne_true]
    obtain ⟨q, hq⟩ := ih (Nat.le_of_succ_le_succ hfuel)
      (fun x hx => hl x (List.mem_cons_of_mem j hx)) (some j)
      (if (s.pcbs j).localMatch d && uncon.isNone && !(s.pcbs j).connected then some j else uncon)
    refine ⟨q, hq.trans ?_⟩
    rw [List.find?_cons]
    unfold Pcbs.uncon
    -- A pcb that was found before stays the first one.
    cases uncon with
    | some u => simp
    | none => cases (s.pcbs j).localMatch d <;> cases (s.pcbs j).connected <;> simp

/-- An assignment to `next` changes one pointer. -/
theorem Pcbs.next_set_next (s : Pcbs) (q : ℕ) (r : Option ℕ) :
    (s.set q { s.pcbs q with next := r }).next = Function.update s.next q r := by
  funext i
  unfold Pcbs.next Pcbs.set
  dsimp only
  by_cases hi : i = q
  · rw [hi, Function.update_self, Function.update_self]
  · rw [Function.update_of_ne hi, Function.update_of_ne hi]

/-- The order of the list at most has changed, and this is the pcb that gets the datagram: the first
one that matches both sides, which is the first one of the list now, or else the first one that is
not connected. -/
inductive Demuxed (s : Pcbs) (d : Datagram) (l : List ℕ) (s' : Pcbs) : Option ℕ → Prop where
  | full {k k' : List ℕ} {i : ℕ} : l = k ++ i :: k' → s.full d i = true →
    (∀ j ∈ k, s.full d j = false) →
      Walk s'.next s'.udp_pcbs (i :: (k ++ k')) → Demuxed s d l s' (some i)
  | uncon : (∀ j ∈ l, s.full d j = false) → s' = s → Demuxed s d l s' (l.find? (s.uncon d))

/-- Only the links are not the same. -/
def SameFields (s s' : Pcbs) : Prop := ∀ i, { s'.pcbs i with next := (s.pcbs i).next } = s.pcbs i

namespace SameFields

variable {s' : Pcbs}

/-- The other fields of a pcb are the same. -/
theorem eq {α : Type} (h : SameFields s s') (f : UdpPcb → α)
    (hf : ∀ p r, f { p with next := r } = f p) (i : ℕ) : f (s'.pcbs i) = f (s.pcbs i) := by
  have heq := congrArg f (h i)
  rwa [hf] at heq

/-- The same local port. -/
theorem local_port (h : SameFields s s') (i : ℕ) : (s'.pcbs i).local_port = (s.pcbs i).local_port :=
  h.eq UdpPcb.local_port (fun _ _ => rfl) i

/-- The same flag. -/
theorem connected (h : SameFields s s') (i : ℕ) : (s'.pcbs i).connected = (s.pcbs i).connected :=
  h.eq UdpPcb.connected (fun _ _ => rfl) i

/-- The same remote address. -/
theorem remote_ip (h : SameFields s s') (i : ℕ) : (s'.pcbs i).remote_ip = (s.pcbs i).remote_ip :=
  h.eq UdpPcb.remote_ip (fun _ _ => rfl) i

/-- The same remote port. -/
theorem remote_port (h : SameFields s s') (i : ℕ) :
    (s'.pcbs i).remote_port = (s.pcbs i).remote_port :=
  h.eq UdpPcb.remote_port (fun _ _ => rfl) i

/-- The same pcbs match both sides. -/
theorem full (h : SameFields s s') (i : ℕ) : s'.full d i = s.full d i :=
  h.eq (fun p => p.localMatch d && p.remoteMatch d) (fun _ _ => rfl) i

end SameFields

/-- A pcb that was taken out is put in front. -/
theorem Pcbs.push_unlinked {k k' : List ℕ} {q : ℕ}
    (h : Walk s.next s.udp_pcbs (k ++ q :: i :: k')) :
    Walk ((s.set q { s.pcbs q with next := s.next i }).push i).next
      ((s.set q { s.pcbs q with next := s.next i }).push i).udp_pcbs (i :: (k ++ q :: k')) := by
  refine Pcbs.push_walk ?_ ?_
  · rw [Pcbs.next_set_next]
    exact h.unlink
  · have hnodup : (k ++ q :: i :: k').Nodup := h.nodup
    have hperm : (k ++ q :: i :: k').Perm (i :: (k ++ q :: k')) := by
      have hmid : (k ++ [q] ++ i :: k').Perm (i :: (k ++ [q] ++ k')) := List.perm_middle
      simpa using hmid
    exact (List.nodup_cons.mp (hperm.nodup_iff.mp hnodup)).1

/-- The search of `udp_input` returns. -/
theorem udpInput_spec {fuel : ℕ} (h : Walk s.next s.udp_pcbs l) (hfuel : l.length ≤ fuel)
    (d : Datagram) :
    ∃ s' r, udpInput fuel s d = .ok (s', r) ∧ SameFields s s' ∧ Demuxed s d l s' r := by
  by_cases hex : ∃ i ∈ l, s.full d i = true
  · -- The list is cut at the first such pcb.
    obtain ⟨i, hi⟩ : ∃ i, l.find? (s.full d) = some i := by
      obtain ⟨i, hi, hf⟩ := hex
      exact Option.isSome_iff_exists.mp (List.find?_isSome.mpr ⟨i, hi, hf⟩)
    obtain ⟨hfull, k, k', rfl, hk⟩ := List.find?_eq_some_iff_append.mp hi
    have hk' : ∀ j ∈ k, s.full d j = false := fun j hj => by simpa using hk j hj
    obtain ⟨u, hu⟩ := findLoop_full h hfuel hfull hk' none none
    unfold udpInput
    rw [hu]
    dsimp only [bind, Except.bind]
    rcases List.eq_nil_or_concat k with rfl | ⟨k, q, rfl⟩
    · exact ⟨s, some i, rfl, fun j => rfl, .full rfl hfull hk' h⟩
    · rw [List.concat_eq_append] at h hu hk' ⊢
      rw [List.getLast?_append, List.getLast?_singleton]
      dsimp only [Option.or, Option.some_or]
      refine ⟨_, some i, rfl, fun j => ?_, .full rfl hfull hk' ?_⟩
      · unfold Pcbs.push Pcbs.set
        dsimp only
        by_cases hj : j = i
        · subst hj
          rw [Function.update_self]
          by_cases hq : j = q
          · rw [hq, Function.update_self]
          · rw [Function.update_of_ne hq]
        · rw [Function.update_of_ne hj]
          by_cases hq : j = q
          · rw [hq, Function.update_self]
          · rw [Function.update_of_ne hq]
      · rw [List.append_assoc] at h ⊢
        exact Pcbs.push_unlinked h
  · have hnone : ∀ j ∈ l, s.full d j = false := fun j hj => by
      by_contra hne
      exact hex ⟨j, hj, by simpa using hne⟩
    obtain ⟨q, hq⟩ := findLoop_none h hfuel hnone none none
    unfold udpInput
    rw [hq]
    exact ⟨s, _, rfl, fun j => rfl, .uncon hnone rfl⟩

/-! ## Taking a pcb off the list -/

/-- The pcb that a cell of a walk links to is on the walk. -/
theorem mem_of_link (h : Walk s.next r l) (hi : i ∈ l) (hlink : s.next i = some pcb) : pcb ∈ l := by
  obtain ⟨k, k', rfl⟩ := h.link_split hi hlink
  simp

/-- The loop takes nothing off a list that the pcb is not on. -/
theorem removeLoop_of_not_mem {fuel : ℕ} (h : Walk s.next r l) (hfuel : l.length ≤ fuel)
    (hpcb : pcb ∉ l) : removeLoop pcb fuel s r = .ok s := by
  induction h generalizing fuel with
  | nil => cases fuel <;> rfl
  | @cons j l hw ih =>
    obtain ⟨fuel, rfl⟩ : ∃ n, fuel = n + 1 :=
      Nat.exists_eq_succ_of_ne_zero (by rintro rfl; cases hfuel)
    unfold removeLoop
    have hlink : s.next j ≠ some pcb := fun hlink =>
      hpcb (mem_of_link (.cons hw) List.mem_cons_self hlink)
    rw [if_neg hlink]
    exact ih (Nat.le_of_succ_le_succ hfuel) fun hm => hpcb (List.mem_cons_of_mem j hm)

/-- The link of the pcb before it passes the pcb over. -/
theorem removeLoop_of_mem {k k' : List ℕ} {q fuel : ℕ} (h : Walk s.next r (k ++ q :: pcb :: k'))
    (hfuel : (k ++ q :: pcb :: k').length ≤ fuel) :
    removeLoop pcb fuel s r = .ok (s.set q { s.pcbs q with next := s.next pcb }) := by
  induction k generalizing r fuel with
  | nil =>
    obtain ⟨fuel, rfl⟩ : ∃ n, fuel = n + 1 :=
      Nat.exists_eq_succ_of_ne_zero (by rintro rfl; cases hfuel)
    have hnodup : (q :: pcb :: k').Nodup := h.nodup
    have hwalk := h.unlink (l := [])
    cases h with
    | cons h =>
      have hlink : s.next q = some pcb := h.head?_eq.symm
      unfold removeLoop
      rw [if_pos hlink]
      set s₁ := s.set q { s.pcbs q with next := s.next pcb } with hs₁
      have hnext : s₁.next = Function.update s.next q (s.next pcb) := Pcbs.next_set_next s q _
      have hq : s₁.next q = s.next pcb := by rw [hnext, Function.update_self]
      rw [← hnext] at hwalk
      -- The loop goes on through what is left, where the pcb does not come up again.
      refine removeLoop_of_not_mem (l := k') ?_ ?_ ?_
      · cases hwalk with
        | cons hwalk => exact hwalk
      · simp only [List.nil_append, List.length_cons] at hfuel
        omega
      · exact (List.nodup_cons.mp (List.nodup_cons.mp hnodup).2).1
  | cons j k ih =>
    obtain ⟨fuel, rfl⟩ : ∃ n, fuel = n + 1 :=
      Nat.exists_eq_succ_of_ne_zero (by rintro rfl; cases hfuel)
    have hnodup : (j :: (k ++ q :: pcb :: k')).Nodup := h.nodup
    cases h with
    | cons h =>
      unfold removeLoop
      have hlink : s.next j ≠ some pcb := by
        intro hlink
        rw [hlink] at h
        -- Then the pcb would be the next one of the list, and come up again behind `q`.
        have hhead : (k ++ q :: pcb :: k').head? = some pcb := h.head?_eq
        have hrest := (List.nodup_cons.mp hnodup).2
        cases k with
        | nil =>
          cases hhead
          exact (List.nodup_cons.mp hrest).1 List.mem_cons_self
        | cons x k =>
          cases hhead
          exact (List.nodup_cons.mp hrest).1 (by simp)
      rw [if_neg hlink]
      rw [List.cons_append, List.length_cons] at hfuel
      exact ih h (Nat.le_of_succ_le_succ hfuel)

/-- `udp_remove` takes the pcb off the list, and leaves the other fields of the pcbs as they are. -/
theorem udpRemove_spec {fuel : ℕ} (h : Walk s.next s.udp_pcbs l)
    (hfuel : l.length ≤ fuel) (pcb : ℕ) :
    ∃ s', udpRemove fuel s pcb = .ok s' ∧ SameFields s s' ∧
    Walk s'.next s'.udp_pcbs (l.erase pcb) := by
  unfold udpRemove
  by_cases hhead : s.udp_pcbs = some pcb
  · rw [if_pos hhead]
    rw [hhead] at h
    cases h with
    | @cons _ l h =>
      rw [List.erase_cons_head]
      exact ⟨_, rfl, fun i => rfl, h⟩
  · rw [if_neg hhead]
    by_cases hmem : pcb ∈ l
    · obtain ⟨q, hq, hlink⟩ := (h.pred hmem).resolve_left hhead
      obtain ⟨k, k', rfl⟩ := h.link_split hq hlink
      refine ⟨_, removeLoop_of_mem h hfuel, fun i => ?_, ?_⟩
      · by_cases hi : i = q
        · rw [hi, Pcbs.set_self]
        · rw [Pcbs.set_of_ne s hi]
      · have hnodup : (k ++ q :: pcb :: k').Nodup := h.nodup
        have hk : pcb ∉ k ++ [q] := by
          have hmid : (k ++ [q] ++ pcb :: k').Nodup := by simpa using hnodup
          intro hm
          exact (List.nodup_append.mp hmid).2.2 pcb hm pcb List.mem_cons_self rfl
        have herase : (k ++ q :: pcb :: k').erase pcb = k ++ q :: k' := by
          rw [← List.singleton_append, ← List.append_assoc, List.erase_append_right _ hk]
          simp
        rw [herase, Pcbs.next_set_next]
        exact h.unlink
    · rw [List.erase_of_not_mem hmem]
      exact ⟨s, removeLoop_of_not_mem h hfuel hmem, fun i => rfl, h⟩

/-! ## Binding -/

/-- `udp_bind` returns. The pcb has a port then, and is on the list; or there is none, and only its
address may be another one. -/
theorem udpBind_spec (h : Walk s.next s.udp_pcbs l) (pcb : ℕ) (ipaddr : Option IpAddr)
    {port fuel : ℕ} (hport : port < 2^16) (hfuel : bindRounds l ≤ fuel) :
    ∃ s₁, s₁ = s.set pcb { s.pcbs pcb with local_ip := ipaddr.getD 0 } ∧
      ((∃ p, p ≠ 0 ∧ p < 2^16 ∧
      udpBind fuel s pcb ipaddr port = .ok (bindPort s₁ pcb p (decide (pcb ∈ l)), .ERR_OK)) ∨
        udpBind fuel s pcb ipaddr port = .ok (s₁, .ERR_USE)) := by
  rcases Nat.eq_zero_or_pos port with rfl | hpos
  · obtain ⟨s₁, hs₁, ⟨p, hleast, hrun⟩ | ⟨-, hrun⟩⟩ := udpBind_search h pcb ipaddr hfuel
    · obtain ⟨hle, hlt, -⟩ := hleast.1
      unfold UDP_LOCAL_PORT_RANGE_START at hle
      unfold UDP_LOCAL_PORT_RANGE_END at hlt
      exact ⟨s₁, hs₁, .inl ⟨p, by omega, by omega, hrun⟩⟩
    · exact ⟨s₁, hs₁, .inr hrun⟩
  · refine ⟨_, rfl, .inl ⟨port, by omega, hport, ?_⟩⟩
    unfold bindRounds at hfuel
    unfold udpBind
    rw [rebindLoop_eq h (by omega) fun hf => by cases hf]
    dsimp only [bind, Except.bind]
    rw [if_neg (by omega), Bool.false_or]

end Search

/-! ## The table -/

section Table

variable {n fuel pcb : ℕ} {s s' : State} {l : List ℕ} {p : UdpPcb}

/-- The rounds that the loops take at most with `n` pcbs. -/
def rounds (n : ℕ) : ℕ := (UDP_LOCAL_PORT_RANGE_END - UDP_LOCAL_PORT_RANGE_START) * (n + 1) + n

namespace Table

/-- The list is not longer than there are pcbs. -/
theorem length_le (h : Table n s l) :
    l.length ≤ n := h.walk.length_le fun i hi => ((h.mem_iff i).mp hi).1.1

/-- The loops of `udp_bind` have enough rounds. -/
theorem bindRounds_le (h : Table n s l) (hfuel : rounds n ≤ fuel) : bindRounds l ≤ fuel := by
  have hlen := h.length_le
  refine Nat.le_trans ?_ hfuel
  unfold bindRounds rounds
  gcongr

/-- The loops along the list have enough rounds. -/
theorem length_le_fuel (h : Table n s l) (hfuel : rounds n ≤ fuel) : l.length ≤ fuel := by
  have hlen := h.length_le
  unfold rounds at hfuel
  omega

/-- An assignment that takes the port neither away nor for the first time. -/
theorem set (h : Table n s l) (hn : p.next = (s.pcbs.pcbs pcb).next)
    (hport : p.local_port = 0 ↔ (s.pcbs.pcbs pcb).local_port = 0)
    (hremote : s.InUse n pcb → p.connected = false → p.remote_ip = 0 ∧ p.remote_port = 0)
    (hbound : s.InUse n pcb → p.connected = true → p.local_port ≠ 0)
    (hports : s.InUse n pcb → p.local_port < 2^16 ∧ p.remote_port < 2^16) :
    Table n { s with pcbs := s.pcbs.set pcb p } l where
  walk := Pcbs.set_walk h.walk hn
  mem_iff i := by
    rw [h.mem_iff]
    refine and_congr_right fun _ => not_congr ?_
    dsimp only
    by_cases hi : i = pcb
    · rw [hi, Pcbs.set_self]
      exact hport.symm
    · rw [Pcbs.set_of_ne _ hi]
  remote i hi hc := by
    dsimp only at hc ⊢
    by_cases hip : i = pcb
    · rw [hip, Pcbs.set_self] at hc ⊢
      exact hremote (hip ▸ hi) hc
    · rw [Pcbs.set_of_ne _ hip] at hc ⊢
      exact h.remote i hi hc
  bound i hi hc := by
    dsimp only at hc ⊢
    by_cases hip : i = pcb
    · rw [hip, Pcbs.set_self] at hc ⊢
      exact hbound (hip ▸ hi) hc
    · rw [Pcbs.set_of_ne _ hip] at hc ⊢
      exact h.bound i hi hc
  ports i hi := by
    dsimp only
    by_cases hip : i = pcb
    · rw [hip, Pcbs.set_self]
      exact hports (hip ▸ hi)
    · rw [Pcbs.set_of_ne _ hip]
      exact h.ports i hi
  free := h.free

/-- A pcb in use without a port gets one, and is put on the list. -/
theorem push (h : Table n s l) (hu : s.InUse n pcb) (hpcb : pcb ∉ l) (hp : p.local_port ≠ 0)
    (hn : p.next = (s.pcbs.pcbs pcb).next)
    (hremote : p.connected = false → p.remote_ip = 0 ∧ p.remote_port = 0)
    (hports : p.local_port < 2^16 ∧ p.remote_port < 2^16) :
    Table n { s with pcbs := (s.pcbs.set pcb p).push pcb } (pcb :: l) := by
  have hself : ((s.pcbs.set pcb p).push pcb).pcbs pcb = { p with next := s.pcbs.udp_pcbs } := by
    unfold Pcbs.push
    dsimp only
    rw [Pcbs.set_self, Pcbs.set_self]
    rfl
  have hother : ∀ i, i ≠ pcb → ((s.pcbs.set pcb p).push pcb).pcbs i = s.pcbs.pcbs i := by
    intro i hi
    unfold Pcbs.push
    dsimp only
    rw [Pcbs.set_of_ne _ hi, Pcbs.set_of_ne _ hi]
  refine ⟨Pcbs.push_walk (Pcbs.set_walk h.walk hn) hpcb, fun i => ?_, fun i hi hc => ?_,
    fun i hi hc => ?_, fun i hi => ?_, h.free⟩
  · rw [List.mem_cons]
    dsimp only
    by_cases hi : i = pcb
    · rw [hi, hself]
      exact iff_of_true (.inl rfl) ⟨hu, hp⟩
    · rw [hother i hi, or_iff_right hi]
      exact h.mem_iff i
  · dsimp only at hc ⊢
    by_cases hip : i = pcb
    · rw [hip, hself] at hc ⊢
      exact hremote hc
    · rw [hother i hip] at hc ⊢
      exact h.remote i hi hc
  · dsimp only at hc ⊢
    by_cases hip : i = pcb
    · rw [hip, hself]
      exact hp
    · rw [hother i hip] at hc ⊢
      exact h.bound i hi hc
  · dsimp only
    by_cases hip : i = pcb
    · rw [hip, hself]
      exact hports
    · rw [hother i hip]
      exact h.ports i hi

/-- `udp_bind` keeps the table, and the pcb has a port when it succeeds. -/
theorem udpBind {port : ℕ} (h : Table n s l) (hu : s.InUse n pcb) (ipaddr : Option IpAddr)
    (hport : port < 2^16) (hfuel : rounds n ≤ fuel) :
    ∃ pcbs err l', Lwip.Udp.udpBind fuel s.pcbs pcb ipaddr port = .ok (pcbs, err) ∧
      Table n { s with pcbs } l' ∧ (err = .ERR_OK → pcb ∈ l') := by
  obtain ⟨s₁, rfl, hcase⟩ := udpBind_spec h.walk pcb ipaddr hport (h.bindRounds_le hfuel)
  have hset : Table n
      { s with pcbs := s.pcbs.set pcb { s.pcbs.pcbs pcb with local_ip := ipaddr.getD 0 } } l :=
    h.set rfl Iff.rfl (h.remote pcb) (h.bound pcb) (h.ports pcb)
  rcases hcase with ⟨p, hp, hlt, hrun⟩ | hrun
  · refine ⟨_, _, if pcb ∈ l then l else pcb :: l, hrun, ?_, fun _ => ?_⟩
    · unfold bindPort
      dsimp only
      by_cases hmem : pcb ∈ l
      · rw [if_pos hmem, if_pos (by simpa using hmem)]
        have hold : (s.pcbs.pcbs pcb).local_port ≠ 0 := ((h.mem_iff pcb).mp hmem).2
        refine hset.set rfl ?_ ?_ ?_ ?_
        · dsimp only
          rw [Pcbs.set_self]
          exact iff_of_false hp hold
        · dsimp only
          rw [Pcbs.set_self]
          exact h.remote pcb
        · exact fun _ _ => hp
        · dsimp only
          rw [Pcbs.set_self]
          exact fun hi => ⟨hlt, (h.ports pcb hi).2⟩
      · rw [if_neg hmem, if_neg (by simpa using hmem)]
        refine hset.push hu hmem ?_ rfl ?_ ?_
        · exact hp
        · dsimp only
          rw [Pcbs.set_self]
          exact h.remote pcb hu
        · dsimp only
          rw [Pcbs.set_self]
          exact ⟨hlt, (h.ports pcb hu).2⟩
    · split
      · next hmem => exact hmem
      · exact List.mem_cons_self
  · exact ⟨_, _, l, hrun, hset, fun hf => by cases hf⟩

/-- `udp_connect` keeps the table. A pcb that could be bound is on the list already. -/
theorem udpConnect {port : ℕ} (h : Table n s l) (hu : s.InUse n pcb) (ipaddr : Option IpAddr)
    (hrport : port < 2^16) (hfuel : rounds n ≤ fuel) :
    ∃ pcbs err l', Lwip.Udp.udpConnect fuel s.pcbs pcb ipaddr port = .ok (pcbs, err) ∧
      Table n { s with pcbs } l' := by
  -- The remote side of a pcb on the list is assigned.
  have hgo : ∀ {pcbs : Pcbs} {l'}, Table n { s with pcbs } l' → pcb ∈ l' →
      ∃ pcbs', (do
          let s := pcbs.set pcb { pcbs.pcbs pcb with
            remote_ip := ipaddr.getD 0, remote_port := port,
            flags := (pcbs.pcbs pcb).flags ||| UDP_FLAGS_CONNECTED }
          let found ← onList s pcb fuel s.udp_pcbs
          .ok (if found then s else s.push pcb, Err.ERR_OK)) =
            Except.ok (ε := Abort) (pcbs', Err.ERR_OK) ∧
        Table n { s with pcbs := pcbs' } l' := by
    intro pcbs l' ht hmem
    set p := { pcbs.pcbs pcb with
      remote_ip := ipaddr.getD 0, remote_port := port,
      flags := (pcbs.pcbs pcb).flags ||| UDP_FLAGS_CONNECTED } with hp
    have hconn : p.connected = true := by
      unfold UdpPcb.connected
      rw [hp, connected_or]
      rfl
    have hset : Table n { s with pcbs := pcbs.set pcb p } l' := by
      refine ht.set rfl Iff.rfl (fun _ hc => ?_) (fun _ _ => ((ht.mem_iff pcb).mp hmem).2)
        fun hi => ⟨(ht.ports pcb hi).1, hrport⟩
      rw [hconn] at hc
      cases hc
    refine ⟨pcbs.set pcb p, ?_, hset⟩
    dsimp only
    rw [onList_eq hset.walk (hset.length_le_fuel hfuel), decide_eq_true hmem]
    rfl
  unfold Lwip.Udp.udpConnect
  by_cases hport : (s.pcbs.pcbs pcb).local_port = 0
  · rw [if_pos hport]
    obtain ⟨pcbs, err, l', hrun, ht, hmem⟩ := h.udpBind hu (some (s.pcbs.pcbs pcb).local_ip)
      (h.ports pcb hu).1 hfuel
    rw [hrun]
    dsimp only [bind, Except.bind]
    by_cases herr : err = .ERR_OK
    · rw [if_neg (not_not.mpr herr)]
      obtain ⟨pcbs', hrun', ht'⟩ := hgo ht (hmem herr)
      exact ⟨pcbs', .ERR_OK, l', hrun', ht'⟩
    · rw [if_pos herr]
      exact ⟨pcbs, err, l', rfl, ht⟩
  · rw [if_neg hport]
    dsimp only [bind, Except.bind]
    rw [if_neg (not_not.mpr rfl)]
    obtain ⟨pcbs', hrun', ht'⟩ := hgo h ((h.mem_iff pcb).mpr ⟨hu, hport⟩)
    exact ⟨pcbs', .ERR_OK, l, hrun', ht'⟩

/-- A change of the links keeps the table, if the list goes through the same pcbs. -/
theorem relink {pcbs : Pcbs} {l' : List ℕ} (h : Table n s l) (hsame : SameFields s.pcbs pcbs)
    (hw : Walk pcbs.next pcbs.udp_pcbs l') (hl : ∀ i, i ∈ l' ↔ i ∈ l) :
    Table n { s with pcbs } l' := by
  refine ⟨hw, fun i => ?_, fun i hi hc => ?_, fun i hi hc => ?_, fun i hi => ?_, h.free⟩
  · dsimp only
    rw [hl, hsame.local_port]
    exact h.mem_iff i
  · dsimp only at hc ⊢
    rw [hsame.connected] at hc
    rw [hsame.remote_ip, hsame.remote_port]
    exact h.remote i hi hc
  · dsimp only at hc ⊢
    rw [hsame.connected] at hc
    rw [hsame.local_port]
    exact h.bound i hi hc
  · dsimp only
    rw [hsame.local_port, hsame.remote_port]
    exact h.ports i hi

/-- `udp_input` keeps the table. -/
theorem udpInput (h : Table n s l) (d : Datagram) (hfuel : rounds n ≤ fuel) :
    ∃ pcbs r l', Lwip.Udp.udpInput fuel s.pcbs d = .ok (pcbs, r) ∧ SameFields s.pcbs pcbs ∧
      Demuxed s.pcbs d l pcbs r ∧ Table n { s with pcbs } l' := by
  obtain ⟨pcbs, r, hrun, hsame, hd⟩ := udpInput_spec h.walk (h.length_le_fuel hfuel) d
  cases hd with
  | @full k k' i hl hi hk hw =>
    refine ⟨pcbs, _, _, hrun, hsame, .full hl hi hk hw, h.relink hsame hw fun j => ?_⟩
    rw [hl]
    exact List.perm_middle.symm.mem_iff
  | uncon hnone hs => exact ⟨pcbs, _, l, hrun, hsame, .uncon hnone hs, hs ▸ h⟩

/-- `udp_remove` takes the pcb from the table. -/
theorem udpRemove (h : Table n s l) (hu : s.InUse n pcb) (hfuel : rounds n ≤ fuel) :
    ∃ pcbs, Lwip.Udp.udpRemove fuel s.pcbs pcb = .ok pcbs ∧ Table n ⟨pcbs, pcb :: s.free⟩
    (l.erase pcb) := by
  obtain ⟨pcbs, hrun, hsame, hw⟩ := udpRemove_spec h.walk (h.length_le_fuel hfuel) pcb
  have hold : ∀ {i}, State.InUse n ⟨pcbs, pcb :: s.free⟩ i → s.InUse n i :=
    fun hi => ⟨hi.1, fun hm => hi.2 (List.mem_cons_of_mem pcb hm)⟩
  refine ⟨pcbs, hrun, hw, fun i => ?_, fun i hi hc => ?_, fun i hi hc => ?_, fun i hi => ?_, ?_⟩
  · rw [h.walk.nodup.mem_erase_iff, h.mem_iff]
    dsimp only
    rw [hsame.local_port]
    constructor
    · rintro ⟨hne, hi, hp⟩
      exact ⟨⟨hi.1, fun hm => (List.mem_cons.mp hm).elim hne hi.2⟩, hp⟩
    · rintro ⟨hi, hp⟩
      exact ⟨fun he => hi.2 (he ▸ List.mem_cons_self), hold hi, hp⟩
  · dsimp only at hc ⊢
    rw [hsame.connected] at hc
    rw [hsame.remote_ip, hsame.remote_port]
    exact h.remote i (hold hi) hc
  · dsimp only at hc ⊢
    rw [hsame.connected] at hc
    rw [hsame.local_port]
    exact h.bound i (hold hi) hc
  · dsimp only
    rw [hsame.local_port, hsame.remote_port]
    exact h.ports i (hold hi)
  · refine ⟨List.nodup_cons.mpr ⟨hu.2, h.free.1⟩, fun i hi => ?_⟩
    rcases List.mem_cons.mp hi with rfl | hi
    · exact hu.1
    · exact h.free.2 i hi

/-- `udp_new` gives out a pcb without a port. -/
theorem new {free : List ℕ} (h : Table n s l) (hfree : s.free = pcb :: free) :
    Table n ⟨s.pcbs.set pcb {}, free⟩ l := by
  have hnot : pcb ∉ l := fun hm => ((h.mem_iff pcb).mp hm).1.2 (hfree ▸ List.mem_cons_self)
  have hnodup := h.free.1
  rw [hfree] at hnodup
  have hold : ∀ {i}, i ≠ pcb → (State.InUse n ⟨s.pcbs.set pcb {}, free⟩ i ↔ s.InUse n i) := by
    intro i hi
    unfold State.InUse
    rw [hfree, List.mem_cons, or_iff_right hi]
  refine ⟨?_, fun i => ?_, fun i hi hc => ?_, fun i hi hc => ?_, fun i hi => ?_, ?_⟩
  · refine h.walk.congr fun i hi => ?_
    have hne : i ≠ pcb := by
      rintro rfl
      exact hnot hi
    exact congrArg UdpPcb.next (Pcbs.set_of_ne _ hne _)
  · by_cases hi : i = pcb
    · dsimp only
      rw [hi, Pcbs.set_self]
      exact iff_of_false hnot fun hp => hp.2 rfl
    · dsimp only
      rw [hold hi, Pcbs.set_of_ne _ hi]
      exact h.mem_iff i
  · by_cases hip : i = pcb
    · dsimp only
      rw [hip, Pcbs.set_self]
      exact ⟨rfl, rfl⟩
    · dsimp only at hc ⊢
      rw [Pcbs.set_of_ne _ hip] at hc ⊢
      exact h.remote i ((hold hip).mp hi) hc
  · by_cases hip : i = pcb
    · dsimp only at hc
      rw [hip, Pcbs.set_self] at hc
      cases hc
    · dsimp only at hc ⊢
      rw [Pcbs.set_of_ne _ hip] at hc ⊢
      exact h.bound i ((hold hip).mp hi) hc
  · by_cases hip : i = pcb
    · dsimp only
      rw [hip, Pcbs.set_self]
      exact ⟨by decide, by decide⟩
    · dsimp only
      rw [Pcbs.set_of_ne _ hip]
      exact h.ports i ((hold hip).mp hi)
  · refine ⟨(List.nodup_cons.mp hnodup).2, fun i hi => h.free.2 i ?_⟩
    rw [hfree]
    exact List.mem_cons_of_mem pcb hi

/-- Every event keeps the table, and comes to an end. -/
theorem step {e : Event} (h : Table n s l) (he : OnUsed n s e) (hfuel : rounds n ≤ fuel) :
    ∃ s', udpStep fuel s e = .ok s' ∧ ∃ l', Table n s' l' := by
  cases e with
  | new =>
    cases hfree : s.free with
    | nil => exact ⟨s, by simp only [udpStep, hfree], l, h⟩
    | cons pcb free => exact ⟨_, by simp only [udpStep, hfree], l, h.new hfree⟩
  | bind pcb ipaddr port =>
    obtain ⟨pcbs, err, l', hrun, ht, -⟩ := h.udpBind he ipaddr port.isLt hfuel
    exact ⟨{ s with pcbs }, bind_eq_ok.mpr ⟨_, hrun, rfl⟩, l', ht⟩
  | connect pcb ipaddr port =>
    obtain ⟨pcbs, err, l', hrun, ht⟩ := h.udpConnect he ipaddr port.isLt hfuel
    exact ⟨{ s with pcbs }, bind_eq_ok.mpr ⟨_, hrun, rfl⟩, l', ht⟩
  | sendto pcb =>
    by_cases hport : (s.pcbs.pcbs pcb).local_port = 0
    · obtain ⟨pcbs, err, l', hrun, ht, -⟩ :=
        h.udpBind he (some (s.pcbs.pcbs pcb).local_ip) (Nat.two_pow_pos 16) hfuel
      exact ⟨{ s with pcbs }, (if_pos hport).trans (bind_eq_ok.mpr ⟨_, hrun, rfl⟩), l', ht⟩
    · exact ⟨s, if_neg hport, l, h⟩
  | disconnect pcb =>
    refine ⟨_, rfl, l, h.set rfl Iff.rfl (fun _ _ => ⟨rfl, rfl⟩) (fun _ hc => ?_)
      fun hi => ⟨(h.ports pcb hi).1, Nat.two_pow_pos 16⟩⟩
    unfold UdpPcb.connected at hc
    dsimp only at hc
    rw [connected_and] at hc
    exact absurd hc (by decide)
  | remove pcb =>
    obtain ⟨pcbs, hrun, ht⟩ := h.udpRemove he hfuel
    exact ⟨⟨pcbs, pcb :: s.free⟩, bind_eq_ok.mpr ⟨_, hrun, rfl⟩, _, ht⟩
  | input d =>
    obtain ⟨pcbs, r, l', hrun, -, -, ht⟩ := h.udpInput d hfuel
    exact ⟨{ s with pcbs }, bind_eq_ok.mpr ⟨_, hrun, rfl⟩, l', ht⟩

/-- At first the list is empty. -/
theorem init (n : ℕ) : Table n (.init n) [] where
  walk := .nil
  mem_iff i := iff_of_false List.not_mem_nil fun hi => hi.2 rfl
  remote i hi _ := ⟨rfl, rfl⟩
  ports i _ := ⟨Nat.two_pow_pos 16, Nat.two_pow_pos 16⟩
  bound i hi hc := absurd (show ({} : UdpPcb).connected = true from hc) (by decide)
  free := ⟨List.nodup_range, fun i hi => List.mem_range.mp hi⟩

end Table

/-! ## Who gets a datagram -/

/-- The pcb is in use and has a port. -/
def State.Bound (n : ℕ) (s : State) (pcb : ℕ) :
    Prop := s.InUse n pcb ∧ (s.pcbs.pcbs pcb).local_port ≠ 0

/-- The receiver of a datagram. It is a bound pcb that matches the local side, and the remote side
too if it is connected. A pcb that matches both sides comes first, and then one that is not
connected. If there is any, the datagram has a receiver. -/
structure Receives (n : ℕ) (s : State) (d : Datagram) (r : Option ℕ) : Prop where
  local_match : ∀ i ∈ r, s.Bound n i ∧ (s.pcbs.pcbs i).localMatch d = true
  peer : ∀ i ∈ r, (s.pcbs.pcbs i).connected = true → (s.pcbs.pcbs i).remoteMatch d = true
  full : ∀ i, s.Bound n i → s.pcbs.full d i = true → ∃ j ∈ r, s.pcbs.full d j = true
  uncon : ∀ i, s.Bound n i → s.pcbs.uncon d i = true → ∃ j, j ∈ r

/-- What the search finds is what should get the datagram. -/
theorem Demuxed.receives {pcbs : Pcbs} {d : Datagram} {r : Option ℕ} (h : Table n s l)
    (hd : Demuxed s.pcbs d l pcbs r) : Receives n s d r := by
  cases hd with
  | @full k k' i hl hi hk hw =>
    have hmem : i ∈ l := by
      rw [hl]
      exact List.mem_append_right k List.mem_cons_self
    obtain ⟨hloc, hrem⟩ := Bool.and_eq_true_iff.mp hi
    refine ⟨?_, ?_, fun _ _ _ => ⟨i, rfl, hi⟩, fun _ _ _ => ⟨i, rfl⟩⟩
    · rintro _ ⟨⟩
      exact ⟨(h.mem_iff i).mp hmem, hloc⟩
    · rintro _ ⟨⟩ -
      exact hrem
  | uncon hnone hs =>
    refine ⟨fun i hi => ?_, fun i hi hc => ?_, fun i hi hf => ?_, fun i hi hu => ?_⟩
    · have hfound : s.pcbs.uncon d i = true := List.find?_some hi
      exact ⟨(h.mem_iff i).mp (List.mem_of_find?_eq_some hi), (Bool.and_eq_true_iff.mp hfound).1⟩
    · have hfound : s.pcbs.uncon d i = true := List.find?_some hi
      have hu := (Bool.and_eq_true_iff.mp hfound).2
      rw [hc] at hu
      cases hu
    · rw [hnone i ((h.mem_iff i).mpr hi)] at hf
      cases hf
    · exact Option.isSome_iff_exists.mp (List.find?_isSome.mpr ⟨i, (h.mem_iff i).mpr hi, hu⟩)

/-- A second datagram of the kind goes to the same pcb. -/
theorem Demuxed.again {pcbs : Pcbs} {d : Datagram} {r : Option ℕ} (h : Table n s l)
    (hsame : SameFields s.pcbs pcbs) (hd : Demuxed s.pcbs d l pcbs r) (hfuel : rounds n ≤ fuel) :
    udpInput fuel pcbs d = .ok (pcbs, r) := by
  cases hd with
  | @full k k' i hl hi hk hw =>
    -- It is the first one of the list now.
    have hfull : pcbs.full d i = true := (hsame.full i).trans hi
    have hlen : (i :: (k ++ k')).length ≤ fuel := by
      have hle := h.length_le_fuel hfuel
      rw [hl] at hle
      simp only [List.length_append, List.length_cons] at hle ⊢
      omega
    obtain ⟨u, hu⟩ := findLoop_full (k := []) hw hlen hfull
      (fun j hj => absurd hj List.not_mem_nil) none none
    unfold udpInput
    rw [hu]
    rfl
  | uncon hnone hs =>
    subst hs
    obtain ⟨q, hq⟩ := findLoop_none h.walk (h.length_le_fuel hfuel) hnone none none
    unfold udpInput
    rw [hq]
    rfl

/-- In every run, of any length, no assertion fails and every loop ends; and in the state that is
reached, `udp_pcbs` goes through exactly the pcbs in use that have a port, each once, and every
datagram gets to the pcb that should have it. Nothing but the order of the list is changed by this,
and the next datagram of the kind goes the same way. -/
theorem udp_demux {n fuel : ℕ} (hfuel : rounds n ≤ fuel) {es : List Event}
    (hes : Along (udpStep fuel) (OnUsed n) (.init n) es) :
    ∃ s, run (udpStep fuel) (.init n) es = .ok s ∧ (∃ l, Table n s l) ∧ ∀ d, ∃ pcbs r,
      udpInput fuel s.pcbs d = .ok (pcbs, r) ∧ Receives n s d r ∧ SameFields s.pcbs pcbs ∧
        udpInput fuel pcbs d = .ok (pcbs, r) := by
  obtain ⟨s, hrun, l, h⟩ := run_ok (I := fun s => ∃ l, Table n s l)
    (fun _ _ hI he => hI.elim fun _ h => h.step he hfuel) ⟨[], Table.init n⟩ hes
  refine ⟨s, hrun, ⟨l, h⟩, fun d => ?_⟩
  obtain ⟨pcbs, r, l', hin, hsame, hd, -⟩ := h.udpInput d hfuel
  exact ⟨pcbs, r, hin, hd.receives h, hsame, hd.again h hsame hfuel⟩

end Table

/-- Two pcbs with one port, of which the second one is connected. -/
def twoRun : List Event :=
  [.new, .new, .bind 1 none 53, .bind 0 none 53, .connect 0 (some 9) 99]

/-- A datagram to this port. -/
def toPort53 (src : IpAddr) (srcPort : BitVec 16) : Datagram := ⟨src, 7, srcPort, 53, false⟩

/-- Two pcbs of the example on one port: the connected one gets what is for it. -/
theorem udp_demux_twoRun :
    ∃ s, run (udpStep (rounds 4)) (.init 4) twoRun = .ok s ∧ Receives 4 s (toPort53 9 99) (some 0) ∧
      Receives 4 s (toPort53 9 98) (some 1) := by
  have hes : Along (udpStep (rounds 4)) (OnUsed 4) (.init 4) twoRun := by decide +kernel
  obtain ⟨s, hrun, -, hd⟩ := udp_demux (Nat.le_refl _) hes
  have hval : ∀ d r, (run (udpStep (rounds 4)) (.init 4) twoRun).toOption.bind
      (fun s => (udpInput (rounds 4) s.pcbs d).toOption.map Prod.snd) = some r →
      Receives 4 s d r := by
    intro d r hr
    obtain ⟨pcbs, r', hin, hrec, -⟩ := hd d
    rw [hrun] at hr
    simp only [Except.toOption, Option.bind_some, hin, Option.map_some, Option.some.injEq] at hr
    exact hr ▸ hrec
  exact ⟨s, hrun, hval _ _ (by decide +kernel), hval _ _ (by decide +kernel)⟩

end Lwip.Udp
