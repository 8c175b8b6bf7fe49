import Lwip.Arch
import Lwip.Lib.Links
import Mathlib.Order.Bounds.Basic

/-!
# The local port of a UDP pcb

`udp_bind` and `udp_connect`. A `udp_pcb` is known by a number, and `udp_pcbs` and `next` are the
pointers of the list of bound pcbs. Without a port, `udp_bind` looks for one that no pcb of the list
has, and starts at the head of the list again with every port. The loops take a bound on the number
of their rounds; the search is done with the lexicographic order of the ports that are left and of
the pcbs that are left.
-/

namespace Lwip.Udp

/-- `struct ip_addr`. -/
abbrev IpAddr := BitVec 32

/-- The results, `err_t`. -/
inductive Err where
  | ERR_OK | ERR_USE
  deriving DecidableEq, Repr

/-- Why a call does not return. -/
inductive Abort where
  /-- `rebind == 0` -/
  | rebindTwice
  /-- Not an assertion: a loop does not end. -/
  | hang
  deriving DecidableEq, Repr

/-- `struct udp_pcb`. The options of the pcb and its callback have no part in this. -/
structure UdpPcb where
  local_ip : IpAddr := 0
  remote_ip : IpAddr := 0
  next : Option ℕ := none
  flags : UInt8 := 0
  local_port : ℕ := 0
  remote_port : ℕ := 0
  deriving DecidableEq, Repr

/-- The pcbs, and the head of the list of them. -/
structure Pcbs where
  pcbs : ℕ → UdpPcb
  udp_pcbs : Option ℕ

namespace Pcbs

/-- The fields of `pcb` are assigned. -/
def set (s : Pcbs) (pcb : ℕ) (p : UdpPcb) : Pcbs := { s with pcbs := Function.update s.pcbs pcb p }

/-- `pcb->next`. -/
def next (s : Pcbs) (pcb : ℕ) : Option ℕ := (s.pcbs pcb).next

/-- `pcb->next = udp_pcbs; udp_pcbs = pcb;` -/
def push (s : Pcbs) (pcb : ℕ) : Pcbs :=
  { s.set pcb { s.pcbs pcb with next := s.udp_pcbs } with udp_pcbs := some pcb }

end Pcbs

/-- `UDP_FLAGS_CONNECTED`. -/
def UDP_FLAGS_CONNECTED : UInt8 := 0x04

/-- `UDP_LOCAL_PORT_RANGE_START`. -/
def UDP_LOCAL_PORT_RANGE_START : ℕ := 4096

/-- `UDP_LOCAL_PORT_RANGE_END`. -/
def UDP_LOCAL_PORT_RANGE_END : ℕ := 0x7fff

/-- The check for a rebind of the same pcb. -/
def rebindLoop (s : Pcbs) (pcb : ℕ) : ℕ → Option ℕ → Bool → Except Abort Bool
  | _, none, rebind => .ok rebind
  | 0, some _, _ => .error .hang
  | fuel + 1, some ipcb, rebind =>
    if pcb = ipcb then do
      -- pcb may occur at most once in active list
      lwipAssert .rebindTwice (rebind = false)
      rebindLoop s pcb fuel (s.next ipcb) true
    else rebindLoop s pcb fuel (s.next ipcb) rebind

/-- The search for a port that no pcb of the list has: where it ends in the range and in the
list. -/
def portLoop (s : Pcbs) : ℕ → ℕ → Option ℕ → Except Abort (ℕ × Option ℕ)
  | _, port, none => .ok (port, none)
  | fuel, port, some ipcb =>
    if port = UDP_LOCAL_PORT_RANGE_END then .ok (port, some ipcb)
    else match fuel with
      | 0 => .error .hang
      | fuel + 1 =>
        -- port is already used by another udp_pcb: restart scanning all udp pcbs
        if (s.pcbs ipcb).local_port = port then portLoop s fuel (port + 1) s.udp_pcbs
        else portLoop s fuel port (s.next ipcb)

/-- The end of `udp_bind`. -/
def bindPort (s : Pcbs) (pcb port : ℕ) (rebind : Bool) : Pcbs :=
  let s := s.set pcb { s.pcbs pcb with local_port := port }
  -- place the PCB on the active list if not already there
  if rebind then s else s.push pcb

/-- `udp_bind`, with `none` for the `ipaddr` `NULL`. -/
def udpBind (fuel : ℕ) (s : Pcbs) (pcb : ℕ) (ipaddr : Option IpAddr) (port : ℕ) :
    Except Abort (Pcbs × Err) := do
  let rebind ← rebindLoop s pcb fuel s.udp_pcbs false
  let s := s.set pcb { s.pcbs pcb with local_ip := ipaddr.getD 0 }
  -- no port specified?
  if port = 0 then do
    let (port, ipcb) ← portLoop s fuel UDP_LOCAL_PORT_RANGE_START s.udp_pcbs
    -- no more ports available in local range
    if ipcb ≠ none then .ok (s, .ERR_USE) else .ok (bindPort s pcb port rebind, .ERR_OK)
  else .ok (bindPort s pcb port rebind, .ERR_OK)

/-- The loop at the end of `udp_connect`: the pcb is on the list already. -/
def onList (s : Pcbs) (pcb : ℕ) : ℕ → Option ℕ → Except Abort Bool
  | _, none => .ok false
  | 0, some _ => .error .hang
  | fuel + 1, some ipcb => if pcb = ipcb then .ok true else onList s pcb fuel (s.next ipcb)

/-- `udp_connect`. -/
def udpConnect (fuel : ℕ) (s : Pcbs) (pcb : ℕ) (ipaddr : Option IpAddr) (port : ℕ) :
    Except Abort (Pcbs × Err) := do
  let (s, err) ← if (s.pcbs pcb).local_port = 0 then
      udpBind fuel s pcb (some (s.pcbs pcb).local_ip) (s.pcbs pcb).local_port
    else .ok (s, .ERR_OK)
  if err ≠ .ERR_OK then .ok (s, err)
  else do
    let s := s.set pcb { s.pcbs pcb with
      remote_ip := ipaddr.getD 0, remote_port := port,
      flags := (s.pcbs pcb).flags ||| UDP_FLAGS_CONNECTED }
    let found ← onList s pcb fuel s.udp_pcbs
    .ok (if found then s else s.push pcb, .ERR_OK)

/-! ## The list -/

section List

variable {s : Pcbs} {pcb i : ℕ} {p : UdpPcb} {l l' d : List ℕ} {r : Option ℕ}

/-- The fields that were assigned are read. -/
@[simp] theorem Pcbs.set_self (s : Pcbs) (pcb : ℕ) (p : UdpPcb) : (s.set pcb p).pcbs pcb = p :=
  Function.update_self ..

/-- The other pcbs stay as they are. -/
@[simp] theorem Pcbs.set_of_ne (s : Pcbs) (h : i ≠ pcb) (p : UdpPcb) :
    (s.set pcb p).pcbs i = s.pcbs i :=
  Function.update_of_ne h ..

/-- An assignment does not change the head of the list. -/
@[simp] theorem Pcbs.udp_pcbs_set (s : Pcbs) (pcb : ℕ) (p : UdpPcb) :
    (s.set pcb p).udp_pcbs = s.udp_pcbs := rfl

/-- An assignment of other fields leaves the links as they are. -/
theorem Pcbs.next_set (hn : p.next = (s.pcbs pcb).next) : (s.set pcb p).next = s.next := by
  funext i
  unfold Pcbs.next
  by_cases hi : i = pcb
  · rw [hi, Pcbs.set_self, hn]
  · rw [Pcbs.set_of_ne s hi]

/-- An assignment that keeps `next` keeps the list. -/
theorem Pcbs.set_walk (h : Walk s.next s.udp_pcbs l) (hn : p.next = (s.pcbs pcb).next) :
    Walk (s.set pcb p).next (s.set pcb p).udp_pcbs l := by
  rw [Pcbs.next_set hn]
  exact h

/-- The list after a pcb that is not on it was placed on it. -/
theorem Pcbs.push_walk (h : Walk s.next s.udp_pcbs l) (hpcb : pcb ∉ l) :
    Walk (s.push pcb).next (s.push pcb).udp_pcbs (pcb :: l) := by
  have hself : (s.push pcb).next pcb = s.udp_pcbs := by
    show (Function.update s.pcbs pcb _ pcb).next = s.udp_pcbs
    rw [Function.update_self]
  refine .cons ?_
  rw [hself]
  refine h.congr fun i hi => congrArg UdpPcb.next (Function.update_of_ne ?_ ..)
  exact fun hip => hpcb (hip ▸ hi)

/-- The check for a rebind. -/
theorem rebindLoop_eq {fuel : ℕ} {rebind : Bool} (h : Walk s.next r l) (hfuel : l.length ≤ fuel)
    (hre : rebind = true → pcb ∉ l) :
    rebindLoop s pcb fuel r rebind = .ok (rebind || decide (pcb ∈ l)) := by
  induction h generalizing fuel rebind with
  | nil => cases fuel <;> simp [rebindLoop]
  | @cons i l hw ih =>
    obtain ⟨fuel, rfl⟩ : ∃ n, fuel = n + 1 :=
      Nat.exists_eq_succ_of_ne_zero (by rintro rfl; cases hfuel)
    rw [List.length_cons] at hfuel
    unfold rebindLoop
    by_cases hpi : pcb = i
    · subst hpi
      have hnot : pcb ∉ l := (Walk.cons hw).head_not_mem
      have hfalse : rebind = false := by
        by_contra hne
        exact hre (by simpa using hne) List.mem_cons_self
      rw [if_pos rfl, (lwipAssert_eq_ok (u := ())).mpr hfalse]
      dsimp only [bind, Except.bind]
      rw [ih (by omega) fun _ => hnot]
      simp
    · rw [if_neg hpi, ih (by omega) fun h' hl => hre h' (List.mem_cons_of_mem i hl)]
      simp [hpi]

/-- The loop finds out if the pcb is on the list. -/
theorem onList_eq {fuel : ℕ} (h : Walk s.next r l) (hfuel : l.length ≤ fuel) :
    onList s pcb fuel r = .ok (decide (pcb ∈ l)) := by
  induction h generalizing fuel with
  | nil => cases fuel <;> simp [onList]
  | @cons i l hw ih =>
    obtain ⟨fuel, rfl⟩ : ∃ n, fuel = n + 1 :=
      Nat.exists_eq_succ_of_ne_zero (by rintro rfl; cases hfuel)
    rw [List.length_cons] at hfuel
    unfold onList
    by_cases hpi : pcb = i
    · simp [hpi]
    · rw [if_neg hpi, ih (by omega)]
      simp [hpi]

/-! ## The search -/

/-- No pcb of the list has the port. -/
def Free (s : Pcbs) (l : List ℕ) (port : ℕ) : Prop := ∀ i ∈ l, (s.pcbs i).local_port ≠ port

instance (s : Pcbs) (l : List ℕ) (port : ℕ) : Decidable (Free s l port) :=
  inferInstanceAs (Decidable (∀ i ∈ l, (s.pcbs i).local_port ≠ port))

/-- The ports of the local range that no pcb of the list has. -/
def freePorts (s : Pcbs) (l : List ℕ) : Set ℕ :=
  {port | UDP_LOCAL_PORT_RANGE_START ≤ port ∧ port < UDP_LOCAL_PORT_RANGE_END ∧ Free s l port}

/-- Where the search ends that has come to `port`: at the least free port that is left, or
nowhere. -/
def SearchEnds (s : Pcbs) (l : List ℕ) (port : ℕ) : ℕ × Option ℕ → Prop
  | (port', none) => port ≤ port' ∧ port' < UDP_LOCAL_PORT_RANGE_END ∧ Free s l port' ∧
      ∀ p, port ≤ p → p < port' → ¬ Free s l p
  | (_, some _) => ∀ p, port ≤ p → p < UDP_LOCAL_PORT_RANGE_END → ¬ Free s l p

/-- All pcbs of the list have other ports. -/
theorem searchEnds_none {port : ℕ} (hfree : Free s l port)
    (hport : port < UDP_LOCAL_PORT_RANGE_END) : SearchEnds s l port (port, none) :=
  ⟨Nat.le_refl _, hport, hfree, fun p hle hlt => by omega⟩

/-- All ports of the range were tried. -/
theorem searchEnds_end (i : ℕ) :
    SearchEnds s l UDP_LOCAL_PORT_RANGE_END (UDP_LOCAL_PORT_RANGE_END, some i) :=
  fun p hle hlt => by omega

/-- A port that a pcb of the list has is passed over. -/
theorem SearchEnds.of_succ {port : ℕ} {x : ℕ × Option ℕ} (h : SearchEnds s l (port + 1) x)
    (hused : ¬ Free s l port) : SearchEnds s l port x := by
  obtain ⟨port', ipcb⟩ := x
  cases ipcb with
  | none =>
    obtain ⟨hle, hlt, hfree, hleast⟩ := h
    refine ⟨by omega, hlt, hfree, fun p hp hp' => ?_⟩
    rcases Nat.eq_or_lt_of_le hp with rfl | hp
    · exact hused
    · exact hleast p hp hp'
  | some i =>
    intro p hp hp'
    rcases Nat.eq_or_lt_of_le hp with rfl | hp
    · exact hused
    · exact h p hp hp'

/-- The search has come to `port` and is done with the pcbs of `d`. Each round takes a pcb from
those that are left, or a port from those that are left. -/
theorem portLoop_spec {fuel port : ℕ} (hl : Walk s.next s.udp_pcbs l) (hr : Walk s.next r l')
    (hsplit : l = d ++ l') (hdone : ∀ i ∈ d, (s.pcbs i).local_port ≠ port)
    (hport : port ≤ UDP_LOCAL_PORT_RANGE_END) (hmore : port = UDP_LOCAL_PORT_RANGE_END → l' ≠ [])
    (hfuel : (UDP_LOCAL_PORT_RANGE_END - port) * (l.length + 1) + l'.length ≤ fuel) :
    ∃ x, portLoop s fuel port r = .ok x ∧ SearchEnds s l port x := by
  induction fuel generalizing port r l' d with
  | zero =>
    cases hr with
    | nil =>
      rw [List.append_nil] at hsplit
      exact ⟨_, rfl, searchEnds_none (hsplit ▸ hdone) (Nat.lt_of_le_of_ne hport fun h =>
        hmore h rfl)⟩
    | cons => exact absurd hfuel (by rw [List.length_cons]; omega)
  | succ fuel ih =>
    cases hr with
    | nil =>
      rw [List.append_nil] at hsplit
      exact ⟨_, rfl, searchEnds_none (hsplit ▸ hdone) (Nat.lt_of_le_of_ne hport fun h =>
        hmore h rfl)⟩
    | @cons i l' hw =>
      rw [List.length_cons] at hfuel
      unfold portLoop
      split
      · next hend => exact ⟨_, rfl, hend ▸ searchEnds_end i⟩
      next hend =>
      dsimp only
      split
      · next hused =>
        -- On to the next port, with all pcbs of the list again.
        have hi : i ∈ l := by rw [hsplit]; simp
        have hport' : UDP_LOCAL_PORT_RANGE_END - port = UDP_LOCAL_PORT_RANGE_END - (port + 1) +
            1 := by omega
        rw [hport', Nat.add_mul, Nat.one_mul] at hfuel
        obtain ⟨x, hrun, hx⟩ : ∃ x, portLoop s fuel (port + 1) s.udp_pcbs = .ok x ∧
            SearchEnds s l (port + 1) x :=
          ih (d := []) hl rfl (fun j hj => by cases hj) (by omega)
            (fun _ hnil => by rw [hnil] at hi; cases hi) (by omega)
        exact ⟨x, hrun, hx.of_succ fun hfree => hfree i hi hused⟩
      · next hother =>
        refine ih (d := d ++ [i]) hw (by rw [hsplit]; simp) (fun j hj => ?_) hport
          (fun h => absurd h hend) (by omega)
        rcases List.mem_append.mp hj with hj | hj
        · exact hdone j hj
        · rw [List.mem_singleton.mp hj]
          exact hother

/-- The assignment of other fields does not concern the search. -/
theorem freePorts_set (hp : p.local_port = (s.pcbs pcb).local_port) (l : List ℕ) :
    freePorts (s.set pcb p) l = freePorts s l := by
  have hsame : ∀ i, ((s.set pcb p).pcbs i).local_port = (s.pcbs i).local_port := by
    intro i
    by_cases hi : i = pcb
    · rw [hi, Pcbs.set_self, hp]
    · rw [Pcbs.set_of_ne s hi]
  unfold freePorts Free
  simp only [hsame]

/-- A search that ends at a port has found the least free one. -/
theorem searchEnds_found {port : ℕ} (h : SearchEnds s l UDP_LOCAL_PORT_RANGE_START (port, none)) :
    IsLeast (freePorts s l) port := by
  obtain ⟨hle, hlt, hfree, hleast⟩ := h
  refine ⟨⟨hle, hlt, hfree⟩, fun p hp => ?_⟩
  by_contra hpp
  exact hleast p hp.1 (Nat.lt_of_not_le hpp) hp.2.2

/-- A search that ends nowhere has found all ports in use. -/
theorem searchEnds_nowhere {port : ℕ}
    (h : SearchEnds s l UDP_LOCAL_PORT_RANGE_START (port, some i)) :
    ¬ (freePorts s l).Nonempty := by
  rintro ⟨p, hle, hlt, hfree⟩
  exact h p hle hlt hfree

/-! ## Binding without a port -/

/-- The pcb has the least free port, and is on the list once, in front if it was not on it; or there
is no free port, and nothing has changed. -/
structure AutoBound (s : Pcbs) (pcb : ℕ) (ipaddr : Option IpAddr) (l : List ℕ) (r : Pcbs × Err) :
    Prop where
  ok_iff : r.2 = .ERR_OK ↔ (freePorts s l).Nonempty
  bound : r.2 = .ERR_OK → IsLeast (freePorts s l) (r.1.pcbs pcb).local_port ∧
    (r.1.pcbs pcb).local_ip = ipaddr.getD 0
  listed : r.2 = .ERR_OK → ∃ l', Walk r.1.next r.1.udp_pcbs l' ∧ l'.count pcb = 1 ∧
    l' = if pcb ∈ l then l else pcb :: l
  others : r.2 = .ERR_OK → ∀ i, i ≠ pcb → r.1.pcbs i = s.pcbs i
  failed : r.2 ≠ .ERR_OK → r.2 = .ERR_USE ∧ r.1 = s

/-- The pcb is bound to the port that was found. -/
theorem bindPort_autoBound {s₁ : Pcbs} {port : ℕ} {ipaddr : Option IpAddr}
    (h : Walk s.next s.udp_pcbs l)
    (hs₁ : s₁ = s.set pcb { s.pcbs pcb with local_ip := ipaddr.getD 0 })
    (hport : IsLeast (freePorts s l) port) :
    AutoBound s pcb ipaddr l (bindPort s₁ pcb port (decide (pcb ∈ l)), .ERR_OK) := by
  set s₂ := s₁.set pcb { s₁.pcbs pcb with local_port := port } with hs₂
  have hwalk₁ : Walk s₁.next s₁.udp_pcbs l := by
    rw [hs₁]
    refine Pcbs.set_walk h ?_
    rfl
  have hwalk : Walk s₂.next s₂.udp_pcbs l := by
    refine Pcbs.set_walk hwalk₁ ?_
    rfl
  have hself : s₂.pcbs pcb = { s.pcbs pcb with local_ip := ipaddr.getD 0, local_port := port } := by
    rw [hs₂, Pcbs.set_self, hs₁, Pcbs.set_self]
  have hother : ∀ i, i ≠ pcb → s₂.pcbs i = s.pcbs i := fun i hi => by
    rw [hs₂, Pcbs.set_of_ne _ hi, hs₁, Pcbs.set_of_ne _ hi]
  have hok : (freePorts s l).Nonempty := ⟨port, hport.1⟩
  unfold bindPort
  rw [← hs₂]
  -- A pcb that was on the list is not put there again.
  by_cases hmem : pcb ∈ l
  · rw [if_pos (by simpa using hmem)]
    refine ⟨iff_of_true rfl hok, fun _ => ?_, fun _ => ⟨l, hwalk, ?_, (if_pos hmem).symm⟩,
      fun _ => hother, fun hne => absurd rfl hne⟩
    · rw [hself]
      exact ⟨hport, rfl⟩
    · exact List.count_eq_one_of_mem h.nodup hmem
  · rw [if_neg (by simpa using hmem)]
    have hpself : (s₂.push pcb).pcbs pcb = { s₂.pcbs pcb with next := s₂.udp_pcbs } :=
      Function.update_self ..
    refine ⟨iff_of_true rfl hok, fun _ => ?_,
      fun _ => ⟨pcb :: l, Pcbs.push_walk hwalk hmem, ?_, (if_neg hmem).symm⟩,
      fun _ i hi => (Function.update_of_ne hi ..).trans (hother i hi), fun hne => absurd rfl hne⟩
    · dsimp only
      rw [hpself, hself]
      exact ⟨hport, rfl⟩
    · rw [List.count_cons_self, List.count_eq_zero.mpr hmem]

/-- The rounds that both loops of `udp_bind` take at most. -/
def bindRounds (l : List ℕ) : ℕ :=
  (UDP_LOCAL_PORT_RANGE_END - UDP_LOCAL_PORT_RANGE_START) * (l.length + 1) + l.length

/-- `udp_bind` without a port: where the search ends, and what follows. -/
theorem udpBind_search (h : Walk s.next s.udp_pcbs l) (pcb : ℕ) (ipaddr : Option IpAddr) {fuel : ℕ}
    (hfuel : bindRounds l ≤ fuel) :
    ∃ s₁, s₁ = s.set pcb { s.pcbs pcb with local_ip := ipaddr.getD 0 } ∧
      ((∃ port, IsLeast (freePorts s l) port ∧
          udpBind fuel s pcb ipaddr 0 = .ok (bindPort s₁ pcb port (decide (pcb ∈ l)), .ERR_OK)) ∨
        ¬ (freePorts s l).Nonempty ∧ udpBind fuel s pcb ipaddr 0 = .ok (s₁, .ERR_USE)) := by
  unfold bindRounds at hfuel
  refine ⟨_, rfl, ?_⟩
  set s₁ := s.set pcb { s.pcbs pcb with local_ip := ipaddr.getD 0 } with hs₁
  have hwalk : Walk s₁.next s₁.udp_pcbs l := by
    refine Pcbs.set_walk h ?_
    rfl
  have hports : freePorts s₁ l = freePorts s l := by
    refine freePorts_set ?_ l
    rfl
  obtain ⟨⟨port, ipcb⟩, hrun, hends⟩ :=
    portLoop_spec hwalk hwalk rfl (d := []) (fun i hi => by cases hi)
      (by decide : UDP_LOCAL_PORT_RANGE_START ≤ UDP_LOCAL_PORT_RANGE_END)
      (fun hf => by cases hf) hfuel
  unfold udpBind
  rw [rebindLoop_eq h (by omega) fun hf => by cases hf]
  dsimp only [bind, Except.bind]
  rw [if_pos rfl, ← hs₁, hrun, Bool.false_or]
  dsimp only
  cases ipcb with
  | none =>
    rw [if_neg fun hne => hne rfl]
    exact .inl ⟨port, hports ▸ searchEnds_found hends, rfl⟩
  | some i =>
    rw [if_pos (Option.some_ne_none i)]
    exact .inr ⟨hports ▸ searchEnds_nowhere hends, rfl⟩

/-- `udp_bind` without a port returns, for every list of pcbs. It does what it should exactly when
there is a free port, or the pcb has the address already: the address is assigned before the
search. -/
theorem udp_bind_assigns_port (h : Walk s.next s.udp_pcbs l) (pcb : ℕ) (ipaddr : Option IpAddr) :
    ∃ n, ∀ fuel, n ≤ fuel → ∃ r, udpBind fuel s pcb ipaddr 0 = .ok r ∧
      (AutoBound s pcb ipaddr l r ↔
        (freePorts s l).Nonempty ∨ ipaddr.getD 0 = (s.pcbs pcb).local_ip) := by
  refine ⟨bindRounds l, fun fuel hfuel => ?_⟩
  obtain ⟨s₁, hs₁, ⟨port, hleast, hrun⟩ | ⟨hnone, hrun⟩⟩ := udpBind_search h pcb ipaddr hfuel
  · exact ⟨_, hrun, iff_of_true (bindPort_autoBound h hs₁ hleast) (.inl ⟨port, hleast.1⟩)⟩
  · refine ⟨_, hrun, ?_⟩
    rw [or_iff_right hnone]
    constructor
    · intro hbound
      have hsame := (hbound.failed (fun hf => by cases hf)).2
      have hip := congrArg (fun t : Pcbs => (t.pcbs pcb).local_ip) hsame
      dsimp only at hip
      rwa [hs₁, Pcbs.set_self] at hip
    · intro hip
      have hsame : s₁ = s := by
        rw [hs₁, hip]
        unfold Pcbs.set
        rw [Function.update_eq_self]
      exact ⟨iff_of_false (fun hf => by cases hf) hnone, fun hf => (by cases hf),
        fun hf => (by cases hf), fun hf => (by cases hf), fun _ => ⟨rfl, hsame⟩⟩

/-- Two pcbs that have the first two ports of the range. -/
def exampleTwo : Pcbs where
  pcbs
    | 0 => { next := some 1, local_port := 4097 }
    | 1 => { local_port := 4096 }
    | _ => {}
  udp_pcbs := some 0

/-- The example gets the first port. -/
theorem udp_bind_assigns_port_exampleTwo :
    ∃ n, ∀ fuel, n ≤ fuel → ∃ r, udpBind fuel exampleTwo 2 (some 7) 0 = .ok r ∧
      AutoBound exampleTwo 2 (some 7) [0, 1] r := by
  obtain ⟨n, hn⟩ := udp_bind_assigns_port (s := exampleTwo) (l := [0, 1])
    (.cons (.cons .nil)) 2 (some 7)
  refine ⟨n, fun fuel hfuel => ?_⟩
  obtain ⟨r, hr, hiff⟩ := hn fuel hfuel
  exact ⟨r, hr, hiff.mpr (.inl ⟨4098, by decide, by decide, by decide⟩)⟩

/-- A pcb for every port of the range, and one that is not on the list. -/
def exampleFull : Pcbs where
  pcbs i := if i < 28671 then
      { next := if i + 1 < 28671 then some (i + 1) else none, local_port := 4096 + i }
    else {}
  udp_pcbs := some 0

/-- The pcbs of the example are on the list. -/
theorem exampleFull_walk {k : ℕ} (n : ℕ) (hk : k + n = 28670) :
    Walk exampleFull.next (some k) (List.range' k (n + 1)) := by
  induction n generalizing k with
  | zero =>
    have hnext : exampleFull.next k = none := by
      simp only [exampleFull, Pcbs.next]
      rw [if_pos (by omega)]
      exact if_neg (by omega)
    exact .cons (by rw [hnext]; exact .nil)
  | succ n ih =>
    have hnext : exampleFull.next k = some (k + 1) := by
      simp only [exampleFull, Pcbs.next]
      rw [if_pos (by omega)]
      exact if_pos (by omega)
    exact .cons (by rw [hnext]; exact ih (by omega))

/-- Then `udp_bind` to the address 7 fails, and the pcb has the address nevertheless. -/
theorem udp_bind_full_keeps_address :
    ∃ l, Walk exampleFull.next exampleFull.udp_pcbs l ∧ (exampleFull.pcbs 28671).local_ip = 0 ∧
      ∃ n, ∀ fuel, n ≤ fuel → ∃ s', udpBind fuel exampleFull 28671 (some 7) 0 = .ok (s', .ERR_USE) ∧
        (s'.pcbs 28671).local_ip = 7 := by
  have hwalk : Walk exampleFull.next exampleFull.udp_pcbs (List.range' 0 (28670 + 1)) :=
    exampleFull_walk 28670 rfl
  have hfull : ¬ (freePorts exampleFull (List.range' 0 (28670 + 1))).Nonempty := by
    rintro ⟨p, hle, hlt, hfree⟩
    unfold UDP_LOCAL_PORT_RANGE_START at hle
    unfold UDP_LOCAL_PORT_RANGE_END at hlt
    refine hfree (p - 4096) (List.mem_range'_1.mpr (by omega)) ?_
    simp only [exampleFull]
    rw [if_pos (by omega)]
    show 4096 + (p - 4096) = p
    omega
  refine ⟨_, hwalk, rfl, bindRounds (List.range' 0 (28670 + 1)), fun fuel hfuel => ?_⟩
  obtain ⟨s₁, hs₁, ⟨port, hleast, -⟩ | ⟨-, hrun⟩⟩ := udpBind_search hwalk 28671 (some 7) hfuel
  · exact absurd ⟨port, hleast.1⟩ hfull
  · exact ⟨s₁, hrun, by rw [hs₁, Pcbs.set_self]; rfl⟩

/-! ## Connecting without a port -/

/-- `udp_connect` binds the pcb to the address that it has, so nothing has changed if that fails. -/
theorem udpConnect_full (h : Walk s.next s.udp_pcbs l) (hport : (s.pcbs pcb).local_port = 0)
    (hnone : ¬ (freePorts s l).Nonempty) (ipaddr : Option IpAddr) (port : ℕ) {fuel : ℕ}
    (hfuel : bindRounds l ≤ fuel) : udpConnect fuel s pcb ipaddr port = .ok (s, .ERR_USE) := by
  obtain ⟨s₁, hs₁, ⟨p, hleast, -⟩ | ⟨-, hrun⟩⟩ :=
    udpBind_search h pcb (some (s.pcbs pcb).local_ip) hfuel
  · exact absurd ⟨p, hleast.1⟩ hnone
  · have hsame : s₁ = s := by
      rw [hs₁]
      unfold Pcbs.set
      dsimp only [Option.getD_some]
      rw [Function.update_eq_self]
    unfold udpConnect
    rw [if_pos hport, hport, hrun, hsame]
    rfl

/-- After `udp_connect` of a bound pcb, it is on the list once. -/
theorem udpConnect_listed (h : Walk s.next s.udp_pcbs l) (hport : (s.pcbs pcb).local_port ≠ 0)
    (ipaddr : Option IpAddr) (port : ℕ) {fuel : ℕ} (hfuel : l.length ≤ fuel) :
    ∃ s', udpConnect fuel s pcb ipaddr port = .ok (s', .ERR_OK) ∧
      Walk s'.next s'.udp_pcbs (if pcb ∈ l then l else pcb :: l) := by
  unfold udpConnect
  rw [if_neg hport]
  dsimp only [bind, Except.bind]
  rw [if_neg fun hne => hne rfl]
  set s₁ := s.set pcb { s.pcbs pcb with
    remote_ip := ipaddr.getD 0, remote_port := port,
    flags := (s.pcbs pcb).flags ||| UDP_FLAGS_CONNECTED }
  have hwalk : Walk s₁.next s₁.udp_pcbs l := by
    refine Pcbs.set_walk h ?_
    rfl
  rw [onList_eq hwalk hfuel]
  dsimp only
  by_cases hmem : pcb ∈ l
  · rw [if_pos (by simpa using hmem), if_pos hmem]
    exact ⟨s₁, rfl, hwalk⟩
  · rw [if_neg (by simpa using hmem), if_neg hmem]
    exact ⟨_, rfl, Pcbs.push_walk hwalk hmem⟩

end List

end Lwip.Udp
