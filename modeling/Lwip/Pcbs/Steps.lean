import Lwip.Pcbs.Table

/-!
# What each function does to the table

The functions of `Defs` and `Input` as changes of the table of pcbs. `tcp_bind`, `tcp_listen` and
`tcp_connect` have a lemma each that says all of what they do; every other function leads by moves
of the stack to a stack that keeps the table.
-/

namespace Lwip.Pcbs

open Tcp (Opts TcpPcb TcpState Active)
open Netif (IpAddr ipAddrIsany)
open Function (update)

/-- The code of one connection returns what it returns. -/
theorem ofTcp_eq_ok {α : Type} {x : Except Tcp.Abort α} {a : α} : ofTcp x = .ok a ↔ x = .ok a :=
  mapError_eq_ok

section Remove

variable {c : Config} {s s' : Stack} {place : ℕ → Place} {p : ℕ} {i : PcbList} {ack : Bool}

/-- The cell is overwritten with what it holds. -/
theorem Stack.setCell_self (s : Stack) (p : ℕ) : s.setCell p (s.mem p) = s := by
  unfold Stack.setCell
  rw [Function.update_eq_self]

/-- `tcp_pcb_remove` takes the pcb off its list and overwrites it. -/
theorem tcpPcbRemove_eq_ok (h : tcpPcbRemove c ack p s i = .ok s') :
    ∃ x, s' = (s.TCP_RMV c i p).setCell p x := by
  obtain ⟨_, -, h⟩ := bind_eq_ok.mp h
  cases h
  exact ⟨_, rfl⟩

/-- A connection that is aborted is taken off its list, and freed. -/
theorem Keeps.abandon_eq (h : Keeps c s place) (hp : place p = .on i) (hi : i = .active ∨ i = .tw)
    (ha : tcpAbandon c ack p s = .ok s') :
    ∃ x, s' = ((s.TCP_RMV c i p).setCell p x).mempFree .TCP_PCB p := by
  have hfit := h.fits p
  rw [hp] at hfit
  unfold tcpAbandon at ha
  rcases hi with rfl | rfl
  · have hfit : Active (s.state p) := hfit
    rw [if_neg hfit.2.2] at ha
    obtain ⟨s₁, hr, ha⟩ := bind_eq_ok.mp ha
    obtain ⟨x, rfl⟩ := tcpPcbRemove_eq_ok hr
    cases ha
    exact ⟨x, rfl⟩
  · have hfit : s.state p = .TIME_WAIT := hfit
    rw [if_pos hfit] at ha
    obtain ⟨s₁, hr, ha⟩ := bind_eq_ok.mp ha
    obtain ⟨x, rfl⟩ := tcpPcbRemove_eq_ok hr
    cases ha
    exact ⟨x, rfl⟩

/-- A pcb that is on its list may be aborted, and one that is on no list. -/
theorem Keeps.abandon (h : Keeps c s place)
    (hp : place p = .on .active ∨ place p = .on .tw ∨ place p = .off)
    (ha : tcpAbandon c ack p s = .ok s') : Freed c s place p s' := by
  rcases hp with hp | hp | hp
  · obtain ⟨x, rfl⟩ := h.abandon_eq hp (.inl rfl) ha
    exact h.remove hp x
  · obtain ⟨x, rfl⟩ := h.abandon_eq hp (.inr rfl) ha
    exact h.remove hp x
  · have hfit := h.fits p
    unfold tcpAbandon at ha
    rw [hp] at hfit
    have hfit : s.state p = .CLOSED := hfit.2.1
    rw [hfit, if_neg (by decide)] at ha
    obtain ⟨s₁, hr, ha⟩ := bind_eq_ok.mp ha
    obtain ⟨x, rfl⟩ := tcpPcbRemove_eq_ok hr
    cases ha
    exact h.remove_off hp _ x

/-- The places of a pcb that is in use, each with its state. -/
theorem Keeps.cases (h : Keeps c s place) (hp : place p ≠ .free) :
    (place p = .off ∧ s.state p = .CLOSED ∧ (s.mem p).local_port = 0) ∨
      (place p = .on .bound ∧ s.state p = .CLOSED ∧ (s.mem p).local_port ≠ 0) ∨
      (place p = .on .listen ∧ s.state p = .LISTEN) ∨
      (place p = .on .active ∧ Active (s.state p)) ∨
      (place p = .on .tw ∧ s.state p = .TIME_WAIT) := by
  have hfit := h.fits p
  revert hfit hp
  cases place p with
  | free => exact fun hp => absurd rfl hp
  | off => exact fun _ hfit => .inl ⟨rfl, hfit.2.1, hfit.2.2.1⟩
  | on i =>
    cases i with
    | bound => exact fun _ hfit => .inr (.inl ⟨rfl, hfit⟩)
    | listen => exact fun _ hfit => .inr (.inr (.inl ⟨rfl, hfit⟩))
    | active => exact fun _ hfit => .inr (.inr (.inr (.inl ⟨rfl, hfit⟩)))
    | tw => exact fun _ hfit => .inr (.inr (.inr (.inr ⟨rfl, hfit⟩)))

/-- The state and the local port are all that has to fit a list. -/
theorem Fits.congr {x y : Cell} (h : Fits c p x (.on i)) (hst : y.pcb.state = x.pcb.state)
    (hport : y.local_port = x.local_port) : Fits c p y (.on i) := by
  cases i
  all_goals
    unfold Fits at h ⊢
    rw [hst]
  · exact ⟨h.1, hport ▸ h.2⟩
  · exact h
  · exact h
  · exact h

/-- A cell with the local address filled in. -/
def Cell.routed (x : Cell) (src : Option IpAddr) : Cell :=
  { x with local_ip := if ipAddrIsany x.local_ip then src.getD x.local_ip else x.local_ip }

/-- A local address is stored only if there was none. -/
theorem Cell.routed_local_ip (x : Cell) (src : Option IpAddr) :
    (x.routed src).local_ip = x.local_ip ∨ x.local_ip = 0 := by
  by_cases hany : ipAddrIsany x.local_ip = true
  · exact .inr (of_decide_eq_true hany)
  · exact .inl (if_neg hany)

/-- The pcb of a cell is overwritten, and perhaps the local address is filled in. -/
theorem Keeps.setPcb_route (h : Keeps c s place) (hp : place p = .on i) (src : Option IpAddr)
    {pcb : TcpPcb} (hfit : Fits c p { s.mem p with pcb } (.on i)) :
    Leads c s place ((s.setPcb p pcb).route src p) := by
  have heq : (s.setPcb p pcb).route src p = s.setCell p (Cell.routed { s.mem p with pcb } src) := by
    unfold Stack.route Stack.setPcb Stack.setCell Cell.routed
    dsimp only
    rw [Function.update_idem, Function.update_self]
  rw [heq]
  exact h.alter ⟨rfl, rfl, rfl, Cell.routed_local_ip _ src⟩ (hp ▸ hfit.congr rfl rfl)

/-- `tcp_close`, of any pcb that is in use. -/
theorem Keeps.close (h : Keeps c s place) (hp : place p ≠ .free) {alloc : ℕ → Bool}
    {src : Option IpAddr} (hc : tcpClose c ack p s alloc src = .ok s') : Leads c s place s' := by
  have hdefault : ∀ i, place p = .on i → (∀ st, Tcp.GoesOn (s.state p) st → Fits c p { s.mem p with
        pcb := { (s.mem p).pcb with state := st } } (.on i)) →
      (do let r ← ofTcp (Tcp.tcpClose c.o false s.ticks alloc ack (s.mem p).pcb)
          Except.ok (r.2.1.elim s fun pcb => (s.setPcb p pcb).route src p)) = .ok s' →
        Leads c s place s' := by
    intro i hi hfit hc
    obtain ⟨⟨e, r, out⟩, hr, hc⟩ := bind_eq_ok.mp hc
    cases hc
    cases r with
    | none => exact .refl h
    | some pcb =>
      have hgo := Tcp.tcpClose_goesOn (ofTcp_eq_ok.mp hr)
      exact h.setPcb_route hi src ((hfit _ hgo).congr rfl rfl)
  rcases h.cases hp with ⟨hpl, hst, -⟩ | ⟨hpl, hst, -⟩ | ⟨hpl, hst⟩ | ⟨hpl, hst⟩ | ⟨hpl, hst⟩
  · unfold tcpClose at hc
    rw [hst] at hc
    cases hc
    have hoff := (h.remove_off hpl .bound (s.mem p)).leads
    rwa [show (s.TCP_RMV c .bound p).setCell p (s.mem p) = s.TCP_RMV c .bound p from
      Stack.setCell_self _ p] at hoff
  · unfold tcpClose at hc
    rw [hst] at hc
    cases hc
    have hrm := (h.remove hpl (s.mem p)).leads
    rwa [show (s.TCP_RMV c .bound p).setCell p (s.mem p) = s.TCP_RMV c .bound p from
      Stack.setCell_self _ p] at hrm
  · unfold tcpClose at hc
    rw [hst] at hc
    obtain ⟨s₁, hr, hc⟩ := bind_eq_ok.mp hc
    obtain ⟨x, rfl⟩ := tcpPcbRemove_eq_ok hr
    cases hc
    exact (h.remove hpl x).leads
  · have hd := hdefault _ hpl fun st hgo => hgo.active hst
    by_cases hsyn : s.state p = .SYN_SENT
    · unfold tcpClose at hc
      rw [hsyn] at hc
      obtain ⟨s₁, hr, hc⟩ := bind_eq_ok.mp hc
      obtain ⟨x, rfl⟩ := tcpPcbRemove_eq_ok hr
      cases hc
      exact (h.remove hpl x).leads
    · unfold tcpClose at hc
      split at hc
      · next hs => exact absurd hs hst.1
      · next hs => exact absurd hs hst.2.1
      · next hs => exact absurd hs hsyn
      · exact hd hc
  · have hd := hdefault _ hpl fun st hgo => hgo.timeWait hst
    unfold tcpClose at hc
    rw [hst] at hc
    exact hd hc

end Remove

/-! ## `tcp_alloc` -/

/-- The table with some active pcbs or pcbs in `TIME_WAIT` taken off: what is left on the lists is
as it was, and the listening and the bound pcbs are left. -/
structure Clears (t t' : Table) : Prop where
  left : ∀ y i, t'.place y = .on i → t.place y = .on i ∧ t'.mem y = t.mem y
  stays : ∀ y, t.place y = .on .listen ∨ t.place y = .on .bound → t'.place y = t.place y

/-- A table is cleared of nothing. -/
theorem Clears.refl (t : Table) : Clears t t := ⟨fun _ _ h => ⟨h, rfl⟩, fun _ _ => rfl⟩

/-- What is cleared in two steps. -/
theorem Clears.trans {t t' t'' : Table} (h : Clears t t') (h' : Clears t' t'') : Clears t t'' := by
  refine ⟨fun y i hy => ?_, fun y hy => ?_⟩
  · obtain ⟨hy', hm⟩ := h'.left y i hy
    obtain ⟨hy'', hm'⟩ := h.left y i hy'
    exact ⟨hy'', hm.trans hm'⟩
  · have hs := h.stays y hy
    exact (h'.stays y (hs ▸ hy)).trans hs

/-- A pcb that is neither listening nor bound is overwritten and taken off its list. -/
theorem Clears.put {t : Table} {p : ℕ} {pl : Place} (hp : t.place p ≠ .on .listen)
    (hb : t.place p ≠ .on .bound) (hpl : ∀ i, pl ≠ .on i) (x : Cell) : Clears t (t.put p pl x) := by
  refine ⟨fun y i hy => ?_, fun y hy => ?_⟩
  · by_cases hyp : y = p
    · subst hyp
      have hself : (t.put y pl x).place y = pl := Function.update_self ..
      exact absurd (hself.symm.trans hy) (hpl i)
    · have hplace : (t.put p pl x).place y = t.place y := Function.update_of_ne hyp ..
      exact ⟨hplace.symm.trans hy, Function.update_of_ne hyp ..⟩
  · refine Function.update_of_ne ?_ _ _
    rintro rfl
    rcases hy with hy | hy
    · exact hp hy
    · exact hb hy

section Alloc

variable {c : Config} {s s' : Stack} {place : ℕ → Place} {p : ℕ} {i : PcbList} {ack : Bool}

/-- A victim is on the list that was searched. -/
theorem killTimewait_mem {ticks : BitVec 32} {l : List TcpPool.AgedPcb} {k : TcpPool.KillScan}
    {v : TcpPool.AgedPcb}
    (h : (l.foldl (TcpPool.killTimewaitBody ticks) k).inactive = some v) :
    v ∈ l ∨ k.inactive = some v := by
  induction l generalizing k with
  | nil => exact .inr h
  | cons a l ih =>
    rcases ih h with hv | hv
    · exact .inl (List.mem_cons_of_mem a hv)
    · unfold TcpPool.killTimewaitBody at hv
      split at hv
      · cases hv
        exact .inl List.mem_cons_self
      · exact .inr hv

/-- The victim is a pcb of the list. -/
theorem killPrio_mem {ticks : BitVec 32} {prio : UInt8} {l : List TcpPool.AgedPcb}
    {k : TcpPool.KillScan} {v : TcpPool.AgedPcb}
    (h : (l.foldl (TcpPool.killPrioBody ticks prio) k).inactive = some v) :
    v ∈ l ∨ k.inactive = some v := by
  induction l generalizing k with
  | nil => exact .inr h
  | cons a l ih =>
    rcases ih h with hv | hv
    · exact .inl (List.mem_cons_of_mem a hv)
    · unfold TcpPool.killPrioBody at hv
      split at hv
      · cases hv
        exact .inl List.mem_cons_self
      · exact .inr hv

/-- Pcbs are taken off the lists to make room. -/
def MakesRoom (c : Config) (s : Stack) (place : ℕ → Place) (s' : Stack) : Prop :=
  ∃ place', Keeps c s' place' ∧ Relation.ReflTransGen Move (s.table place) (s'.table place') ∧
    Clears (s.table place) (s'.table place')

/-- There is room already. -/
theorem MakesRoom.refl (h : Keeps c s place) : MakesRoom c s place s := ⟨place, h, .refl, .refl _⟩

/-- A victim is aborted. -/
theorem Keeps.kill (h : Keeps c s place) (hi : i = .active ∨ i = .tw) {v : TcpPool.AgedPcb}
    (hv : v ∈ (s.pcbs c i).map s.aged) (ha : tcpAbandon c ack v.addr s = .ok s') :
    MakesRoom c s place s' := by
  obtain ⟨p, hp, rfl⟩ := List.mem_map.mp hv
  have hpl : place p = .on i := h.mem_pcbs.mp hp
  have hplaces : place p = .on .active ∨ place p = .on .tw ∨ place p = .off := by
    rcases hi with rfl | rfl
    · exact .inl hpl
    · exact .inr (.inl hpl)
  obtain ⟨x, hk, hm⟩ := h.abandon hplaces ha
  have heq : s'.table (update place p .free) = (s.table place).put p .free x := by
    unfold Stack.table Table.put
    rw [hm]
  refine ⟨_, hk, ?_, ?_⟩
  · rw [heq]
    exact .single (.drop x)
  · rw [heq]
    refine Clears.put ?_ ?_ (fun _ => Place.noConfusion) x
    · show place p ≠ _
      rw [hpl]
      rcases hi with rfl | rfl <;> decide
    · show place p ≠ _
      rw [hpl]
      rcases hi with rfl | rfl <;> decide

/-- A pcb in `TIME_WAIT` makes room. -/
theorem Keeps.killTimewait (h : Keeps c s place) (hk : tcpKillTimewait c ack s = .ok s') :
    MakesRoom c s place s' := by
  unfold tcpKillTimewait at hk
  split at hk
  · next v hv =>
    rcases killTimewait_mem hv with hmem | hmem
    · exact h.kill (.inr rfl) hmem hk
    · cases hmem
  · cases hk
    exact .refl h

/-- A pcb of low priority makes room. -/
theorem Keeps.killPrio (h : Keeps c s place) {prio : UInt8}
    (hk : tcpKillPrio c ack prio s = .ok s') : MakesRoom c s place s' := by
  unfold tcpKillPrio at hk
  split at hk
  · next v hv =>
    rcases killPrio_mem hv with hmem | hmem
    · exact h.kill (.inl rfl) hmem hk
    · cases hmem
  · cases hk
    exact .refl h

/-- The stack with a new pcb that is on no list, or without one. -/
def Allocates (c : Config) (s : Stack) (place : ℕ → Place) (r : Option ℕ × Stack) : Prop :=
  ∃ place', Keeps c r.2 place' ∧ Relation.ReflTransGen Move (s.table place) (r.2.table place') ∧
    Clears (s.table place) (r.2.table place') ∧
    ∀ p, r.1 = some p → place' p = .off

/-- A free cell is allocated. -/
theorem Keeps.mallocPcb (h : Keeps c s place) {iss : Serial} {r : ℕ × Stack}
    (hm : mallocPcb c iss s = some r) : Allocates c s place (some r.1, r.2) := by
  obtain ⟨⟨p, s₁⟩, hm', rfl⟩ := Option.map_eq_some_iff.mp hm
  obtain ⟨hp, hq, hmem, hport, hreps⟩ := h.toReps.mempMalloc hm'
  have hrange : InRange s₁.port := hport ▸ h.range
  have hfits : ∀ y, Fits c y (update s₁.mem p (newCell c s.ticks iss) y)
      (update place p .off y) := by
    rw [hmem]
    exact fits_update h.fits ⟨hq, rfl, rfl, rfl⟩
  have heq : (s₁.setCell p (newCell c s.ticks iss)).table (update place p .off) =
      (s.table place).put p .off (newCell c s.ticks iss) := by
    unfold Stack.table Stack.setCell Table.put
    rw [hmem]
  refine ⟨_, ⟨hreps.setCell p _, hfits, hrange⟩, ?_, ?_, ?_⟩
  · rw [heq]
    exact .single (.new _ hp)
  · rw [heq]
    refine Clears.put ?_ ?_ (fun _ => Place.noConfusion) _
    · show place p ≠ _
      rw [hp]
      exact Place.noConfusion
    · show place p ≠ _
      rw [hp]
      exact Place.noConfusion
  · rintro p' ⟨⟩
    exact Function.update_self ..

/-- An allocation after room was made. -/
theorem MakesRoom.allocates {r : Option ℕ × Stack} (h : MakesRoom c s place s')
    (h' : ∀ place', Keeps c s' place' → Allocates c s' place' r) : Allocates c s place r := by
  obtain ⟨place', hk, hm, hc⟩ := h
  obtain ⟨place'', hk', hm', hc', hp⟩ := h' place' hk
  exact ⟨place'', hk', hm.trans hm', hc.trans hc', hp⟩

/-- `tcp_alloc` makes room and allocates. -/
theorem Keeps.alloc (h : Keeps c s place) {acks : Bool × Bool} {iss : Serial} {prio : UInt8}
    {r : Option ℕ × Stack} (ha : tcpAlloc c acks iss prio s = .ok r) : Allocates c s place r := by
  unfold tcpAlloc at ha
  split at ha
  · next r₁ hm =>
    cases ha
    exact h.mallocPcb hm
  obtain ⟨s₁, hk, ha⟩ := bind_eq_ok.mp ha
  refine (h.killTimewait hk).allocates fun place₁ h₁ => ?_
  split at ha
  · next r₁ hm =>
    cases ha
    exact h₁.mallocPcb hm
  obtain ⟨s₂, hk, ha⟩ := bind_eq_ok.mp ha
  refine (h₁.killPrio hk).allocates fun place₂ h₂ => ?_
  split at ha
  · next r₁ hm =>
    cases ha
    exact h₂.mallocPcb hm
  · cases ha
    exact ⟨place₂, h₂, .refl, .refl _, fun p hp => by cases hp⟩

/-- An allocation is done by the stack itself. -/
theorem Allocates.leads {r : Option ℕ × Stack} (h : Allocates c s place r) :
    Leads c s place r.2 := by
  obtain ⟨place', hk, hm, -⟩ := h
  exact ⟨place', hk, hm⟩

end Alloc

/-! ## The calls that open -/

section Ports

variable {c : Config} {s s' : Stack} {place : ℕ → Place} {p : ℕ} {i : PcbList} {port : BitVec 16}

/-- A pcb that `tcp_new_port` looks at has the port. -/
def Stack.taken (c : Config) (s : Stack) (port : BitVec 16) : Bool :=
  s.hasPort c port .active || s.hasPort c port .tw || s.hasPort c port .listen

/-- A port is taken if a pcb on a list has it, other than a bound one. -/
theorem Stack.taken_iff :
    s.taken c port = true ↔ ∃ x i, i ≠ .bound ∧ x ∈ s.pcbs c i ∧ (s.mem x).local_port = port := by
  unfold Stack.taken Stack.hasPort
  simp only [Bool.or_eq_true, List.any_eq_true, decide_eq_true_eq]
  constructor
  · rintro ((⟨x, hx⟩ | ⟨x, hx⟩) | ⟨x, hx⟩)
    all_goals exact ⟨x, _, PcbList.noConfusion, hx⟩
  · rintro ⟨x, i, hi, hx⟩
    cases i with
    | bound => exact absurd rfl hi
    | listen => exact .inr ⟨x, hx⟩
    | active => exact .inl (.inl ⟨x, hx⟩)
    | tw => exact .inl (.inr ⟨x, hx⟩)

/-- The first port that is not taken, behind the one that was given last. -/
def Stack.IsNext (c : Config) (s : Stack) (port : BitVec 16) : Prop :=
  ∃ n, port = nextPort^[n + 1] s.port ∧ s.taken c port = false ∧
    ∀ m < n, s.taken c (nextPort^[m + 1] s.port) = true

/-- The next port is in the range. -/
theorem nextPort_inRange (h : InRange port) : InRange (nextPort port) := by
  unfold InRange nextPort TCP_LOCAL_PORT_RANGE_START TCP_LOCAL_PORT_RANGE_END at *
  split
  · exact ⟨by decide, by decide⟩
  · bv_omega

/-- The first port that is not taken is in the range. -/
theorem Keeps.next_inRange (h : Keeps c s place) (hn : s.IsNext c port) : InRange port := by
  obtain ⟨n, rfl, -⟩ := hn
  exact Function.Iterate.rec InRange h.range (fun _ => nextPort_inRange) (n + 1)

/-- The port that is found is the first that is not taken. -/
theorem newPortFrom_eq_some {fuel : ℕ} {start : BitVec 16}
    (h : newPortFrom c s fuel start = some port) :
    ∃ n, port = nextPort^[n + 1] start ∧ s.taken c port = false ∧
      ∀ m < n, s.taken c (nextPort^[m + 1] start) = true := by
  induction fuel generalizing start with
  | zero => cases h
  | succ fuel ih =>
    unfold newPortFrom at h
    dsimp only at h
    split at h
    · next htaken =>
      obtain ⟨n, hn, hfree, hpassed⟩ := ih h
      refine ⟨n + 1, hn, hfree, fun m hm => ?_⟩
      cases m with
      | zero => exact htaken
      | succ m => exact hpassed m (Nat.lt_of_succ_lt_succ hm)
    · next htaken =>
      cases h
      exact ⟨0, rfl, Bool.eq_false_iff.mpr htaken, fun m hm => absurd hm (Nat.not_lt_zero m)⟩

/-- `tcp_new_port` finds a port and stores it. -/
theorem tcpNewPort_eq_ok (h : tcpNewPort c s = .ok (port, s')) :
    newPortFrom c s 0x7000 s.port = some port ∧ s' = { s with port } := by
  unfold tcpNewPort at h
  split at h
  · next hp =>
    cases h
    exact ⟨hp, rfl⟩
  · cases h

/-- A port in the range is not 0. -/
theorem InRange.ne_zero (h : InRange port) : port ≠ 0 := by
  unfold InRange TCP_LOCAL_PORT_RANGE_START TCP_LOCAL_PORT_RANGE_END at h
  rintro rfl
  exact absurd h.1 (by decide)

/-- What `tcp_bind` has checked when it finds that the address is not in use. -/
theorem Reps.inUse_eq_false (h : Reps c s place) {ipaddr : IpAddr} :
    s.inUse c ipaddr port = false ↔
      (∀ x i, place x = .on i → i ≠ .tw → (s.mem x).local_port = port →
        clashes (s.mem x).local_ip ipaddr = false) ∧
      ∀ x, place x = .on .tw → (s.mem x).local_port = port → (s.mem x).local_ip ≠ ipaddr := by
  unfold Stack.inUse
  simp only [Bool.or_eq_false_iff, List.any_eq_false, Bool.and_eq_true, decide_eq_true_eq, not_and,
    Bool.not_eq_true, h.mem_pcbs]
  constructor
  · rintro ⟨⟨⟨hl, ha⟩, hb⟩, ht⟩
    refine ⟨fun x i hx hi hport => ?_, ht⟩
    cases i with
    | bound => exact hb x hx hport
    | listen => exact hl x hx hport
    | active => exact ha x hx hport
    | tw => exact absurd rfl hi
  · rintro ⟨hother, ht⟩
    exact ⟨⟨⟨fun x hx => hother x _ hx (by decide), fun x hx => hother x _ hx (by decide)⟩,
      fun x hx => hother x _ hx (by decide)⟩, ht⟩

/-- The port that is chosen. Only the variable `port` of `tcp_new_port` may have changed. -/
theorem Keeps.portOrNew (h : Keeps c s place) {port' : BitVec 16}
    (hp : portOrNew c s port = .ok (port', s')) :
    Keeps c s' place ∧ s'.mem = s.mem ∧ port' ≠ 0 ∧ (port ≠ 0 → port' = port) ∧
      (port = 0 → s.IsNext c port') := by
  unfold Pcbs.portOrNew at hp
  split at hp
  · next hzero =>
    obtain ⟨hnew, rfl⟩ := tcpNewPort_eq_ok hp
    have hnext : s.IsNext c port' := newPortFrom_eq_some hnew
    have hr := h.next_inRange hnext
    exact ⟨⟨h.toReps.of_eq rfl rfl, h.fits, hr⟩, rfl, hr.ne_zero, fun hne => absurd hzero hne,
      fun _ => hnext⟩
  · next hne =>
    cases hp
    exact ⟨h, rfl, hne, fun _ => rfl, fun hzero => absurd hzero hne⟩

/-- `tcp_bind` binds the pcb `p`, and does not change anything else. -/
structure Binds (t : Table) (p : ℕ) (ipaddr : IpAddr) (port : BitVec 16) (t' : Table) (x : Cell) :
    Prop where
  off : t.place p = .off
  eq : t' = t.put p (.on .bound) x
  local_ip : x.local_ip = ipaddr
  local_port : port ≠ 0 → x.local_port = port
  clash : ∀ y i, t.place y = .on i → i ≠ .tw → (t.mem y).local_port = x.local_port →
    clashes (t.mem y).local_ip ipaddr = false
  timeWait : ∀ y, t.place y = .on .tw → (t.mem y).local_port = x.local_port →
    (t.mem y).local_ip ≠ ipaddr

/-- `tcp_bind` of a pcb that is on no list. -/
theorem Keeps.bind (h : Keeps c s place) (hp : place p = .off) {ipaddr : IpAddr} {ok : Bool}
    (hb : tcpBind c p s ipaddr port = .ok (ok, s')) :
    ∃ place', Keeps c s' place' ∧ (s'.table place' = s.table place ∨
      ∃ x, Binds (s.table place) p ipaddr port (s'.table place') x) := by
  have hfit := h.fits p
  rw [hp] at hfit
  unfold tcpBind at hb
  obtain ⟨_, -, hb⟩ := bind_eq_ok.mp hb
  obtain ⟨⟨port', s₁⟩, hport, hb⟩ := bind_eq_ok.mp hb
  obtain ⟨hk₁, hmem, hne, hsame, -⟩ := h.portOrNew hport
  dsimp only at hb
  split at hb
  · cases hb
    refine ⟨place, hk₁, .inl ?_⟩
    unfold Stack.table
    rw [hmem]
  · next hfree =>
    cases hb
    obtain ⟨hclash, htw⟩ := hk₁.toReps.inUse_eq_false.mp (Bool.eq_false_iff.mpr hfree)
    have hx : (if ipAddrIsany ipaddr then (s₁.mem p).local_ip else ipaddr) = ipaddr := by
      split
      · next hany =>
        rw [hmem, hfit.2.2.2]
        exact (of_decide_eq_true hany).symm
      · rfl
    rw [hmem] at hclash htw
    let x : Cell := { s₁.mem p with
      local_ip := if ipAddrIsany ipaddr then (s₁.mem p).local_ip else ipaddr
      local_port := port' }
    refine ⟨update place p (.on .bound), ⟨(hk₁.toReps.setCell p x).reg hp hfit.1, ?_, hk₁.range⟩,
      .inr ⟨x, hp, ?_, hx, hsame, hclash, htw⟩⟩
    · refine fits_update hk₁.fits ⟨?_, hne⟩
      rw [hmem]
      exact hfit.2.1
    · unfold Stack.table Table.put
      rw [← hmem]
      rfl

/-- `tcp_listen` frees the pcb `p` and lists another one in its place. -/
structure Listens (t : Table) (p lpcb : ℕ) (t' : Table) (x : Cell) : Prop where
  place : t.place p = .off ∨ t.place p = .on .bound
  new : t.place lpcb = .free
  eq : t' = (t.put lpcb (.on .listen) x).put p .free (t.mem p)
  local_ip : x.local_ip = (t.mem p).local_ip
  local_port : x.local_port = (t.mem p).local_port

/-- `tcp_listen`. -/
theorem Keeps.listen (h : Keeps c s place) (hp : place p ≠ .free) {r : Option ℕ}
    (hl : tcpListen c p s = .ok (r, s')) :
    ∃ place', Keeps c s' place' ∧ (s'.table place' = s.table place ∨
      ∃ lpcb x, Listens (s.table place) p lpcb (s'.table place') x) := by
  unfold tcpListen at hl
  obtain ⟨_, hst, hl⟩ := bind_eq_ok.mp hl
  have hst : s.state p = .CLOSED := lwipAssert_eq_ok.mp hst
  have hplace : place p = .off ∨ place p = .on .bound := by
    rcases h.cases hp with ⟨hpl, -⟩ | ⟨hpl, -⟩ | ⟨-, hs⟩ | ⟨-, hs⟩ | ⟨-, hs⟩
    · exact .inl hpl
    · exact .inr hpl
    · rw [hst] at hs
      cases hs
    · exact absurd hst hs.1
    · rw [hst] at hs
      cases hs
  have hpool : c.InPool .TCP_PCB p := by
    rcases hplace with hpl | hpl
    · have hfit := h.fits p
      rw [hpl] at hfit
      exact hfit.1
    · exact h.pool p _ hpl
  split at hl
  · cases hl
    exact ⟨place, h, .inl rfl⟩
  · next lpcb s₁ hm =>
    cases hl
    obtain ⟨hfree, hlpool, hmem, hport, hreps⟩ := h.toReps.mempMalloc hm
    have hneq : p ≠ lpcb := by
      rintro rfl
      exact hp hfree
    let x := listenCell (s₁.mem p) (s₁.mem lpcb)
    have hp₁ : update place lpcb .off p = place p := Function.update_of_ne hneq ..
    have hl₁ : update (update place lpcb .off) p .free lpcb = .off := by
      rw [Function.update_of_ne hneq.symm, Function.update_self]
    -- The new pcb is allocated, the old one is unlinked and freed, and the new one is listed.
    have hrmv := (hreps.setCell lpcb x).rmv_off (p := p) (i := .bound) (hp₁.symm ▸ hplace)
    have hfreed := hrmv.mempFree (Function.update_self ..) hpool
    rw [Function.update_idem] at hfreed
    have hreg := hfreed.reg (i := .listen) hl₁ hlpool
    have hplaces : update (update (update place lpcb .off) p .free) lpcb (.on .listen) =
        update (update place lpcb (.on .listen)) p .free := by
      rw [Function.update_comm hneq.symm, Function.update_idem, Function.update_comm hneq]
    rw [hplaces] at hreg
    have hmem' : update s.mem lpcb x = update (update s.mem lpcb x) p (s.mem p) := by
      rw [Function.update_comm hneq.symm, Function.update_eq_self]
    refine ⟨_, ⟨hreg, fun y => ?_, hport ▸ h.range⟩, .inr ⟨lpcb, x, hplace, hfree, ?_, ?_, ?_⟩⟩
    · show Fits c y (update s₁.mem lpcb x y) _
      rw [hmem, hmem']
      have hlisten : Fits c lpcb x (.on .listen) := by exact rfl
      have hfits := fits_update h.fits hlisten
      have hfree : Fits c p (s.mem p) .free := trivial
      exact fits_update hfits hfree y
    · show Table.mk _ (update s₁.mem lpcb x) = _
      rw [hmem, hmem']
      rfl
    · show (s₁.mem p).local_ip = _
      rw [hmem]
      rfl
    · show (s₁.mem p).local_port = _
      rw [hmem]
      rfl

/-- `tcp_connect` takes the pcb `p` from the bound ones, or from no list, to the active ones. In the
second case it gets the port that is next. -/
structure Connects (next : BitVec 16 → Prop) (t : Table) (p : ℕ) (ipaddr : Option IpAddr)
    (port : BitVec 16) (t' : Table) (x : Cell) : Prop where
  eq : t' = t.put p (.on .active) x
  remote_ip : ipaddr = some x.remote_ip
  remote_port : x.remote_port = port
  local_ip : x.local_ip = (t.mem p).local_ip ∨ (t.mem p).local_ip = 0
  port : t.place p = .on .bound ∧ x.local_port = (t.mem p).local_port ∨
    t.place p = .off ∧ next x.local_port ∧ ∀ y i, t.place y = .on i → i ≠ .bound →
      (t.mem y).local_port ≠ x.local_port

/-- `tcp_connect`. -/
theorem Keeps.connect (h : Keeps c s place) (hp : place p ≠ .free) {e : Tcp.ConnectEnv}
    {src ipaddr : Option IpAddr} (hc : tcpConnect c p s e src ipaddr port = .ok s') :
    ∃ place', Keeps c s' place' ∧ (s'.table place' = s.table place ∨
      ∃ x, Connects (s.IsNext c) (s.table place) p ipaddr port (s'.table place') x) := by
  unfold tcpConnect at hc
  obtain ⟨_, hst, hc⟩ := bind_eq_ok.mp hc
  have hst : s.state p = .CLOSED := lwipAssert_eq_ok.mp hst
  have hplace : place p = .off ∧ (s.mem p).local_port = 0 ∨
      place p = .on .bound ∧ (s.mem p).local_port ≠ 0 := by
    rcases h.cases hp with ⟨hpl, -, hz⟩ | ⟨hpl, -, hz⟩ | ⟨-, hs⟩ | ⟨-, hs⟩ | ⟨-, hs⟩
    · exact .inl ⟨hpl, hz⟩
    · exact .inr ⟨hpl, hz⟩
    · rw [hst] at hs
      cases hs
    · exact absurd hst hs.1
    · rw [hst] at hs
      cases hs
  have hpool : c.InPool .TCP_PCB p := by
    rcases hplace with ⟨hpl, -⟩ | ⟨hpl, -⟩
    · have hfit := h.fits p
      rw [hpl] at hfit
      exact hfit.1
    · exact h.pool p _ hpl
  cases ipaddr with
  | none =>
    cases hc
    exact ⟨place, h, .inl rfl⟩
  | some ipaddr =>
    obtain ⟨⟨port', s₁⟩, hport, hc⟩ := bind_eq_ok.mp hc
    obtain ⟨hk₁, hmem, -, hsame, hnew⟩ := h.portOrNew hport
    obtain ⟨r, hr, hc⟩ := bind_eq_ok.mp hc
    cases r with
    | none => cases hc
    | some r =>
      obtain rfl := Except.ok.inj hc
      clear hc
      have hsyn := Tcp.tcpConnect_state (ofTcp_eq_ok.mp hr)
      let x : Cell := { s₁.mem p with
        remote_ip := ipaddr, remote_port := port, local_port := port', pcb := r.2.1 }
      have hoff : place p = .off ∨ place p = .on .bound := hplace.imp And.left And.left
      have hreg := ((hk₁.toReps.setCell p x).rmv_off hoff).reg (i := .active)
        (Function.update_self ..) hpool
      rw [Function.update_idem] at hreg
      have hmem' : update (update s₁.mem p x) p ((update s₁.mem p x p).routed src) =
          update s.mem p (x.routed src) := by
        rw [Function.update_self, Function.update_idem, hmem]
      have hactive : Fits c p (x.routed src) (.on .active) := by
        show Active r.2.1.state
        rw [hsyn]
        decide
      refine ⟨_, ⟨hreg.setCell p _, fun y => ?_, hk₁.range⟩,
        .inr ⟨x.routed src, ?_, rfl, rfl, ?_, ?_⟩⟩
      · show Fits c y (update (update s₁.mem p x) p ((update s₁.mem p x p).routed src) y) _
        rw [hmem']
        exact fits_update h.fits hactive y
      · show Table.mk _ (update (update s₁.mem p x) p ((update s₁.mem p x p).routed src)) = _
        rw [hmem']
        rfl
      · have hip : x.local_ip = (s.mem p).local_ip := by
          show (s₁.mem p).local_ip = _
          rw [hmem]
        have hr := x.routed_local_ip src
        rw [hip] at hr
        exact hr
      · rcases hplace with ⟨hpl, hz⟩ | ⟨hpl, hz⟩
        · have hnext : s.IsNext c port' := hnew hz
          refine .inr ⟨hpl, hnext, fun y i hy hi hyp => ?_⟩
          obtain ⟨-, -, hfree, -⟩ := hnext
          have htaken : s.taken c port' = true :=
            Stack.taken_iff.mpr ⟨y, i, hi, h.mem_pcbs.mpr hy, hyp⟩
          exact absurd htaken (Bool.eq_false_iff.mp hfree)
        · exact .inl ⟨hpl, hsame hz⟩

end Ports

/-! ## `tcp_input` -/

section Input

variable {c : Config} {s s' : Stack} {place : ℕ → Place} {p : ℕ} {i : PcbList} {e : InputEnv}
  {g : Segment}

/-- The move to the front of a list leaves the table alone. -/
theorem Keeps.toFront (h : Keeps c s place) {prev : Option ℕ} {test : Cell → Bool}
    (hf : s.find c i test = some (prev, p)) : Keeps c (s.toFront i prev p) place := by
  obtain ⟨-, -, k, k', hk, rfl⟩ := h.toReps.find hf
  exact ⟨h.toReps.toFront hk, h.fits, h.range⟩

/-- What a pcb is compared with. -/
theorem matches_iff {x : Cell} : x.matches g = true ↔
    x.remote_port = g.srcPort ∧ x.local_port = g.destPort ∧ x.remote_ip = g.src ∧
    x.local_ip = g.dest := by
  unfold Cell.matches
  simp only [Bool.and_eq_true, decide_eq_true_eq, and_assoc]

/-- `tcp_input` for an active pcb is done by the stack itself. -/
theorem Keeps.inputActive (h : Keeps c s place) (hp : place p = .on .active)
    (hany : (s.mem p).local_ip ≠ 0) (hi : tcpInputActive c e p g s = .ok s') :
    Leads c s place s' := by
  have hfit := h.fits p
  rw [hp] at hfit
  obtain ⟨⟨conn, sent⟩, hr, hi⟩ := bind_eq_ok.mp hi
  have hlisted := Tcp.tcpInput_listed hfit (ofTcp_eq_ok.mp hr)
  cases conn with
  | active pcb =>
    cases hi
    exact h.setPcb_route hp e.src hlisted
  | timeWait pcb =>
    cases hi
    have hpool := h.pool p _ hp
    let x : Cell := { s.mem p with pcb }
    have hreg := (((h.toReps.rmv hp).setCell p x).reg (i := .tw) (Function.update_self ..) hpool)
    rw [Function.update_idem] at hreg
    have hmem : update (update s.mem p x) p ((update s.mem p x p).routed e.src) =
        update s.mem p (x.routed e.src) := by
      rw [Function.update_self, Function.update_idem]
    have htw : Fits c p (x.routed e.src) (.on .tw) := hlisted
    refine ⟨_, ⟨hreg.setCell p _, fun y => ?_, h.range⟩, .single ?_⟩
    · show Fits c y (update (update s.mem p x) p ((update s.mem p x p).routed e.src) y) _
      rw [hmem]
      exact fits_update h.fits htw y
    · have heq : Stack.table ((((s.TCP_RMV c .active p).setPcb p pcb).TCP_REG .tw p).route e.src p)
          (update place p (.on .tw)) = (s.table place).put p (.on .tw) (x.routed e.src) := by
        show Table.mk _ (update (update s.mem p x) p ((update s.mem p x p).routed e.src)) = _
        rw [hmem]
        rfl
      rw [heq]
      have hip := x.routed_local_ip e.src
      exact .wait hp ⟨rfl, rfl, rfl, hip⟩ (hip.resolve_right hany ▸ hany)
  | gone =>
    cases hi
    have hrm := (h.remove hp (s.mem p)).leads
    rwa [show (s.TCP_RMV c .active p).setCell p (s.mem p) = s.TCP_RMV c .active p from
      Stack.setCell_self _ p] at hrm

/-- What a listening pcb is compared with. -/
theorem listensTo_iff {x : Cell} : x.listensTo g = true ↔
    (x.local_ip = 0 ∨ x.local_ip = g.dest) ∧ x.local_port = g.destPort := by
  unfold Cell.listensTo ipAddrIsany
  simp only [Bool.and_eq_true, Bool.or_eq_true, decide_eq_true_eq]

/-- A new pcb is put on the list of the active ones. -/
theorem Keeps.accept (h : Keeps c s place) {lpcb : ℕ} {x : Cell} (hp : place p = .off)
    (hl : place lpcb = .on .listen) (hx : Active x.pcb.state)
    (hport : x.local_port = (s.mem lpcb).local_port)
    (hip : (s.mem lpcb).local_ip = 0 ∨ (s.mem lpcb).local_ip = x.local_ip) (hany : x.local_ip ≠ 0)
    (hnew : ∀ y, place y = .on .active ∨ place y = .on .tw → ¬SameTuple (s.mem y) x) :
    Keeps c ((s.setCell p x).TCP_REG .active p) (update place p (.on .active)) ∧
      Move (s.table place) (((s.setCell p x).TCP_REG .active p).table
      (update place p (.on .active))) := by
  have hfit := h.fits p
  rw [hp] at hfit
  refine ⟨⟨(h.toReps.setCell p x).reg hp hfit.1, ?_, h.range⟩, .accept hp hl hport hip hany hnew⟩
  exact fits_update h.fits hx

/-- A segment for a listening pcb, when no connection has its addresses and ports. -/
theorem Keeps.listenInput (h : Keeps c s place) (hp : place p = .on .listen)
    (hlisten : (s.mem p).listensTo g = true) (hany : g.dest ≠ 0)
    (hnew : ∀ y, place y = .on .active ∨ place y = .on .tw → (s.mem y).matches g = false)
    (hi : tcpListenInput c e p g s = .ok s') : Leads c s place s' := by
  unfold tcpListenInput at hi
  split at hi
  · cases hi
    exact .refl h
  split at hi
  swap
  · cases hi
    exact .refl h
  obtain ⟨⟨r, s₁⟩, ha, hi⟩ := bind_eq_ok.mp hi
  have hall := h.alloc ha
  cases r with
  | none =>
    cases hi
    exact hall.leads
  | some npcb =>
    obtain ⟨place₁, hk₁, hmoves, hclear, hoff⟩ := hall
    have hoff : place₁ npcb = .off := hoff npcb rfl
    -- The listener is left where it was, and no connection was added.
    have hstays : place₁ p = .on .listen := (hclear.stays p (.inl hp)).trans hp
    have hleft : s₁.mem p = s.mem p := (hclear.left p _ hstays).2
    have hnew₁ : ∀ y, place₁ y = .on .active ∨ place₁ y = .on .tw →
        (s₁.mem y).matches g = false := by
      intro y hy
      have hsame : ∀ i, place₁ y = .on i → place y = .on i ∧ s₁.mem y = s.mem y :=
        fun i hi => hclear.left y i hi
      rcases hy with hy | hy
      · rw [(hsame _ hy).2]
        exact hnew y (.inl (hsame _ hy).1)
      · rw [(hsame _ hy).2]
        exact hnew y (.inr (hsame _ hy).1)
    obtain ⟨hip, hport⟩ := listensTo_iff.mp hlisten
    obtain ⟨⟨q, out⟩, hq, hi⟩ := bind_eq_ok.mp hi
    dsimp only at hi
    set env : Tcp.ListenEnv :=
      { e.listen with ticks := s₁.ticks, keepalive := (s₁.mem p).pcb.keepalive }
    set x : Cell := { s₁.mem npcb with
      local_ip := g.dest
      local_port := (s₁.mem p).local_port
      remote_ip := g.src
      remote_port := g.srcPort
      pcb := Tcp.listenPcb c.o env g.i }
    have hx : Active x.pcb.state := by show Active .SYN_RCVD; decide
    have haccept := hk₁.accept (x := x) hoff hstays hx rfl (hleft ▸ hip) hany fun y hy hsame => by
      obtain ⟨hlip, hlport, hrip, hrport⟩ := hsame
      have hno := hnew₁ y hy
      rw [matches_iff.mpr ⟨hrport, ?_, hrip, hlip⟩] at hno
      · cases hno
      · exact hlport.trans (congrArg Cell.local_port hleft |>.trans hport)
    obtain ⟨hk₂, hmove⟩ := haccept
    set s₂ := (s₁.setCell npcb x).TCP_REG .active npcb
    have hmem : s₂.mem npcb = x := Function.update_self ..
    have hact : update place₁ npcb (.on .active) npcb = .on .active := Function.update_self ..
    -- With the SYN|ACK it stays there, and without one it is freed.
    obtain ⟨place₃, hk₃, hmoves₃⟩ : Leads c s₂ (update place₁ npcb (.on .active)) s' := by
      cases q with
      | some pcb =>
        cases hi
        have hst := (Tcp.tcpListenInput_newReceiver (ofTcp_eq_ok.mp hq)).state
        refine hk₂.alter (x := { s₂.mem npcb with pcb }) ⟨rfl, rfl, rfl, .inl rfl⟩ ?_
        rw [hact]
        show Active pcb.state
        rw [hst]
        decide
      | none => exact (hk₂.abandon (.inl hact) hi).leads
    exact ⟨place₃, hk₃, (hmoves.tail hmove).trans hmoves₃⟩

/-- `tcp_input`, when no active connection was found. -/
theorem Keeps.inputOther (h : Keeps c s place) (hany : g.dest ≠ 0)
    (hnew : ∀ y, place y = .on .active → (s.mem y).matches g = false)
    (hi : tcpInputOther c e g s = .ok s') : Leads c s place s' := by
  obtain ⟨_, -, hi⟩ := bind_eq_ok.mp hi
  split at hi
  · next prev p hf =>
    have hp := (h.toReps.find hf).1
    have hfit := h.fits p
    rw [hp] at hfit
    obtain ⟨⟨pcb, sent⟩, hr, hi⟩ := bind_eq_ok.mp hi
    cases hi
    refine h.setPcb_route hp e.src ?_
    show pcb.state = .TIME_WAIT
    rw [Tcp.tcpTimewaitInput_state (ofTcp_eq_ok.mp hr)]
    exact hfit
  next hf =>
  split at hi
  · next prev lpcb hl =>
    have hno : ∀ y, place y = .on .active ∨ place y = .on .tw → (s.mem y).matches g = false := by
      rintro y (hy | hy)
      · exact hnew y hy
      · exact h.toReps.find_none hf hy
    obtain ⟨hp, hlisten, -⟩ := h.toReps.find hl
    exact (h.toFront hl).listenInput hp hlisten hany hno hi
  · cases hi
    exact .refl h

/-- `tcp_input`. -/
theorem Keeps.input (h : Keeps c s place) (hi : tcpInput c e g s = .ok s') :
    Leads c s place s' := by
  unfold tcpInput at hi
  split at hi
  · cases hi
    exact .refl h
  next hcast =>
  have hany : g.dest ≠ 0 := by
    -- The address with no bits set is a broadcast address.
    intro hzero
    refine hcast ?_
    have hbroadcast : Netif.ipAddrIsbroadcast g.dest e.inp = true := if_pos (.inr hzero)
    rw [hbroadcast, Bool.true_or]
  obtain ⟨_, -, hi⟩ := bind_eq_ok.mp hi
  split at hi
  · next prev p hf =>
    obtain ⟨_, -, hi⟩ := bind_eq_ok.mp hi
    obtain ⟨_, -, hi⟩ := bind_eq_ok.mp hi
    obtain ⟨hp, hm, -⟩ := h.toReps.find hf
    exact (h.toFront hf).inputActive hp ((matches_iff.mp hm).2.2.2 ▸ hany) hi
  · next hf => exact h.inputOther hany (fun y hy => h.toReps.find_none hf hy) hi

end Input

/-! ## The timers -/

section Timers

variable {c : Config} {s s' : Stack} {place : ℕ → Place} {p : ℕ} {i : PcbList} {k l : List ℕ}
  {prev : Option ℕ}

/-- The lists of a stack are the only ones that its links make. -/
theorem Reps.pcbs_of_are (h : Reps c s place) {ls : PcbList → List ℕ} (hls : s.lists.Are ls) :
    s.pcbs c = ls := by
  funext j
  exact (h.are.walk j).unique (hls.walk j)

/-- The head of a list is its first pcb. -/
theorem Reps.heads_eq (h : Reps c s place) (i : PcbList) : s.lists.heads i = (s.pcbs c i).head? :=
  (h.are.walk i).head?_eq.symm

/-- The link of a pcb on a list. -/
theorem Reps.succ_eq (h : Reps c s place) (hk : s.pcbs c i = k ++ p :: l) :
    s.lists.succ p = l.head? := by
  have hw := h.are.walk i
  rw [hk] at hw
  exact hw.drop.head?_eq.symm

/-- No pcb is on a list twice. -/
theorem Reps.nodup_pcbs (h : Reps c s place) (i : PcbList) :
    (s.pcbs c i).Nodup := (h.are.walk i).nodup

/-- A pcb is the first of its list if and only if none is before it. -/
theorem Reps.first_iff (h : Reps c s place) (hk : s.pcbs c i = k ++ p :: l) :
    k.getLast? = none ↔ s.lists.heads i = some p := by
  rw [h.heads_eq, hk, List.getLast?_eq_none_iff]
  cases k with
  | nil => exact iff_of_true rfl rfl
  | cons q k =>
    refine iff_of_false (List.cons_ne_nil q k) ?_
    rintro ⟨⟩
    have hnodup := h.nodup_pcbs i
    rw [hk] at hnodup
    exact (List.nodup_cons.mp hnodup).1 (List.mem_append_right k List.mem_cons_self)

/-- A pcb is freed that the one before it, or the head of the list, passes over. -/
theorem Keeps.removeBehind (h : Keeps c s place) (hk : s.pcbs c i = k ++ p :: l) :
    Freed c s place p (({ s with lists := s.lists.unlinkBehind i k.getLast? p } :
    Stack).mempFree i.pool p) ∧
      ({ s with lists := s.lists.unlinkBehind i k.getLast? p } : Stack).pcbs c i = k ++ l ∧
        (s.lists.unlinkBehind i k.getLast? p).succ p = l.head? := by
  have hp : place p = .on i :=
    h.mem_pcbs.mp (by rw [hk]; exact List.mem_append_right k List.mem_cons_self)
  have hare := h.are.unlinkBehind hk
  have hunl := h.toReps.unlinked hk hare
  have hfree := hunl.mempFree (q := i.pool) (Function.update_self ..) (h.pool p i hp)
  rw [Function.update_idem] at hfree
  refine ⟨⟨s.mem p, ⟨hfree, ?_, h.range⟩, ?_⟩, ?_, ?_⟩
  · have hfit : Fits c p (s.mem p) .free := trivial
    have hfits := fits_update h.fits hfit
    rwa [Function.update_eq_self] at hfits
  · rw [Function.update_eq_self]
    rfl
  · rw [hunl.pcbs_of_are hare, Function.update_self]
  · rw [Lists.unlinkBehind_succ, h.toReps.succ_eq hk]
    intro hlast
    have hnodup := h.nodup_pcbs i
    rw [hk] at hnodup
    exact (List.nodup_append.mp hnodup).2.2 p (List.mem_of_getLast? hlast) p List.mem_cons_self rfl

/-- The code of one connection ends, or stops by itself. -/
theorem ofTcp_ends {α : Type} {x : Except Tcp.Abort α} {P : α → Prop} (hP : ∀ a, x = .ok a → P a) :
    Ends Stop.ofLists P (ofTcp x) := by
  cases x with
  | ok a => exact .of_ok (hP a rfl)
  | error a => exact .of_error rfl

/-- An assertion that holds lets the stack go on. -/
theorem lwipAssert_ends {reason : Stop} {cond : Prop} [Decidable cond] (h : cond) :
    Ends Stop.ofLists (fun _ => True) (lwipAssert reason cond) := by
  rw [lwipAssert_ok h]
  exact .of_ok trivial

/-- The rest of a computation that led to another stack. -/
theorem Leads.ends {x : Except Stop Stack} (h : Leads c s place s')
    (h' : ∀ place', Keeps c s' place' → Ends Stop.ofLists (Leads c s' place') x) :
    Ends Stop.ofLists (Leads c s place) x := by
  obtain ⟨place', hk, hm⟩ := h
  refine (h' place' hk).mono fun s'' hs => ?_
  obtain ⟨place'', hk', hm'⟩ := hs
  exact ⟨place'', hk', hm.trans hm'⟩

/-- The pcbs of a list are in a state for it. -/
theorem Keeps.stateRight (h : Keeps c s place) (hp : place p = .on i) :
    stateRight s i p = true := by
  have hfit := h.fits p
  rw [hp] at hfit
  cases i with
  | bound => rfl
  | listen => rfl
  | active =>
    simp only [Pcbs.stateRight, Bool.and_eq_true, decide_eq_true_eq]
    exact ⟨⟨hfit.1, hfit.2.1⟩, hfit.2.2⟩
  | tw => exact decide_eq_true hfit

/-- A purge keeps the state. -/
theorem tcpPcbPurge_state (pcb : TcpPcb) : (Tcp.tcpPcbPurge pcb).state = pcb.state := by
  unfold Tcp.tcpPcbPurge
  split <;> rfl

/-- The loop of `tcp_slowtmr` over the active pcbs behind the pcbs `k`. -/
theorem slowtmrActive_ends (e : SlowEnv) {fuel : ℕ} {pcb : Option ℕ} (h : Keeps c s place)
    (hk : s.pcbs c .active = k ++ l) (hfuel : l.length ≤ fuel) (hprev : prev = k.getLast?)
    (hpcb : pcb = l.head?) : Ends Stop.ofLists (Leads c s place)
    (slowtmrActive c e fuel prev pcb s) := by
  induction l generalizing s place k fuel prev pcb with
  | nil =>
    rw [hpcb]
    cases fuel <;> exact .of_ok (.refl h)
  | cons p l ih =>
    obtain ⟨fuel, rfl⟩ : ∃ n, fuel = n + 1 := ⟨fuel - 1, by rw [List.length_cons] at hfuel; omega⟩
    rw [List.length_cons] at hfuel
    subst hpcb hprev
    have hp : place p = .on .active :=
      h.mem_pcbs.mp (by rw [hk]; exact List.mem_append_right k List.mem_cons_self)
    have hst : Active (s.mem p).pcb.state := by
      have hfit := h.fits p
      rwa [hp] at hfit
    show Ends _ _ (slowtmrActive c e (fuel + 1) k.getLast? (some p) s)
    unfold slowtmrActive
    refine (lwipAssert_ends (h.stateRight hp)).bind fun _ _ => ?_
    refine (ofTcp_ends (P := fun rex => rex.1.state = (s.mem p).pcb.state)
      fun _ hrex => Tcp.slowtmrRexmit_state hrex).bind fun rex hrex => ?_
    dsimp only
    set pcb' := Tcp.slowtmrOoseq s.ticks (Tcp.slowtmrKeepalive s.ticks (e.tick p) rex.1).1
    have hst' : Active pcb'.state := by
      have hsame : pcb'.state = rex.1.state := Tcp.slowtmrKeepalive_state s.ticks (e.tick p) rex.1
      rw [hsame, hrex]
      exact hst
    split
    · -- The pcb is purged and freed, and the loop goes on with the one behind it.
      have hfit : Fits c p { s.mem p with pcb := Tcp.tcpPcbPurge pcb' } (place p) := by
        rw [hp]
        show Active (Tcp.tcpPcbPurge pcb').state
        rw [tcpPcbPurge_state]
        exact hst'
      refine (h.alter (x := { s.mem p with pcb := Tcp.tcpPcbPurge pcb' }) ⟨rfl, rfl, rfl, .inl rfl⟩
        hfit).ends fun place₁ h₁ => ?_
      have hk₁ : (s.setPcb p (Tcp.tcpPcbPurge pcb')).pcbs c .active = k ++ p :: l := hk
      refine (lwipAssert_ends (h₁.first_iff hk₁)).bind fun _ _ => ?_
      obtain ⟨hfreed, hpcbs, hsucc⟩ := h₁.removeBehind hk₁
      refine hfreed.leads.ends fun place₂ h₂ => ?_
      exact ih h₂ hpcbs (by omega) rfl hsucc
    · refine (ofTcp_ends (P := fun r => r.1 = .gone ∨ ∃ q, r.1 = .active q ∧ Active q.state)
        fun _ hr => Tcp.slowtmrPoll_active hst' hr).bind fun r hr => ?_
      rcases hr with hr | ⟨q, hr, hq⟩
      · rw [hr]
        exact .of_error rfl
      · rw [hr]
        have hk₁ : ((s.setPcb p q).route (e.src p) p).pcbs c .active = (k ++ [p]) ++ l := by
          rw [List.append_assoc]
          exact hk
        refine (h.setPcb_route hp (e.src p) hq).ends fun place₁ h₁ => ?_
        exact ih h₁ hk₁ (by omega) List.getLast?_concat.symm (h.toReps.succ_eq hk)

/-- The loop of `tcp_slowtmr` over the pcbs in `TIME_WAIT` behind the pcbs `k`. -/
theorem slowtmrTimeWait_ends {fuel : ℕ} {pcb : Option ℕ} (h : Keeps c s place)
    (hk : s.pcbs c .tw = k ++ l) (hfuel : l.length ≤ fuel) (hprev : prev = k.getLast?)
    (hpcb : pcb = l.head?) : Ends Stop.ofLists (Leads c s place)
    (slowtmrTimeWait fuel prev pcb s) := by
  induction l generalizing s place k fuel prev pcb with
  | nil =>
    rw [hpcb]
    cases fuel <;> exact .of_ok (.refl h)
  | cons p l ih =>
    obtain ⟨fuel, rfl⟩ : ∃ n, fuel = n + 1 := ⟨fuel - 1, by rw [List.length_cons] at hfuel; omega⟩
    rw [List.length_cons] at hfuel
    subst hpcb hprev
    have hp : place p = .on .tw :=
      h.mem_pcbs.mp (by rw [hk]; exact List.mem_append_right k List.mem_cons_self)
    show Ends _ _ (slowtmrTimeWait (fuel + 1) k.getLast? (some p) s)
    unfold slowtmrTimeWait
    refine (lwipAssert_ends (h.stateRight hp)).bind fun _ _ => ?_
    split
    · refine (lwipAssert_ends (h.first_iff hk)).bind fun _ _ => ?_
      obtain ⟨hfreed, hpcbs, hsucc⟩ := h.removeBehind hk
      refine hfreed.leads.ends fun place₂ h₂ => ?_
      exact ih h₂ hpcbs (by omega) rfl hsucc
    · refine ih h (k := k ++ [p]) ?_ (by omega) List.getLast?_concat.symm (h.toReps.succ_eq hk)
      rw [List.append_assoc]
      exact hk

/-- `tcp_slowtmr`. -/
theorem Keeps.slowtmr (h : Keeps c s place) (e : SlowEnv) :
    Ends Stop.ofLists (Leads c s place) (tcpSlowtmr c e s) := by
  have h₁ : Keeps c { s with ticks := s.ticks + 1 } place :=
    ⟨h.toReps.of_eq rfl rfl, h.fits, h.range⟩
  refine (slowtmrActive_ends e h₁ (k := []) rfl (h₁.pcbs_length .active) rfl
    (h₁.heads_eq .active)).bind fun s₂ hs₂ => hs₂.ends fun place₂ h₂ => ?_
  exact slowtmrTimeWait_ends h₂ (k := []) rfl (h₂.pcbs_length .tw) rfl (h₂.heads_eq .tw)

/-- A fast tick keeps the state. -/
theorem tcpFasttmr_state {ticks : BitVec 32} {takes out : Bool} {pcb pcb' : TcpPcb}
    {sent : List Tcp.Sent}
    (h : Tcp.tcpFasttmr ticks takes out pcb = .ok (pcb', sent)) : pcb'.state = pcb.state := by
  unfold Tcp.tcpFasttmr at h
  dsimp only at h
  split at h
  · obtain ⟨⟨q, out'⟩, hack, h⟩ := bind_eq_ok.mp h
    cases h
    exact (Tcp.tcpOutputUnlessInput_state hack).trans rfl
  · cases h
    rfl

/-- The loop of `tcp_fasttmr` from the active pcbs `l` on. -/
theorem fasttmrActive_ends (e : FastEnv) {fuel : ℕ} {pcb : Option ℕ} (h : Keeps c s place)
    (hk : s.pcbs c .active = k ++ l) (hfuel : l.length ≤ fuel) (hpcb : pcb = l.head?) :
    Ends Stop.ofLists (Leads c s place) (fasttmrActive e fuel pcb s) := by
  induction l generalizing s place k fuel pcb with
  | nil =>
    rw [hpcb]
    cases fuel <;> exact .of_ok (.refl h)
  | cons p l ih =>
    obtain ⟨fuel, rfl⟩ : ∃ n, fuel = n + 1 := ⟨fuel - 1, by rw [List.length_cons] at hfuel; omega⟩
    rw [List.length_cons] at hfuel
    subst hpcb
    have hp : place p = .on .active :=
      h.mem_pcbs.mp (by rw [hk]; exact List.mem_append_right k List.mem_cons_self)
    have hst : Active (s.mem p).pcb.state := by
      have hfit := h.fits p
      rwa [hp] at hfit
    show Ends _ _ (fasttmrActive e (fuel + 1) (some p) s)
    unfold fasttmrActive
    refine (ofTcp_ends (P := fun r => r.1.state = (s.mem p).pcb.state)
      fun r hr => by obtain ⟨q, sent⟩ := r; exact tcpFasttmr_state hr).bind fun r hr => ?_
    have hk₁ : ((s.setPcb p r.1).route (e.src p) p).pcbs c .active = (k ++ [p]) ++ l := by
      rw [List.append_assoc]
      exact hk
    have hfit : Fits c p { s.mem p with pcb := r.1 } (.on .active) := by
      show Active r.1.state
      rw [hr]
      exact hst
    refine (h.setPcb_route hp (e.src p) hfit).ends fun place₁ h₁ => ?_
    exact ih h₁ hk₁ (by omega) (h.toReps.succ_eq hk)

/-- `tcp_fasttmr`. -/
theorem Keeps.fasttmr (h : Keeps c s place) (e : FastEnv) :
    Ends Stop.ofLists (Leads c s place) (tcpFasttmr c e s) :=
  fasttmrActive_ends e h (k := []) rfl (h.pcbs_length .active) (h.heads_eq .active)

end Timers

end Lwip.Pcbs
