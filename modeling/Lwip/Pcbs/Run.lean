import Lwip.Pcbs.Steps
import Mathlib.Data.Finset.Card
import Mathlib.Order.Interval.Finset.Nat

/-!
# Runs of the stack

The calls of the application, the segments that come in, and the two timers, in any order
(`stackStep`). The table of pcbs is kept by all of them, and none of the assertions about the lists
ever fails: `pcb_lists`. The search for a port comes to an end if there are fewer pcbs than ports.
-/

namespace Lwip.Pcbs

open Tcp (Opts TcpPcb TcpState Active)
open Netif (IpAddr)
open Function (update)

/-! ## What the stack does not stop for -/

section Avoids

variable {c : Config} {s : Stack} {place : ℕ → Place} {p : ℕ} {i : PcbList} {k l : List ℕ}
  {e : InputEnv} {g : Segment} {ack : Bool} {port : BitVec 16}

/-- The code of one connection does not stop because of the lists. -/
theorem ofTcp_avoids {α : Type} (x : Except Tcp.Abort α) : Avoids Stop.ofLists (ofTcp x) :=
  (ofTcp_ends (P := fun _ => True) fun _ _ => trivial).avoids

/-- An assertion about a state is not one about the lists. -/
theorem notClosed_avoids (cond : Prop) [Decidable cond] :
    Avoids Stop.ofLists (lwipAssert .notClosed cond) := by
  unfold lwipAssert
  split
  · exact .ok ()
  · exact .error rfl

/-- `tcp_pcb_remove` does not stop because of the lists. -/
theorem tcpPcbRemove_avoids : Avoids Stop.ofLists (tcpPcbRemove c ack p s i) :=
  (ofTcp_avoids _).bind fun _ _ => .ok _

/-- `tcp_abandon` does not stop because of the lists. -/
theorem tcpAbandon_avoids : Avoids Stop.ofLists (tcpAbandon c ack p s) := by
  unfold tcpAbandon
  split <;> exact tcpPcbRemove_avoids.bind fun _ _ => .ok _

/-- `tcp_close` does not stop because of the lists. -/
theorem tcpClose_avoids {alloc : ℕ → Bool} {src : Option IpAddr} :
    Avoids Stop.ofLists (tcpClose c ack p s alloc src) := by
  unfold tcpClose
  split
  · exact .ok _
  · exact tcpPcbRemove_avoids.bind fun _ _ => .ok _
  · exact tcpPcbRemove_avoids.bind fun _ _ => .ok _
  · exact (ofTcp_avoids _).bind fun _ _ => .ok _

/-- `tcp_alloc` does not stop because of the lists. -/
theorem tcpAlloc_avoids {acks : Bool × Bool} {iss : Serial} {prio : UInt8} :
    Avoids Stop.ofLists (tcpAlloc c acks iss prio s) := by
  have htw : ∀ s, Avoids Stop.ofLists (tcpKillTimewait c acks.1 s) := fun s => by
    unfold tcpKillTimewait
    split
    · exact tcpAbandon_avoids
    · exact .ok _
  have hprio : ∀ s, Avoids Stop.ofLists (tcpKillPrio c acks.2 prio s) := fun s => by
    unfold tcpKillPrio
    split
    · exact tcpAbandon_avoids
    · exact .ok _
  unfold tcpAlloc
  split
  · exact .ok _
  refine (htw s).bind fun s₁ _ => ?_
  split
  · exact .ok _
  refine (hprio s₁).bind fun s₂ _ => ?_
  split <;> exact .ok _

/-- The range as numbers. -/
theorem inRange_iff : InRange port ↔ 4096 ≤ port.toNat ∧ port.toNat ≤ 0x7fff := Iff.rfl

/-- The next port as a number. -/
theorem toNat_nextPort (hp : InRange port) :
    (nextPort port).toNat = 4096 + (port.toNat - 4096 + 1) % 0x7000 := by
  obtain ⟨hlo, hhi⟩ := inRange_iff.mp hp
  have hadd : (port + 1).toNat = port.toNat + 1 := by
    rw [BitVec.toNat_add, Nat.mod_eq_of_lt]
    · rfl
    · show port.toNat + 1 < _
      omega
  have hgt : port + 1 > TCP_LOCAL_PORT_RANGE_END ↔ 0x7fff < port.toNat + 1 := by
    rw [← hadd]
    exact Iff.rfl
  unfold nextPort
  split
  · next h =>
    have hlast : port.toNat = 0x7fff := by
      rw [hgt] at h
      omega
    rw [hlast]
    rfl
  · next h =>
    rw [hgt] at h
    rw [hadd, Nat.mod_eq_of_lt (by omega)]
    omega

/-- The port that `tcp_new_port` comes to in the round `n`. -/
theorem toNat_iterate_nextPort (hp : InRange port) (n : ℕ) :
    InRange (nextPort^[n] port) ∧ (nextPort^[n] port).toNat =
    4096 + (port.toNat - 4096 + n) % 0x7000 := by
  obtain ⟨hlo, hhi⟩ := inRange_iff.mp hp
  induction n with
  | zero =>
    refine ⟨hp, ?_⟩
    rw [Function.iterate_zero, id_eq, Nat.add_zero, Nat.mod_eq_of_lt (by omega)]
    omega
  | succ n ih =>
    obtain ⟨hr, heq⟩ := ih
    rw [Function.iterate_succ_apply']
    refine ⟨nextPort_inRange hr, ?_⟩
    rw [toNat_nextPort hr, heq]
    omega

/-- If no port is found, all that were tried are taken. -/
theorem newPortFrom_eq_none {fuel : ℕ} (h : newPortFrom c s fuel port = none) :
    ∀ n < fuel, s.taken c (nextPort^[n + 1] port) = true := by
  induction fuel generalizing port with
  | zero => exact fun n hn => absurd hn (Nat.not_lt_zero n)
  | succ fuel ih =>
    unfold newPortFrom at h
    dsimp only at h
    split at h
    · next htaken =>
      intro n hn
      cases n with
      | zero => exact htaken
      | succ n =>
        rw [Function.iterate_succ_apply]
        exact ih h n (Nat.lt_of_succ_lt_succ hn)
    · cases h

/-- If `tcp_new_port` finds no port, all of the range are taken. -/
theorem Keeps.taken_of_none (h : Keeps c s place) (hnone : newPortFrom c s 0x7000 s.port = none)
    (hp : InRange port) : s.taken c port = true := by
  obtain ⟨hlo, hhi⟩ := inRange_iff.mp hp
  obtain ⟨hlo', hhi'⟩ := inRange_iff.mp h.range
  -- The round in which the search comes to the port.
  have htaken := newPortFrom_eq_none hnone ((port.toNat + 0x7000 - s.port.toNat - 1) % 0x7000)
    (Nat.mod_lt _ (by decide))
  convert htaken
  apply BitVec.eq_of_toNat_eq
  rw [(toNat_iterate_nextPort h.range _).2]
  omega

/-- If `tcp_new_port` finds no port, there is a pcb for each. -/
theorem Keeps.newPort_some (h : Keeps c s place) (hc : c.total < 0x7000) :
    newPortFrom c s 0x7000 s.port ≠ none := by
  intro hnone
  have hused : ∀ q ∈ Finset.Icc 4096 0x7fff, ∃ x < c.total, (s.mem x).local_port.toNat = q := by
    intro q hq
    obtain ⟨hlo, hhi⟩ := Finset.mem_Icc.mp hq
    have hq : (BitVec.ofNat 16 q).toNat = q := Nat.mod_eq_of_lt (by omega)
    obtain ⟨x, i, -, hx, hport⟩ :=
      Stack.taken_iff.mp (h.taken_of_none hnone (inRange_iff.mpr (by rw [hq]; exact ⟨hlo, hhi⟩)))
    exact ⟨x, (h.pool x i (h.mem_pcbs.mp hx)).lt, by rw [hport, hq]⟩
  have hsub : Finset.Icc 4096 0x7fff ⊆ (Finset.range c.total).image fun x =>
    (s.mem x).local_port.toNat := by
    intro q hq
    obtain ⟨x, hx, hport⟩ := hused q hq
    exact Finset.mem_image.mpr ⟨x, Finset.mem_range.mpr hx, hport⟩
  have hcard := (Finset.card_le_card hsub).trans Finset.card_image_le
  rw [Nat.card_Icc, Finset.card_range] at hcard
  omega

/-- A port is found. -/
theorem Keeps.portOrNew_avoids (h : Keeps c s place) (hc : c.total < 0x7000) :
    Avoids Stop.ofLists (Pcbs.portOrNew c s port) := by
  unfold Pcbs.portOrNew tcpNewPort
  split
  · split
    · exact .ok _
    · next hnone => exact absurd hnone (h.newPort_some hc)
  · exact .ok _

/-- `tcp_bind` finds a port. -/
theorem Keeps.bind_avoids (h : Keeps c s place) (hc : c.total < 0x7000) {ipaddr : IpAddr} :
    Avoids Stop.ofLists (tcpBind c p s ipaddr port) := by
  refine (notClosed_avoids _).bind fun _ _ => (h.portOrNew_avoids hc).bind fun r _ => ?_
  dsimp only
  split <;> exact .ok _

/-- `tcp_listen` does not stop because of the lists. -/
theorem listen_avoids : Avoids Stop.ofLists (tcpListen c p s) := by
  refine (notClosed_avoids _).bind fun _ _ => ?_
  split <;> exact .ok _

/-- `tcp_connect` finds a port. -/
theorem Keeps.connect_avoids (h : Keeps c s place) (hc : c.total < 0x7000) {e : Tcp.ConnectEnv}
    {src ipaddr : Option IpAddr} : Avoids Stop.ofLists (tcpConnect c p s e src ipaddr port) := by
  refine (notClosed_avoids _).bind fun _ _ => ?_
  split
  · exact .ok _
  · refine (h.portOrNew_avoids hc).bind fun r _ => (ofTcp_avoids _).bind fun r' _ => ?_
    split
    · exact .error rfl
    · exact .ok _

/-! ### Segments -/

/-- The pcbs that a search comes to are on the list. -/
theorem upTo_subset (test : ℕ → Bool) (l : List ℕ) : upTo test l ⊆ l := by
  induction l with
  | nil => exact List.Subset.refl _
  | cons p l ih =>
    unfold upTo
    split
    · exact List.cons_subset_cons p (List.nil_subset l)
    · exact List.cons_subset_cons p ih

/-- The pcbs that a search comes to are in the states that the assertions allow. -/
theorem Keeps.assertStates_ok (h : Keeps c s place) (test : Cell → Bool) :
    s.assertStates c i test = .ok () := by
  refine lwipAssert_ok (List.all_eq_true.mpr fun p hp => ?_)
  exact h.stateRight (h.mem_pcbs.mp (upTo_subset _ _ hp))

/-- No pcb is behind itself. -/
theorem Keeps.assertNext_ok (h : Keeps c s place) (hp : place p = .on i) :
    s.assertNext p = .ok () := by
  refine lwipAssert_ok fun hself => ?_
  obtain ⟨k, l, hk⟩ := List.append_of_mem (h.mem_pcbs.mpr hp)
  rw [h.toReps.succ_eq hk] at hself
  have hnodup := h.nodup_pcbs i
  rw [hk] at hnodup
  exact (List.nodup_cons.mp (List.nodup_append.mp hnodup).2.1).1 (List.mem_of_mem_head? hself)

/-- `tcp_input` for an active pcb does not stop because of the lists. -/
theorem tcpInputActive_avoids : Avoids Stop.ofLists (tcpInputActive c e p g s) := by
  refine (ofTcp_avoids _).bind fun r _ => ?_
  split <;> exact .ok _

/-- `tcp_listen_input` does not stop because of the lists. -/
theorem tcpListenInput_avoids : Avoids Stop.ofLists (tcpListenInput c e p g s) := by
  unfold tcpListenInput
  split
  · exact .ok _
  split
  · refine tcpAlloc_avoids.bind fun r _ => ?_
    split
    · exact .ok _
    · refine (ofTcp_avoids _).bind fun r' _ => ?_
      split
      · exact .ok _
      · exact tcpAbandon_avoids
  · exact .ok _

/-- `tcp_input` for another pcb does not stop because of the lists. -/
theorem Keeps.inputOther_avoids (h : Keeps c s place) :
    Avoids Stop.ofLists (tcpInputOther c e g s) := by
  unfold tcpInputOther
  rw [h.assertStates_ok, ok_bind]
  split
  · exact (ofTcp_avoids _).bind fun _ _ => .ok _
  split
  · exact tcpListenInput_avoids
  · exact .ok _

/-- `tcp_input` does not stop because of the lists. -/
theorem Keeps.input_avoids (h : Keeps c s place) : Avoids Stop.ofLists (tcpInput c e g s) := by
  unfold tcpInput
  split
  · exact .ok _
  rw [h.assertStates_ok, ok_bind]
  split
  · next prev p hf =>
    have hp := (h.toReps.find hf).1
    dsimp only
    rw [h.assertNext_ok hp, ok_bind, (h.toFront hf).assertNext_ok hp, ok_bind]
    exact tcpInputActive_avoids
  · exact h.inputOther_avoids

end Avoids

/-! ## Every run -/

/-- What the application does, and what comes in. -/
inductive Event where
  | new (acks : Bool × Bool) (iss : Serial)
  | bind (p : ℕ) (ipaddr : IpAddr) (port : BitVec 16)
  | listen (p : ℕ)
  | connect (p : ℕ) (e : Tcp.ConnectEnv) (src ipaddr : Option IpAddr) (port : BitVec 16)
  | write (p : ℕ) (alloc : ℕ → Bool) (data : List UInt8) (copy more : Bool)
  | recved (p : ℕ) (alloc : Bool) (len : ℕ) (src : Option IpAddr)
  | setprio (p : ℕ) (prio : UInt8)
  | close (p : ℕ) (ack : Bool) (alloc : ℕ → Bool) (src : Option IpAddr)
  | abort (p : ℕ) (ack : Bool)
  | input (e : InputEnv) (g : Segment)
  | slowtmr (e : SlowEnv)
  | fasttmr (e : FastEnv)

section Runs

variable (c : Config)

/-- One event. -/
def stackStep (s : Stack) : Event → Except Stop Stack
  | .new acks iss => do
    let r ← tcpNew c acks iss s
    .ok r.2
  | .bind p ipaddr port => do
    let r ← tcpBind c p s ipaddr port
    .ok r.2
  | .listen p => do
    let r ← tcpListen c p s
    .ok r.2
  | .connect p e src ipaddr port => tcpConnect c p s e src ipaddr port
  | .write p alloc data copy more => do
    let r ← ofTcp (Tcp.tcpWrite c.o alloc (s.mem p).pcb data copy more)
    .ok (s.setPcb p r.2)
  | .recved p alloc len src => do
    let r ← ofTcp (Tcp.tcpRecved c.o false s.ticks alloc (s.mem p).pcb len)
    .ok ((s.setPcb p r.1).route src p)
  | .setprio p prio => .ok (s.setCell p { s.mem p with prio })
  | .close p ack alloc src => tcpClose c ack p s alloc src
  | .abort p ack => tcpAbandon c ack p s
  | .input e g => tcpInput c e g s
  | .slowtmr e => tcpSlowtmr c e s
  | .fasttmr e => tcpFasttmr c e s

/-- The stack after `memp_init` and `tcp_init`: all cells are free. -/
def Stack.init (mem : ℕ → Cell) : Stack where
  lists := ⟨fun _ => none, fun _ => none⟩
  mem := mem
  free
    | .TCP_PCB => List.range (c.num .TCP_PCB)
    | .TCP_PCB_LISTEN => List.range' (c.num .TCP_PCB) (c.num .TCP_PCB_LISTEN)

/-- The cell is allocated. -/
def Stack.Used (s : Stack) (p : ℕ) :
    Prop := p < c.total ∧ p ∉ s.free .TCP_PCB ∧ p ∉ s.free .TCP_PCB_LISTEN

instance (s : Stack) (p : ℕ) : Decidable (s.Used c p) := inferInstanceAs (Decidable (_ ∧ _))

/-- The cell is on one of the lists. -/
def Stack.Listed (s : Stack) (p : ℕ) : Prop :=
  p ∈ s.pcbs c .bound ∨ p ∈ s.pcbs c .listen ∨ p ∈ s.pcbs c .active ∨ p ∈ s.pcbs c .tw

instance (s : Stack) (p : ℕ) : Decidable (s.Listed c p) := inferInstanceAs (Decidable (_ ∨ _))

/-- The application passes pcbs that it has: `tcp_bind` gets a pcb that was not bound before,
`tcp_abort` none that is bound or listening, and the calls that are for connections get one. -/
def OnUsed (s : Stack) : Event → Prop
  | .bind p _ _ => s.Used c p ∧ ¬s.Listed c p
  | .listen p | .connect p _ _ _ _ | .setprio p _ | .close p _ _ _ => s.Used c p
  | .abort p _ => s.Used c p ∧ p ∉ s.pcbs c .bound ∧ p ∉ s.pcbs c .listen
  | .write p _ _ _ _ | .recved p _ _ _ => p ∈ s.pcbs c .active ∨ p ∈ s.pcbs c .tw
  | .new _ _ | .input _ _ | .slowtmr _ | .fasttmr _ => True

instance (s : Stack) : (ev : Event) → Decidable (OnUsed c s ev)
  | .bind _ _ _ | .abort _ _ => inferInstanceAs (Decidable (_ ∧ _))
  | .listen p | .connect p _ _ _ _ | .setprio p _ | .close p _ _ _ =>
    inferInstanceAs (Decidable (s.Used c p))
  | .write _ _ _ _ _ | .recved _ _ _ _ => inferInstanceAs (Decidable (_ ∨ _))
  | .new _ _ | .input _ _ | .slowtmr _ | .fasttmr _ => .isTrue trivial

end Runs

section Invariant

variable {c : Config} {s s' : Stack} {place : ℕ → Place} {p : ℕ} {ev : Event}

/-- At first all cells are free. -/
theorem Keeps.init (c : Config) (mem : ℕ → Cell) : Keeps c (.init c mem) fun _ => .free := by
  refine ⟨⟨⟨fun _ => [], ⟨fun _ => .nil, fun _ _ _ h => absurd h List.not_mem_nil⟩, fun i p => ?_⟩,
    fun q => ?_, fun q p => ?_, fun _ _ h => by cases h⟩, fun _ => trivial, ?_⟩
  · exact iff_of_false List.not_mem_nil Place.noConfusion
  · cases q with
    | TCP_PCB => exact List.nodup_range
    | TCP_PCB_LISTEN => exact List.nodup_range'
  · rw [and_iff_left rfl]
    cases q with
    | TCP_PCB => exact List.mem_range
    | TCP_PCB_LISTEN => exact List.mem_range'_1
  · have hport : (Stack.init c mem).port = 4096 := rfl
    rw [hport]
    exact inRange_iff.mpr ⟨by decide, by decide⟩

/-- A cell is in one of the pools. -/
theorem Config.inPool_of_lt (h : p < c.total) : ∃ q, c.InPool q p := by
  unfold Config.total at h
  by_cases hp : p < c.num .TCP_PCB
  · exact ⟨.TCP_PCB, hp⟩
  · exact ⟨.TCP_PCB_LISTEN, Nat.le_of_not_lt hp, h⟩

/-- The cells that are in use are not free in the table. -/
theorem Keeps.used (h : Keeps c s place) (hp : s.Used c p) : place p ≠ .free := by
  intro hfree
  obtain ⟨q, hq⟩ := Config.inPool_of_lt hp.1
  have hmem : p ∈ s.free q := (h.free q p).mpr ⟨hq, hfree⟩
  cases q with
  | TCP_PCB => exact hp.2.1 hmem
  | TCP_PCB_LISTEN => exact hp.2.2 hmem

/-- A pcb in use that is not listed is on no list. -/
theorem Keeps.unlisted (h : Keeps c s place) (hp : s.Used c p) (hl : ¬s.Listed c p) :
    place p = .off := by
  have hused := h.used hp
  cases hpl : place p with
  | free => exact absurd hpl hused
  | off => rfl
  | on i =>
    have hmem : p ∈ s.pcbs c i := h.mem_pcbs.mpr hpl
    refine absurd ?_ hl
    cases i with
    | bound => exact .inl hmem
    | listen => exact .inr (.inl hmem)
    | active => exact .inr (.inr (.inl hmem))
    | tw => exact .inr (.inr (.inr hmem))

/-- What an event does to the table: the calls that open something change it in their own way, and
all else is moves. -/
inductive Changes (next : BitVec 16 → Prop) (t t' : Table) : Event → Prop where
  | moves {ev : Event} (h : Relation.ReflTransGen Move t t') : Changes next t t' ev
  | bind {p : ℕ} {ipaddr : IpAddr} {port : BitVec 16} {x : Cell} (h : Binds t p ipaddr port t' x) :
    Changes next t t' (.bind p ipaddr port)
  | listen {p lpcb : ℕ} {x : Cell} (h : Listens t p lpcb t' x) : Changes next t t' (.listen p)
  | connect {p : ℕ} {e : Tcp.ConnectEnv} {src ipaddr : Option IpAddr} {port : BitVec 16} {x : Cell}
    (h : Connects next t p ipaddr port t' x) : Changes next t t' (.connect p e src ipaddr port)

/-- The table is kept, and is changed as the event changes it. -/
def Steps (c : Config) (s : Stack) (place : ℕ → Place) (ev : Event) (s' : Stack) : Prop :=
  ∃ place', Keeps c s' place' ∧ Changes (s.IsNext c) (s.table place) (s'.table place') ev

/-- What the stack does by itself is a step. -/
theorem Leads.steps (h : Leads c s place s') : Steps c s place ev s' := by
  obtain ⟨place', hk, hm⟩ := h
  exact ⟨place', hk, .moves hm⟩

/-- A step that leaves the table alone. -/
theorem Steps.of_eq {place' : ℕ → Place} (hk : Keeps c s' place')
    (heq : s'.table place' = s.table place) :
    Steps c s place ev s' := ⟨place', hk, .moves (heq ▸ .refl)⟩

/-- A pcb that is on the list of active pcbs or on that of those in `TIME_WAIT`. -/
theorem Keeps.mem_connection (h : Keeps c s place) (hp : p ∈ s.pcbs c .active ∨ p ∈ s.pcbs c .tw) :
    ∃ i, place p = .on i :=
  hp.elim (fun hp => ⟨_, h.mem_pcbs.mp hp⟩) (fun hp => ⟨_, h.mem_pcbs.mp hp⟩)

/-- Every event is a step. -/
theorem Keeps.steps (h : Keeps c s place) (hev : OnUsed c s ev) (hs' : stackStep c s ev = .ok s') :
    Steps c s place ev s' := by
  cases ev with
  | new acks iss =>
    obtain ⟨r, hr, hs'⟩ := bind_eq_ok.mp hs'
    cases hs'
    exact (h.alloc hr).leads.steps
  | bind p ipaddr port =>
    obtain ⟨⟨ok, s₁⟩, hr, hs'⟩ := bind_eq_ok.mp hs'
    cases hs'
    obtain ⟨place', hk, heq | ⟨x, hx⟩⟩ := h.bind (h.unlisted hev.1 hev.2) hr
    · exact .of_eq hk heq
    · exact ⟨place', hk, .bind hx⟩
  | listen p =>
    obtain ⟨⟨r, s₁⟩, hr, hs'⟩ := bind_eq_ok.mp hs'
    cases hs'
    obtain ⟨place', hk, heq | ⟨lpcb, x, hx⟩⟩ := h.listen (h.used hev) hr
    · exact .of_eq hk heq
    · exact ⟨place', hk, .listen hx⟩
  | connect p e src ipaddr port =>
    obtain ⟨place', hk, heq | ⟨x, hx⟩⟩ := h.connect (h.used hev) hs'
    · exact .of_eq hk heq
    · exact ⟨place', hk, .connect hx⟩
  | write p alloc data copy more =>
    obtain ⟨⟨err, pcb⟩, hr, hs'⟩ := bind_eq_ok.mp hs'
    cases hs'
    obtain ⟨i, hi⟩ := h.mem_connection hev
    have hfit := h.fits p
    rw [hi] at hfit
    exact (h.alter (x := { s.mem p with pcb }) ⟨rfl, rfl, rfl, .inl rfl⟩
      (hi ▸ hfit.congr (Tcp.tcpWrite_state (ofTcp_eq_ok.mp hr)) rfl)).steps
  | recved p alloc len src =>
    obtain ⟨⟨pcb, out⟩, hr, hs'⟩ := bind_eq_ok.mp hs'
    cases hs'
    obtain ⟨i, hi⟩ := h.mem_connection hev
    have hfit := h.fits p
    rw [hi] at hfit
    exact (h.setPcb_route hi src (hfit.congr (Tcp.tcpRecved_state (ofTcp_eq_ok.mp hr)) rfl)).steps
  | setprio p prio =>
    cases hs'
    refine (h.alter (x := { s.mem p with prio }) ⟨rfl, rfl, rfl, .inl rfl⟩ ?_).steps
    have hfit := h.fits p
    revert hfit
    cases place p with
    | free => exact id
    | off => exact id
    | on i => exact fun hfit => hfit.congr rfl rfl
  | close p ack alloc src => exact (h.close (h.used hev) hs').steps
  | abort p ack =>
    refine (h.abandon ?_ hs').leads.steps
    obtain ⟨hused, hbound, hlisten⟩ := hev
    rcases h.cases (h.used hused) with ⟨hpl, -⟩ | ⟨hpl, -⟩ | ⟨hpl, -⟩ | ⟨hpl, -⟩ | ⟨hpl, -⟩
    · exact .inr (.inr hpl)
    · exact absurd (h.mem_pcbs.mpr hpl) hbound
    · exact absurd (h.mem_pcbs.mpr hpl) hlisten
    · exact .inl hpl
    · exact .inr (.inl hpl)
  | input e g => exact (h.input hs').steps
  | slowtmr e => exact ((h.slowtmr e).ok s' hs').steps
  | fasttmr e => exact ((h.fasttmr e).ok s' hs').steps

/-- No event stops the stack because of the lists. -/
theorem Keeps.step_avoids (h : Keeps c s place) (hc : c.total < 0x7000) (ev : Event) :
    Avoids Stop.ofLists (stackStep c s ev) := by
  cases ev with
  | new acks iss => exact tcpAlloc_avoids.bind fun _ _ => .ok _
  | bind p ipaddr port => exact (h.bind_avoids hc).bind fun _ _ => .ok _
  | listen p => exact listen_avoids.bind fun _ _ => .ok _
  | connect p e src ipaddr port => exact h.connect_avoids hc
  | write p alloc data copy more => exact (ofTcp_avoids _).bind fun _ _ => .ok _
  | recved p alloc len src => exact (ofTcp_avoids _).bind fun _ _ => .ok _
  | setprio p prio => exact .ok _
  | close p ack alloc src => exact tcpClose_avoids
  | abort p ack => exact tcpAbandon_avoids
  | input e g => exact h.input_avoids
  | slowtmr e => exact (h.slowtmr e).avoids
  | fasttmr e => exact (h.fasttmr e).avoids

/-- Every run keeps a table. -/
theorem exists_keeps {mem : ℕ → Cell} {es : List Event}
    (hes : Along (stackStep c) (OnUsed c) (.init c mem) es)
    (hrun : run (stackStep c) (.init c mem) es = .ok s) : ∃ place, Keeps c s place :=
  run_invariant (I := fun s => ∃ place, Keeps c s place) (fun s ev s' hI hev hs' => by
    obtain ⟨place, h⟩ := hI
    obtain ⟨place', hk, -⟩ := h.steps hev hs'
    exact ⟨place', hk⟩) ⟨_, Keeps.init c mem⟩ hes hrun

/-- Every run of the stack keeps the table: each list ends, no pcb is on two lists or twice on one,
the pcbs of a list are allocated and in the states that belong to it, and a pcb that is on no list
was not bound yet. The next event does not stop the stack because of the lists: the assertions about
the states of the pcbs and about the links do not fail, and the loops over the lists and over the
ports come to their ends. -/
theorem pcb_lists {mem : ℕ → Cell} {es : List Event} (hc : c.total < 0x7000)
    (hes : Along (stackStep c) (OnUsed c) (.init c mem) es)
    (hrun : run (stackStep c) (.init c mem) es = .ok s) :
    (∃ place, Keeps c s place) ∧ ∀ ev, OnUsed c s ev → Avoids Stop.ofLists (stackStep c s ev) := by
  obtain ⟨place, h⟩ := exists_keeps hes hrun
  exact ⟨⟨place, h⟩, fun ev _ => h.step_avoids hc ev⟩

end Invariant

/-- Two pcbs and one for listening. -/
def smallConfig : Config where
  o := .shipped
  num
    | .TCP_PCB => 2
    | .TCP_PCB_LISTEN => 1

/-- The pools of `smallConfig`, with all cells free. -/
def smallStack : Stack := .init smallConfig fun _ => { pcb := Tcp.tcpAlloc .shipped 0 0 }

/-- A segment to the port 80. -/
def toPort80 (srcPort : BitVec 16) (seg : Tcp.Seg) (ackno : Serial) : Event :=
  .input { inp := { ip_addr := 7, netmask := 0xff, gw := 0, hwaddr := Netif.ethzero } }
    ⟨9, 7, srcPort, 80, { seg, ackno, wnd := 1000 }⟩

/-- A server with one connection that is established and another one that takes the pcb of a
third. -/
def servedRun : List Event :=
  [.new (true, true) 100, .bind 0 0 80, .listen 0, .setprio 2 64,
    toPort80 1000 { seqno := 5, len := 0, flags := { syn := true } } 0,
    toPort80 1000 { seqno := 6, len := 0, flags := { ack := true } } 1,
    toPort80 1001 { seqno := 5, len := 0, flags := { syn := true } } 0, .slowtmr {},
    toPort80 1002 { seqno := 5, len := 0, flags := { syn := true } } 0, .fasttmr {}]

/-- A server and two clients in a run. -/
theorem pcb_lists_servedRun : ∃ s, run (stackStep smallConfig) (.init smallConfig fun _ =>
      { pcb := Tcp.tcpAlloc .shipped 0 0 }) servedRun = .ok s ∧
      (∃ place, Keeps smallConfig s place) ∧
    s.pcbs smallConfig .active = [0, 1] ∧ s.pcbs smallConfig .listen = [2] := by
  have hes : Along (stackStep smallConfig) (OnUsed smallConfig) smallStack servedRun := by
    decide +kernel
  obtain ⟨s, hrun, hval⟩ : ∃ s, run (stackStep smallConfig) smallStack servedRun = .ok s ∧
      s.pcbs smallConfig .active = [0, 1] ∧ s.pcbs smallConfig .listen = [2] :=
    exists_of_any (by decide +kernel)
  exact ⟨s, hrun, (pcb_lists (by decide) hes hrun).1, hval⟩

end Lwip.Pcbs
