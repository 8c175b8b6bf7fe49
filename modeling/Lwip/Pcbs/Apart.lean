import Lwip.Pcbs.Run

/-!
# What keeps the pcbs apart

No two pcbs are of one connection, and no two servers clash (`Apart`). `tcp_bind` and `tcp_new_port`
alone do not see to this: `tcp_bind` does not look at the remote ends, `tcp_new_port` does not look
at the bound pcbs, `tcp_connect` looks at nothing, and the local address of a connection may still
have to be filled in. So the application has to see to the rest (`Planned`), which a server without
bound clients does (`Served`).
-/

namespace Lwip.Pcbs

open Netif (IpAddr ipAddrIsany)
open Function (update)

/-- The place of a connection. -/
def Place.Conn (pl : Place) : Prop := pl = .on .active ∨ pl = .on .tw

/-- The place of a server. -/
def Place.Server (pl : Place) : Prop := pl = .on .bound ∨ pl = .on .listen

/-- The two connections are the same but for their local addresses. -/
structure SameRemote (x y : Cell) : Prop where
  local_port : x.local_port = y.local_port
  remote_ip : x.remote_ip = y.remote_ip
  remote_port : x.remote_port = y.remote_port

/-- Two pcbs that do not get in each other's way. The local addresses of two connections with the
same ports must not become the same when they are filled in. Where a server has the port of a
connection, that one was accepted, and has its address. -/
structure Distinct (pl : Place) (x : Cell) (pl' : Place) (x' : Cell) : Prop where
  conn : pl.Conn → pl'.Conn → SameRemote x x' → clashes x.local_ip x'.local_ip = false
  server : pl.Server → pl'.Server → x.local_port = x'.local_port →
    clashes x.local_ip x'.local_ip = false
  accepted : pl.Server → pl'.Conn → x.local_port = x'.local_port → x'.local_ip ≠ 0
  accepts : pl.Conn → pl'.Server → x.local_port = x'.local_port → x.local_ip ≠ 0

/-- All pcbs of the table are kept apart, and those in `TIME_WAIT` have their local addresses. -/
structure Apart (t : Table) : Prop where
  timeWait : ∀ y, t.place y = .on .tw → (t.mem y).local_ip ≠ 0
  distinct : ∀ y z, y ≠ z → Distinct (t.place y) (t.mem y) (t.place z) (t.mem z)

/-- Which of two pcbs comes first does not matter for their remote ends. -/
theorem SameRemote.symm {x x' : Cell} (h : SameRemote x x') : SameRemote x' x :=
  ⟨h.1.symm, h.2.symm, h.3.symm⟩

/-- Which of two addresses comes first does not matter for a clash. -/
theorem clashes_comm (a b : IpAddr) : clashes a b = clashes b a := by
  unfold clashes
  rw [Bool.or_comm (ipAddrIsany a), decide_eq_decide.mpr (eq_comm (a := a) (b := b))]

/-- Two addresses do not clash if they are two and none is 0. -/
theorem clashes_eq_false {a b : IpAddr} : clashes a b = false ↔ a ≠ 0 ∧ b ≠ 0 ∧ a ≠ b := by
  unfold clashes ipAddrIsany
  simp only [Bool.or_eq_false_iff, decide_eq_false_iff_not, and_assoc]

section Places

variable {pl pl' : Place} {x x' y : Cell} {ip : IpAddr}

/-- Which of two pcbs comes first does not matter. -/
theorem Distinct.symm (h : Distinct pl x pl' x') : Distinct pl' x' pl x where
  conn hc hc' hs := clashes_comm .. ▸ h.conn hc' hc hs.symm
  server hs hs' hp := clashes_comm .. ▸ h.server hs' hs hp.symm
  accepted hs hc hp := h.accepts hc hs hp.symm
  accepts hc hs hp := h.accepted hs hc hp.symm

/-- A connection is not a server. -/
theorem Place.Conn.not_server (h : pl.Conn) : ¬pl.Server := by
  rcases h with rfl | rfl <;> rintro (h | h) <;> cases h

/-- An address that is there is not filled in. -/
theorem SameEnds.ne_zero (h : SameEnds x y) (hx : x.local_ip ≠ 0) : y.local_ip ≠ 0 :=
  h.local_ip.resolve_right hx ▸ hx

/-- An address that does not clash is there already. -/
theorem clashes_filled (h : y.local_ip = x.local_ip ∨ x.local_ip = 0)
    (hx : clashes x.local_ip ip = false) : clashes y.local_ip ip = false := by
  rwa [h.resolve_right (clashes_eq_false.mp hx).1]

/-- A pcb stays distinct while its ends stay. -/
theorem Distinct.alter {pl'' : Place} (h : Distinct pl x pl' x') (hy : SameEnds x y)
    (hpl : pl''.Conn → pl.Conn) (hpl' : pl''.Server → pl.Server) : Distinct pl'' y pl' x' where
  conn hc hc' hs := clashes_filled hy.local_ip <| h.conn (hpl hc) hc'
    ⟨hy.local_port ▸ hs.local_port, hy.remote_ip ▸ hs.remote_ip, hy.remote_port ▸ hs.remote_port⟩
  server hs hs' hp :=
    clashes_filled hy.local_ip (h.server (hpl' hs) hs' (hy.local_port ▸ hp))
  accepted hs hc hp := h.accepted (hpl' hs) hc (hy.local_port ▸ hp)
  accepts hc hs hp := hy.ne_zero (h.accepts (hpl hc) hs (hy.local_port ▸ hp))

/-- A pcb that is neither a connection nor a server is distinct from the others. -/
theorem Distinct.off (hpl : pl = .free ∨ pl = .off) : Distinct pl x pl' x' := by
  have hc : ¬pl.Conn := by rcases hpl with rfl | rfl <;> rintro (h | h) <;> cases h
  have hs : ¬pl.Server := by rcases hpl with rfl | rfl <;> rintro (h | h) <;> cases h
  exact ⟨fun h => absurd h hc, fun h => absurd h hs, fun h => absurd h hs, fun h => absurd h hc⟩

end Places

/-! ## Each change keeps them apart -/

section Table

variable {t t' : Table} {p : ℕ} {pl : Place} {x : Cell}

/-- A pcb that is distinct from all others can be put into the table. -/
theorem Apart.put (h : Apart t) (ha : pl = .on .tw → x.local_ip ≠ 0)
    (hd : ∀ z, z ≠ p → Distinct pl x (t.place z) (t.mem z)) : Apart (t.put p pl x) := by
  have hself : (t.put p pl x).place p = pl ∧ (t.put p pl x).mem p = x :=
    ⟨Function.update_self .., Function.update_self ..⟩
  have hother : ∀ y, y ≠ p → (t.put p pl x).place y = t.place y ∧ (t.put p pl x).mem y = t.mem y :=
    fun y hy => ⟨Function.update_of_ne hy .., Function.update_of_ne hy ..⟩
  refine ⟨fun y => ?_, fun y z hyz => ?_⟩
  · by_cases hy : y = p
    · rw [hy, hself.1, hself.2]
      exact ha
    · rw [(hother y hy).1, (hother y hy).2]
      exact h.timeWait y
  · by_cases hy : y = p
    · subst hy
      have hz : z ≠ y := fun hzy => hyz hzy.symm
      rw [hself.1, hself.2, (hother z hz).1, (hother z hz).2]
      exact hd z hz
    · rw [(hother y hy).1, (hother y hy).2]
      by_cases hz : z = p
      · subst hz
        rw [hself.1, hself.2]
        exact (hd y hy).symm
      · rw [(hother z hz).1, (hother z hz).2]
        exact h.distinct y z hyz

/-- A cell that is on no list can be put into the table. -/
theorem Apart.put_off (h : Apart t) (hpl : pl = .free ∨ pl = .off) : Apart (t.put p pl x) :=
  h.put (by rcases hpl with rfl | rfl <;> exact Place.noConfusion) fun _ _ => .off hpl

/-- A new connection can be put into the table. -/
theorem Apart.put_conn (h : Apart t)
    (hc : ∀ z, z ≠ p → (t.place z).Conn → SameRemote x (t.mem z) →
      clashes x.local_ip (t.mem z).local_ip = false)
    (hs : ∀ z, z ≠ p → (t.place z).Server → x.local_port = (t.mem z).local_port → x.local_ip ≠ 0) :
    Apart (t.put p (.on .active) x) := by
  have hserver : ¬Place.Server (.on .active) := Place.Conn.not_server (.inl rfl)
  exact h.put (fun h => by cases h) fun z hz => ⟨fun _ => hc z hz, fun h => absurd h hserver,
    fun h => absurd h hserver, fun _ => hs z hz⟩

/-- A new server can be put into the table. -/
theorem Apart.put_server (h : Apart t) (hpl : pl.Server)
    (hc : ∀ z, z ≠ p → (t.place z).Conn → x.local_port = (t.mem z).local_port →
      (t.mem z).local_ip ≠ 0)
    (hs : ∀ z, z ≠ p → (t.place z).Server → x.local_port = (t.mem z).local_port →
      clashes x.local_ip (t.mem z).local_ip = false) :
    Apart (t.put p pl x) :=
  h.put (fun htw => absurd hpl (Place.Conn.not_server (.inr htw))) fun z hz =>
    ⟨fun h => absurd hpl h.not_server, fun _ => hs z hz, fun _ => hc z hz,
      fun h => absurd hpl h.not_server⟩

/-- A move of the stack keeps the pcbs apart. -/
theorem Apart.move (h : Apart t) (hm : Move t t') : Apart t' := by
  cases hm with
  | @alter p x hx =>
    exact h.put (fun htw => hx.ne_zero (h.timeWait p htw)) fun z hz =>
      (h.distinct p z hz.symm).alter hx id id
  | @wait p x hp hx hany =>
    exact h.put (fun _ => hany) fun z hz => (h.distinct p z hz.symm).alter hx (fun _ => .inl hp)
      fun hs => absurd hs (Place.Conn.not_server (.inr rfl))
  | @drop p x => exact h.put_off (.inl rfl)
  | @new p x hp => exact h.put_off (.inr rfl)
  | @accept p lpcb x hp hl hport hip hany hnew =>
    refine h.put_conn (fun z _ hz hsame => ?_) fun _ _ _ _ => hany
    have hne : lpcb ≠ z := by
      rintro rfl
      exact hz.not_server (.inr hl)
    refine clashes_eq_false.mpr ⟨hany, ?_, fun heq => ?_⟩
    · exact (h.distinct lpcb z hne).accepted (.inr hl) hz (hport ▸ hsame.local_port)
    · -- No connection had these addresses and ports.
      exact hnew z hz ⟨heq.symm, hsame.local_port.symm, hsame.remote_ip.symm,
        hsame.remote_port.symm⟩

/-- A sequence of moves keeps the pcbs apart. -/
theorem Apart.moves (h : Apart t) (hm : Relation.ReflTransGen Move t t') : Apart t' := by
  induction hm with
  | refl => exact h
  | tail _ hm ih => exact ih.move hm

/-- `tcp_bind`. -/
theorem Apart.bind (h : Apart t) {ipaddr : IpAddr} {port : BitVec 16}
    (hb : Binds t p ipaddr port t' x) : Apart t' := by
  have hclash : ∀ z i, t.place z = .on i → i ≠ .tw → x.local_port = (t.mem z).local_port →
      clashes x.local_ip (t.mem z).local_ip = false := fun z i hz hi hport => by
    rw [hb.local_ip, clashes_comm]
    exact hb.clash z i hz hi hport.symm
  rw [hb.eq]
  refine h.put_server (.inl rfl) (fun z _ hz hport => ?_) fun z _ hz => ?_
  · rcases hz with hz | hz
    · exact (clashes_eq_false.mp (hclash z _ hz (by decide) hport)).2.1
    · exact h.timeWait z hz
  · rcases hz with hz | hz
    · exact hclash z _ hz (by decide)
    · exact hclash z _ hz (by decide)

/-- `tcp_listen` of a pcb that is bound. -/
theorem Apart.listen (h : Apart t) {lpcb : ℕ} (hl : Listens t p lpcb t' x)
    (hp : t.place p = .on .bound) : Apart t' := by
  have hne : p ≠ lpcb := by
    rintro rfl
    have hnew := hl.new
    rw [hp] at hnew
    cases hnew
  -- The bound pcb is freed before the listening one is put in its place.
  have hfree : Apart (t.put p .free (t.mem p)) := h.put_off (.inl rfl)
  have hother : ∀ z, (t.put p .free (t.mem p)).place z ≠ .free →
      (t.put p .free (t.mem p)).place z = t.place z ∧ (t.put p .free (t.mem p)).mem z = t.mem z ∧
        p ≠ z := fun z hz => by
    have hzp : z ≠ p := by
      rintro rfl
      exact hz (Function.update_self ..)
    exact ⟨Function.update_of_ne hzp .., Function.update_of_ne hzp .., hzp.symm⟩
  have hput : Apart ((t.put p .free (t.mem p)).put lpcb (.on .listen) x) := by
    refine hfree.put_server (.inr rfl) (fun z _ hz => ?_) fun z _ hz => ?_
    · obtain ⟨hplace, hmem, hpz⟩ := hother z (by rcases hz with hz | hz <;> rw [hz] <;> decide)
      rw [hmem, hl.local_port]
      exact (h.distinct p z hpz).accepted (.inl hp) (hplace ▸ hz)
    · obtain ⟨hplace, hmem, hpz⟩ := hother z (by rcases hz with hz | hz <;> rw [hz] <;> decide)
      rw [hmem, hl.local_port, hl.local_ip]
      exact (h.distinct p z hpz).server (.inl hp) (hplace ▸ hz)
  have heq : t' = (t.put p .free (t.mem p)).put lpcb (.on .listen) x := by
    rw [hl.eq]
    unfold Table.put
    dsimp only
    rw [Function.update_comm hne, Function.update_comm hne]
  rwa [heq]

/-- `tcp_connect` of a bound pcb to a remote end that no connection with its port has, or of another
pcb when the next port is not that of a bound one. -/
theorem Apart.connect (h : Apart t) {next : BitVec 16 → Prop} {ipaddr : Option IpAddr}
    {port : BitVec 16} (hc : Connects next t p ipaddr port t' x)
    (hremote : t.place p = .on .bound → ∀ z, (t.place z).Conn → SameRemote x (t.mem z) →
      clashes (t.mem p).local_ip (t.mem z).local_ip = false)
    (hnext : t.place p = .off → ∀ z, t.place z = .on .bound → ¬next (t.mem z).local_port) :
    Apart t' := by
  rw [hc.eq]
  rcases hc.port with ⟨hb, hport⟩ | ⟨hoff, hn, hports⟩
  · refine h.put_conn (fun z _ hz hsame => clashes_filled hc.local_ip (hremote hb z hz hsame))
      fun z hzp hz hpz => ?_
    have hclash := (h.distinct p z hzp.symm).server (.inl hb) hz (hport ▸ hpz)
    exact (clashes_eq_false.mp (clashes_filled hc.local_ip hclash)).1
  · -- The port is a new one.
    refine h.put_conn (fun z _ hz hsame => ?_) fun z _ hz hpz => ?_
    · rcases hz with hz | hz
      · exact absurd hsame.local_port.symm (hports z _ hz (by decide))
      · exact absurd hsame.local_port.symm (hports z _ hz (by decide))
    · rcases hz with hz | hz
      · exact absurd (hpz ▸ hn) (hnext hoff z hz)
      · exact absurd hpz.symm (hports z _ hz (by decide))

end Table

/-! ## Runs that keep them apart -/

/-- The next port is not that of a bound pcb. -/
def Stack.NextFree (c : Config) (s : Stack) : Prop :=
  ∀ y ∈ s.pcbs c .bound, ¬s.IsNext c (s.mem y).local_port

/-- The connections. -/
def Stack.Conn (c : Config) (s : Stack) (y : ℕ) : Prop := y ∈ s.pcbs c .active ∨ y ∈ s.pcbs c .tw

/-- A pcb listens when it is bound. A bound pcb is connected where no connection has its port and
the same remote end, unless the local addresses differ. `tcp_new_port` is called when the next port
is not that of a bound pcb. -/
def Planned (c : Config) (s : Stack) : Event → Prop
  | .bind _ _ port => port = 0 → s.NextFree c
  | .listen p => p ∈ s.pcbs c .bound
  | .connect p _ _ ipaddr port =>
    (p ∈ s.pcbs c .bound → ∀ y, s.Conn c y → (s.mem y).local_port = (s.mem p).local_port →
      ipaddr = some (s.mem y).remote_ip → (s.mem y).remote_port = port →
        clashes (s.mem p).local_ip (s.mem y).local_ip = false) ∧
      (p ∉ s.pcbs c .bound → ipaddr.isSome = true → s.NextFree c)
  | .new _ _ | .write _ _ _ _ _ | .recved _ _ _ _ | .setprio _ _ | .close _ _ _ _ | .abort _ _
  | .input _ _ | .slowtmr _ | .fasttmr _ => True

/-- Servers are bound to ports outside of the range of `tcp_new_port`, and listen when they are
bound. Clients are not bound. -/
def Served (c : Config) (s : Stack) : Event → Prop
  | .bind _ _ port => port ≠ 0 ∧ ¬InRange port
  | .listen p => p ∈ s.pcbs c .bound
  | .connect p _ _ _ _ => p ∉ s.pcbs c .bound
  | .new _ _ | .write _ _ _ _ _ | .recved _ _ _ _ | .setprio _ _ | .close _ _ _ _ | .abort _ _
  | .input _ _ | .slowtmr _ | .fasttmr _ => True

instance (port : BitVec 16) : Decidable (InRange port) := inferInstanceAs (Decidable (_ ∧ _))

instance (c : Config) (s : Stack) : (ev : Event) → Decidable (Served c s ev)
  | .bind _ _ port => inferInstanceAs (Decidable (port ≠ 0 ∧ ¬InRange port))
  | .listen p => inferInstanceAs (Decidable (p ∈ s.pcbs c .bound))
  | .connect p _ _ _ _ => inferInstanceAs (Decidable (p ∉ s.pcbs c .bound))
  | .new _ _ | .write _ _ _ _ _ | .recved _ _ _ _ | .setprio _ _ | .close _ _ _ _ | .abort _ _
  | .input _ _ | .slowtmr _ | .fasttmr _ => .isTrue trivial

/-- The bound pcbs have ports outside of the range. -/
def Outside (t : Table) : Prop := ∀ y, t.place y = .on .bound → ¬InRange (t.mem y).local_port

section Runs

variable {c : Config} {s s' : Stack} {place : ℕ → Place} {ev : Event} {es : List Event}
  {t t' : Table} {mem : ℕ → Cell} {next : BitVec 16 → Prop}

/-- The connections are where the table has them. -/
theorem Keeps.conn_iff (h : Keeps c s place) {p : ℕ} : s.Conn c p ↔ (place p).Conn :=
  or_congr h.mem_pcbs h.mem_pcbs

/-- An event that is planned keeps the pcbs apart. -/
theorem Apart.step (h : Keeps c s place) (ha : Apart (s.table place)) (hs : Planned c s ev)
    (hch : Changes (s.IsNext c) (s.table place) t' ev) : Apart t' := by
  cases hch with
  | moves hm => exact ha.moves hm
  | bind hb => exact ha.bind hb
  | listen hl => exact ha.listen hl (h.mem_pcbs.mp hs)
  | @connect p e src ipaddr port x hc =>
    refine ha.connect hc (fun hb z hz hsame => ?_) fun hoff z hz => ?_
    · have hport : x.local_port = (s.mem p).local_port := by
        rcases hc.port with ⟨-, hport⟩ | ⟨hoff, -⟩
        · exact hport
        · rw [hb] at hoff
          cases hoff
      exact hs.1 (h.mem_pcbs.mpr hb) z (h.conn_iff.mpr hz) (hsame.local_port.symm.trans hport)
        (hc.remote_ip.trans (congrArg some hsame.remote_ip))
        (hsame.remote_port.symm.trans hc.remote_port)
    · refine hs.2 (fun hp => ?_) (by rw [hc.remote_ip]; rfl) z (h.mem_pcbs.mpr hz)
      have hbound : place p = .on .bound := h.mem_pcbs.mp hp
      have hoff : place p = .off := hoff
      rw [hbound] at hoff
      cases hoff

/-- In a run that is planned the pcbs are kept apart. -/
theorem exists_apart
    (hes : Along (stackStep c) (fun s ev => OnUsed c s ev ∧ Planned c s ev) (.init c mem) es)
    (hrun : run (stackStep c) (.init c mem) es = .ok s) :
    ∃ place, Keeps c s place ∧ Apart (s.table place) := by
  have hinit : Apart ((Stack.init c mem).table fun _ => .free) :=
    ⟨fun _ htw => (by cases htw), fun _ _ _ => .off (.inl rfl)⟩
  refine run_invariant (I := fun s => ∃ place, Keeps c s place ∧ Apart (s.table place))
    (fun s ev s' hI hev hs' => ?_) ⟨_, Keeps.init c mem, hinit⟩ hes hrun
  obtain ⟨place, h, ha⟩ := hI
  obtain ⟨place', hk, hch⟩ := h.steps hev.1 hs'
  exact ⟨place', hk, ha.step h hev.2 hch⟩

/-- A cell with a port outside of the range can be put into the table. -/
theorem Outside.put (h : Outside t) {p : ℕ} {pl : Place} {x : Cell}
    (hx : pl = .on .bound → ¬InRange x.local_port) : Outside (t.put p pl x) := by
  intro y hy
  by_cases hyp : y = p
  · subst hyp
    have hmem : (t.put y pl x).mem y = x := Function.update_self ..
    rw [hmem]
    exact hx ((Function.update_self ..).symm.trans hy)
  · have hmem : (t.put p pl x).mem y = t.mem y := Function.update_of_ne hyp ..
    rw [hmem]
    exact h y ((Function.update_of_ne hyp ..).symm.trans hy)

/-- A server binds to a port outside of the range. -/
theorem Outside.step (h : Outside t) (hs : Served c s ev) (hch : Changes next t t' ev) :
    Outside t' := by
  cases hch with
  | moves hm =>
    induction hm with
    | refl => exact h
    | tail _ hm ih =>
      cases hm with
      | alter hx => exact ih.put fun hp => hx.local_port ▸ ih _ hp
      | wait => exact ih.put fun hp => by cases hp
      | drop => exact ih.put fun hp => by cases hp
      | new => exact ih.put fun hp => by cases hp
      | accept => exact ih.put fun hp => by cases hp
  | bind hb =>
    rw [hb.eq]
    exact h.put fun _ => hb.local_port hs.1 ▸ hs.2
  | listen hl =>
    rw [hl.eq]
    exact (h.put fun hp => by cases hp).put fun hp => by cases hp
  | connect hc =>
    rw [hc.eq]
    exact h.put fun hp => by cases hp

/-- Servers without bound clients are planned. -/
theorem planned_of_served
    (hes : Along (stackStep c) (fun s ev => OnUsed c s ev ∧ Served c s ev) (.init c mem) es) :
    Along (stackStep c) (fun s ev => OnUsed c s ev ∧ Planned c s ev) (.init c mem) es := by
  refine run_along (I := fun s => ∃ place, Keeps c s place ∧ Outside (s.table place))
    (fun s ev s' hI hev hs' => ?_) (fun s ev hI hev => ⟨hev.1, ?_⟩)
    ⟨_, Keeps.init c mem, fun _ hp => by cases hp⟩ hes
  · obtain ⟨place, h, ho⟩ := hI
    obtain ⟨place', hk, hch⟩ := h.steps hev.1 hs'
    exact ⟨place', hk, ho.step hev.2 hch⟩
  · obtain ⟨place, h, ho⟩ := hI
    cases ev with
    | bind p ipaddr port => exact fun hport => absurd hport hev.2.1
    | listen p => exact hev.2
    | connect p e src ipaddr port =>
      exact ⟨fun hp => absurd hp hev.2,
        fun _ _ y hy hn => ho y (h.mem_pcbs.mp hy) (h.next_inRange hn)⟩
    | _ => trivial

end Runs

end Lwip.Pcbs
