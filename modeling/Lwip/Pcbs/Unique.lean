import Lwip.Pcbs.Demux

/-!
# One pcb for a connection

The addresses and ports of a connection belong to one pcb, those of a listener as well, and a new
port is one that no pcb has, in every run in which the application keeps to what `tcp_bind`,
`tcp_connect` and `tcp_new_port` do not check (`Planned`).
-/

namespace Lwip.Pcbs

open Netif (NetIf)

/-- No two connections have the same addresses and ports, and no two listening pcbs match the same
address and port. So a segment finds the pcb that it is for, whatever the order of the lists. -/
structure Stack.Unique (c : Config) (s : Stack) : Prop where
  conn : ∀ p q, s.Conn c p → s.Conn c q → SameTuple (s.mem p) (s.mem q) → p = q
  listen : ∀ p ∈ s.pcbs c .listen, ∀ q ∈ s.pcbs c .listen,
    (s.mem p).local_port = (s.mem q).local_port →
      clashes (s.mem p).local_ip (s.mem q).local_ip = true → p = q
  selected : ∀ (inp : NetIf) (g : Segment) (p : ℕ),
    s.selected c inp g = some p ↔ g.dropped inp = false ∧ IsFor c s g p

/-- A port of the range that no pcb on the four lists has. -/
def Stack.Unused (c : Config) (s : Stack) (port : BitVec 16) : Prop :=
  InRange port ∧ ∀ i, ∀ x ∈ s.pcbs c i, (s.mem x).local_port ≠ port

/-- The event calls `tcp_new_port`. -/
def Stack.AsksPort (s : Stack) : Event → Prop
  | .bind _ _ port => port = 0
  | .connect p _ _ ipaddr _ => ipaddr.isSome = true ∧ (s.mem p).local_port = 0
  | _ => False

section Unique

variable {c : Config} {s : Stack} {place : ℕ → Place} {ev : Event}

/-- The pcbs that are kept apart are one for each connection. -/
theorem Keeps.unique (h : Keeps c s place) (ha : Apart (s.table place)) : s.Unique c where
  conn p q hp hq hsame := by
    by_contra hne
    have hclash := (ha.distinct p q hne).conn (h.conn_iff.mp hp) (h.conn_iff.mp hq)
      ⟨hsame.2.1, hsame.2.2.1, hsame.2.2.2⟩
    exact (clashes_eq_false.mp hclash).2.2 hsame.1
  listen p hp q hq hport hclash := by
    by_contra hne
    have hno := (ha.distinct p q hne).server (.inr (h.mem_pcbs.mp hp)) (.inr (h.mem_pcbs.mp hq))
      hport
    exact Bool.false_ne_true (hno.symm.trans hclash)
  selected _ _ _ := h.selected_iff ha

/-- Where `tcp_new_port` is called as planned, the next port is not that of a bound pcb. -/
theorem Keeps.nextFree (h : Keeps c s place) (hev : Planned c s ev) (hask : s.AsksPort ev) :
    s.NextFree c := by
  cases ev with
  | bind p ipaddr port => exact hev hask
  | connect p e src ipaddr port =>
    refine hev.2 (fun hp => ?_) hask.1
    have hfit := h.fits p
    rw [h.mem_pcbs.mp hp] at hfit
    exact hfit.2 hask.2
  | _ => exact hask.elim

/-- `tcp_new_port` finds a port that no pcb has, if there is one. -/
theorem Keeps.newPort (h : Keeps c s place) (hfree : s.NextFree c) (hex : ∃ port, s.Unused c port) :
    ∃ port s', tcpNewPort c s = .ok (port, s') ∧ s.Unused c port := by
  unfold tcpNewPort
  cases hn : newPortFrom c s 0x7000 s.port with
  | none =>
    obtain ⟨port, hr, hunused⟩ := hex
    obtain ⟨x, i, -, hx, hport⟩ := Stack.taken_iff.mp (h.taken_of_none hn hr)
    exact absurd hport (hunused i x hx)
  | some port =>
    have hnext : s.IsNext c port := newPortFrom_eq_some hn
    refine ⟨port, _, rfl, h.next_inRange hnext, fun i x hx hport => ?_⟩
    by_cases hi : i = .bound
    · subst hi
      exact hfree x hx (hport ▸ hnext)
    · obtain ⟨-, -, huntaken, -⟩ := hnext
      exact Bool.false_ne_true
        (huntaken.symm.trans (Stack.taken_iff.mpr ⟨x, i, hi, hx, hport⟩))

end Unique

/-- In every run that is planned there is one pcb for a connection and for a listener, and the next
event gets a port that no pcb has, if there is one. -/
theorem pcbs_unique {c : Config} {s : Stack} {mem : ℕ → Cell} {es : List Event}
    (hes : Along (stackStep c) (fun s ev => OnUsed c s ev ∧ Planned c s ev) (.init c mem) es)
    (hrun : run (stackStep c) (.init c mem) es = .ok s) :
    s.Unique c ∧ ∀ ev, Planned c s ev → s.AsksPort ev → (∃ port, s.Unused c port) →
      ∃ port s', tcpNewPort c s = .ok (port, s') ∧ s.Unused c port := by
  obtain ⟨place, h, ha⟩ := exists_apart hes hrun
  exact ⟨h.unique ha, fun _ hev hask => h.newPort (h.nextFree hev hask)⟩

/-- A server with a connection, and a client that goes to another host. -/
def clientRun : List Event :=
  [.new (true, true) 100, .bind 0 0 80, .listen 0, .new (true, true) 200,
    .connect 0 {} (some 7) (some 5) 80,
    toPort80 1000 { seqno := 5, len := 0, flags := { syn := true } } 0]

/-- The server and the client keep to the rules. -/
theorem pcbs_unique_clientRun : ∃ s, run (stackStep smallConfig) smallStack clientRun = .ok s ∧
    s.Unique smallConfig ∧ s.pcbs smallConfig .active = [1, 0] := by
  obtain ⟨s, hrun, hactive⟩ : ∃ s, run (stackStep smallConfig) smallStack clientRun = .ok s ∧
      s.pcbs smallConfig .active = [1, 0] := exists_of_any (by decide +kernel)
  exact ⟨s, hrun, (pcbs_unique (planned_of_served (by decide +kernel)) hrun).1, hactive⟩

/-- A pcb is bound to the port that `tcp_new_port` gives to the next one, and both are connected to
one port of another host: there are two pcbs with one tuple. -/
theorem two_of_one_connection : ∃ s, run (stackStep smallConfig) smallStack
      [.new (true, true) 100, .bind 0 0 4097, .new (true, true) 200,
        .connect 1 {} (some 7) (some 5) 80, .connect 0 {} (some 7) (some 5) 80] = .ok s ∧
    ¬s.Unique smallConfig := by
  obtain ⟨s, hrun, hp, hq, hsame⟩ : ∃ s, run (stackStep smallConfig) smallStack
      [.new (true, true) 100, .bind 0 0 4097, .new (true, true) 200,
        .connect 1 {} (some 7) (some 5) 80, .connect 0 {} (some 7) (some 5) 80] = .ok s ∧
        0 ∈ s.pcbs smallConfig .active ∧ 1 ∈ s.pcbs smallConfig .active ∧
          SameTuple (s.mem 0) (s.mem 1) := exists_of_any (by decide +kernel)
  exact ⟨s, hrun, fun hu => Nat.zero_ne_one (hu.conn 0 1 (.inl hp) (.inl hq) hsame)⟩

end Lwip.Pcbs
