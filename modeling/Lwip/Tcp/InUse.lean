import Lwip.Tcp.SendQueue
import Lwip.Tcp.StayOpen

/-!
# Connections in use

With the options of this build one pbuf may be queued. A connection in which the application may
write keeps its send queues in order and counted whatever happens to it, stray acknowledgement
numbers aside. An acknowledgement that takes bytes off the queues leaves `acked` above zero, so that
the application hears of it.
-/

namespace Lwip.Tcp


/-- A connection in use, with its queues in order and counted. -/
structure InUse (pcb : TcpPcb) : Prop where
  writable : Writable pcb.state
  snd : Snd Tx.Strong pcb
  counted : Counted .shipped pcb

section InUse

variable {pcb p : TcpPcb}

/-- The queues of a connection in use are in order. -/
theorem InUse.sendInv (h : InUse pcb) : SendInv pcb := by
  obtain ⟨base, t, ht, hst⟩ := h.snd
  exact ht.sendInv hst

/-- Every event of the stack that leaves the connection open leaves it in use. -/
theorem InUse.connStep {ev : ConnEvent} {c : Conn} (h : InUse pcb)
    (hopen : LeavesOpen .shipped (.active pcb) ev) (hack : NotStray (.active pcb) ev)
    (hs : connStep .shipped (.active pcb) ev = .ok c) : ∃ p, c = .active p ∧ InUse p := by
  obtain ⟨p, rfl, hw⟩ := connStep_writable h.writable hopen hs
  have hcounted : (Conn.active pcb).Counted .shipped := h.counted
  -- At most one segment is queued, so a retransmission timeout comes in order.
  have hrto : RtoInOrder .shipped (.active pcb) ev := hcounted.rtoInOrder rfl ev
  have hsnd : (Conn.active p).Snd Tx.Strong :=
    connStep_snd (c := .active pcb) strong_stable h.snd (hrto.keeps hack) hs
  have hp : (Conn.active p).Counted .shipped :=
    connStep_counted (c := .active pcb) (by decide) h.snd hcounted hs
  exact ⟨p, rfl, hw, hsnd, hp⟩

/-- A failed `tcp_enqueue` leaves the connection in use. -/
theorem InUse.memErr (h : InUse pcb) : InUse (tcpMemErr pcb) where
  writable := h.writable
  snd := by
    have hsame : SameSnd pcb (tcpMemErr pcb) :=
      ⟨rfl, rfl, rfl, rfl, rfl, rfl, rfl, rfl, rfl, rfl, rfl⟩
    exact hsame.follows.snd strong_stable h.snd
  counted := h.counted.moved (.of_eq rfl rfl rfl rfl rfl rfl)

/-- `tcp_abort` of a connection in use does not fail. -/
theorem InUse.abort_ok (h : InUse pcb) (ticks : BitVec 32) (ack : Bool) :
    ∃ r, tcpAbort ticks ack pcb = .ok r := by
  have hremove : ∃ sent, tcpPcbRemove false ticks ack pcb = .ok sent := by
    have hpurge : (tcpPcbPurge pcb).unsent = [] := by
      unfold tcpPcbPurge
      rcases h.writable with hs | hs <;> rw [hs]
    unfold tcpPcbRemove
    dsimp only
    split
    · have hrst : ∀ x ∈ (tcpPcbPurge pcb).unsent, x.flags.rst = false := by
        intro x hx
        rw [hpurge] at hx
        cases hx
      obtain ⟨r, hr⟩ : ∃ r, tcpOutputUnlessInput false ticks ack { tcpPcbPurge pcb with
          flags := { (tcpPcbPurge pcb).flags with ack_now := true } } = .ok r :=
        tcpOutputUnlessInput_ok hrst
      exact ⟨r.2, bind_eq_ok.mpr ⟨r, hr, rfl⟩⟩
    · exact ⟨[], rfl⟩
  obtain ⟨sent, hr⟩ := hremove
  exact ⟨_, bind_eq_ok.mpr ⟨sent, hr, rfl⟩⟩

end InUse

end Lwip.Tcp
