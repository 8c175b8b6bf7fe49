import Lwip.Dhcp.Client

/-!
# The client does not get stuck

In the states in which the client waits for an answer, the fine timer is to wake it (`Live`). Every
request sets the timer, and the only calls that may set it to 0 are those of an offer without a
server identifier, which `dhcp_recv` takes after it has cleared the timer, and of the 256th try to
renew a lease, where the counter of the tries is 0 again (`Retried`).
-/

namespace Lwip.Dhcp

/-- The client waits for an answer. -/
def State.waiting : State → Bool
  | .SELECTING | .REQUESTING | .CHECKING | .BACKING_OFF | .RENEWING | .REBINDING | .REBOOTING =>
    true
  | .COLD | .BOUND | .OFF => false

/-- A client that waits is woken by the fine timer; it checks an address only if this is compiled
in. -/
structure Client.Live (o : Opts) (c : Client) : Prop where
  timeout : c.dhcp.state.waiting = true → c.dhcp.request_timeout ≠ 0
  arp : c.dhcp.state = .CHECKING → o.DHCP_DOES_ARP_CHECK = true
  tries : c.dhcp.tries < 2^8

/-- A renewal is not tried for the 256th time. -/
def RenewFits (c : Client) : Prop := c.dhcp.state = .RENEWING → c.dhcp.tries ≠ 255

instance (c : Client) : Decidable (RenewFits c) := inferInstanceAs (Decidable (_ → _))

/-- An offer that the client takes names its server. -/
def OfferFits (m : Datagram) (c : Client) : Prop :=
  c.dhcp.state = .SELECTING → m.isReply c = true → ∀ r ∈ m.reply,
    optionByte r DHCP_OPTION_MESSAGE_TYPE = some (some DHCP_OFFER) →
      optionLong r DHCP_OPTION_SERVER_ID ≠ some none

instance (m : Datagram) (c : Client) : Decidable (OfferFits m c) :=
  inferInstanceAs (Decidable (_ → _ → _))

/-- The events after which the client does not get stuck. -/
def Retried (s : Sys) (e : Event) : Prop :=
  ∀ c ∈ s.client,
    match e with
    | .dhcp_recv m _ => OfferFits m c
    | .dhcp_fine_tmr _ _ => c.dhcp.request_timeout = 1 → RenewFits c
    | .dhcp_coarse_tmr _ => c.dhcp.t2_timeout ≠ 1 → c.dhcp.t1_timeout = 1 → RenewFits c
    | _ => True

instance (s : Sys) : (e : Event) → Decidable (Retried s e)
  | .dhcp_recv m _ => inferInstanceAs (Decidable (∀ c ∈ s.client, OfferFits m c))
  | .dhcp_fine_tmr _ _ =>
    inferInstanceAs (Decidable (∀ c ∈ s.client, c.dhcp.request_timeout = 1 → RenewFits c))
  | .dhcp_coarse_tmr _ =>
    inferInstanceAs (Decidable
      (∀ c ∈ s.client, c.dhcp.t2_timeout ≠ 1 → c.dhcp.t1_timeout = 1 → RenewFits c))
  | .dhcp_start _ _ _ | .dhcp_arp_reply _ _ | .dhcp_network_changed _ =>
    inferInstanceAs (Decidable (∀ _ ∈ s.client, True))

/-! ## The timeouts -/

/-- A period has a fine tick. -/
theorem fineTicks_pos {msecs : ℕ} (h : 1 ≤ msecs) (hlt : msecs < 2^16) : fineTicks msecs ≠ 0 := by
  unfold fineTicks u16 DHCP_FINE_TIMER_MSECS
  omega

/-- The first kind of timeouts is in range. -/
theorem shiftMsecs_bounds (tries : ℕ) : 1 ≤ shiftMsecs tries ∧ shiftMsecs tries < 2^16 := by
  unfold shiftMsecs
  split
  · next h =>
    have hone := Nat.one_le_two_pow (n := tries)
    have hle : 2^tries ≤ 2^5 := Nat.pow_le_pow_right (by decide) (by omega)
    omega
  · omega

/-- The second kind of timeouts is in range. -/
theorem linearMsecs_bounds {k tries : ℕ} (hk : 1 ≤ k) (hk' : k ≤ 2000) (ht : tries ≠ 0) :
    1 ≤ linearMsecs k tries ∧ linearMsecs k tries < 2^16 := by
  unfold linearMsecs
  split
  · next h =>
    have hpos := Nat.mul_le_mul (Nat.pos_of_ne_zero ht) hk
    have hle := Nat.mul_le_mul (Nat.le_of_lt h) hk'
    omega
  · omega

section Requests

variable {o : Opts} {alloc : Bool} {c : Client}

/-- The state is set. -/
theorem dhcpSetState_state (d : Dhcp) (state : State) : (dhcpSetState d state).state = state := by
  unfold dhcpSetState
  split
  · rfl
  · next h => exact (not_not.mp h).symm

/-- The tries after a state is entered, or kept. -/
theorem dhcpSetState_tries (d : Dhcp) (state : State) :
    (dhcpSetState d state).tries = if state = d.state then d.tries else 0 := by
  unfold dhcpSetState
  split
  · rfl
  · next h => rw [if_pos (not_not.mp h)]

/-- The number of tries is an octet. -/
theorem dhcpSetState_tries_lt {d : Dhcp} (state : State) (h : d.tries < 2^8) :
    (dhcpSetState d state).tries < 2^8 := by
  rw [dhcpSetState_tries]
  split
  · exact h
  · decide

/-- A request leaves the state, counts a try, and sets the timeout. -/
theorem request_spec (msecs : ℕ → ℕ) (alloc : Bool) (c : Client) :
    (request msecs alloc c).1.dhcp.state = c.dhcp.state ∧
      (request msecs alloc c).1.dhcp.tries = u8 (c.dhcp.tries + 1) ∧
      (request msecs alloc c).1.dhcp.request_timeout =
        fineTicks (u16 (msecs (u8 (c.dhcp.tries + 1)))) := by
  unfold request dhcpCreateRequest
  split <;> exact ⟨rfl, rfl, rfl⟩

/-- A value that is stored is an octet. -/
theorem u8_lt (n : ℕ) : u8 n < 2^8 := Nat.mod_lt _ (by decide)

/-- A request leads to its state, with the timer set. -/
theorem requestIn_spec (state : State) (msecs : ℕ → ℕ) (alloc : Bool) (c : Client) :
    (requestIn state msecs alloc c).1.dhcp.state = state ∧
      (requestIn state msecs alloc c).1.dhcp.tries < 2^8 ∧
      (requestIn state msecs alloc c).1.dhcp.request_timeout =
        fineTicks (u16 (msecs (u8 ((if state = c.dhcp.state then c.dhcp.tries else 0) + 1)))) := by
  unfold requestIn
  obtain ⟨hst, htries, ht⟩ :=
    request_spec msecs alloc { c with dhcp := dhcpSetState c.dhcp state }
  refine ⟨hst.trans (dhcpSetState_state _ _), ?_, ht.trans (by rw [dhcpSetState_tries])⟩
  rw [htries]
  exact u8_lt _

/-- A request is answered or the fine timer wakes the client. -/
theorem requestIn_live {state : State} {msecs : ℕ → ℕ} (hst : state ≠ .CHECKING)
    (h : 1 ≤ msecs (u8 ((if state = c.dhcp.state then c.dhcp.tries else 0) + 1)) ∧
      msecs (u8 ((if state = c.dhcp.state then c.dhcp.tries else 0) + 1)) < 2^16) :
    (requestIn state msecs alloc c).1.Live o := by
  obtain ⟨hstate, htries, ht⟩ := requestIn_spec state msecs alloc c
  refine ⟨fun _ => ?_, fun hc => absurd (hstate.symm.trans hc) hst, htries⟩
  rw [ht]
  have hu16 : ∀ n, n < 2^16 → u16 n = n := fun n hn => Nat.mod_eq_of_lt hn
  rw [hu16 _ h.2]
  exact fineTicks_pos h.1 h.2

/-- `dhcp_select` sets the timer. -/
theorem dhcpSelect_live : (dhcpSelect alloc c).1.Live o := requestIn_live (by decide)
    (shiftMsecs_bounds _)

/-- `dhcp_discover` sets the timer. -/
theorem dhcpDiscover_live : (dhcpDiscover alloc c).1.Live o :=
  requestIn_live (by decide) (shiftMsecs_bounds _)

/-- `dhcp_decline` sets the timer. -/
theorem dhcpDecline_live : (dhcpDecline alloc c).1.Live o := requestIn_live (by decide) (by decide)

/-- `dhcp_renew` sets the timer, if its counter has not wrapped. -/
theorem dhcpRenew_live (h : RenewFits c) (ht : c.dhcp.tries < 2^8) :
    (dhcpRenew alloc c).1.Live o := by
  apply requestIn_live (by decide)
  apply linearMsecs_bounds (by decide) (by decide)
  unfold u8
  split
  · next hst =>
    have := h hst.symm
    omega
  · omega

/-- A state that is entered, or one of a few tries. -/
theorem linear_live {state : State} (hst : state ≠ .CHECKING)
    (h : c.dhcp.state = state → c.dhcp.tries ≤ 8) :
    (requestIn state (linearMsecs 1000) alloc c).1.Live o := by
  apply requestIn_live hst
  apply linearMsecs_bounds (by decide) (by decide)
  unfold u8
  split
  · next heq =>
    have := h heq.symm
    omega
  · omega

/-- The check of an address sets the timer, if there is one. -/
theorem dhcpCheck_live (h : o.DHCP_DOES_ARP_CHECK = true) : (dhcpCheck c).Live o :=
  ⟨fun _ => (by decide : fineTicks 500 ≠ 0), fun _ => h, u8_lt _⟩

/-- A client that is bound does not wait. -/
theorem dhcpBind_live (htries : c.dhcp.tries < 2^8) : (dhcpBind c).Live o := by
  have hst : (dhcpBind c).dhcp.state = .BOUND := dhcpSetState_state _ _
  refine ⟨fun h => ?_, fun h => ?_, ?_⟩
  · rw [hst] at h
    cases h
  · rw [hst] at h
    cases h
  · exact dhcpSetState_tries_lt .BOUND htries

end Requests

section Events

variable {o : Opts} {alloc alloc' : Bool} {c : Client}

/-- The release of a lease, and a new discovery. -/
theorem dhcpTimeout_live (hlive : c.dhcp.state = .CHECKING → o.DHCP_DOES_ARP_CHECK = true)
    (htries : c.dhcp.tries < 2^8) (h : RenewFits c) : (dhcpTimeout o alloc alloc' c).Live o := by
  unfold dhcpTimeout
  split
  · exact dhcpDiscover_live
  · exact dhcpDiscover_live
  · split
    · exact dhcpSelect_live
    · exact dhcpDiscover_live
  · next hst =>
    rw [hlive hst]
    split
    · next hno => cases hno
    split
    · exact dhcpCheck_live (hlive hst)
    · exact dhcpBind_live htries
  · exact dhcpRenew_live h htries
  · split
    · next hle => exact linear_live (by decide) fun _ => hle
    · exact dhcpDiscover_live
  · split
    · next hlt => exact linear_live (by decide) fun _ => Nat.le_trans (Nat.le_of_lt hlt) (by decide)
    · exact dhcpDiscover_live
  -- In the other states the client does not wait.
  all_goals
    next hst =>
    refine ⟨fun hw => ?_, fun hc => ?_, htries⟩
    · rw [hst] at hw
      cases hw
    · rw [hst] at hc
      cases hc

/-- A fine tick leaves the timer set. -/
theorem dhcpFineTmr_live (hlive : c.Live o) (h : c.dhcp.request_timeout = 1 → RenewFits c) :
    (dhcpFineTmr o alloc alloc' c).Live o := by
  unfold dhcpFineTmr
  split
  · next hgt =>
    refine ⟨fun _ => ?_, hlive.arp, hlive.tries⟩
    show c.dhcp.request_timeout - 1 ≠ 0
    omega
  split
  · next hone => exact dhcpTimeout_live hlive.arp hlive.tries (h hone)
  · exact hlive

/-- Only the timers of the lease change. -/
theorem Client.Live.timers (hlive : c.Live o) (t₁ t₂ : ℕ) (bound : Option (Ack × ℕ)) :
    Client.Live o { c with dhcp := { c.dhcp with t1_timeout := t₁, t2_timeout := t₂, bound } } :=
  ⟨hlive.timeout, hlive.arp, hlive.tries⟩

/-- The lease timers do not matter for the counter of the tries. -/
theorem RenewFits.timers (h : RenewFits c) (t₁ t₂ : ℕ) (bound : Option (Ack × ℕ)) :
    RenewFits { c with dhcp := { c.dhcp with t1_timeout := t₁, t2_timeout := t₂, bound } } := h

/-- A coarse tick leaves the timer set. -/
theorem dhcpCoarseTmr_live (hlive : c.Live o)
    (h : c.dhcp.t2_timeout ≠ 1 → c.dhcp.t1_timeout = 1 → RenewFits c) :
    (dhcpCoarseTmr alloc c).1.Live o := by
  unfold dhcpCoarseTmr
  dsimp only
  split
  · unfold dhcpT2Timeout
    split
    · next hst =>
      -- The state is not `REBINDING`, so it is entered.
      have hne : c.dhcp.state ≠ .REBINDING := fun hreb => by
        rw [show c.dhcp.state = .REBINDING from hreb] at hst
        cases hst
      exact linear_live (by decide) fun hreb => absurd hreb hne
    · exact hlive.timers _ _ _
  · next hne =>
    split
    · next hone =>
      unfold dhcpT1Timeout
      split
      · exact dhcpRenew_live ((h hne hone).timers _ _ _) hlive.tries
      · exact hlive.timers _ _ _
    · exact hlive.timers _ _ _

/-- An ARP reply leaves the timer set. -/
theorem dhcpArpReply_live {addr : BitVec 32} (hlive : c.Live o) :
    (dhcpArpReply o addr alloc c).Live o := by
  unfold dhcpArpReply
  split
  · exact dhcpDecline_live
  · exact hlive

/-- A network change leaves the timer set. -/
theorem dhcpNetworkChanged_live (hlive : c.Live o) : (dhcpNetworkChanged alloc c).Live o := by
  unfold dhcpNetworkChanged
  split
  iterate 4
    · refine linear_live (by decide) fun _ => ?_
      show 0 ≤ 8
      decide
  · exact hlive
  · exact dhcpDiscover_live

/-- An ACK leaves the timer set. -/
theorem dhcpRecvAck_live {r : Reply} {c' : Client} (hlive : c.Live o)
    (h : dhcpRecvAck o r c = .ok c') : c'.Live o := by
  unfold dhcpRecvAck at h
  split at h
  · obtain ⟨ack, -, h⟩ := bind_eq_ok.mp h
    dsimp only at h
    split at h
    · next harp =>
      cases h
      exact dhcpCheck_live harp
    · cases h
      exact dhcpBind_live hlive.tries
  split at h
  · cases h
    exact dhcpBind_live hlive.tries
  · cases h
    exact hlive

/-- A reply leaves the timer set, if an offer has a server. -/
theorem dhcpRecv_live {m : Datagram} {c' : Client} (hlive : c.Live o) (hoffer : OfferFits m c)
    (h : dhcpRecv o m alloc c = .ok c') : c'.Live o := by
  obtain rfl | ⟨-, r, -, -, h⟩ | rfl | ⟨hreply, hst, r, hr, server, yiaddr, htype, hserver, rfl⟩ :=
    dhcpRecv_cases h
  · exact hlive
  · exact dhcpRecvAck_live hlive h
  · exact dhcpDiscover_live
  · unfold dhcpHandleOffer
    cases server with
    -- The timer would be cleared, and nothing would set it again.
    | none => exact absurd hserver (hoffer hst hreply r hr htype)
    | some server => exact dhcpSelect_live

end Events

/-- The invariant of an interface. -/
def Sys.Live (o : Opts) (s : Sys) : Prop := ∀ c ∈ s.client, c.Live o

/-- In the states in which the client waits, the fine timer runs. -/
def Wakes (s : Sys) : Prop := ∀ c ∈ s.client, c.dhcp.state.waiting = true →
    c.dhcp.request_timeout ≠ 0

instance (s : Sys) : Decidable (Wakes s) := inferInstanceAs (Decidable (∀ _ ∈ _, _ → _))

/-- Every event leaves the timer set. -/
theorem step_live {o : Opts} {s s' : Sys} {e : Event} (h : s.Live o) (hfits : Retried s e)
    (hs : step o s e = .ok s') : s'.Live o := by
  obtain ⟨clientAlloc, pcb, alloc, rfl⟩ | rfl | ⟨c, c', hc, hc', rfl⟩ := step_cases hs
  · intro c hc
    obtain hc | rfl := dhcpStart_client hc
    · exact h c hc
    · exact dhcpDiscover_live
  · exact h
  · have hlive := h c hc
    have hfits := hfits c hc
    intro c'' hc''
    cases hc''
    cases e with
    | dhcp_start clientAlloc pcb alloc =>
      cases hc'
      exact hlive
    | dhcp_recv m alloc => exact dhcpRecv_live hlive hfits hc'
    | dhcp_fine_tmr alloc alloc' =>
      cases hc'
      exact dhcpFineTmr_live hlive hfits
    | dhcp_coarse_tmr alloc =>
      cases hc'
      exact dhcpCoarseTmr_live hlive hfits
    | dhcp_arp_reply addr alloc =>
      cases hc'
      exact dhcpArpReply_live hlive
    | dhcp_network_changed alloc =>
      cases hc'
      exact dhcpNetworkChanged_live hlive

/-- In every run without an offer that lacks its server and without a 256th try to renew, the client
that waits is woken. -/
theorem client_wakes (o : Opts) (n : Netif) (es : List Event)
    (h : Along (step o) Retried { netif := n } es) : Always (step o) Wakes { netif := n } es := by
  have hinit : Sys.Live o { netif := n } := fun c hc => by cases hc
  rintro es' es'' s rfl hr c hc
  exact (run_invariant (fun s e s' hs hfits hstep => step_live hs hfits hstep)
    hinit h.left hr c hc).timeout

/-- The interface of the examples. -/
def testNetif : Netif where
  hwaddr := [2, 0, 0, 0, 0, 1]

/-- A reply of this type to the request with number `xid`. -/
def testReply (xid type : UInt8) (yiaddr options : Mem) : Datagram where
  p := [2, 1, 6, 0, 0xab, 0xcd, 0, xid] ++ List.replicate 8 0 ++ yiaddr ++ List.replicate 8 0 ++
    testNetif.hwaddr ++ List.replicate (msgLen - 28 - testNetif.hwaddr.length) 0 ++
    [53, 1, type] ++ options ++ [255]
  len := msgLen

/-- The client discovers, takes an offer, and asks again. -/
def offerRun : List Event :=
  [.dhcp_start true true true,
    .dhcp_recv (testReply 1 DHCP_OFFER [10, 0, 0, 2] [54, 4, 10, 0, 0, 1]) true,
    .dhcp_fine_tmr true true, .dhcp_fine_tmr true true, .dhcp_fine_tmr true true,
    .dhcp_fine_tmr true true]

/-- The client of the example is woken. -/
theorem client_wakes_offerRun : Always (step {}) Wakes { netif := testNetif } offerRun :=
  client_wakes {} testNetif offerRun (by decide +kernel)

/-- An offer without a server leaves the client in `SELECTING` with its timer off. -/
theorem offer_without_server_stalls :
    ¬ Always (step {}) Wakes { netif := testNetif }
      [.dhcp_start true true true, .dhcp_recv (testReply 1 DHCP_OFFER [10, 0, 0, 2] []) true] := by
  decide +kernel

end Lwip.Dhcp
