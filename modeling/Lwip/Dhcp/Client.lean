import Lwip.Arch
import Lwip.Dhcp.Options

/-!
# The DHCP client

`dhcp.c` for one interface. Addresses are in host order. The requests that the client sends do not
touch its state, and their contents are left out; so are the broadcast address and the DNS servers
of a lease, which are stored and not read.

Not in the source are `acked`, `bound` and the result of `dhcpCoarseTmr`: the reply that was
accepted last, the one for which the client was bound and the number of coarse ticks since, until
discovery starts again, and the timeout that the tick called.
-/

namespace Lwip.Dhcp

/-- The options of the module; `DHCP_DOES_ARP_CHECK` is on with `LWIP_ARP`. -/
structure Opts where
  DHCP_DOES_ARP_CHECK : Bool := true

/-- Why the program stops: an assertion, or a read past the end of its memory. -/
inductive Abort where
  | assertion
  | outOfMemory
  deriving DecidableEq, Repr

inductive Err where
  | OK | MEM
  deriving DecidableEq, Repr

/-- `dhcp->state`; it is 0 before the first discovery. -/
inductive State where
  | COLD | REQUESTING | REBOOTING | REBINDING | RENEWING | SELECTING | CHECKING | BOUND
  | BACKING_OFF | OFF
  deriving DecidableEq, Repr

/-- `DHCP_COARSE_TIMER_SECS` and `DHCP_FINE_TIMER_MSECS`. -/
def DHCP_COARSE_TIMER_SECS : ℕ := 60
def DHCP_FINE_TIMER_MSECS : ℕ := 500

/-- `DHCP_OFFER`, `DHCP_ACK` and `DHCP_NAK`. -/
def DHCP_OFFER : UInt8 := 2
def DHCP_ACK : UInt8 := 5
def DHCP_NAK : UInt8 := 6

/-- A period that does not end. -/
def infinite : ℕ := 0xffffffff

/-- What `dhcp_handle_ack` reads in a reply: `yiaddr`, and the options that are there. -/
structure Ack where
  yiaddr : BitVec 32
  lease : Option ℕ := none
  t1 : Option ℕ := none
  t2 : Option ℕ := none
  mask : Option ℕ := none
  router : Option ℕ := none
  deriving DecidableEq, Repr

set_option linter.dupNamespace false in
/-- `struct dhcp`: `tries` is a `u8_t`, the timeouts are `u16_t`, and the periods are `u32_t`. -/
structure Dhcp where
  xid : BitVec 32 := 0
  state : State := .COLD
  tries : ℕ := 0
  request_timeout : ℕ := 0
  t1_timeout : ℕ := 0
  t2_timeout : ℕ := 0
  server_ip_addr : BitVec 32 := 0
  offered_ip_addr : BitVec 32 := 0
  offered_sn_mask : BitVec 32 := 0
  offered_gw_addr : BitVec 32 := 0
  offered_t0_lease : ℕ := 0
  offered_t1_renew : ℕ := 0
  offered_t2_rebind : ℕ := 0
  acked : Option Ack := none
  bound : Option (Ack × ℕ) := none
  deriving DecidableEq, Repr

/-- What the client reads and writes of its interface. -/
structure Netif where
  hwaddr : List UInt8 := []
  mtu : BitVec 16 := 1500
  up : Bool := false
  ip_addr : BitVec 32 := 0
  netmask : BitVec 32 := 0
  gw : BitVec 32 := 0
  deriving DecidableEq, Repr

/-- An interface with its client, and the static `xid` of `dhcp_create_request`. -/
structure Client where
  netif : Netif := {}
  xid : BitVec 32 := 0xabcd0000
  dhcp : Dhcp := {}
  deriving DecidableEq, Repr

/-! ## Requests -/

/-- `dhcp_set_state`. -/
def dhcpSetState (d : Dhcp) (new_state : State) : Dhcp :=
  if new_state ≠ d.state then { d with state := new_state, tries := 0 } else d

/-- `dhcp_create_request`, with the outcome of its allocation. -/
def dhcpCreateRequest (c : Client) (alloc : Bool) : Client × Err :=
  if !alloc then (c, .MEM)
  else
    let xid := if c.dhcp.tries = 0 then c.xid + 1 else c.xid
    ({ c with xid, dhcp := { c.dhcp with xid } }, .OK)

/-- The number of fine ticks in `msecs`. -/
def fineTicks (msecs : ℕ) : ℕ := u16 ((msecs + DHCP_FINE_TIMER_MSECS - 1) / DHCP_FINE_TIMER_MSECS)

/-- A request is sent, another try is counted, and the timeout is set to `msecs` of the tries. -/
def request (msecs : ℕ → ℕ) (alloc : Bool) (c : Client) : Client × Err :=
  let r := dhcpCreateRequest c alloc
  let tries := u8 (r.1.dhcp.tries + 1)
  ({ r.1 with dhcp := { r.1.dhcp with tries, request_timeout := fineTicks (u16 (msecs tries)) } },
    r.2)

/-- A request that is sent in this state. -/
def requestIn (state : State) (msecs : ℕ → ℕ) (alloc : Bool) (c : Client) : Client × Err :=
  request msecs alloc { c with dhcp := dhcpSetState c.dhcp state }

/-- `(tries < 6 ? 1 << tries : 60) * 1000`. -/
def shiftMsecs (tries : ℕ) : ℕ := (if tries < 6 then 2^tries else 60) * 1000

/-- `tries < 10 ? tries * k : 10 * k`. -/
def linearMsecs (k tries : ℕ) : ℕ := if tries < 10 then tries * k else 10 * k

/-- `dhcp_select`. -/
def dhcpSelect (alloc : Bool) (c : Client) :
    Client × Err := requestIn .REQUESTING shiftMsecs alloc c

/-- `dhcp_discover`. -/
def dhcpDiscover (alloc : Bool) (c : Client) : Client × Err :=
  requestIn .SELECTING shiftMsecs alloc { c with
    dhcp := { c.dhcp with offered_ip_addr := 0, bound := none } }

/-- `dhcp_renew`. -/
def dhcpRenew (alloc : Bool) (c : Client) :
    Client × Err := requestIn .RENEWING (linearMsecs 2000) alloc c

/-- `dhcp_rebind`. -/
def dhcpRebind (alloc : Bool) (c : Client) :
    Client × Err := requestIn .REBINDING (linearMsecs 1000) alloc c

/-- `dhcp_reboot`. -/
def dhcpReboot (alloc : Bool) (c : Client) :
    Client × Err := requestIn .REBOOTING (linearMsecs 1000) alloc c

/-- `dhcp_decline`. -/
def dhcpDecline (alloc : Bool) (c : Client) : Client × Err :=
  requestIn .BACKING_OFF (fun _ => 10 * 1000) alloc c

/-- The interface goes down, and loses its address. -/
def Netif.clear (n : Netif) : Netif := { n with up := false, ip_addr := 0, gw := 0, netmask := 0 }

/-- `dhcp_release`. -/
def dhcpRelease (alloc : Bool) (c : Client) : Client × Err :=
  let d := { dhcpSetState c.dhcp .OFF with
    server_ip_addr := 0, offered_ip_addr := 0, offered_sn_mask := 0, offered_gw_addr := 0
    offered_t0_lease := 0, offered_t1_renew := 0, offered_t2_rebind := 0, bound := none }
  let r := request (linearMsecs 1000) alloc { c with dhcp := d }
  ({ r.1 with netif := r.1.netif.clear }, r.2)

/-- `dhcp_check`; the ARP query leaves the client alone. -/
def dhcpCheck (c : Client) : Client :=
  let d := dhcpSetState c.dhcp .CHECKING
  { c with dhcp := { d with tries := u8 (d.tries + 1), request_timeout := fineTicks 500 } }

/-! ## Binding -/

/-- A period in coarse ticks, as `dhcp_bind` rounds it. -/
def coarseTicks (period : ℕ) : ℕ :=
  let timeout := (period + DHCP_COARSE_TIMER_SECS / 2) % 2^32 / DHCP_COARSE_TIMER_SECS
  let timeout := if timeout > 0xffff then 0xffff else timeout
  if timeout = 0 then 1 else timeout

/-- `ip4_addr1`. -/
def ip4Addr1 (addr : BitVec 32) : ℕ := addr.toNat / 2^24

/-- The mask of a network class, by the first octet of an address. -/
def classMask (first_octet : ℕ) : BitVec 32 :=
  if first_octet ≤ 127 then 0xff000000 else if first_octet ≥ 192 then 0xffffff00 else 0xffff0000

/-- `dhcp_bind`. -/
def dhcpBind (c : Client) : Client :=
  let d := c.dhcp
  let t1_timeout := if d.offered_t1_renew ≠ infinite then coarseTicks d.offered_t1_renew
    else d.t1_timeout
  let t2_timeout := if d.offered_t2_rebind ≠ infinite then coarseTicks d.offered_t2_rebind
    else d.t2_timeout
  let sn_mask := d.offered_sn_mask
  let sn_mask := if sn_mask = 0 then classMask (ip4Addr1 sn_mask) else sn_mask
  let gw_addr := d.offered_gw_addr
  let gw_addr := if gw_addr = 0 then d.offered_ip_addr &&& sn_mask ||| 1 else gw_addr
  { c with
    netif := { c.netif with
      ip_addr := d.offered_ip_addr, netmask := sn_mask, gw := gw_addr, up := true }
    dhcp := dhcpSetState { d with
      t1_timeout, t2_timeout, bound := d.acked.map (·, 0) } .BOUND }

/-! ## Replies -/

/-- What `dhcp_handle_ack` reads. -/
def readAck (r : Reply) : Option Ack := do
  let lease ← optionLong r DHCP_OPTION_LEASE_TIME
  let t1 ← optionLong r DHCP_OPTION_T1
  let t2 ← optionLong r DHCP_OPTION_T2
  let mask ← optionLong r DHCP_OPTION_SUBNET_MASK
  let router ← optionLong r DHCP_OPTION_ROUTER
  some {
    yiaddr := BitVec.ofNat 32 (ntohl (r.msg_in.getD 16 0) (r.msg_in.getD 17 0)
      (r.msg_in.getD 18 0) (r.msg_in.getD 19 0))
    lease, t1, t2, mask, router }

/-- An address that an option gives, or 0. -/
def optionAddr (v : Option ℕ) : BitVec 32 := BitVec.ofNat 32 (v.getD 0)

/-- `dhcp_handle_ack`. -/
def dhcpHandleAck (ack : Ack) (d : Dhcp) : Dhcp :=
  let offered_t0_lease := ack.lease.getD d.offered_t0_lease
  { d with
    offered_t0_lease
    offered_t1_renew := ack.t1.getD (offered_t0_lease / 2)
    offered_t2_rebind := ack.t2.getD offered_t0_lease
    offered_ip_addr := ack.yiaddr
    offered_sn_mask := optionAddr ack.mask
    offered_gw_addr := optionAddr ack.router }

/-- `dhcp_handle_nak`. -/
def dhcpHandleNak (alloc : Bool) (c : Client) : Client :=
  (dhcpDiscover alloc { c with netif := c.netif.clear, dhcp := dhcpSetState c.dhcp .BACKING_OFF }).1

/-- `dhcp_handle_offer`; `server` is the server identifier. -/
def dhcpHandleOffer (server : Option ℕ) (yiaddr : BitVec 32) (alloc : Bool) (c : Client) : Client :=
  match server with
  | none => c
  | some server =>
    (dhcpSelect alloc { c with dhcp := { c.dhcp with
      server_ip_addr := BitVec.ofNat 32 server, offered_ip_addr := yiaddr } }).1

/-- `dhcp_unfold_reply`, with `none` for `ERR_MEM`. -/
def dhcpUnfoldReply (m : Datagram) : Except Abort (Option Reply) :=
  if m.p.length > msgLen ∧ ¬ m.optionsAlloc then .ok none
  else if ¬ m.msgAlloc then .ok none
  else do
    lwipAssert .assertion (m.p.length ≥ msgLen)
    .ok (some {
      msg_in := m.p.take msgLen ++ m.msgAfter
      options_in := m.p.drop msgLen ++ m.optionsAfter
      options_in_len := m.p.length - msgLen })

/-- What `dhcp_unfold_reply` makes of a datagram, if it succeeds. -/
def Datagram.reply (m : Datagram) : Option Reply := (dhcpUnfoldReply m).toOption.join

/-- The datagram is a reply to the client. -/
def Datagram.isReply (m : Datagram) (c : Client) : Bool :=
  decide (m.len ≥ 44) && m.p.getD 0 0 == 2 &&
    c.netif.hwaddr == ((m.p.drop 28).take c.netif.hwaddr.length) &&
    ntohl (m.p.getD 4 0) (m.p.getD 5 0) (m.p.getD 6 0) (m.p.getD 7 0) == c.dhcp.xid.toNat

/-- In these states, a reply answers a request for an address that the client has. -/
def State.reacquires : State → Bool
  | .REBOOTING | .REBINDING | .RENEWING => true
  | _ => false

/-- What `dhcp_recv` does with a reply of type `DHCP_ACK`. -/
def dhcpRecvAck (o : Opts) (r : Reply) (c : Client) : Except Abort Client := do
  if c.dhcp.state = .REQUESTING then
    let ack ← inMemory .outOfMemory (readAck r)
    let d := { dhcpHandleAck ack c.dhcp with request_timeout := 0, acked := some ack }
    if o.DHCP_DOES_ARP_CHECK then .ok (dhcpCheck { c with dhcp := d })
    else .ok (dhcpBind { c with dhcp := d })
  else if c.dhcp.state.reacquires then
    let d := { c.dhcp with request_timeout := 0, acked := readAck r }
    .ok (dhcpBind { c with dhcp := d })
  else .ok c

/-- `dhcp_recv`, with the outcome of the allocation of a request. -/
def dhcpRecv (o : Opts) (m : Datagram) (alloc : Bool) (c : Client) : Except Abort Client := do
  if ¬ m.isReply c then .ok c
  else
    match ← dhcpUnfoldReply m with
    | none => .ok c
    | some r =>
      match ← inMemory .outOfMemory (optionByte r DHCP_OPTION_MESSAGE_TYPE) with
      | none => .ok c
      | some msg_type =>
        if msg_type = DHCP_ACK then dhcpRecvAck o r c
        else if msg_type = DHCP_NAK ∧ (c.dhcp.state.reacquires ∨ c.dhcp.state = .REQUESTING) then
          .ok (dhcpHandleNak alloc { c with dhcp := { c.dhcp with request_timeout := 0 } })
        else if msg_type = DHCP_OFFER ∧ c.dhcp.state = .SELECTING then do
          let server ← inMemory .outOfMemory (optionLong r DHCP_OPTION_SERVER_ID)
          let yiaddr := BitVec.ofNat 32 (ntohl (r.msg_in.getD 16 0) (r.msg_in.getD 17 0)
            (r.msg_in.getD 18 0) (r.msg_in.getD 19 0))
          .ok (dhcpHandleOffer server yiaddr alloc
            { c with dhcp := { c.dhcp with request_timeout := 0 } })
        else .ok c

/-- What `dhcp_recv` can do. -/
theorem dhcpRecv_cases {o : Opts} {m : Datagram} {alloc : Bool} {c c' : Client}
    (h : dhcpRecv o m alloc c = .ok c') :
    c' = c ∨
      (m.isReply c = true ∧ ∃ r ∈ m.reply, optionByte r DHCP_OPTION_MESSAGE_TYPE = some
      (some DHCP_ACK) ∧
        dhcpRecvAck o r c = .ok c') ∨
      c' = dhcpHandleNak alloc { c with dhcp := { c.dhcp with request_timeout := 0 } } ∨
      (m.isReply c = true ∧ c.dhcp.state = .SELECTING ∧ ∃ r ∈ m.reply, ∃ server yiaddr,
        optionByte r DHCP_OPTION_MESSAGE_TYPE = some (some DHCP_OFFER) ∧
        optionLong r DHCP_OPTION_SERVER_ID = some server ∧
        c' = dhcpHandleOffer server yiaddr alloc
          { c with dhcp := { c.dhcp with request_timeout := 0 } }) := by
  unfold dhcpRecv at h
  split at h
  · cases h
    exact .inl rfl
  next hreply =>
  have hreply : m.isReply c = true := by simpa using hreply
  obtain ⟨r, hr, h⟩ := bind_eq_ok.mp h
  cases r with
  | none =>
    cases h
    exact .inl rfl
  | some r =>
    have hr : r ∈ m.reply := by
      rw [Datagram.reply, hr]
      rfl
    obtain ⟨msg_type, htype, h⟩ := bind_eq_ok.mp h
    have htype := inMemory_eq_ok.mp htype
    cases msg_type with
    | none =>
      cases h
      exact .inl rfl
    | some msg_type =>
      dsimp only at h
      split at h
      · next hack =>
        rw [hack] at htype
        exact .inr (.inl ⟨hreply, r, hr, htype, h⟩)
      split at h
      · cases h
        exact .inr (.inr (.inl rfl))
      split at h
      · next hoff =>
        obtain ⟨server, hserver, h⟩ := bind_eq_ok.mp h
        rw [hoff.1] at htype
        cases h
        exact .inr (.inr (.inr ⟨hreply, hoff.2, r, hr, server, _, htype,
          inMemory_eq_ok.mp hserver, rfl⟩))
      · cases h
        exact .inl rfl

/-! ## Timers -/

/-- `dhcp_timeout`, with the outcomes of the allocations of its two requests at most. -/
def dhcpTimeout (o : Opts) (alloc alloc' : Bool) (c : Client) : Client :=
  match c.dhcp.state with
  | .BACKING_OFF | .SELECTING => (dhcpDiscover alloc c).1
  | .REQUESTING =>
    if c.dhcp.tries ≤ 5 then (dhcpSelect alloc c).1
    else (dhcpDiscover alloc' (dhcpRelease alloc c).1).1
  | .CHECKING =>
    if !o.DHCP_DOES_ARP_CHECK then c
    else if c.dhcp.tries ≤ 1 then dhcpCheck c
    else dhcpBind c
  | .RENEWING => (dhcpRenew alloc c).1
  | .REBINDING =>
    if c.dhcp.tries ≤ 8 then (dhcpRebind alloc c).1
    else (dhcpDiscover alloc' (dhcpRelease alloc c).1).1
  | .REBOOTING => if c.dhcp.tries < 2 then (dhcpReboot alloc c).1 else (dhcpDiscover alloc c).1
  | .COLD | .BOUND | .OFF => c

/-- `dhcp_fine_tmr`. -/
def dhcpFineTmr (o : Opts) (alloc alloc' : Bool) (c : Client) : Client :=
  if c.dhcp.request_timeout > 1 then
    { c with dhcp := { c.dhcp with request_timeout := c.dhcp.request_timeout - 1 } }
  else if c.dhcp.request_timeout = 1 then
    dhcpTimeout o alloc alloc' { c with dhcp := { c.dhcp with request_timeout := 0 } }
  else c

/-- The states in which the timeouts of a lease do something. -/
def State.leased : State → Bool
  | .REQUESTING | .BOUND | .RENEWING => true
  | _ => false

/-- `dhcp_t1_timeout`. -/
def dhcpT1Timeout (alloc : Bool) (c : Client) : Client :=
  if c.dhcp.state.leased then (dhcpRenew alloc c).1 else c

/-- `dhcp_t2_timeout`. -/
def dhcpT2Timeout (alloc : Bool) (c : Client) : Client :=
  if c.dhcp.state.leased then (dhcpRebind alloc c).1 else c

/-- The timeout that a coarse tick calls. -/
inductive Timer where
  | t1 | t2
  deriving DecidableEq, Repr

/-- `dhcp_coarse_tmr`, and the timeout that it calls. -/
def dhcpCoarseTmr (alloc : Bool) (c : Client) : Client × Option Timer :=
  let d : Dhcp := { c.dhcp with bound := c.dhcp.bound.map fun (ack, ticks) => (ack, ticks + 1) }
  let d' := { d with t2_timeout := u16sub d.t2_timeout 1 }
  if d.t2_timeout = 1 then (dhcpT2Timeout alloc { c with dhcp := d' }, some .t2)
  else
    let d'' := { d' with t1_timeout := u16sub d.t1_timeout 1 }
    if d.t1_timeout = 1 then (dhcpT1Timeout alloc { c with dhcp := d'' }, some .t1)
    else ({ c with dhcp := d'' }, none)

/-! ## The interface -/

/-- `dhcp_arp_reply`. -/
def dhcpArpReply (o : Opts) (addr : BitVec 32) (alloc : Bool) (c : Client) : Client :=
  if o.DHCP_DOES_ARP_CHECK ∧ c.dhcp.state = .CHECKING ∧ addr = c.dhcp.offered_ip_addr then
    (dhcpDecline alloc c).1
  else c

/-- `dhcp_network_changed`. -/
def dhcpNetworkChanged (alloc : Bool) (c : Client) : Client :=
  match c.dhcp.state with
  | .REBINDING | .RENEWING | .BOUND | .REBOOTING =>
    (dhcpReboot alloc { c with
      netif := { c.netif with up := false }, dhcp := { c.dhcp with tries := 0 } }).1
  | .OFF => c
  | _ => (dhcpDiscover alloc { c with dhcp := { c.dhcp with tries := 0 } }).1

/-- An interface that has a client or not. -/
structure Sys where
  netif : Netif := {}
  xid : BitVec 32 := 0xabcd0000
  dhcp : Option Dhcp := none
  deriving DecidableEq, Repr

/-- The client of an interface that has one. -/
def Sys.client (s : Sys) : Option Client := s.dhcp.map fun d => ⟨s.netif, s.xid, d⟩

def Client.sys (c : Client) : Sys := ⟨c.netif, c.xid, some c.dhcp⟩

/-- `dhcp_start`, with the outcomes of the allocations of the client, of its UDP pcb and of the
first request. -/
def dhcpStart (clientAlloc pcb alloc : Bool) (s : Sys) : Sys × Err :=
  if s.netif.mtu.toNat < 576 then (s, .MEM)
  else if s.dhcp.isNone ∧ ¬ clientAlloc then (s, .MEM)
  else if ¬ pcb then ({ s with dhcp := none }, .MEM)
  else
    let r := dhcpDiscover alloc ⟨s.netif, s.xid, {}⟩
    match r.2 with
    | .OK => (r.1.sys, .OK)
    | .MEM => ({ r.1.sys with dhcp := none }, .MEM)

inductive Event where
  | dhcp_start (clientAlloc pcb alloc : Bool)
  | dhcp_recv (m : Datagram) (alloc : Bool)
  | dhcp_fine_tmr (alloc alloc' : Bool)
  | dhcp_coarse_tmr (alloc : Bool)
  | dhcp_arp_reply (addr : BitVec 32) (alloc : Bool)
  | dhcp_network_changed (alloc : Bool)

/-- What an event does to a client that is there. -/
def Client.step (o : Opts) (c : Client) : Event → Except Abort Client
  | .dhcp_start _ _ _ => .ok c
  | .dhcp_recv m alloc => dhcpRecv o m alloc c
  | .dhcp_fine_tmr alloc alloc' => .ok (dhcpFineTmr o alloc alloc' c)
  | .dhcp_coarse_tmr alloc => .ok (dhcpCoarseTmr alloc c).1
  | .dhcp_arp_reply addr alloc => .ok (dhcpArpReply o addr alloc c)
  | .dhcp_network_changed alloc => .ok (dhcpNetworkChanged alloc c)

/-- One event. -/
def step (o : Opts) (s : Sys) (e : Event) : Except Abort Sys :=
  match e, s.client with
  | .dhcp_start clientAlloc pcb alloc, _ => .ok (dhcpStart clientAlloc pcb alloc s).1
  | _, none => .ok s
  | e, some c => do
    let c' ← c.step o e
    .ok c'.sys

/-- What an event can do. -/
theorem step_cases {o : Opts} {s s' : Sys} {e : Event} (h : step o s e = .ok s') :
    (∃ clientAlloc pcb alloc, s' = (dhcpStart clientAlloc pcb alloc s).1) ∨ s' = s ∨
      ∃ c c', s.client = some c ∧ c.step o e = .ok c' ∧ s' = c'.sys := by
  unfold step at h
  split at h
  · cases h
    exact .inl ⟨_, _, _, rfl⟩
  · cases h
    exact .inr (.inl rfl)
  · next c _ hc =>
    obtain ⟨c', hc', h⟩ := bind_eq_ok.mp h
    cases h
    exact .inr (.inr ⟨c, c', hc, hc', rfl⟩)

/-- Where `dhcp_start` leaves a client, this has just started to discover. -/
theorem dhcpStart_client {s : Sys} {clientAlloc pcb alloc : Bool} {c : Client}
    (h : (dhcpStart clientAlloc pcb alloc s).1.client = some c) :
    s.client = some c ∨ c = (dhcpDiscover alloc ⟨s.netif, s.xid, {}⟩).1 := by
  unfold dhcpStart at h
  split at h
  · exact .inl h
  split at h
  · exact .inl h
  split at h
  · cases h
  dsimp only at h
  split at h
  · cases h
    exact .inr rfl
  · cases h

end Lwip.Dhcp
