import Lwip.Arch
import Lwip.Lib.Run
import Lwip.Pbuf.CopyNew
import Mathlib.Data.List.FinRange
import Mathlib.Logic.Function.Basic

/-!
# The ARP table

`etharp.c`: the table of pairs of IP and hardware addresses, with the packets that wait for an
address to be resolved. `n` is `ARP_TABLE_SIZE`. An index of the table is a `Fin n`, with `none` for
a negative `s8_t`, or, among the candidates of `find_entry`, for `ARP_TABLE_SIZE`. IP addresses are
in host order. What a function hands to `netif->linkoutput` it returns beside the new table. The
outcomes of the allocations and of `linkoutput` are parameters.
-/

namespace Lwip.Netif

open Pbuf (PbufType)

/-- The results, `err_t`. -/
inductive Err where
  | OK | MEM | BUF | RTE | ARG | IF
  deriving DecidableEq, Repr

/-- The assertions of `find_entry` and `etharp_query`, with those of the `pbuf_copy` that is called.
The index that `find_entry` returns is below `ARP_TABLE_SIZE` by its type. -/
inductive Abort where
  /-- `arp_table[i].q == NULL` -/
  | queueOnStable
  /-- `q != NULL`, in `free_etharp_q` -/
  | freesNoQueue
  /-- `arp_table[i].state == PENDING or STABLE` -/
  | notPendingOrStable
  /-- `no packet queues allowed!` -/
  | packetQueue
  /-- In `pbuf_copy`. -/
  | pbuf (a : Pbuf.Abort)
  deriving DecidableEq, Repr

/-! ## Addresses -/

/-- `struct ip_addr`. -/
abbrev IpAddr := BitVec 32

/-- `struct eth_addr`. -/
structure EthAddr where
  addr : Vector UInt8 6
  deriving DecidableEq, Repr

/-- `ethbroadcast`. -/
def ethbroadcast : EthAddr := ⟨#v[0xff, 0xff, 0xff, 0xff, 0xff, 0xff]⟩

/-- `ethzero`. -/
def ethzero : EthAddr := ⟨#v[0, 0, 0, 0, 0, 0]⟩

/-- What the ARP code reads of a `struct netif`; `broadcast` is `flags & NETIF_FLAG_BROADCAST`. -/
structure NetIf where
  ip_addr : IpAddr
  netmask : IpAddr
  gw : IpAddr
  hwaddr : EthAddr
  broadcast : Bool := true
  deriving DecidableEq, Repr

/-- `ip_addr_netcmp`. -/
def ipAddrNetcmp (addr1 addr2 mask : IpAddr) : Bool := decide (addr1 &&& mask = addr2 &&& mask)

/-- `ip_addr_isany`. -/
def ipAddrIsany (addr : IpAddr) : Bool := decide (addr = 0)

/-- `ip_addr_ismulticast`. -/
def ipAddrIsmulticast (addr : IpAddr) : Bool := decide (addr &&& 0xf0000000 = 0xe0000000)

/-- `ip_addr_isbroadcast`. -/
def ipAddrIsbroadcast (addr : IpAddr) (netif : NetIf) : Bool :=
  -- all ones (broadcast) or all zeroes (old skool broadcast)
  if ~~~addr = 0 ∨ addr = 0 then true
  else if netif.broadcast = false then false
  -- address matches network interface address exactly? => no broadcast
  else if addr = netif.ip_addr then false
  else ipAddrNetcmp addr netif.ip_addr netif.netmask &&
    decide (addr &&& ~~~netif.netmask = 0xffffffff &&& ~~~netif.netmask)

/-- The addresses that do not appear in the ARP cache. -/
def nonUnicast (ipaddr : IpAddr) (netif : NetIf) : Bool :=
  ipAddrIsany ipaddr || ipAddrIsbroadcast ipaddr netif || ipAddrIsmulticast ipaddr

/-! ## Packets -/

/-- A pbuf of a packet: its type, and the `len` bytes of its payload. -/
structure OutPbuf where
  type : PbufType
  payload : List UInt8
  deriving DecidableEq, Repr

/-- A chain of pbufs, which is not `NULL`. -/
structure Packet where
  pbufs : List OutPbuf
  nonempty : pbufs ≠ []
  deriving DecidableEq

/-- The bytes of a chain. -/
def bytes (q : List OutPbuf) : List UInt8 := (q.map OutPbuf.payload).flatten

/-- `tot_len` of the first pbuf of a chain. -/
def totLen (q : List OutPbuf) : ℕ := (bytes q).length

/-- The header fields of an ARP message. -/
structure EtharpHdr where
  hwtype : BitVec 16 := 1
  proto : BitVec 16 := 0x800
  hwlen_protolen : BitVec 16 := 0x604
  opcode : BitVec 16
  shwaddr : EthAddr
  sipaddr : IpAddr
  dhwaddr : EthAddr
  dipaddr : IpAddr
  deriving DecidableEq, Repr

/-- A frame that is handed to `netif->linkoutput`. -/
inductive Frame where
  | ip (dest src : EthAddr) (p : Packet)
  | arp (dest src : EthAddr) (hdr : EtharpHdr)
  deriving DecidableEq

/-! ## The table -/

/-- `enum etharp_state`. -/
inductive EtharpState where
  | EMPTY | PENDING | STABLE
  deriving DecidableEq, Repr

/-- `struct etharp_entry`. The `netif` is read by nothing but the SNMP code. -/
structure EtharpEntry where
  /-- The queue of pending outgoing packets. -/
  q : List Packet := []
  ipaddr : IpAddr := 0
  ethaddr : EthAddr := ethzero
  state : EtharpState := .EMPTY
  ctime : ℕ := 0
  deriving DecidableEq

/-- The static variables of `etharp.c`. -/
structure Etharp (n : ℕ) where
  arp_table : Fin n → EtharpEntry
  etharp_cached_entry : Fin n

namespace Etharp

variable {n : ℕ}

/-- The variables before the first call. -/
def init (n : ℕ) [NeZero n] : Etharp n := ⟨fun _ => {}, 0⟩

/-- `arp_table[i] = e`. -/
def set (s : Etharp n) (i : Fin n) (e : EtharpEntry) : Etharp n :=
  { s with arp_table := Function.update s.arp_table i e }

/-- The entry that was assigned is read. -/
@[simp] theorem set_self (s : Etharp n) (i : Fin n) (e : EtharpEntry) :
    (s.set i e).arp_table i = e := Function.update_self ..

/-- The other entries stay as they are. -/
@[simp] theorem set_of_ne (s : Etharp n) {i j : Fin n} (h : j ≠ i) (e : EtharpEntry) :
    (s.set i e).arp_table j = s.arp_table j := Function.update_of_ne h ..

end Etharp

/-- `ARP_MAXAGE`. -/
def ARP_MAXAGE : ℕ := 240

/-- `ARP_MAXPENDING`. -/
def ARP_MAXPENDING : ℕ := 2

/-- `etharp_tmr` for one entry. -/
def etharpTmrEntry (e : EtharpEntry) : EtharpEntry :=
  let e := { e with ctime := (e.ctime + 1) % 2^8 }
  if e.state = .STABLE ∧ e.ctime ≥ ARP_MAXAGE ∨ e.state = .PENDING ∧ e.ctime ≥ ARP_MAXPENDING then
    { e with q := [], state := .EMPTY }
  else e

variable {n : ℕ}

/-- `etharp_tmr`. -/
def etharpTmr (s : Etharp n) : Etharp n :=
  { s with arp_table := fun i => etharpTmrEntry (s.arp_table i) }

/-! ## `find_entry` -/

/-- The flags of `find_entry`. -/
structure FindFlags where
  ETHARP_TRY_HARD : Bool := false
  ETHARP_FIND_ONLY : Bool := false

/-- The candidates that the sweep through the table remembers, with the ages of the old ones. -/
structure Candidates (n : ℕ) where
  empty : Option (Fin n) := none
  old_pending : Option (Fin n) := none
  age_pending : ℕ := 0
  old_stable : Option (Fin n) := none
  age_stable : ℕ := 0
  old_queue : Option (Fin n) := none
  age_queue : ℕ := 0

/-- What the sweep remembers of the entry `i`, which does not match. -/
def Candidates.note (c : Candidates n) (i : Fin n) (e : EtharpEntry) : Candidates n :=
  if c.empty = none ∧ e.state = .EMPTY then { c with empty := some i }
  else match e.state with
    | .EMPTY => c
    | .PENDING =>
      if e.q ≠ [] then
        if e.ctime ≥ c.age_queue then { c with old_queue := some i, age_queue := e.ctime } else c
      else
        if e.ctime ≥ c.age_pending then
          { c with old_pending := some i, age_pending := e.ctime }
        else c
    | .STABLE =>
      if e.ctime ≥ c.age_stable then { c with old_stable := some i, age_stable := e.ctime } else c

/-- The entry is a pending or a stable one of the address. -/
def EtharpEntry.isFor (e : EtharpEntry) (ipaddr : Option IpAddr) : Bool :=
  decide (e.state ≠ .EMPTY) && decide (ipaddr = some e.ipaddr)

/-- The sweep of `find_entry` through the table: the entry that matches, or the candidates. -/
def findLoop (ipaddr : Option IpAddr) (t : Fin n → EtharpEntry) :
    List (Fin n) → Candidates n → Fin n ⊕ Candidates n
  | [], c => .inr c
  | i :: is, c =>
    if (t i).isFor ipaddr then .inl i else findLoop ipaddr t is (c.note i (t i))

/-- The end of `find_entry`: the entry `i` is made a new one. -/
def newEntry (ipaddr : Option IpAddr) (i : Fin n) (s : Etharp n) : Etharp n :=
  { s.set i { s.arp_table i with
      state := .EMPTY
      ipaddr := ipaddr.getD (s.arp_table i).ipaddr
      ctime := 0 } with
    etharp_cached_entry := i }

/-- The choice of the entry to recycle: an empty one, the oldest stable one, the oldest pending one
without queued packets, the oldest pending one with queued packets. -/
def recycle (ipaddr : Option IpAddr) (c : Candidates n) (s : Etharp n) :
    Except Abort (Option (Fin n) × Etharp n) :=
  match c.empty, c.old_stable, c.old_pending, c.old_queue with
  | some i, _, _, _ => .ok (some i, newEntry ipaddr i s)
  | none, some i, _, _ => do
    lwipAssert .queueOnStable ((s.arp_table i).q = [])
    .ok (some i, newEntry ipaddr i s)
  | none, none, some i, _ => .ok (some i, newEntry ipaddr i s)
  | none, none, none, some i => do
    lwipAssert .freesNoQueue ((s.arp_table i).q ≠ [])
    .ok (some i, newEntry ipaddr i (s.set i { s.arp_table i with q := [] }))
  | none, none, none, none => .ok (none, s)

/-- `find_entry` after the test of the cached entry. -/
def findEntryScan (ipaddr : Option IpAddr) (flags : FindFlags) (s : Etharp n) :
    Except Abort (Option (Fin n) × Etharp n) :=
  match findLoop ipaddr s.arp_table (List.finRange n) {} with
  | .inl i => .ok (some i, { s with etharp_cached_entry := i })
  | .inr c =>
    if c.empty = none ∧ flags.ETHARP_TRY_HARD = false ∨ flags.ETHARP_FIND_ONLY = true then
      .ok (none, s)
    else recycle ipaddr c s

/-- The last call of `find_entry` asked for the same address, and found a stable entry. -/
def cacheHit (ipaddr : Option IpAddr) (s : Etharp n) : Bool :=
  decide ((s.arp_table s.etharp_cached_entry).state = .STABLE) &&
    decide (ipaddr = some (s.arp_table s.etharp_cached_entry).ipaddr)

/-- `find_entry`. -/
def findEntry (ipaddr : Option IpAddr) (flags : FindFlags) (s : Etharp n) :
    Except Abort (Option (Fin n) × Etharp n) :=
  if cacheHit ipaddr s then .ok (some s.etharp_cached_entry, s) else findEntryScan ipaddr flags s

/-- `etharp_find_addr`: the index of the stable entry of an address. -/
def etharpFindAddr (ipaddr : IpAddr) (s : Etharp n) : Except Abort (Option (Fin n) × Etharp n) := do
  let (i, s) ← findEntry (some ipaddr) { ETHARP_FIND_ONLY := true } s
  match i with
  | some i => .ok (if (s.arp_table i).state = .STABLE then some i else none, s)
  | none => .ok (none, s)

/-! ## Incoming packets -/

/-- `update_arp_entry`. The loop over the queue pops the packets, sends them, and frees them. -/
def updateArpEntry (netif : NetIf) (ipaddr : IpAddr) (ethaddr : EthAddr) (flags : FindFlags)
    (s : Etharp n) : Except Abort (Err × Etharp n × List Frame) :=
  if nonUnicast ipaddr netif then .ok (.ARG, s, [])
  else do
    let (i, s) ← findEntry (some ipaddr) flags s
    match i with
    | none => .ok (.MEM, s, [])
    | some i =>
      .ok (.OK, s.set i { s.arp_table i with state := .STABLE, ethaddr, ctime := 0, q := [] },
        (s.arp_table i).q.map (.ip ethaddr netif.hwaddr))

/-- What `etharp_ip_input` reads of an IP packet: the source addresses of its two headers. -/
structure IpFrame where
  ethsrc : EthAddr
  src : IpAddr
  deriving DecidableEq, Repr

/-- `etharp_ip_input`. -/
def etharpIpInput (netif : NetIf) (p : IpFrame) (s : Etharp n) :
    Except Abort (Etharp n × List Frame) :=
  -- source is not on the local network?
  if !ipAddrNetcmp p.src netif.ip_addr netif.netmask then .ok (s, [])
  else do
    let r ← updateArpEntry netif p.src p.ethsrc {} s
    .ok r.2

/-- An ARP packet: the `len` of its pbuf, and, where this is enough, the fields of the headers. -/
structure ArpPacket where
  len : ℕ := 42
  type : BitVec 16 := 0x806
  hdr : EtharpHdr
  deriving DecidableEq, Repr

/-- The packet is not dropped by the first tests of `etharp_arp_input`. -/
def ArpPacket.wellFormed (p : ArpPacket) : Bool :=
  decide (p.len ≥ 42) && decide (p.hdr.hwtype = 1) && decide (p.hdr.hwlen_protolen = 0x604) &&
    decide (p.hdr.proto = 0x800) && decide (p.type = 0x806)

/-- `etharp_arp_input`. -/
def etharpArpInput (netif : NetIf) (ethaddr : EthAddr) (p : ArpPacket) (s : Etharp n) :
    Except Abort (Etharp n × List Frame) :=
  if !p.wellFormed then .ok (s, [])
  else do
    let hdr := p.hdr
    -- this interface is not configured?
    let for_us := decide (netif.ip_addr ≠ 0) && decide (hdr.dipaddr = netif.ip_addr)
    let r ← updateArpEntry netif hdr.sipaddr hdr.shwaddr { ETHARP_TRY_HARD := for_us } s
    if hdr.opcode = 1 ∧ for_us then
      -- The request becomes the reply.
      let reply := { hdr with
        opcode := 2
        dipaddr := hdr.sipaddr
        sipaddr := netif.ip_addr
        dhwaddr := hdr.shwaddr
        shwaddr := ethaddr }
      .ok (r.2.1, r.2.2 ++ [.arp hdr.shwaddr ethaddr reply])
    else .ok r.2

/-! ## Outgoing packets -/

/-- The outcomes that `etharp_query` depends on: the allocation and the sending of the ARP request,
the sending of the packet, and the allocations of the copy and of the queue entry. -/
structure QueryEnv where
  request : Bool := true
  requestErr : Err := .OK
  send : Err := .OK
  copy : Bool := true
  queue : Bool := true

/-- `etharp_request`. -/
def etharpRequest (netif : NetIf) (ipaddr : IpAddr) (e : QueryEnv) : Err × List Frame :=
  if e.request then
    (e.requestErr, [.arp ethbroadcast netif.hwaddr
      { opcode := 1, shwaddr := netif.hwaddr, sipaddr := netif.ip_addr, dhwaddr := ethzero,
        dipaddr := ipaddr }])
  else (.MEM, [])

/-- The loop of `etharp_query` that looks whether the packet has to be copied. It stops at the first
pbuf that is not a `PBUF_ROM`: the chain from there on, if there is one. -/
def copyNeeded : List OutPbuf → Except Abort (Option (List OutPbuf))
  | [] => .ok none
  | p :: next => do
    lwipAssert .packetQueue (p.payload.length ≠ totLen (p :: next) ∨ next = [])
    if p.type ≠ .ROM then .ok (some (p :: next)) else copyNeeded next

/-- A new `PBUF_RAM` with `data`. -/
def Packet.ram (data : List UInt8) : Packet := ⟨[⟨.RAM, data⟩], List.cons_ne_nil _ _⟩

/-- The packet that is taken over: a copy, or the packet itself. The pbuf for the copy has the
`tot_len` of the pbuf where the loop stopped. The errors of `pbuf_copy` are assertions in this
build, so there is no `pbuf_free` of an incomplete copy. -/
def takeOver (e : QueryEnv) (q : Packet) : Except Abort (Option Packet) := do
  let p ← copyNeeded q.pbufs
  match p with
  | some p =>
    if e.copy then do
      let data ← (Pbuf.copyNew (totLen p) (q.pbufs.map OutPbuf.payload)).mapError .pbuf
      .ok (some (.ram data))
    else .ok none
  | none => .ok (some q)

/-- `etharp_query`, from the point on where the entry `i` is stable or pending. -/
def queryEntry (netif : NetIf) (ipaddr : IpAddr) (q : Option Packet) (e : QueryEnv) (i : Fin n)
    (s : Etharp n) : Except Abort (Err × Etharp n × List Frame) := do
  let entry := s.arp_table i
  lwipAssert .notPendingOrStable (entry.state = .PENDING ∨ entry.state = .STABLE)
  let (result, out) := if entry.state = .PENDING ∨ q = none then etharpRequest netif ipaddr e
    else (.MEM, [])
  match q with
  | none => .ok (result, s, out)
  | some q =>
    if entry.state = .STABLE then
      .ok (e.send, s, out ++ [.ip entry.ethaddr netif.hwaddr q])
    else do
      let p ← takeOver e q
      match p with
      | some p =>
        if e.queue then .ok (.OK, s.set i { entry with q := entry.q ++ [p] }, out)
        else .ok (result, s, out)
      | none => .ok (result, s, out)

/-- `etharp_query`. -/
def etharpQuery (netif : NetIf) (ipaddr : IpAddr) (q : Option Packet) (e : QueryEnv)
    (s : Etharp n) : Except Abort (Err × Etharp n × List Frame) :=
  if nonUnicast ipaddr netif then .ok (.ARG, s, [])
  else do
    let (i, s) ← findEntry (some ipaddr) { ETHARP_TRY_HARD := true } s
    match i with
    | none => .ok (.MEM, s, [])
    | some i =>
      -- mark a fresh entry as pending (we just sent a request)
      let s := if (s.arp_table i).state = .EMPTY
        then s.set i { s.arp_table i with state := .PENDING } else s
      queryEntry netif ipaddr q e i s

/-- Where `etharp_output` sends a packet. -/
inductive Route where
  /-- To a broadcast or multicast hardware address. -/
  | direct (dest : EthAddr)
  /-- To the hardware address of this IP address. -/
  | query (ipaddr : IpAddr)
  /-- Nowhere: there is no gateway. -/
  | none
  deriving DecidableEq

/-- The hardware address of a multicast address. -/
def mcastaddr (ipaddr : IpAddr) : EthAddr :=
  ⟨#v[0x01, 0x00, 0x5e, UInt8.ofNat ((ipaddr >>> 16).toNat % 2^7), UInt8.ofNat (ipaddr >>> 8).toNat,
    UInt8.ofNat ipaddr.toNat]⟩

/-- The decision of `etharp_output`. -/
def route (netif : NetIf) (ipaddr : IpAddr) : Route :=
  if ipAddrIsbroadcast ipaddr netif then .direct ethbroadcast
  else if ipAddrIsmulticast ipaddr then .direct (mcastaddr ipaddr)
  else if !ipAddrNetcmp ipaddr netif.ip_addr netif.netmask then
    if netif.gw ≠ 0 then .query netif.gw else .none
  else .query ipaddr

/-- `etharp_output`; `room` says that `pbuf_header` finds room for the Ethernet header. -/
def etharpOutput (netif : NetIf) (room : Bool) (q : Packet) (ipaddr : IpAddr) (e : QueryEnv)
    (s : Etharp n) : Except Abort (Err × Etharp n × List Frame) :=
  if !room then .ok (.BUF, s, [])
  else match route netif ipaddr with
    | .direct dest => .ok (e.send, s, [.ip dest netif.hwaddr q])
    | .query ipaddr => etharpQuery netif ipaddr (some q) e s
    | .none => .ok (.RTE, s, [])

/-! ## The machine -/

/-- What happens to the ARP table. -/
inductive ArpEvent where
  | arpInput (netif : NetIf) (ethaddr : EthAddr) (p : ArpPacket)
  | ipInput (netif : NetIf) (p : IpFrame)
  | output (netif : NetIf) (room : Bool) (q : Packet) (ipaddr : IpAddr) (e : QueryEnv)
  | query (netif : NetIf) (ipaddr : IpAddr) (q : Option Packet) (e : QueryEnv)
  | findAddr (ipaddr : IpAddr)
  | tmr

/-- The pair of addresses that a received packet claims. -/
def ArpEvent.claim : ArpEvent → Option (IpAddr × EthAddr)
  | .arpInput _ _ p => if p.wellFormed then some (p.hdr.sipaddr, p.hdr.shwaddr) else none
  | .ipInput _ p => some (p.src, p.ethsrc)
  | _ => none

/-- The ARP table, and the pairs of addresses claimed by the packets received so far. -/
structure Node (n : ℕ) where
  arp : Etharp n
  claims : List (IpAddr × EthAddr) := []

/-- The table after one event. -/
def etharpStep (s : Etharp n) : ArpEvent → Except Abort (Etharp n)
  | .arpInput netif ethaddr p => do
    let r ← etharpArpInput netif ethaddr p s
    .ok r.1
  | .ipInput netif p => do
    let r ← etharpIpInput netif p s
    .ok r.1
  | .output netif room q ipaddr e => do
    let r ← etharpOutput netif room q ipaddr e s
    .ok r.2.1
  | .query netif ipaddr q e => do
    let r ← etharpQuery netif ipaddr q e s
    .ok r.2.1
  | .findAddr ipaddr => do
    let r ← etharpFindAddr ipaddr s
    .ok r.2
  | .tmr => .ok (etharpTmr s)

/-- One event. -/
def arpStep (s : Node n) (ev : ArpEvent) : Except Abort (Node n) := do
  let arp ← etharpStep s.arp ev
  .ok { arp, claims := ev.claim.toList ++ s.claims }

end Lwip.Netif
