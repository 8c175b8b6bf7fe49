import Lwip.Ip.Forward
import Lwip.Ip.FirstHeader
import Lwip.Netif.Etharp
import Lwip.Netif.Slip
import Lwip.Lib.Octets

/-!
# What an ICMP error shows

`icmp_send_response` of `icmp.c` copies 28 octets from the payload of the first pbuf, and does not
look at its length. The packets come from `ip_input` and `ip_forward` of `ip.c`, from `udp_input` of
`udp.c`, and from `ip_frag.c` when the time of a datagram runs out. `onlyItsOwn_iff` says when the
message shows octets of the packet only, and none that are in memory behind it.

A message for a datagram whose time runs out is made from its first fragment. The header it gets
back is its own (`exists_first`), so that what becomes of a packet is a function of this packet and
of its fate.

The memory behind the first pbuf is part of a packet here. `pbuf_realloc` may free the pbufs behind
the end of a packet or cut one, which may change that memory.
-/

namespace Lwip.Ip

open Netif (NetIf ipAddrIsany ipAddrIsmulticast ipAddrIsbroadcast)
open Pbuf (PbufType)

/-- `IP_PROTO_TCP`. -/
def IP_PROTO_TCP : ℕ := 6

/-- `IP_PROTO_UDP`. -/
def IP_PROTO_UDP : ℕ := 17

/-- `UDP_HLEN`. -/
def UDP_HLEN : ℕ := 8

/-- `ICMP_DUR`. -/
def ICMP_DUR : UInt8 := 3

/-- `ICMP_DUR_PROTO`. -/
def ICMP_DUR_PROTO : UInt8 := 2

/-- `ICMP_DUR_PORT`. -/
def ICMP_DUR_PORT : UInt8 := 3

/-- `ICMP_TE`. -/
def ICMP_TE : UInt8 := 11

/-- `ICMP_TE_TTL`. -/
def ICMP_TE_TTL : UInt8 := 0

/-- `ICMP_TE_FRAG`. -/
def ICMP_TE_FRAG : UInt8 := 1

/-- `ICMP_DEST_UNREACH_DATASIZE`. -/
def ICMP_DEST_UNREACH_DATASIZE : ℕ := 8

/-- The assertions on the way to a message. -/
inductive InputAbort where
  /-- `increment_magnitude <= p->len` -/
  | pbufHeader
  /-- `p->payload == iphdr` -/
  | payloadMoved
  /-- `sizeof(struct ip_reass_helper) <= IP_HLEN` -/
  | helperSize
  deriving DecidableEq, Repr

/-! ## Memory -/

/-- The `n` octets from an address on. -/
def octetsFrom (mem : ℕ → UInt8) (addr n : ℕ) : List UInt8 := (List.range' addr n).map mem

/-- `SMEMCPY` to the start of the memory. -/
def smemcpy (mem : ℕ → UInt8) (src : List UInt8) : ℕ → UInt8 := fun i => src.getD i (mem i)

/-- A 16-bit word in network byte order. -/
def wordAt (mem : ℕ → UInt8) (addr : ℕ) :
    BitVec 16 := BitVec.ofNat 16 (ntohs (mem addr) (mem (addr + 1)))

/-- A 32-bit word in network byte order. -/
def longAt (mem : ℕ → UInt8) (addr : ℕ) : BitVec 32 :=
  BitVec.ofNat 32 (ntohl (mem addr) (mem (addr + 1)) (mem (addr + 2)) (mem (addr + 3)))

/-- The `struct ip_hdr` at the start of the memory. -/
def hdrAt (mem : ℕ → UInt8) : IpHdr where
  v_hl_tos := wordAt mem 0
  len := wordAt mem 2
  id := wordAt mem 4
  offset := wordAt mem 6
  ttl_proto := wordAt mem 8
  chksum := wordAt mem 10
  src := longAt mem 12
  dest := longAt mem 16

/-! ## The system -/

/-- A `struct netif`, by the pointer to it. -/
structure IpNetif where
  ptr : ℕ
  netif : NetIf
  up : Bool
  deriving DecidableEq, Repr

/-- What `ip_route` reads of it. -/
def IpNetif.route (n : IpNetif) : RouteNetif := ⟨n.ptr, n.netif.ip_addr, n.netif.netmask, n.up⟩

/-- What `udp_input` reads of a `struct udp_pcb`. -/
structure UdpPcb where
  local_ip : BitVec 32
  local_port : BitVec 16
  remote_ip : BitVec 32
  remote_port : BitVec 16
  /-- `UDP_FLAGS_CONNECTED`. -/
  connected : Bool
  deriving DecidableEq, Repr

/-- The system a packet comes to. -/
structure IpSystem where
  /-- `netif_list`. -/
  netif_list : List IpNetif
  /-- `netif_default`. -/
  netif_default : Option IpNetif
  /-- `udp_pcbs`. -/
  udp_pcbs : List UdpPcb
  /-- `IP_FORWARD`. -/
  forward : Bool
  /-- There is memory for a message. -/
  alloc : Bool
  deriving DecidableEq, Repr

/-- A packet in the memory from its header on. -/
structure InPacket where
  /-- The type of the first pbuf. -/
  type : PbufType
  /-- The memory from the payload of that pbuf on. -/
  mem : ℕ → UInt8
  /-- The length of that pbuf. -/
  len : ℕ
  /-- The other pbufs. -/
  rest : List (List UInt8)

namespace InPacket

/-- `p->tot_len`. -/
def totLen (p : InPacket) : ℕ := p.len + p.rest.flatten.length

/-- `iphdr`. -/
def iphdr (p : InPacket) : IpHdr := hdrAt p.mem

/-- `IPH_HL(iphdr) * 4`. -/
def hlen (p : InPacket) : ℕ := p.iphdr.hl * 4

end InPacket

/-- The packet as `ip_reass` gets it. -/
def InPacket.frag (p : InPacket) : Frag where
  hdr := p.iphdr
  payload := octetsFrom p.mem IP_HLEN (p.len - IP_HLEN) ++ p.rest.flatten
  clen := 1 + p.rest.length

/-- A packet as the network interface passes it to `ip_input`. -/
structure Arrived extends InPacket where
  /-- The memory when the packet is trimmed to its length. -/
  left : ℕ → UInt8
  left_eq : ∀ i < len, i < (hdrAt mem).len.toNat → left i = mem i

/-- `pbuf_realloc(p, iphdr_len)`. -/
def Arrived.trimmed (p : Arrived) : InPacket :=
  let iphdr_len := p.iphdr.len.toNat
  if p.totLen ≤ iphdr_len then p.toInPacket
  else
    { type := p.type, mem := p.left
      len := if p.len < iphdr_len then p.len else iphdr_len
      rest := if p.len < iphdr_len then Slip.pbufRealloc p.rest (iphdr_len - p.len) else [] }

/-- An ICMP message, and where it is sent. -/
structure IcmpMsg where
  octets : List UInt8
  dest : BitVec 32
  deriving DecidableEq, Repr

/-- What becomes of a packet. -/
inductive Outcome where
  | dropped
  /-- It is forwarded, or passed to a protocol or a pcb. -/
  | passed
  /-- It is passed to `ip_reass`. -/
  | fragment
  /-- A message is sent. -/
  | icmp (m : IcmpMsg)
  deriving DecidableEq, Repr

/-! ## The message -/

/-- The message of `icmp_send_response`, from the memory of a packet. -/
def icmpMsg (mem : ℕ → UInt8) (type code : UInt8) : IcmpMsg :=
  -- Identifier and sequence number are zero.
  let data := [0, 0, 0, 0] ++ octetsFrom mem 0 (IP_HLEN + ICMP_DEST_UNREACH_DATASIZE)
  let chksum := inetChksum (type :: code :: be16 0 ++ data)
  { octets := type :: code :: be16 chksum ++ data, dest := (hdrAt mem).src }

/-- `icmp_send_response(p, type, code)`. -/
def icmpSendResponse (s : IpSystem) (mem : ℕ → UInt8) (type code : UInt8) : Outcome :=
  if s.alloc then .icmp (icmpMsg mem type code) else .dropped

/-! ## Its callers -/

/-- `addr` in network byte order. -/
def netOrder (addr : BitVec 32) : BitVec 32 :=
  addr.extractLsb' 0 8 ++ addr.extractLsb' 8 8 ++ addr.extractLsb' 16 8 ++ addr.extractLsb' 24 8

/-- `local_match` in the loop of `udp_input`. -/
def UdpPcb.localMatch (pcb : UdpPcb) (broadcast : Bool) (iphdr : IpHdr) (dest : BitVec 16) : Bool :=
  pcb.local_port = dest &&
    ((!broadcast && ipAddrIsany pcb.local_ip) || pcb.local_ip = iphdr.dest || broadcast)

/-- The loop of `udp_input`: the first pcb that matches the remote side too, or else the first one
that is not connected. -/
def udpFind (pcbs : List UdpPcb) (broadcast : Bool) (iphdr : IpHdr) (src dest : BitVec 16) :
    Option UdpPcb :=
  let here := pcbs.filter fun pcb => pcb.localMatch broadcast iphdr dest
  match here.find? fun pcb =>
    pcb.remote_port = src && (ipAddrIsany pcb.remote_ip || pcb.remote_ip = iphdr.src) with
  | some pcb => some pcb
  | none => here.find? fun pcb => !pcb.connected

/-- `udp_input(p, inp)`. -/
def udpInput (s : IpSystem) (inp : IpNetif) (p : InPacket) : Except InputAbort Outcome :=
  let iphdr := p.iphdr
  if p.totLen < p.hlen + UDP_HLEN then .ok .dropped
  else
    lwipAssert .pbufHeader (p.hlen ≤ p.len) >>= fun _ =>
    let broadcast := ipAddrIsbroadcast iphdr.dest inp.netif
    let pcb := udpFind s.udp_pcbs broadcast iphdr (wordAt p.mem p.hlen) (wordAt p.mem (p.hlen + 2))
    if pcb = none ∧ inp.netif.ip_addr ≠ iphdr.dest then .ok .dropped
    else if wordAt p.mem (p.hlen + 6) ≠ 0 ∧
        inetChksumPseudo (octetsFrom p.mem p.hlen (p.len - p.hlen) :: p.rest) (netOrder iphdr.src)
          (netOrder iphdr.dest) (UInt8.ofNat IP_PROTO_UDP)
          (BitVec.ofNat 16 (p.totLen - p.hlen)) ≠ 0 then
      .ok .dropped
    else
      lwipAssert .pbufHeader (p.hlen + UDP_HLEN ≤ p.len) >>= fun _ =>
      if pcb ≠ none then .ok .passed
      else if broadcast || ipAddrIsmulticast iphdr.dest then .ok .dropped
      else
        -- The payload can be moved back in a pbuf that holds its octets itself.
        lwipAssert .payloadMoved (p.type = .RAM ∨ p.type = .POOL) >>= fun _ =>
        .ok (icmpSendResponse s p.mem ICMP_DUR ICMP_DUR_PORT)

/-- The end of `ip_input`, where a packet is sent to the upper layers. -/
def ipDeliver (s : IpSystem) (inp : IpNetif) (p : InPacket) : Except InputAbort Outcome :=
  let iphdr := p.iphdr
  if iphdr.proto = IP_PROTO_UDP then udpInput s inp p
  else if iphdr.proto = IP_PROTO_TCP ∨ iphdr.proto = IP_PROTO_ICMP then .ok .passed
  else if ipAddrIsbroadcast iphdr.dest inp.netif || ipAddrIsmulticast iphdr.dest then .ok .dropped
  else .ok (icmpSendResponse s p.mem ICMP_DUR ICMP_DUR_PROTO)

/-- A packet to `dest` is for us: it is for the interface it comes from, or another one. -/
def forUs (s : IpSystem) (inp : IpNetif) (dest : BitVec 32) : Bool :=
  (inp :: s.netif_list.filter fun netif => netif.ptr ≠ inp.ptr).any fun netif =>
    netif.up && !ipAddrIsany netif.netif.ip_addr &&
      (dest = netif.netif.ip_addr || ipAddrIsbroadcast dest netif.netif)

/-- `ip_input(p, inp)` for a packet that is not for us. -/
def ipInputForward (s : IpSystem) (inp : IpNetif) (p : InPacket) : Outcome :=
  let iphdr := p.iphdr
  if s.forward && !ipAddrIsbroadcast iphdr.dest inp.netif then
    match ipForward ⟨s.netif_list.map IpNetif.route, s.netif_default.map IpNetif.route⟩ inp.ptr
        ⟨iphdr, octetsFrom p.mem IP_HLEN (p.hlen - IP_HLEN)⟩ with
    -- The TTL in the packet is zero by then.
    | .expired true =>
      icmpSendResponse s (smemcpy p.mem (iphdr.setTtl (u16sub iphdr.ttl 1)).octets)
        ICMP_TE ICMP_TE_TTL
    | .sent _ _ => .passed
    | _ => .dropped
  else .dropped

/-- `ip_input(p, inp)`, from where the packet is trimmed. -/
def ipInputTrimmed (s : IpSystem) (inp : IpNetif) (p : InPacket) : Except InputAbort Outcome :=
  let iphdr := p.iphdr
  if ipAddrIsbroadcast iphdr.src inp.netif || ipAddrIsmulticast iphdr.src then .ok .dropped
  else if !forUs s inp iphdr.dest then .ok (ipInputForward s inp p)
  else if iphdr.offset &&& (IP_OFFMASK ||| IP_MF) ≠ 0 then .ok .fragment
  else ipDeliver s inp p

/-- `ip_input(p, inp)`. -/
def ipInput (s : IpSystem) (inp : IpNetif) (p : Arrived) : Except InputAbort Outcome :=
  if p.iphdr.v_hl_tos.toNat / 2^12 ≠ 4 then .ok .dropped
  else if p.len < p.hlen ∨ p.totLen < p.iphdr.len.toNat then .ok .dropped
  else if inetChksum (octetsFrom p.mem 0 p.hlen) ≠ 0 then .ok .dropped
  else ipInputTrimmed s inp p.trimmed

/-- What becomes of a datagram in `ip_reass`, once its first fragment is there. -/
inductive Fate where
  /-- It is freed by `ip_reass_free_complete_datagram`. The octets are those of the
  `struct ip_reass_helper` in the first fragment. -/
  | freed (helper : List UInt8)
  /-- It is completed by a fragment from `inp`. The pbufs are those of the other fragments. -/
  | completed (helper : List UInt8) (datagram_len : ℕ) (next : List (List UInt8)) (inp : IpNetif)
  deriving DecidableEq, Repr

/-- What becomes of the first fragment of the datagram then. Its header is in `ipr->iphdr`. -/
def Fate.outcome (s : IpSystem) (p : InPacket) : Fate → Except InputAbort Outcome
  | .freed helper =>
    lwipAssert .helperSize (helper.length ≤ IP_HLEN) >>= fun _ =>
    .ok (icmpSendResponse s (smemcpy (smemcpy p.mem helper) p.iphdr.octets) ICMP_TE ICMP_TE_FRAG)
  | .completed helper datagram_len next inp =>
    lwipAssert .helperSize (helper.length ≤ IP_HLEN) >>= fun _ =>
    let hdr := reassHdr { iphdr := p.iphdr, datagram_len := datagram_len, timer := 0 }
    ipDeliver s inp
      { p with mem := smemcpy (smemcpy p.mem helper) hdr.octets, rest := p.rest ++ next }

/-- What becomes of a packet that comes to `ip_input`, and may be the first fragment of a datagram.
Those with options are dropped by `ip_reass`. -/
def outcome (s : IpSystem) (inp : IpNetif) (fate : Fate) (p : Arrived) :
    Except InputAbort Outcome :=
  ipInput s inp p >>= fun o =>
  if o = .fragment ∧ p.trimmed.hlen = IP_HLEN ∧
    p.trimmed.iphdr.fragOffset = 0 then fate.outcome s p.trimmed
  else .ok o

/-- Two packets with the same octets up to their total length. -/
structure Arrived.Agrees (p p' : Arrived) : Prop where
  type : p'.type = p.type
  len : p'.len = p.len
  mem : ∀ i < p.len, i < p.iphdr.len.toNat → p'.mem i = p.mem i
  lens : p'.rest.map List.length = p.rest.map List.length
  rest : p'.rest.flatten.take (p.iphdr.len.toNat - p.len) =
    p.rest.flatten.take (p.iphdr.len.toNat - p.len)

/-- The same becomes of every packet with the same octets. -/
def OnlyItsOwn (s : IpSystem) (inp : IpNetif) (fate : Fate) (p : Arrived) : Prop :=
  ∀ p', p.Agrees p' → outcome s inp fate p' = outcome s inp fate p

/-- The first pbuf and the packet are as long as what is copied, and the packet is as long as its
header. -/
def Arrived.Holds (p : Arrived) : Prop :=
  IP_HLEN + ICMP_DEST_UNREACH_DATASIZE ≤ p.len ∧
    IP_HLEN + ICMP_DEST_UNREACH_DATASIZE ≤ p.iphdr.len.toNat ∧ p.hlen ≤ p.iphdr.len.toNat

/-! ## Memories that agree -/

section Memory

variable {mem mem' : ℕ → UInt8} {src : List UInt8} {n addr i : ℕ} {type code : UInt8}

/-- Behind the copy the memory stays. -/
theorem smemcpy_of_le (h : src.length ≤ i) : smemcpy mem src i = mem i := by
  rw [smemcpy, List.getD_eq_getElem?_getD, List.getElem?_eq_none h]
  rfl

/-- What is copied does not depend on the memory. -/
theorem smemcpy_of_lt (h : i < src.length) : smemcpy mem' src i = smemcpy mem src i := by
  rw [smemcpy, smemcpy, List.getD_eq_getElem?_getD, List.getD_eq_getElem?_getD,
    List.getElem?_eq_getElem h]
  rfl

/-- Octets depend on the memory up to their end. -/
theorem octetsFrom_congr (h : ∀ i < addr + n, mem' i = mem i) :
    octetsFrom mem' addr n = octetsFrom mem addr n := by
  refine List.map_congr_left fun i hi => h i ?_
  have hlt := List.mem_range'_1.mp hi
  omega

/-- A word depends on the memory up to its end. -/
theorem wordAt_congr (h : ∀ i < addr + 2, mem' i = mem i) : wordAt mem' addr = wordAt mem addr := by
  rw [wordAt, wordAt, h addr (by omega), h (addr + 1) (by omega)]

/-- A double word depends on the memory up to its end. -/
theorem longAt_congr (h : ∀ i < addr + 4, mem' i = mem i) : longAt mem' addr = longAt mem addr := by
  rw [longAt, longAt, h addr (by omega), h (addr + 1) (by omega), h (addr + 2) (by omega),
    h (addr + 3) (by omega)]

/-- The header is in the first `IP_HLEN` octets. -/
theorem hdrAt_congr (h : ∀ i < IP_HLEN, mem' i = mem i) : hdrAt mem' = hdrAt mem := by
  have hword : ∀ addr < IP_HLEN - 1, wordAt mem' addr = wordAt mem addr := fun addr haddr =>
    wordAt_congr fun i hi => h i (by omega)
  have hlong : ∀ addr < IP_HLEN - 3, longAt mem' addr = longAt mem addr := fun addr haddr =>
    longAt_congr fun i hi => h i (by omega)
  rw [hdrAt, hdrAt, hword 0 (by decide), hword 2 (by decide), hword 4 (by decide),
    hword 6 (by decide),
    hword 8 (by decide), hword 10 (by decide), hlong 12 (by decide), hlong 16 (by decide)]

/-- The message depends on the header and eight octets behind it. -/
theorem icmpMsg_congr (h : ∀ i < IP_HLEN + ICMP_DEST_UNREACH_DATASIZE, mem' i = mem i) :
    icmpMsg mem' type code = icmpMsg mem type code := by
  have hdata : octetsFrom mem' 0 (IP_HLEN + ICMP_DEST_UNREACH_DATASIZE) =
      octetsFrom mem 0 (IP_HLEN + ICMP_DEST_UNREACH_DATASIZE) := octetsFrom_congr fun i hi =>
      h i (by omega)
  have hhdr : hdrAt mem' = hdrAt mem := hdrAt_congr fun i hi => h i (Nat.lt_add_right _ hi)
  rw [icmpMsg, icmpMsg, hdata, hhdr]

/-- The octets of the packet can be read off the message. -/
theorem icmpMsg_shows (h : icmpMsg mem' type code = icmpMsg mem type code)
    (hi : i < IP_HLEN + ICMP_DEST_UNREACH_DATASIZE) : mem' i = mem i := by
  have hdrop : ∀ mem, (icmpMsg mem type code).octets.drop 8 =
      octetsFrom mem 0 (IP_HLEN + ICMP_DEST_UNREACH_DATASIZE) := fun mem => by simp [icmpMsg, be16]
  have hdata : octetsFrom mem' 0 (IP_HLEN + ICMP_DEST_UNREACH_DATASIZE) =
      octetsFrom mem 0 (IP_HLEN + ICMP_DEST_UNREACH_DATASIZE) := by rw [← hdrop, ← hdrop, h]
  refine List.map_inj_left.mp hdata i (List.mem_range'_1.mpr ?_)
  omega

end Memory

/-! ## Packets that agree -/

/-- The same packet in another memory. -/
structure InPacket.Alike (p q : InPacket) : Prop where
  type : q.type = p.type
  len : q.len = p.len
  rest : q.rest = p.rest
  mem : ∀ i < p.len, q.mem i = p.mem i
  /-- The header is the same, even if it is longer than the first pbuf. -/
  hdr : ∀ i < IP_HLEN, q.mem i = p.mem i

/-- The message `m`, made from the memory of `p`, and that made from the memory of `q` in its place.
The header may have been changed. -/
inductive Resent (p q : InPacket) : Except InputAbort Outcome → Except InputAbort Outcome →
    Prop where
  | mk (type code : UInt8) (mem mem' : ℕ → UInt8) (hdr : ∀ i < IP_HLEN, mem' i = mem i)
      (data : ∀ i, IP_HLEN ≤ i → mem i = p.mem i ∧ mem' i = q.mem i) :
      Resent p q (.ok (.icmp (icmpMsg mem type code))) (.ok (.icmp (icmpMsg mem' type code)))

section Alike

variable {s : IpSystem} {inp : IpNetif} {p q : InPacket} {m : IcmpMsg}
  {o o' : Except InputAbort Outcome} {fate : Fate} {type code : UInt8} {mem mem' : ℕ → UInt8}

/-- With the same memory the same message is sent. -/
theorem Resent.eq (h : Resent p q o o')
    (hmem : ∀ i < IP_HLEN + ICMP_DEST_UNREACH_DATASIZE, q.mem i = p.mem i) : o' = o := by
  obtain ⟨type, code, mem, mem', hhdr, hdata⟩ := h
  rw [icmpMsg_congr fun i hi => ?_]
  by_cases hlow : i < IP_HLEN
  · exact hhdr i hlow
  · obtain ⟨hp, hq⟩ := hdata i (by omega)
    rw [hp, hq, hmem i hi]

/-- The message shows the octets behind the header. -/
theorem Resent.ne (h : Resent p q o o') {i : ℕ} (hle : IP_HLEN ≤ i)
    (hlt : i < IP_HLEN + ICMP_DEST_UNREACH_DATASIZE) (hne : q.mem i ≠ p.mem i) : o' ≠ o := by
  obtain ⟨type, code, mem, mem', hhdr, hdata⟩ := h
  intro heq
  have hmsg : icmpMsg mem' type code = icmpMsg mem type code := by
    injection heq with heq
    injection heq
  obtain ⟨hp, hq⟩ := hdata i hle
  rw [← hp, ← hq] at hne
  exact hne (icmpMsg_shows hmsg hlt)

/-- The data may have been read off a copy. -/
theorem Resent.of_data {p₁ q₁ : InPacket} (h : Resent p₁ q₁ o o')
    (hp : ∀ i, IP_HLEN ≤ i → p₁.mem i = p.mem i)
    (hq : ∀ i, IP_HLEN ≤ i → q₁.mem i = q.mem i) : Resent p q o o' := by
  obtain ⟨type, code, mem, mem', hhdr, hdata⟩ := h
  refine .mk type code mem mem' hhdr fun i hi => ?_
  rw [← hp i hi, ← hq i hi]
  exact hdata i hi

/-- A message is sent from each of two memories. -/
theorem resent_icmpSendResponse (h : icmpSendResponse s mem type code = .icmp m)
    (hhdr : ∀ i < IP_HLEN, mem' i = mem i)
    (hdata : ∀ i, IP_HLEN ≤ i → mem i = p.mem i ∧ mem' i = q.mem i) :
    Resent p q (.ok (.icmp m)) (.ok (icmpSendResponse s mem' type code)) := by
  rw [icmpSendResponse] at h ⊢
  split at h
  · next halloc =>
    injection h with h
    rw [if_pos halloc, ← h]
    exact .mk type code mem mem' hhdr hdata
  · cases h

/-- The packet is for a port of ours that is not bound. -/
structure InPacket.Unbound (s : IpSystem) (inp : IpNetif) (p : InPacket) : Prop where
  whole : p.hlen + UDP_HLEN ≤ p.totLen
  first : p.hlen + UDP_HLEN ≤ p.len
  pcb : udpFind s.udp_pcbs (ipAddrIsbroadcast p.iphdr.dest inp.netif) p.iphdr (wordAt p.mem p.hlen)
    (wordAt p.mem (p.hlen + 2)) = none
  ours : inp.netif.ip_addr = p.iphdr.dest
  chksum : wordAt p.mem (p.hlen + 6) ≠ 0 →
    inetChksumPseudo (octetsFrom p.mem p.hlen (p.len - p.hlen) :: p.rest) (netOrder p.iphdr.src)
      (netOrder p.iphdr.dest) (UInt8.ofNat IP_PROTO_UDP) (BitVec.ofNat 16 (p.totLen - p.hlen)) = 0
  unicast : (ipAddrIsbroadcast p.iphdr.dest inp.netif || ipAddrIsmulticast p.iphdr.dest) = false
  type : p.type = .RAM ∨ p.type = .POOL

/-- A datagram for a port without a pcb is answered by a message. -/
theorem udpInput_of_unbound (h : p.Unbound s inp) :
    udpInput s inp p = .ok (icmpSendResponse s p.mem ICMP_DUR ICMP_DUR_PORT) := by
  have hwhole := h.whole
  have hfirst := h.first
  have hchksum : ¬ (wordAt p.mem (p.hlen + 6) ≠ 0 ∧ _ ≠ _) := fun hno => hno.2 (h.chksum hno.1)
  rw [udpInput, if_neg (by omega)]
  refine bind_eq_ok.mpr ⟨(), lwipAssert_eq_ok.mpr (by omega), ?_⟩
  dsimp only
  rw [h.pcb, if_neg fun hno => hno.2 h.ours, if_neg hchksum]
  refine bind_eq_ok.mpr ⟨(), lwipAssert_eq_ok.mpr hfirst, ?_⟩
  rw [if_neg (not_not.mpr rfl), h.unicast, if_neg Bool.false_ne_true]
  exact bind_eq_ok.mpr ⟨(), lwipAssert_eq_ok.mpr h.type, rfl⟩

/-- What `udp_input` does with a packet, if it returns. -/
theorem udpInput_cases {o : Outcome} (h : udpInput s inp p = .ok o) : o = .dropped ∨ o = .passed ∨
    p.Unbound s inp ∧ o = icmpSendResponse s p.mem ICMP_DUR ICMP_DUR_PORT := by
  rw [udpInput] at h
  split at h
  · exact .inl (Except.ok.inj h).symm
  next hwhole =>
  obtain ⟨_, -, h⟩ := bind_eq_ok.mp h
  dsimp only at h
  split at h
  · exact .inl (Except.ok.inj h).symm
  next hours =>
  split at h
  · exact .inl (Except.ok.inj h).symm
  next hchksum =>
  obtain ⟨_, hroom, h⟩ := bind_eq_ok.mp h
  split at h
  · exact .inr (.inl (Except.ok.inj h).symm)
  next hnone =>
  split at h
  · exact .inl (Except.ok.inj h).symm
  next hcast =>
  obtain ⟨_, htype, h⟩ := bind_eq_ok.mp h
  have hnone := not_not.mp hnone
  refine .inr (.inr ⟨⟨Nat.le_of_not_lt hwhole, lwipAssert_eq_ok.mp hroom,
    hnone, ?_, ?_, ?_, ?_⟩, ?_⟩)
  · exact not_not.mp fun hne => hours ⟨hnone, hne⟩
  · exact fun hword => not_not.mp fun hne => hchksum ⟨hword, hne⟩
  · exact Bool.eq_false_iff.mpr hcast
  · exact lwipAssert_eq_ok.mp htype
  · exact (Except.ok.inj h).symm

namespace InPacket.Alike

/-- Packets that are alike have the same header. -/
theorem iphdr (ha : p.Alike q) : q.iphdr = p.iphdr := hdrAt_congr ha.hdr

/-- Packets that are alike have the same length of the header. -/
theorem hlen (ha : p.Alike q) : q.hlen = p.hlen := by rw [InPacket.hlen, InPacket.hlen, ha.iphdr]

/-- Packets that are alike have the same length. -/
theorem totLen (ha : p.Alike q) : q.totLen = p.totLen := by
  rw [InPacket.totLen, InPacket.totLen, ha.len, ha.rest]

/-- Whether there is a pcb depends on the header and the ports. -/
theorem unbound (ha : p.Alike q) (h : p.Unbound s inp) : q.Unbound s inp := by
  have hroom := h.first
  rw [UDP_HLEN] at hroom
  -- All that is read is in the first pbuf.
  have hword : ∀ k < 7, wordAt q.mem (p.hlen + k) = wordAt p.mem (p.hlen + k) := fun k hk =>
    wordAt_congr fun i hi => ha.mem i (by omega)
  have hport := hword 0 (by decide)
  rw [Nat.add_zero] at hport
  have hoctets : octetsFrom q.mem p.hlen (p.len - p.hlen) =
      octetsFrom p.mem p.hlen (p.len - p.hlen) :=
    octetsFrom_congr fun i hi => ha.mem i (by omega)
  refine ⟨?_, ?_, ?_, ?_, ?_, ?_, ?_⟩
  · rw [ha.hlen, ha.totLen]
    exact h.whole
  · rw [ha.hlen, ha.len]
    exact h.first
  · rw [ha.hlen, ha.iphdr, hport, hword 2 (by decide)]
    exact h.pcb
  · rw [ha.iphdr]
    exact h.ours
  · rw [ha.hlen, ha.iphdr, ha.totLen, ha.len, ha.rest, hword 6 (by decide), hoctets]
    exact h.chksum
  · rw [ha.iphdr]
    exact h.unicast
  · rw [ha.type]
    exact h.type

/-- The port is not bound in either memory. -/
theorem udpInput (ha : p.Alike q) (h : udpInput s inp p = .ok (.icmp m)) :
    Resent p q (.ok (.icmp m)) (udpInput s inp q) := by
  obtain hno | hno | ⟨hunbound, hsent⟩ := udpInput_cases h
  · cases hno
  · cases hno
  · rw [udpInput_of_unbound (ha.unbound hunbound)]
    exact resent_icmpSendResponse hsent.symm ha.hdr fun _ _ => ⟨rfl, rfl⟩

/-- The upper layers send the same message again. -/
theorem ipDeliver (ha : p.Alike q) (h : ipDeliver s inp p = .ok (.icmp m)) :
    Resent p q (.ok (.icmp m)) (ipDeliver s inp q) := by
  rw [Ip.ipDeliver] at h ⊢
  rw [ha.iphdr]
  split at h
  · next hudp =>
    rw [if_pos hudp]
    exact ha.udpInput h
  next hudp =>
  split at h
  · cases h
  next hknown =>
  split at h
  · cases h
  next hcast =>
  rw [if_neg hudp, if_neg hknown, if_neg hcast]
  injection h with h
  exact resent_icmpSendResponse h ha.hdr fun _ _ => ⟨rfl, rfl⟩

/-- What a header is written over makes no difference. -/
theorem written {hdr helper : List UInt8} (hlen : hdr.length = IP_HLEN)
    (hhelper : helper.length ≤ IP_HLEN) :
    (∀ i < IP_HLEN, smemcpy (smemcpy q.mem helper) hdr i = smemcpy (smemcpy p.mem helper) hdr i) ∧
      (∀ i, IP_HLEN ≤ i → smemcpy (smemcpy p.mem helper) hdr i = p.mem i) ∧
      ∀ i, IP_HLEN ≤ i → smemcpy (smemcpy q.mem helper) hdr i = q.mem i := by
  refine ⟨fun i hi => smemcpy_of_lt (by omega), fun i hi => ?_, fun i hi => ?_⟩
  · rw [smemcpy_of_le (by omega), smemcpy_of_le (by omega)]
  · rw [smemcpy_of_le (by omega), smemcpy_of_le (by omega)]

/-- The options of a packet whose TTL is used up are not read. -/
theorem ipInputForward (ha : p.Alike q) (h : ipInputForward s inp p = .icmp m) :
    Resent p q (.ok (.icmp m)) (.ok (ipInputForward s inp q)) := by
  have hexpired : ∀ {n : Netifs} {ptr : ℕ} {hdr : IpHdr} {options options' : List UInt8},
      ipForward n ptr ⟨hdr, options⟩ = .expired true →
      ipForward n ptr ⟨hdr, options'⟩ = .expired true := by
    intro n ptr hdr options options' he
    rw [ipForward] at he ⊢
    dsimp only at he ⊢
    split at he
    · cases he
    next netif hroute =>
    split at he
    · cases he
    next hptr =>
    rw [if_neg hptr]
    split at he
    · next hzero =>
      rw [if_pos hzero]
      exact he
    · cases he
  rw [Ip.ipInputForward] at h ⊢
  rw [ha.iphdr, ha.hlen]
  split at h
  · next hforward =>
    rw [if_pos hforward]
    split at h
    · next he =>
      rw [hexpired he]
      have hlen := (p.iphdr.setTtl (u16sub p.iphdr.ttl 1)).length_octets
      refine resent_icmpSendResponse h (fun i hi => smemcpy_of_lt (by omega)) fun i hi => ?_
      rw [smemcpy_of_le (by omega), smemcpy_of_le (by omega)]
      exact ⟨rfl, rfl⟩
    · cases h
    · cases h
  · cases h

/-- The rest of `ip_input` sends the same message again. -/
theorem ipInputTrimmed (ha : p.Alike q) (h : ipInputTrimmed s inp p = .ok (.icmp m)) :
    Resent p q (.ok (.icmp m)) (ipInputTrimmed s inp q) := by
  rw [Ip.ipInputTrimmed] at h ⊢
  rw [ha.iphdr]
  split at h
  · cases h
  next hsrc =>
  rw [if_neg hsrc]
  split at h
  · next hus =>
    rw [if_pos hus]
    injection h with h
    exact ha.ipInputForward h
  next hus =>
  rw [if_neg hus]
  split at h
  · cases h
  next hwhole =>
  rw [if_neg hwhole]
  exact ha.ipDeliver h

end InPacket.Alike

/-! ## Fragments -/

/-- A message is not a fragment. -/
theorem icmpSendResponse_ne_fragment : icmpSendResponse s mem type code ≠ .fragment := by
  rw [icmpSendResponse]
  split
  · nofun
  · nofun

/-- `udp_input` does not return a fragment. -/
theorem udpInput_ne_fragment : udpInput s inp p ≠ .ok .fragment := by
  intro h
  obtain hno | hno | ⟨-, hsent⟩ := udpInput_cases h
  · cases hno
  · cases hno
  · exact icmpSendResponse_ne_fragment hsent.symm

/-- The upper layers do not return a fragment. -/
theorem ipDeliver_ne_fragment : ipDeliver s inp p ≠ .ok .fragment := by
  intro h
  rw [ipDeliver] at h
  split at h
  · exact udpInput_ne_fragment h
  split at h
  · cases h
  split at h
  · cases h
  injection h with h
  exact icmpSendResponse_ne_fragment h

/-- Forwarding does not return a fragment. -/
theorem ipInputForward_ne_fragment : ipInputForward s inp p ≠ .fragment := by
  intro h
  rw [ipInputForward] at h
  split at h
  · split at h
    · exact icmpSendResponse_ne_fragment h
    · cases h
    · cases h
  · cases h

/-- A packet is passed to `ip_reass` for what its header says. -/
theorem ipInputTrimmed_eq_fragment : ipInputTrimmed s inp p = .ok .fragment ↔
    (ipAddrIsbroadcast p.iphdr.src inp.netif || ipAddrIsmulticast p.iphdr.src) = false ∧
      forUs s inp p.iphdr.dest = true ∧ p.iphdr.offset &&& (IP_OFFMASK ||| IP_MF) ≠ 0 := by
  rw [ipInputTrimmed]
  constructor
  · intro h
    split at h
    · cases h
    next hsrc =>
    split at h
    · injection h with h
      exact absurd h ipInputForward_ne_fragment
    next hus =>
    split at h
    · next hfrag => exact ⟨Bool.eq_false_iff.mpr hsrc, by simpa using hus, hfrag⟩
    · exact absurd h ipDeliver_ne_fragment
  · rintro ⟨hsrc, hus, hfrag⟩
    rw [hsrc, hus, if_neg Bool.false_ne_true, if_neg (by decide), if_pos hfrag]

/-- What becomes of the first fragment of a datagram. -/
theorem Fate.outcome_alike (ha : p.Alike q) (h : fate.outcome s p = .ok (.icmp m)) :
    Resent p q (.ok (.icmp m)) (fate.outcome s q) := by
  cases fate with
  | freed helper =>
    -- The header is written over the helper, and what is behind it is read.
    rw [Fate.outcome] at h ⊢
    obtain ⟨_, hhelper, h⟩ := bind_eq_ok.mp h
    injection h with h
    obtain ⟨hhdr, hp, hq⟩ := InPacket.Alike.written p.iphdr.length_octets
      (lwipAssert_eq_ok.mp hhelper)
    rw [hhelper, ha.iphdr]
    exact resent_icmpSendResponse h hhdr fun i hi => ⟨hp i hi, hq i hi⟩
  | completed helper datagram_len next inp =>
    rw [Fate.outcome] at h ⊢
    obtain ⟨_, hhelper, h⟩ := bind_eq_ok.mp h
    dsimp only at h
    generalize hhdr :
      reassHdr { iphdr := p.iphdr, datagram_len := datagram_len, timer := 0 } = hdr at h
    obtain ⟨hlow, hp, hq⟩ := InPacket.Alike.written hdr.length_octets (lwipAssert_eq_ok.mp hhelper)
    rw [hhelper, ha.iphdr, hhdr, ha.rest]
    refine Resent.of_data (InPacket.Alike.ipDeliver ?_ h) hp hq
    refine ⟨ha.type, ha.len, rfl, fun i hi => ?_, hlow⟩
    by_cases hi' : i < IP_HLEN
    · exact hlow i hi'
    · dsimp only
      rw [hp i (by omega), hq i (by omega), ha.mem i hi]

end Alike

/-- In every run, the header that the first fragment of a datagram gets back is the one it came
with. -/
theorem exists_first {ps : List InPacket} {es : List Event} {r : Reass}
    (hes : ∀ f, .frag f ∈ es → ∃ p ∈ ps, p.frag = f) (hr : run reassStep {} es = .ok r)
    {d : ReassData} (hd : d ∈ r.datagrams) {t : Held} (ht : t ∈ d.p.head?) (h₀ : t.start = 0) :
    ∃ p ∈ ps, p.frag.held = t ∧ p.iphdr = d.iphdr := by
  obtain ⟨f, hf, hheld, hhdr⟩ := ((run_firstKnown hr).2 d hd).own t ht h₀
  obtain ⟨p, hp, rfl⟩ := hes f hf
  exact ⟨p, hp, hheld, hhdr⟩

/-! ## Packets that arrive -/

/-- The tests that `ip_input` makes before it trims the packet. -/
structure Arrived.Accepted (p : Arrived) : Prop where
  version : p.iphdr.v_hl_tos.toNat / 2^12 = 4
  hlen : p.hlen ≤ p.len
  len : p.iphdr.len.toNat ≤ p.totLen
  chksum : inetChksum (octetsFrom p.mem 0 p.hlen) = 0

section Arrived

variable {s : IpSystem} {inp : IpNetif} {fate : Fate} {p p' : Arrived} {m : IcmpMsg} {o : Outcome}

/-- A packet with a right header is trimmed and passed on. -/
theorem ipInput_of_accepted (h : p.Accepted) :
    ipInput s inp p = ipInputTrimmed s inp p.trimmed := by
  have hlen := h.hlen
  have htot := h.len
  rw [ipInput, if_neg (not_not.mpr h.version), if_neg (by omega), if_neg (not_not.mpr h.chksum)]

/-- A packet that is not dropped has a right header. -/
theorem accepted_of_ipInput (h : ipInput s inp p = .ok o) (ho : o ≠ .dropped) : p.Accepted := by
  rw [ipInput] at h
  split at h
  · cases h
    exact absurd rfl ho
  next hversion =>
  split at h
  · cases h
    exact absurd rfl ho
  next hlen =>
  split at h
  · cases h
    exact absurd rfl ho
  next hchksum => exact ⟨not_not.mp hversion, by omega, by omega, not_not.mp hchksum⟩

/-- A message is sent for a packet that has been accepted. -/
theorem accepted_of_outcome (h : outcome s inp fate p = .ok (.icmp m)) : p.Accepted := by
  rw [outcome] at h
  obtain ⟨o, ho, h⟩ := bind_eq_ok.mp h
  refine accepted_of_ipInput ho fun hdropped => ?_
  rw [hdropped, if_neg fun hfrag => Outcome.noConfusion hfrag.1] at h
  cases h

/-- The same way leads to a message for a packet that is the same when it is trimmed. -/
theorem outcome_alike (hp' : p.Accepted → p'.Accepted) (ha : p.trimmed.Alike p'.trimmed)
    (h : outcome s inp fate p = .ok (.icmp m)) :
    Resent p.trimmed p'.trimmed (.ok (.icmp m)) (outcome s inp fate p') := by
  have hp := accepted_of_outcome h
  rw [outcome, ipInput_of_accepted hp] at h
  rw [outcome, ipInput_of_accepted (hp' hp), ha.hlen, ha.iphdr]
  obtain ⟨o, ho, h⟩ := bind_eq_ok.mp h
  split at h
  · next hfrag =>
    obtain ⟨rfl, hhlen, hoff⟩ := hfrag
    have ho' : ipInputTrimmed s inp p'.trimmed = .ok .fragment := by
      rw [ipInputTrimmed_eq_fragment, ha.iphdr]
      exact ipInputTrimmed_eq_fragment.mp ho
    have hif : (Except.ok Outcome.fragment >>= fun o =>
        if o = .fragment ∧ p.trimmed.hlen = IP_HLEN ∧ p.trimmed.iphdr.fragOffset = 0 then
          fate.outcome s p'.trimmed
        else .ok o) = fate.outcome s p'.trimmed := if_pos ⟨rfl, hhlen, hoff⟩
    rw [ho', hif]
    exact Fate.outcome_alike ha h
  · cases h
    have hsent := ha.ipInputTrimmed ho
    generalize ipInputTrimmed s inp p'.trimmed = x at hsent ⊢
    cases hsent with
    | mk type code mem mem' hhdr hdata => exact .mk type code mem mem' hhdr hdata

/-- With a packet that is trimmed to `iphdr_len`, the first pbuf is. -/
theorem Arrived.Accepted.trimmed_len (hp : p.Accepted) :
    p.trimmed.len = min p.len p.iphdr.len.toNat := by
  have hlen := hp.len
  rw [InPacket.totLen] at hlen
  rw [Arrived.trimmed, InPacket.totLen]
  split
  · omega
  · dsimp only
    split
    · omega
    · omega

/-- What the packet holds is not changed. -/
theorem Arrived.trimmed_mem {i : ℕ} (hi : i < p.len) (hi' : i < p.iphdr.len.toNat) :
    p.trimmed.mem i = p.mem i := by
  rw [Arrived.trimmed]
  split
  · rfl
  · exact p.left_eq i hi hi'

/-! ## Octets of the packet only -/

/-- A cut depends on the lengths and the octets that are left. -/
theorem pbufRealloc_congr {q q' : List (List UInt8)} {n : ℕ}
    (hlens : q'.map List.length = q.map List.length)
    (h : q'.flatten.take n = q.flatten.take n) : Slip.pbufRealloc q' n = Slip.pbufRealloc q n := by
  induction q generalizing q' n with
  | nil => rw [List.map_eq_nil_iff.mp hlens]
  | cons b q ih =>
    obtain _ | ⟨b', q'⟩ := q'
    · cases hlens
    obtain ⟨hlen, hlens⟩ := List.cons.inj hlens
    rw [List.flatten_cons, List.flatten_cons, List.take_append, List.take_append, hlen] at h
    obtain ⟨hb, hq⟩ := List.append_inj h (by rw [List.length_take, List.length_take, hlen])
    rw [Slip.pbufRealloc, Slip.pbufRealloc, hlen]
    split
    · next hlt =>
      rw [List.take_of_length_le (by omega), List.take_of_length_le (by omega)] at hb
      rw [hb, ih hlens hq]
    · rw [hb]

namespace Arrived.Agrees

/-- The pbufs have the same lengths. -/
theorem totLen (h : p.Agrees p') : p'.totLen = p.totLen := by
  have hlens := congrArg List.sum h.lens
  rw [← List.length_flatten, ← List.length_flatten] at hlens
  rw [InPacket.totLen, InPacket.totLen, h.len, hlens]

/-- Packets that agree have the same header. -/
theorem iphdr (h : p.Agrees p') (hp : p.Accepted) (hlen : IP_HLEN ≤ p.trimmed.len) :
    p'.iphdr = p.iphdr := by
  rw [hp.trimmed_len] at hlen
  exact hdrAt_congr fun i hi => h.mem i (by omega) (by omega)

/-- Packets that agree both have a right header. -/
theorem accepted (h : p.Agrees p') (hlen : IP_HLEN ≤ p.trimmed.len) (hhlen : p.hlen ≤ p.trimmed.len)
    (hp : p.Accepted) : p'.Accepted := by
  have hiphdr := h.iphdr hp hlen
  have hhlen' : p'.hlen = p.hlen := by rw [InPacket.hlen, InPacket.hlen, hiphdr]
  have hoctets : octetsFrom p'.mem 0 p.hlen = octetsFrom p.mem 0 p.hlen := by
    rw [hp.trimmed_len] at hhlen
    exact octetsFrom_congr fun i hi => h.mem i (by omega) (by omega)
  refine ⟨?_, ?_, ?_, ?_⟩
  · rw [hiphdr]
    exact hp.version
  · rw [hhlen', h.len]
    exact hp.hlen
  · rw [hiphdr, h.totLen]
    exact hp.len
  · rw [hhlen', hoctets]
    exact hp.chksum

/-- Once they are trimmed, two packets with the same octets are the same. -/
theorem alike (h : p.Agrees p') (hp : p.Accepted) (hlen : IP_HLEN ≤ p.trimmed.len) :
    p.trimmed.Alike p'.trimmed := by
  have hiphdr := h.iphdr hp hlen
  have htrimmed := hp.trimmed_len
  have hmem : ∀ i < p.trimmed.len, p'.trimmed.mem i = p.trimmed.mem i := by
    intro i hi
    have hlt : i < p.len := by omega
    have hlt' : i < p.iphdr.len.toNat := by omega
    have hmem' : p'.trimmed.mem i = p'.mem i := trimmed_mem (by rwa [h.len]) (by rwa [hiphdr])
    rw [hmem', trimmed_mem hlt hlt']
    exact h.mem i hlt hlt'
  refine ⟨?_, ?_, ?_, hmem, fun i hi => hmem i (by omega)⟩
  · rw [trimmed, trimmed, h.totLen, hiphdr]
    split
    · exact h.type
    · exact h.type
  · rw [trimmed, trimmed, h.totLen, hiphdr]
    split
    · exact h.len
    · dsimp only
      rw [h.len]
  · rw [trimmed, trimmed, h.totLen, hiphdr]
    split
    · -- Nothing is cut off, so that all octets are octets of the packet.
      next hall =>
      rw [InPacket.totLen] at hall
      have hrest := h.rest
      have hsame := congrArg List.sum h.lens
      rw [← List.length_flatten, ← List.length_flatten] at hsame
      rw [List.take_of_length_le (by omega), List.take_of_length_le (by omega)] at hrest
      exact List.eq_iff_flatten_eq.mpr ⟨hrest, h.lens⟩
    · dsimp only
      rw [h.len]
      split
      · exact pbufRealloc_congr h.lens h.rest
      · rfl

end Arrived.Agrees

/-- Another octet at the end does not verify. -/
theorem inetChksum_ne_zero {mem mem' : ℕ → UInt8} {n : ℕ} (heven : n % 2 = 0) (hn : n + 2 ≤ 60)
    (h : inetChksum (octetsFrom mem 0 (n + 2)) = 0) (hsame : ∀ i < n + 1, mem' i = mem i)
    (hne : mem' (n + 1) ≠ mem (n + 1)) : inetChksum (octetsFrom mem' 0 (n + 2)) ≠ 0 := by
  have hsplit : ∀ mem, octetsFrom mem 0 (n + 2) = octetsFrom mem 0 n ++ [mem n, mem (n + 1)] := by
    intro mem
    rw [octetsFrom, List.range'_concat, List.range'_concat, List.map_append,
      List.map_append, octetsFrom]
    simp
  have hlength : ∀ mem, (octetsFrom mem 0 n).length = n := fun mem => by
    rw [octetsFrom, List.length_map, List.length_range']
  have hlen : ∀ mem, (octetsFrom mem 0 (n + 2)).length ≤ 0xffff := fun mem => by
    rw [octetsFrom, List.length_map, List.length_range']
    omega
  have hvalue : ∀ mem, inetChksum (octetsFrom mem 0 (n + 2)) = 0 →
      (value (octetsFrom mem 0 n) + ((mem n).toNat + 256 * (mem (n + 1)).toNat)) % 0xffff = 0 := by
    intro mem hzero
    have hfull := (inetChksum_eq_zero_iff (hlen mem)).mp hzero
    have heven' : (octetsFrom mem 0 n).length % 2 = 0 := by rw [hlength, heven]
    rw [hsplit] at hfull
    have hmod := ((rep_append_even heven' _).symm.trans hfull).1
    rw [value_cons, value_cons, value_nil, Nat.ModEq, Nat.mod_self] at hmod
    omega
  intro h'
  have hold := hvalue mem h
  have hnew := hvalue mem' h'
  have hlow : octetsFrom mem' 0 n = octetsFrom mem 0 n := octetsFrom_congr fun i hi =>
    hsame i (by omega)
  rw [hlow, hsame n (by omega)] at hnew
  have hb := (mem (n + 1)).toNat_lt
  have hb' := (mem' (n + 1)).toNat_lt
  -- The two octets differ by less than a multiple of the largest word can.
  refine hne (UInt8.toNat_inj.mp ?_)
  omega

/-- The packet with another octet in memory, behind the header. -/
def Arrived.behind (p : Arrived) (j : ℕ) (b : UInt8) (hj : IP_HLEN ≤ j) : Arrived where
  type := p.type
  mem := Function.update p.mem j b
  len := p.len
  rest := p.rest
  left := Function.update p.left j b
  left_eq i hi hi' := by
    rw [hdrAt_congr fun i hi => Function.update_of_ne (by omega) b p.mem] at hi'
    by_cases hij : i = j
    · -- The octet is changed in both memories.
      rw [hij, Function.update_self, Function.update_self]
    · rw [Function.update_of_ne hij, Function.update_of_ne hij, p.left_eq i hi hi']

/-- The packet with another octet in memory, which is not changed when it is trimmed. -/
def Arrived.altered (p : Arrived) (j : ℕ) (b : UInt8) : Arrived where
  type := p.type
  mem := Function.update p.mem j b
  len := p.len
  rest := p.rest
  left := Function.update p.mem j b
  left_eq _ _ _ := rfl

/-- An octet behind the header is not in it. -/
theorem Arrived.iphdr_behind (p : Arrived) (j : ℕ) (b : UInt8) (hj : IP_HLEN ≤ j) :
    (p.behind j b hj).iphdr = p.iphdr :=
  hdrAt_congr fun i hi => Function.update_of_ne (by omega) _ _

/-- An octet behind the header is trimmed like the others. -/
theorem Arrived.trimmed_behind (p : Arrived) (j : ℕ) (b : UInt8) (hj : IP_HLEN ≤ j) :
    (p.behind j b hj).trimmed = { p.trimmed with mem := Function.update p.trimmed.mem j b } := by
  have htot : (p.behind j b hj).totLen = p.totLen := rfl
  rw [trimmed, trimmed, iphdr_behind, htot]
  split
  · rfl
  · rfl

/-- An octet is not its successor. -/
theorem octet_succ_ne (b : UInt8) : b + 1 ≠ b := by
  intro h
  have hnat := congrArg UInt8.toNat h
  rw [UInt8.toNat_add] at hnat
  have hlt := b.toNat_lt
  have hone : (1 : UInt8).toNat = 1 := rfl
  omega

/-- The last octet of the message is from behind the packet. -/
theorem not_onlyItsOwn_of_short (h : outcome s inp fate p = .ok (.icmp m))
    (hhlen : p.hlen ≤ p.trimmed.len)
    (hshort : p.trimmed.len < IP_HLEN + ICMP_DEST_UNREACH_DATASIZE) :
    ¬ OnlyItsOwn s inp fate p := by
  have hp := accepted_of_outcome h
  have htrimmed := hp.trimmed_len
  have hlast : IP_HLEN + ICMP_DEST_UNREACH_DATASIZE = 28 := rfl
  have hIP : IP_HLEN = 20 := rfl
  have hhl : p.hlen = p.iphdr.hl * 4 := rfl
  -- The packet with another octet there.
  let p' := p.behind 27 (p.trimmed.mem 27 + 1) (by decide)
  have hother : ∀ {i}, i ≠ 27 → p'.mem i = p.mem i := fun hi => Function.update_of_ne hi _ _
  have hiphdr : p'.iphdr = p.iphdr := p.iphdr_behind _ _ _
  have hhlen' : p'.hlen = p.hlen := by rw [InPacket.hlen, InPacket.hlen, hiphdr]
  have htrim : p'.trimmed =
      { p.trimmed with mem := Function.update p.trimmed.mem 27 (p.trimmed.mem 27 + 1) } :=
    p.trimmed_behind _ _ _
  have halike : p.trimmed.Alike p'.trimmed := by
    have hcut : ∀ i, i ≠ 27 → p'.trimmed.mem i = p.trimmed.mem i := fun i hi => by
      rw [htrim]
      exact Function.update_of_ne hi _ _
    refine ⟨?_, ?_, ?_, fun i hi => hcut i (by omega), fun i hi => hcut i (by omega)⟩
    · rw [htrim]
    · rw [htrim]
    · rw [htrim]
  have haccepted : p.Accepted → p'.Accepted := by
    rintro ⟨hversion, hlen, htot, hchksum⟩
    have hoctets : octetsFrom p'.mem 0 p.hlen = octetsFrom p.mem 0 p.hlen :=
      octetsFrom_congr fun i hi => hother (by omega)
    refine ⟨by rwa [hiphdr], by rwa [hhlen'], by rwa [hiphdr], ?_⟩
    rwa [hhlen', hoctets]
  have hresent := outcome_alike haccepted halike h
  intro hown
  refine hresent.ne (i := 27) (by decide) (by decide) ?_ ((hown p' ?_).trans h)
  · have hmem : p'.trimmed.mem 27 = p.trimmed.mem 27 + 1 := by
      rw [htrim]
      exact Function.update_self 27 (p.trimmed.mem 27 + 1) p.trimmed.mem
    rw [hmem]
    exact octet_succ_ne _
  · exact ⟨rfl, rfl, fun i hi hi' => hother (by omega), rfl, rfl⟩

/-- The checksum of the header covers octets from behind the packet. -/
theorem not_onlyItsOwn_of_hlen (h : outcome s inp fate p = .ok (.icmp m))
    (hhlen : p.trimmed.len < p.hlen) : ¬ OnlyItsOwn s inp fate p := by
  have hp := accepted_of_outcome h
  have htrimmed := hp.trimmed_len
  have hlen := hp.hlen
  have hhl : p.hlen = p.iphdr.hl * 4 := rfl
  have hle := p.iphdr.hl_le
  obtain ⟨n, hn⟩ : ∃ n, p.hlen = n + 2 := ⟨p.hlen - 2, by omega⟩
  let p' := p.altered (n + 1) (p.mem (n + 1) + 1)
  have hother : ∀ {i}, i ≠ n + 1 → p'.mem i = p.mem i := fun hi => Function.update_of_ne hi _ _
  -- The length of the header is in front of that.
  have hword : p'.iphdr.v_hl_tos = p.iphdr.v_hl_tos := wordAt_congr fun i hi => hother (by omega)
  have hhlen' : p'.hlen = p.hlen := by
    rw [InPacket.hlen, InPacket.hlen, IpHdr.hl, IpHdr.hl, hword]
  have hne : p'.mem (n + 1) ≠ p.mem (n + 1) := by
    change Function.update p.mem (n + 1) (p.mem (n + 1) + 1) (n + 1) ≠ _
    rw [Function.update_self]
    exact octet_succ_ne _
  have hchksum := hp.chksum
  rw [hn] at hchksum
  have hrejected : ¬ p'.Accepted := by
    rintro ⟨-, -, -, hzero⟩
    rw [hhlen', hn] at hzero
    exact inetChksum_ne_zero (by omega) (by omega) hchksum (fun i hi => hother (by omega)) hne hzero
  intro hown
  refine hrejected (accepted_of_outcome ((hown p' ?_).trans h))
  exact ⟨rfl, rfl, fun i hi hi' => hother (by omega), rfl, rfl⟩

/-- The messages that are sent for a packet show octets of it only, exactly if its first pbuf, its
length and its header are of the right size. -/
theorem onlyItsOwn_iff (s : IpSystem) (inp : IpNetif) (fate : Fate) (p : Arrived) (m : IcmpMsg)
    (h : outcome s inp fate p = .ok (.icmp m)) : OnlyItsOwn s inp fate p ↔ p.Holds := by
  have hp := accepted_of_outcome h
  have htrimmed := hp.trimmed_len
  have hlen := hp.hlen
  have hIP : IP_HLEN ≤ IP_HLEN + ICMP_DEST_UNREACH_DATASIZE := Nat.le_add_right _ _
  have hholds : p.Holds ↔ IP_HLEN + ICMP_DEST_UNREACH_DATASIZE ≤ p.trimmed.len ∧
      p.hlen ≤ p.trimmed.len := by
    rw [Arrived.Holds]
    omega
  rw [hholds]
  constructor
  · intro hown
    by_contra hno
    -- Either the checksum, or else the message reads behind the packet.
    rcases Nat.lt_or_ge p.trimmed.len p.hlen with hlt | hge
    · exact not_onlyItsOwn_of_hlen h hlt hown
    · exact not_onlyItsOwn_of_short h hge (by omega) hown
  · rintro ⟨hdata, hhlen⟩ p' hagrees
    have halike := hagrees.alike hp (by omega)
    have hresent := outcome_alike (hagrees.accepted (by omega) hhlen) halike h
    rw [h]
    exact hresent.eq fun i hi => halike.mem i (by omega)

end Arrived

/-- A packet from 10.0.0.1 to 10.0.0.2 with an unknown protocol, in one pbuf of the pool. -/
def unknownProto (len chksum : BitVec 16) : Arrived where
  type := .POOL
  mem := smemcpy (fun _ => 0)
    { v_hl_tos := 0x4500, len := len, id := 1, offset := 0, ttl_proto := 0x4063, chksum := chksum,
      src := 0x0a000001, dest := 0x0a000002 : IpHdr }.octets
  len := len.toNat
  rest := []
  left := smemcpy (fun _ => 0)
    { v_hl_tos := 0x4500, len := len, id := 1, offset := 0, ttl_proto := 0x4063, chksum := chksum,
      src := 0x0a000001, dest := 0x0a000002 : IpHdr }.octets
  left_eq _ _ _ := rfl

/-- The interface 10.0.0.2/8. -/
def unknownNetif : IpNetif := ⟨1, ⟨0x0a000002, 0xff000000, 0, Netif.ethzero, true⟩, true⟩

/-- A system with that interface. -/
def unknownSystem : IpSystem := ⟨[unknownNetif], none, [], false, true⟩

/-- A message with eight octets shows its own packet only. -/
theorem onlyItsOwn_iff_eight :
    OnlyItsOwn unknownSystem unknownNetif (.freed []) (unknownProto 28 0x667c) :=
  (onlyItsOwn_iff unknownSystem unknownNetif (.freed []) (unknownProto 28 0x667c)
    (icmpMsg (unknownProto 28 0x667c).mem ICMP_DUR ICMP_DUR_PROTO) (by decide +kernel)).mpr
    ⟨by decide +kernel, by decide +kernel, by decide +kernel⟩

/-- The message for a packet without data shows eight octets from behind it. -/
theorem message_shows_memory :
    outcome unknownSystem unknownNetif (.freed []) (unknownProto 20 0x6684) =
        .ok (.icmp (icmpMsg (unknownProto 20 0x6684).mem ICMP_DUR ICMP_DUR_PROTO)) ∧
      ¬ OnlyItsOwn unknownSystem unknownNetif (.freed []) (unknownProto 20 0x6684) := by
  have hsent : outcome unknownSystem unknownNetif (.freed []) (unknownProto 20 0x6684) =
      .ok (.icmp (icmpMsg (unknownProto 20 0x6684).mem ICMP_DUR ICMP_DUR_PROTO)) := by
      decide +kernel
  exact ⟨hsent, not_onlyItsOwn_of_short hsent (by decide +kernel) (by decide +kernel)⟩

end Lwip.Ip
