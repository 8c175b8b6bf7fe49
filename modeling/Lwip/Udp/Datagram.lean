import Mathlib.Data.List.Find
import Lwip.Ip.Fragment
import Lwip.Ip.IcmpError
import Lwip.Udp.Demux

/-!
# A datagram from one host to another

`udp_sendto_if` puts a header in front of the data, with a checksum over the pseudo header, and
`ip_output_if` another one. On the other side `ip_input` and `udp_input` check both headers, and
hand what is behind them to a pcb. Between the two the octets may be split into pbufs in another
way, and padding of the link may follow them.

`udp_round_trip` says that the data arrive as they were sent, with the address and the port of the
sender. `udp_altered_octet` says what the checksum is good for: a datagram one octet of which was
changed on the way is dropped, or what arrives is what was sent.
-/

namespace Lwip.Udp

open Ip
open Netif (NetIf ipAddrIsbroadcast ipAddrIsmulticast)

/-! ## Sending -/

/-- `UDP_FLAGS_NOCHKSUM`. -/
def UDP_FLAGS_NOCHKSUM : UInt8 := 0x01

/-- `struct udp_hdr`, in host order, but the checksum as it is stored. -/
structure UdpHdr where
  src : BitVec 16
  dest : BitVec 16
  len : BitVec 16
  chksum : BitVec 16 := 0
  deriving DecidableEq, Repr

/-- The `UDP_HLEN` octets of a header. -/
def UdpHdr.octets (h : UdpHdr) :
    List UInt8 := be16 h.src ++ be16 h.dest ++ be16 h.len ++ store16 h.chksum.toNat

/-- The results of the functions that send, `err_t`. -/
inductive SendErr where
  | ERR_OK | ERR_MEM | ERR_BUF | ERR_VAL | ERR_USE
  deriving DecidableEq, Repr

/-- What memory there is for the headers. -/
structure Room where
  /-- `pbuf_header(p, UDP_HLEN)` finds room in front of the data. -/
  udp : Bool
  /-- `pbuf_alloc(PBUF_IP, UDP_HLEN, PBUF_RAM)` returns a pbuf. -/
  alloc : Bool
  /-- `pbuf_header(p, IP_HLEN)` finds room in front of the UDP header, if that is in the pbuf of the
  data. -/
  ip : Bool
  deriving DecidableEq, Repr

/-- `ip_output_if(p, src, dest, ttl, tos, proto, netif)` up to where the packet is passed to
`ip_frag` or to `netif->output`. The first pbuf is known to hold what `pbuf_header` has put
there. -/
def ipOutputIf (room : Bool) (first : List UInt8) (rest : List (List UInt8)) (src dest : IpAddr)
    (ttl tos proto : UInt8) (netif : NetIf) (ip_id : BitVec 16) : SendErr × Option Outgoing :=
  if !room then (.ERR_BUF, none)
  else
    let iphdr : IpHdr := {
      v_hl_tos := BitVec.ofNat 16 (4 * 2^12 + IP_HLEN / 4 * 2^8 + tos.toNat)
      len := BitVec.ofNat 16 (IP_HLEN + (first :: rest).flatten.length)
      id := ip_id
      offset := 0
      ttl_proto := BitVec.ofNat 16 (ttl.toNat * 2^8 + proto.toNat)
      chksum := 0
      src := if src = 0 then netif.ip_addr else src
      dest }
    (.ERR_OK, some ⟨{ iphdr with chksum := inetChksum iphdr.octets }, first, rest⟩)

/-- The chain with the UDP header, in the first pbuf or in one of its own. -/
def withHeader (room : Bool) (hdr : UdpHdr) (first : List UInt8) (rest : List (List UInt8)) :
    List UInt8 × List (List UInt8) :=
  if room then (hdr.octets ++ first, rest) else (hdr.octets, first :: rest)

/-- `udp_sendto_if` for a pcb with a port. -/
def udpSend (pcb : UdpPcb) (first : List UInt8) (rest : List (List UInt8)) (dst_ip : IpAddr)
    (dst_port : BitVec 16) (netif : NetIf) (ttl tos : UInt8) (room : Room) (ip_id : BitVec 16) :
    SendErr × Option Outgoing :=
  -- not enough space to add an UDP header to first pbuf in given p chain, and none for another pbuf
  if !room.udp && !room.alloc then (.ERR_MEM, none)
  -- this could be an old address if netif->ip_addr has changed
  else if pcb.local_ip ≠ 0 ∧ pcb.local_ip ≠ netif.ip_addr then (.ERR_VAL, none)
  else
    let src_ip := if pcb.local_ip = 0 then netif.ip_addr else pcb.local_ip
    let tot_len := BitVec.ofNat 16 (UDP_HLEN + (first :: rest).flatten.length)
    let udphdr : UdpHdr :=
      { src := BitVec.ofNat 16 pcb.local_port, dest := dst_port, len := tot_len }
    let q := withHeader room.udp udphdr first rest
    let udphdr := if pcb.flags &&& UDP_FLAGS_NOCHKSUM = 0 then
        let chksum := inetChksumPseudo (q.1 :: q.2) (netOrder src_ip) (netOrder dst_ip)
          (UInt8.ofNat IP_PROTO_UDP) tot_len
        -- chksum zero must become 0xffff, as zero means 'no checksum'
        { udphdr with chksum := if chksum = 0 then 0xffff else chksum }
      else udphdr
    let q := withHeader room.udp udphdr first rest
    ipOutputIf (room.ip || !room.udp) q.1 q.2 src_ip dst_ip ttl tos
      (UInt8.ofNat IP_PROTO_UDP) netif ip_id

/-- `udp_sendto_if`. A pcb without a port is bound first. -/
def udpSendtoIf (fuel : ℕ) (s : Pcbs) (pcb : ℕ) (first : List UInt8) (rest : List (List UInt8))
    (dst_ip : IpAddr) (dst_port : BitVec 16) (netif : NetIf) (ttl tos : UInt8) (room : Room)
    (ip_id : BitVec 16) : Except Abort (Pcbs × SendErr × Option Outgoing) :=
  (if (s.pcbs pcb).local_port = 0 then udpBind fuel s pcb (some (s.pcbs pcb).local_ip) 0
    else .ok (s, .ERR_OK)) >>= fun bound =>
  .ok (bound.1, if bound.2 ≠ .ERR_OK then (.ERR_USE, none)
    else udpSend (bound.1.pcbs pcb) first rest dst_ip dst_port netif ttl tos room ip_id)

/-! ## Receiving -/

/-- The call of `pcb->recv`: the pcb, what the pbufs hold, and whom it is from. -/
structure RecvCall where
  pcb : Ip.UdpPcb
  p : List UInt8
  addr : IpAddr
  port : BitVec 16
  deriving DecidableEq, Repr

/-- The pcb that `udp_input` finds. -/
def foundPcb (s : IpSystem) (inp : IpNetif) (p : InPacket) : Option Ip.UdpPcb :=
  udpFind s.udp_pcbs (ipAddrIsbroadcast p.iphdr.dest inp.netif) p.iphdr (wordAt p.mem p.hlen)
    (wordAt p.mem (p.hlen + 2))

/-- The call that `udp_input` makes when it passes the packet on, behind both headers. -/
def recvCall (s : IpSystem) (inp : IpNetif) (p : InPacket) : Option RecvCall :=
  (foundPcb s inp p).map fun pcb => {
    pcb
    p := octetsFrom p.mem (p.hlen + UDP_HLEN) (p.len - (p.hlen + UDP_HLEN)) ++ p.rest.flatten
    addr := p.iphdr.src
    port := wordAt p.mem p.hlen }

/-- The octets of a packet. -/
def octets (p : InPacket) : List UInt8 := octetsFrom p.mem 0 p.len ++ p.rest.flatten

/-! ## Memory -/

section Memory

variable {mem : ℕ → UInt8} {addr n m : ℕ} {l : List UInt8}

/-- So many octets are read. -/
theorem length_octetsFrom : (octetsFrom mem addr n).length = n := by
  rw [octetsFrom, List.length_map, List.length_range']

/-- Octets in two parts. -/
theorem octetsFrom_add :
    octetsFrom mem addr (n + m) = octetsFrom mem addr n ++ octetsFrom mem (addr + n) m := by
  rw [octetsFrom, octetsFrom, octetsFrom, ← List.map_append, List.range'_append_1]

/-- The octets of a word in network byte order. -/
theorem wordAt_be16 {w : BitVec 16} (h : octetsFrom mem addr 2 = be16 w) : wordAt mem addr = w := by
  obtain ⟨h0, h1⟩ : mem addr = UInt8.ofNat (w.toNat / 2^8) ∧
      mem (addr + 1) = UInt8.ofNat (w.toNat % 2^8) := by
    simpa [octetsFrom, be16, List.range'] using h
  have hw : w.toNat < 2^16 := w.isLt
  apply BitVec.eq_of_toNat_eq
  rw [wordAt, h0, h1, ntohs, toNat_high_octet hw, toNat_low_octet, BitVec.toNat_ofNat]
  omega

/-- The two halves of a number of four octets. -/
theorem halves_toNat {x y n : ℕ} (hx : x < 2^16) (hy : y < 2^16) (hn : n < 2^32)
    (hhi : x % 2^16 = n / 2^16 % 2^16) (hlo : y % 2^16 = n / 2^0 % 2^16) :
    (x * 2^16 + y) % 2^32 = n := by
  rw [Nat.mod_eq_of_lt hx, Nat.mod_eq_of_lt (a := n / 2^16) (by omega)] at hhi
  rw [Nat.mod_eq_of_lt hy, Nat.pow_zero, Nat.div_one] at hlo
  have hsum : x * 2^16 + y = n := by
    rw [hhi, hlo]
    omega
  rw [hsum, Nat.mod_eq_of_lt hn]

/-- An address that is stored as two words is read. -/
theorem longAt_be16 {a : BitVec 32} (h : octetsFrom mem addr 2 = be16 (a.extractLsb' 16 16))
    (h' : octetsFrom mem (addr + 2) 2 = be16 (a.extractLsb' 0 16)) : longAt mem addr = a := by
  have hhi := congrArg BitVec.toNat (wordAt_be16 h)
  have hlo := congrArg BitVec.toNat (wordAt_be16 h')
  rw [wordAt, BitVec.toNat_ofNat, BitVec.extractLsb'_toNat, ntohs,
    Nat.shiftRight_eq_div_pow] at hhi hlo
  apply BitVec.eq_of_toNat_eq
  rw [longAt, BitVec.toNat_ofNat, ntohl, ntohs, ntohs, ← Nat.add_assoc addr 2 1]
  have h0 := (mem addr).toNat_lt
  have h1 := (mem (addr + 1)).toNat_lt
  have h2 := (mem (addr + 2)).toNat_lt
  have h3 := (mem (addr + 2 + 1)).toNat_lt
  have ha : a.toNat < 2^32 := a.isLt
  exact halves_toNat (by omega) (by omega) ha hhi hlo

/-- The octets of a header are read as this header. -/
theorem hdrAt_octets {h : IpHdr} (hmem : octetsFrom mem 0 IP_HLEN = h.octets) : hdrAt mem = h := by
  -- Each word has its two octets.
  have hwords : octetsFrom mem 0 2 = be16 h.v_hl_tos ∧ octetsFrom mem 2 2 = be16 h.len ∧
      octetsFrom mem 4 2 = be16 h.id ∧ octetsFrom mem 6 2 = be16 h.offset ∧
      octetsFrom mem 8 2 = be16 h.ttl_proto ∧ octetsFrom mem 10 2 = be16 h.chksum ∧
      octetsFrom mem 12 2 = be16 (h.src.extractLsb' 16 16) ∧
      octetsFrom mem 14 2 = be16 (h.src.extractLsb' 0 16) ∧
      octetsFrom mem 16 2 = be16 (h.dest.extractLsb' 16 16) ∧
      octetsFrom mem 18 2 = be16 (h.dest.extractLsb' 0 16) := by
    simpa [octetsFrom, IP_HLEN, List.range', IpHdr.octets, IpHdr.words, be16, and_assoc] using hmem
  obtain ⟨h0, h2, h4, h6, h8, h10, h12, h14, h16, h18⟩ := hwords
  have hsrc : longAt mem 12 = h.src := longAt_be16 h12 h14
  have hdest : longAt mem 16 = h.dest := longAt_be16 h16 h18
  rw [hdrAt, wordAt_be16 h0, wordAt_be16 h2, wordAt_be16 h4, wordAt_be16 h6, wordAt_be16 h8,
    wordAt_be16 h10, hsrc, hdest]

end Memory

/-! ## What is sent -/

/-- The source address. -/
def srcIp (pcb : UdpPcb) (netif : NetIf) : IpAddr := if pcb.local_ip = 0 then netif.ip_addr
    else pcb.local_ip

/-- A datagram as it is sent: the data behind a UDP header, behind an IP header, with checksums that
are right. -/
structure Sends (src dest : IpAddr) (udphdr : UdpHdr) (data : List UInt8) (out : Outgoing) :
    Prop where
  payload : out.payload = udphdr.octets ++ data
  version : out.iphdr.v_hl_tos.toNat / 2^12 = 4
  hl : out.iphdr.hl * 4 = IP_HLEN
  len : out.iphdr.len.toNat = IP_HLEN + out.payload.length
  offset : out.iphdr.offset = 0
  proto : out.iphdr.proto = IP_PROTO_UDP
  src_eq : out.iphdr.src = src
  dest_eq : out.iphdr.dest = dest
  hdr : inetChksum out.iphdr.octets = 0
  chksum : udphdr.chksum ≠ 0 → Rep 0xffff (value (pseudoHeader (netOrder src) (netOrder dest)
    (UInt8.ofNat IP_PROTO_UDP) (BitVec.ofNat 16 out.payload.length)) + value out.payload) 0xffff

section Send

variable {pcb : UdpPcb} {first : List UInt8} {rest : List (List UInt8)} {dst_ip : IpAddr}
  {dst_port ip_id : BitVec 16} {netif : NetIf} {ttl tos : UInt8} {room : Room} {out : Outgoing}
  {src dest : IpAddr} {proto protoLen : BitVec 16} {udphdr : UdpHdr} {data : List UInt8}

/-- A header has 8 octets. -/
theorem UdpHdr.length_octets (h : UdpHdr) : h.octets.length = UDP_HLEN := by
  simp [UdpHdr.octets, be16, store16, UDP_HLEN]

/-- The header is in front of the data, in a pbuf of its own or not. -/
theorem flatten_withHeader (b : Bool) (h : UdpHdr) :
    ((withHeader b h first rest).1 :: (withHeader b h first rest).2).flatten =
      h.octets ++ (first :: rest).flatten := by
  unfold withHeader
  cases b <;> simp

/-- The test of `inet_chksum_pseudo` is passed by octets that stand, with the pseudo header, for the
second zero. -/
theorem inetChksumPseudo_eq_zero_iff {p : List (List UInt8)} (hp : ∀ q ∈ p, q.length ≤ 0xffff)
    {proto : UInt8} : inetChksumPseudo p src dest proto protoLen = 0 ↔
      Rep 0xffff (value (pseudoHeader src dest proto protoLen) + value p.flatten) 0xffff := by
  obtain ⟨sum, hsum, heq, hrep⟩ := inetChksumPseudo_spec hp src dest proto protoLen
  have hzero : (0 : BitVec 16).toNat = 0 := rfl
  rw [← BitVec.toNat_inj, heq, hzero]
  constructor
  · intro h
    obtain rfl : sum = 0xffff := by omega
    exact hrep.symm
  · intro h
    rw [(hrep.trans h).unique (.refl _ _) hsum (Nat.le_refl _)]

/-- With the checksum in the header, the octets verify. -/
theorem chksum_verifies {ps qs : List (List UInt8)} {c : BitVec 16} {proto : UInt8}
    (hp : ∀ q ∈ ps, q.length ≤ 0xffff) (hf : Filled c ps qs)
    (hc : c = if inetChksumPseudo ps src dest proto protoLen = 0 then 0xffff
      else inetChksumPseudo ps src dest proto protoLen) :
    Rep 0xffff (value (pseudoHeader src dest proto protoLen) + value qs.flatten) 0xffff := by
  obtain ⟨sum, hsum, heq, hrep⟩ := inetChksumPseudo_spec hp src dest proto protoLen
  have hadd : Rep 0xffff (value (pseudoHeader src dest proto protoLen) + value qs.flatten)
      (sum + c.toNat) := by
    refine ((Rep.refl _ _).add hf.rep).trans ?_
    rw [← Nat.add_assoc]
    exact hrep.symm.add (.refl _ _)
  refine hadd.trans ?_
  split at hc
  · next hzero =>
    -- The sum is the second zero already, and so is the checksum.
    have hfull : sum = 0xffff := by
      rw [hzero] at heq
      have hz : (0 : BitVec 16).toNat = 0 := rfl
      omega
    rw [hc, hfull]
    exact ⟨by decide, by decide⟩
  · rw [hc, heq, Nat.add_sub_cancel' hsum]
    exact .refl _ _

/-- What `ip_output_if` puts in front. -/
theorem ipOutputIf_ok {b : Bool} {proto : UInt8}
    (hlen : IP_HLEN + (first :: rest).flatten.length ≤ 0xffff) (hproto : proto.toNat = IP_PROTO_UDP)
    (h : ipOutputIf b first rest src dest ttl tos proto netif ip_id = (.ERR_OK, some out)) :
    out.payload = (first :: rest).flatten ∧ out.iphdr.v_hl_tos.toNat / 2^12 = 4 ∧
      out.iphdr.hl * 4 = IP_HLEN ∧ out.iphdr.len.toNat = IP_HLEN + out.payload.length ∧
      out.iphdr.offset = 0 ∧ out.iphdr.proto = IP_PROTO_UDP ∧
      out.iphdr.src = (if src = 0 then netif.ip_addr else src) ∧ out.iphdr.dest = dest ∧
      inetChksum out.iphdr.octets = 0 := by
  unfold ipOutputIf at h
  split at h
  · cases h
  · cases h
    have htos : tos.toNat < 2^8 := tos.toNat_lt
    have httl : ttl.toNat < 2^8 := ttl.toNat_lt
    have hv : 4 * 2^12 + IP_HLEN / 4 * 2^8 + tos.toNat < 2^16 := by
      unfold IP_HLEN
      omega
    refine ⟨rfl, ?_, ?_, ?_, rfl, ?_, rfl, rfl, IpHdr.chksum_valid _⟩
    · dsimp only
      rw [BitVec.toNat_ofNat, Nat.mod_eq_of_lt hv]
      unfold IP_HLEN
      omega
    · rw [IpHdr.hl]
      dsimp only
      rw [BitVec.toNat_and, BitVec.toNat_ushiftRight, BitVec.toNat_ofNat, Nat.mod_eq_of_lt hv,
        Nat.shiftRight_eq_div_pow]
      have hdiv : (4 * 2^12 + IP_HLEN / 4 * 2^8 + tos.toNat) / 2^8 = 0x45 := by
        unfold IP_HLEN
        omega
      rw [hdiv]
      rfl
    · dsimp only
      have hlt : IP_HLEN + (first :: rest).flatten.length < 2^16 :=
        Nat.lt_of_le_of_lt hlen (by decide)
      rw [BitVec.toNat_ofNat, Nat.mod_eq_of_lt hlt, Outgoing.payload]
    · rw [IpHdr.proto]
      dsimp only
      rw [BitVec.toNat_ofNat, hproto]
      unfold IP_PROTO_UDP
      omega

/-- What `udp_sendto_if` passes on. -/
theorem udpSend_ok (hlen : IP_HLEN + UDP_HLEN + (first :: rest).flatten.length ≤ 0xffff)
    (h : udpSend pcb first rest dst_ip dst_port netif ttl tos room ip_id = (.ERR_OK, some out)) :
    ∃ udphdr, Sends (srcIp pcb netif) dst_ip udphdr (first :: rest).flatten out ∧
      udphdr.src = BitVec.ofNat 16 pcb.local_port ∧ udphdr.dest = dst_port ∧
      (pcb.flags &&& UDP_FLAGS_NOCHKSUM = 0 → udphdr.chksum ≠ 0) := by
  unfold udpSend at h
  split at h
  · cases h
  split at h
  · cases h
  dsimp only at h
  rw [← srcIp] at h
  set tot_len := BitVec.ofNat 16 (UDP_HLEN + (first :: rest).flatten.length) with htot
  set hdr₀ : UdpHdr :=
    { src := BitVec.ofNat 16 pcb.local_port, dest := dst_port, len := tot_len } with hhdr₀
  set ps := (withHeader room.udp hdr₀ first rest).1 ::
    (withHeader room.udp hdr₀ first rest).2 with hps
  set chksum := inetChksumPseudo ps (netOrder (srcIp pcb netif)) (netOrder dst_ip)
    (UInt8.ofNat IP_PROTO_UDP) tot_len with hchksum
  generalize hhdr : (if pcb.flags &&& UDP_FLAGS_NOCHKSUM = 0 then
    { hdr₀ with chksum := if chksum = 0 then 0xffff else chksum } else hdr₀) = udphdr at h
  have hflat : ((withHeader room.udp udphdr first rest).1 ::
      (withHeader room.udp udphdr first rest).2).flatten = udphdr.octets ++
      (first :: rest).flatten :=
    flatten_withHeader room.udp udphdr
  have hfields : udphdr.src = hdr₀.src ∧ udphdr.dest = hdr₀.dest ∧ udphdr.len = hdr₀.len := by
    rw [← hhdr]
    split <;> exact ⟨rfl, rfl, rfl⟩
  obtain ⟨hsrc, hdest, hlen'⟩ := hfields
  have hpayload : (udphdr.octets ++ (first :: rest).flatten).length =
      UDP_HLEN + (first :: rest).flatten.length := by rw [List.length_append, udphdr.length_octets]
  obtain ⟨hpay, hv, hhl, hl, hoff, hproto, hs, hd, hsum⟩ := ipOutputIf_ok
    (by rw [hflat, hpayload]; omega) rfl h
  rw [hflat] at hpay
  refine ⟨udphdr, ⟨hpay, hv, hhl, hl, hoff, hproto, ?_, hd, hsum, fun hne => ?_⟩, hsrc, hdest,
    fun hflag => ?_⟩
  · rw [hs]
    unfold srcIp
    by_cases hany : pcb.local_ip = 0
    · rw [if_pos hany, ite_self]
    · rw [if_neg hany, if_neg hany]
  · -- The header has a checksum only if it was computed.
    rw [hpay, hpayload, ← htot]
    have hc : udphdr.chksum = if chksum = 0 then 0xffff else chksum := by
      rw [← hhdr] at hne ⊢
      split at hne
      · next hflag => rw [if_pos hflag]
      · exact absurd rfl hne
    rw [← hflat]
    refine chksum_verifies (fun q hq => ?_) ⟨be16 hdr₀.src ++ be16 hdr₀.dest ++ be16 hdr₀.len,
      (first :: rest).flatten, ?_, ?_, ?_⟩ hc
    · have hle := (List.sublist_flatten_of_mem hq).length_le
      rw [hps, flatten_withHeader, List.length_append, hdr₀.length_octets] at hle
      omega
    · simp [be16]
    · have hzero : store16 (0 : BitVec 16).toNat = [0, 0] := by decide
      have hchk : hdr₀.chksum = 0 := by rw [hhdr₀]
      rw [hps, flatten_withHeader, UdpHdr.octets, hchk, hzero]
    · rw [hflat, UdpHdr.octets, hsrc, hdest, hlen']
  · rw [← hhdr, if_pos hflag]
    dsimp only
    split
    · decide
    · next hne => exact hne

end Send

/-! ## What is received -/

section Receive

variable {q : Arrived} {p : InPacket} {out : Outgoing} {udphdr : UdpHdr}
  {data pad tail : List UInt8}
  {src dest : IpAddr} {sys : IpSystem} {inp : IpNetif} {r : Ip.UdpPcb} {n : ℕ}

/-- A packet has as many octets as its pbufs. -/
theorem length_octets (p : InPacket) : (octets p).length = p.totLen := by
  rw [octets, List.length_append, length_octetsFrom, InPacket.totLen]

/-- The first octets of a packet, if they are in the first pbuf. -/
theorem octetsFrom_of_octets (h : octets p = data ++ tail) (hlen : data.length ≤ p.len) :
    octetsFrom p.mem 0 data.length = data ∧
      octetsFrom p.mem data.length (p.len - data.length) ++ p.rest.flatten = tail := by
  have hsplit : octetsFrom p.mem 0 p.len =
      octetsFrom p.mem 0 data.length ++ octetsFrom p.mem data.length (p.len - data.length) := by
    conv_lhs => rw [← Nat.add_sub_cancel' hlen]
    rw [octetsFrom_add, Nat.zero_add]
  rw [octets, hsplit, List.append_assoc] at h
  exact List.append_inj h length_octetsFrom

/-- The packet is cut off behind the total length of its header. -/
theorem octets_trimmed (h : q.Accepted) :
    octets q.trimmed = (octets q.toInPacket).take q.iphdr.len.toNat := by
  have hlen := h.len
  have hleft : ∀ n ≤ q.len, n ≤ q.iphdr.len.toNat →
      octetsFrom q.left 0 n = octetsFrom q.mem 0 n := by
    intro n hn hn'
    refine octetsFrom_congr fun i hi => ?_
    rw [Nat.zero_add] at hi
    exact q.left_eq i (hi.trans_le hn) (hi.trans_le hn')
  have htake : (octets q.toInPacket).take q.iphdr.len.toNat =
      (octetsFrom q.mem 0 q.len).take q.iphdr.len.toNat ++
        q.rest.flatten.take (q.iphdr.len.toNat - q.len) := by
    rw [octets, List.take_append, length_octetsFrom]
  unfold Arrived.trimmed
  dsimp only
  split
  · rw [List.take_of_length_le (by rw [length_octets]; assumption)]
  · rw [htake]
    unfold octets
    dsimp only
    by_cases hlt : q.len < q.iphdr.len.toNat
    · have hall : (octetsFrom q.mem 0 q.len).take q.iphdr.len.toNat = octetsFrom q.mem 0 q.len :=
        List.take_of_length_le (by rw [length_octetsFrom]; exact hlt.le)
      rw [if_pos hlt, if_pos hlt, hleft _ (Nat.le_refl _) hlt.le, Slip.flatten_pbufRealloc, hall]
    · rw [if_neg hlt, if_neg hlt, hleft _ (by omega) (Nat.le_refl _), List.flatten_nil,
        Nat.sub_eq_zero_of_le (by omega), List.take_zero]
      -- The first pbuf is cut.
      have hsplit : octetsFrom q.mem 0 q.len = octetsFrom q.mem 0 q.iphdr.len.toNat ++
          octetsFrom q.mem q.iphdr.len.toNat (q.len - q.iphdr.len.toNat) := by
        conv_lhs => rw [← Nat.add_sub_cancel' (Nat.le_of_not_lt hlt)]
        rw [octetsFrom_add, Nat.zero_add]
      rw [hsplit, List.take_left' length_octetsFrom]

/-- A packet with this header, which passes the tests, in front of as many octets as the header
says. -/
theorem accepted_of_hdr {h : IpHdr} (hversion : h.v_hl_tos.toNat / 2^12 = 4)
    (hhl : h.hl * 4 = IP_HLEN)
    (hl : h.len.toNat = IP_HLEN + tail.length) (hchksum : inetChksum h.octets = 0)
    (hq : octets q.toInPacket = h.octets ++ tail ++ pad) (hlen : IP_HLEN ≤ q.len) :
    q.Accepted ∧ q.iphdr = h ∧ octets q.trimmed = h.octets ++ tail := by
  rw [List.append_assoc] at hq
  have hhdr := (octetsFrom_of_octets hq (by rw [IpHdr.length_octets]; exact hlen)).1
  rw [IpHdr.length_octets] at hhdr
  have hiphdr : q.iphdr = h := hdrAt_octets hhdr
  have htot := congrArg List.length hq
  rw [length_octets, List.length_append, List.length_append, IpHdr.length_octets] at htot
  have hacc : q.Accepted := by
    refine ⟨?_, ?_, ?_, ?_⟩
    · rw [hiphdr]
      exact hversion
    · rw [InPacket.hlen, hiphdr, hhl]
      exact hlen
    · rw [hiphdr, hl]
      omega
    · rw [InPacket.hlen, hiphdr, hhl, hhdr]
      exact hchksum
  refine ⟨hacc, hiphdr, ?_⟩
  rw [octets_trimmed hacc, hiphdr, hl, hq, ← List.append_assoc]
  refine List.take_left' ?_
  rw [List.length_append, IpHdr.length_octets]

/-- A packet with the header that was sent. -/
theorem accepted_of_octets (hs : Sends src dest udphdr data out)
    (hq : octets q.toInPacket = out.iphdr.octets ++ tail ++ pad)
    (htail : tail.length = out.payload.length) (hlen : IP_HLEN ≤ q.len) :
    q.Accepted ∧ q.iphdr = out.iphdr ∧ octets q.trimmed = out.iphdr.octets ++ tail :=
  accepted_of_hdr hs.version hs.hl (by rw [hs.len, htail]) hs.hdr hq hlen

/-- The words of a UDP header in memory. The checksum is zero if its octets are. -/
structure HdrAt (mem : ℕ → UInt8) (addr : ℕ) (h : UdpHdr) : Prop where
  src : wordAt mem addr = h.src
  dest : wordAt mem (addr + 2) = h.dest
  chksum : wordAt mem (addr + 6) = 0 ↔ h.chksum = 0

/-- A header whose octets are in memory is read. -/
theorem hdrAt_of_octets {mem : ℕ → UInt8} {addr : ℕ} {h : UdpHdr}
    (hmem : octetsFrom mem addr UDP_HLEN = h.octets) : HdrAt mem addr h := by
  have hwords : octetsFrom mem addr 2 = be16 h.src ∧ octetsFrom mem (addr + 2) 2 = be16 h.dest ∧
      octetsFrom mem (addr + 4) 2 = be16 h.len ∧
      octetsFrom mem (addr + 6) 2 = store16 h.chksum.toNat := by
    simpa [octetsFrom, UDP_HLEN, List.range', UdpHdr.octets, be16, store16, and_assoc] using hmem
  obtain ⟨hsrc, hdest, -, hchk⟩ := hwords
  refine ⟨wordAt_be16 hsrc, wordAt_be16 hdest, ?_⟩
  -- The number that the machine reads has its octets the other way round.
  obtain ⟨h0, h1⟩ : mem (addr + 6) = UInt8.ofNat (h.chksum.toNat % 2^8) ∧
      mem (addr + 6 + 1) = UInt8.ofNat (h.chksum.toNat / 2^8) := by
    simpa [octetsFrom, store16, List.range'] using hchk
  have hw : h.chksum.toNat < 2^16 := h.chksum.isLt
  have hzero : ∀ c : BitVec 16, c = 0 ↔ c.toNat = 0 := fun c => by
    rw [← BitVec.toNat_inj]
    rfl
  rw [hzero, hzero, wordAt, h0, h1, ntohs, toNat_high_octet hw, toNat_low_octet, BitVec.toNat_ofNat,
    Nat.mod_eq_of_lt (a := h.chksum.toNat % 2^8 * 2^8 + h.chksum.toNat / 2^8) (by omega)]
  omega

/-- `udp_input` passes a packet on if there is a pcb for it, and its checksum is right or
missing. -/
theorem udpInput_passed_iff : Ip.udpInput sys inp p = .ok .passed ↔
    p.hlen + UDP_HLEN ≤ p.len ∧ (foundPcb sys inp p).isSome ∧ (wordAt p.mem (p.hlen + 6) = 0 ∨
      inetChksumPseudo (octetsFrom p.mem p.hlen (p.len - p.hlen) :: p.rest) (netOrder p.iphdr.src)
        (netOrder p.iphdr.dest) (UInt8.ofNat IP_PROTO_UDP)
        (BitVec.ofNat 16 (p.totLen - p.hlen)) = 0) := by
  constructor
  · intro h
    rw [Ip.udpInput] at h
    split at h
    · cases h
    next hwhole =>
    obtain ⟨_, -, h⟩ := bind_eq_ok.mp h
    dsimp only at h
    rw [← foundPcb] at h
    split at h
    · cases h
    next hours =>
    split at h
    · cases h
    next hchksum =>
    obtain ⟨_, hroom, h⟩ := bind_eq_ok.mp h
    have hroom := lwipAssert_eq_ok.mp hroom
    split at h
    · next hpcb =>
      refine ⟨hroom, Option.ne_none_iff_isSome.mp hpcb, ?_⟩
      by_contra hne
      rw [not_or] at hne
      exact hchksum hne
    -- Nothing else is passed on.
    · split at h
      · cases h
      · obtain ⟨_, -, h⟩ := bind_eq_ok.mp h
        rw [icmpSendResponse] at h
        split at h <;> cases h
  · rintro ⟨hroom, hsome, hchksum⟩
    have hpcb : foundPcb sys inp p ≠ none := Option.ne_none_iff_isSome.mpr hsome
    have hlen : p.len ≤ p.totLen := Nat.le_add_right _ _
    rw [Ip.udpInput, if_neg (by omega)]
    refine bind_eq_ok.mpr ⟨(), lwipAssert_eq_ok.mpr (by omega), ?_⟩
    dsimp only
    rw [← foundPcb, if_neg fun hno => hpcb hno.1, if_neg fun hno => hchksum.elim hno.1 hno.2]
    exact bind_eq_ok.mpr ⟨(), lwipAssert_eq_ok.mpr hroom, if_pos hpcb⟩

/-- What `udp_input` does with a datagram that holds what was sent, or something in its place: the
packet is passed on only if its checksum is right or missing. -/
theorem udpInput_iff (sys : IpSystem) (inp : IpNetif) {h : UdpHdr} {iphdr : IpHdr}
    (hp : octets p = iphdr.octets ++ (h.octets ++ data))
    (hhl : iphdr.hl * 4 = IP_HLEN) (hlen : IP_HLEN + UDP_HLEN ≤ p.len) (hmax : p.totLen ≤ 0xffff) :
    (Ip.udpInput sys inp p = .ok .passed ↔
      (foundPcb sys inp p).isSome ∧ (h.chksum ≠ 0 →
        Rep 0xffff (value (pseudoHeader (netOrder iphdr.src) (netOrder iphdr.dest)
          (UInt8.ofNat IP_PROTO_UDP) (BitVec.ofNat 16 (h.octets ++ data).length)) +
          value (h.octets ++ data)) 0xffff)) ∧
      foundPcb sys inp p = udpFind sys.udp_pcbs (ipAddrIsbroadcast iphdr.dest inp.netif) iphdr h.src
      h.dest ∧ recvCall sys inp p = (foundPcb sys inp p).map (⟨·, data, iphdr.src, h.src⟩) := by
  have hip := octetsFrom_of_octets hp (by rw [IpHdr.length_octets]; omega)
  rw [IpHdr.length_octets] at hip
  obtain ⟨hhdr, hseg⟩ := hip
  have hiphdr : p.iphdr = iphdr := hdrAt_octets hhdr
  have hhlen : p.hlen = IP_HLEN := by rw [InPacket.hlen, hiphdr, hhl]
  -- Behind the IP header come the UDP header and the data.
  have hsplit : octetsFrom p.mem IP_HLEN (p.len - IP_HLEN) = octetsFrom p.mem IP_HLEN UDP_HLEN ++
      octetsFrom p.mem (IP_HLEN + UDP_HLEN) (p.len - (IP_HLEN + UDP_HLEN)) := by
    rw [← octetsFrom_add]
    congr 1
    omega
  have hudp : octetsFrom p.mem IP_HLEN UDP_HLEN = h.octets ∧
      octetsFrom p.mem (IP_HLEN + UDP_HLEN) (p.len - (IP_HLEN + UDP_HLEN)) ++
      p.rest.flatten = data := by
    rw [hsplit, List.append_assoc] at hseg
    exact List.append_inj hseg (by rw [length_octetsFrom, h.length_octets])
  obtain ⟨hudphdr, hdata⟩ := hudp
  have hwords := hdrAt_of_octets hudphdr
  have htot : p.totLen = IP_HLEN + (h.octets ++ data).length := by
    have := congrArg List.length hp
    rwa [length_octets, List.length_append, IpHdr.length_octets] at this
  have hseglen : (h.octets ++ data).length = UDP_HLEN + data.length := by
    rw [List.length_append, h.length_octets]
  have hfound : foundPcb sys inp p =
      udpFind sys.udp_pcbs (ipAddrIsbroadcast iphdr.dest inp.netif) iphdr h.src h.dest := by
    rw [foundPcb, hiphdr, hhlen, hwords.src, hwords.dest]
  refine ⟨?_, hfound, ?_⟩
  · -- The chain behind the IP header has the octets of the segment.
    have hzero : inetChksumPseudo (octetsFrom p.mem IP_HLEN (p.len - IP_HLEN) :: p.rest)
          (netOrder iphdr.src) (netOrder iphdr.dest) (UInt8.ofNat IP_PROTO_UDP)
          (BitVec.ofNat 16 (h.octets ++ data).length) = 0 ↔
        Rep 0xffff (value (pseudoHeader (netOrder iphdr.src) (netOrder iphdr.dest)
          (UInt8.ofNat IP_PROTO_UDP) (BitVec.ofNat 16 (h.octets ++ data).length)) +
          value (h.octets ++ data)) 0xffff := by
      rw [← hseg, ← List.flatten_cons]
      refine inetChksumPseudo_eq_zero_iff fun b hb => ?_
      have hle := (List.sublist_flatten_of_mem hb).length_le
      rw [List.flatten_cons, hseg] at hle
      omega
    rw [udpInput_passed_iff, hhlen, hiphdr, htot, Nat.add_sub_cancel_left, hzero,
      and_iff_right hlen]
    refine and_congr_right fun _ => ?_
    rw [hwords.chksum, imp_iff_not_or, not_not]
  · rw [recvCall, hhlen, hiphdr, hdata, hwords.src]

end Receive

/-! ## The pcb -/

/-- What `udp_input` reads of a pcb, with its ports as they are stored. -/
def ofPcb (pcb : UdpPcb) : Ip.UdpPcb where
  local_ip := pcb.local_ip
  local_port := BitVec.ofNat 16 pcb.local_port
  remote_ip := pcb.remote_ip
  remote_port := BitVec.ofNat 16 pcb.remote_port
  connected := pcb.connected

/-- The system has these pcbs on its list. -/
def State.Lists (st : State) (sys : IpSystem) : Prop :=
  ∃ l, Walk st.pcbs.next st.pcbs.udp_pcbs l ∧ sys.udp_pcbs = l.map fun i => ofPcb (st.pcbs.pcbs i)

section Found

variable {n fuel : ℕ} {st : State} {sys : IpSystem} {l : List ℕ}
  {d : Datagram} {iphdr : IpHdr} {i : ℕ}

/-- Two values of 16 bits are equal if their numbers are. -/
theorem eq_ofNat_iff {x : ℕ} (hx : x < 2^16) (w : BitVec 16) :
    BitVec.ofNat 16 x = w ↔ x = w.toNat := by
  rw [← BitVec.toNat_inj, BitVec.toNat_ofNat, Nat.mod_eq_of_lt hx]

/-- The pcb that matches here matches in `udp_input`. -/
theorem localMatch_ofPcb {p : UdpPcb} (hp : p.local_port < 2^16) (hd : iphdr.dest = d.dest) :
    (ofPcb p).localMatch d.broadcast iphdr d.destPort = p.localMatch d := by
  have hport : decide (BitVec.ofNat 16 p.local_port = d.destPort) =
      decide (p.local_port = d.destPort.toNat) :=
    decide_eq_decide.mpr (eq_ofNat_iff hp _)
  unfold Ip.UdpPcb.localMatch UdpPcb.localMatch ofPcb Netif.ipAddrIsany
  dsimp only
  rw [hport, hd]

/-- The list of pcbs is searched as `udp_input` goes through the pointers. -/
theorem udpFind_eq (h : Table n st l) {pcbs : Pcbs} {r : Option ℕ} (hd : Demuxed st.pcbs d l pcbs r)
    (hsrc : iphdr.src = d.src) (hdest : iphdr.dest = d.dest) :
    udpFind (l.map fun i => ofPcb (st.pcbs.pcbs i)) d.broadcast iphdr d.srcPort d.destPort =
      r.map fun i => ofPcb (st.pcbs.pcbs i) := by
  have hloc : ∀ i ∈ l, (ofPcb (st.pcbs.pcbs i)).localMatch d.broadcast iphdr d.destPort =
      (st.pcbs.pcbs i).localMatch d :=
    fun i hi => localMatch_ofPcb (h.ports i ((h.mem_iff i).mp hi).1).1 hdest
  have hrem : ∀ i ∈ l, ((ofPcb (st.pcbs.pcbs i)).remote_port = d.srcPort &&
      (Netif.ipAddrIsany (ofPcb (st.pcbs.pcbs i)).remote_ip ||
        (ofPcb (st.pcbs.pcbs i)).remote_ip = iphdr.src) : Bool) =
        (st.pcbs.pcbs i).remoteMatch d := by
    intro i hi
    have hport : decide (BitVec.ofNat 16 (st.pcbs.pcbs i).remote_port = d.srcPort) =
        decide ((st.pcbs.pcbs i).remote_port = d.srcPort.toNat) :=
      decide_eq_decide.mpr (eq_ofNat_iff (h.ports i ((h.mem_iff i).mp hi).1).2 _)
    unfold UdpPcb.remoteMatch ofPcb Netif.ipAddrIsany
    dsimp only
    rw [hport, hsrc]
  -- Both searches go through the pcbs that match here, in the order of the list.
  have hfind : ∀ {f : Ip.UdpPcb → Bool} {g : ℕ → Bool},
    (∀ i ∈ l, f (ofPcb (st.pcbs.pcbs i)) = g i) →
      ((l.map fun i => ofPcb (st.pcbs.pcbs i)).filter fun pcb =>
          pcb.localMatch d.broadcast iphdr d.destPort).find? f =
        (l.find? fun i => (st.pcbs.pcbs i).localMatch d && g i).map fun i =>
          ofPcb (st.pcbs.pcbs i) := by
    intro f g hfg
    have hboth : ∀ i ∈ l, (decide
        ((ofPcb (st.pcbs.pcbs i)).localMatch d.broadcast iphdr d.destPort = true ∧
        f (ofPcb (st.pcbs.pcbs i)) = true)) = ((st.pcbs.pcbs i).localMatch d && g i) := by
      intro i hi
      rw [hloc i hi, hfg i hi, Bool.decide_and, Bool.decide_eq_true, Bool.decide_eq_true]
    rw [List.find?_filter, List.find?_map]
    exact congrArg _ (List.find?_congr hboth)
  have hopen : ∀ i ∈ l, (!(ofPcb (st.pcbs.pcbs i)).connected) = !(st.pcbs.pcbs i).connected :=
    fun _ _ => rfl
  unfold udpFind
  dsimp only
  rw [hfind hrem, hfind hopen]
  have hf : (fun i => (st.pcbs.pcbs i).localMatch d && (st.pcbs.pcbs i).remoteMatch d) =
      st.pcbs.full d := rfl
  have hu : (fun i => (st.pcbs.pcbs i).localMatch d && !(st.pcbs.pcbs i).connected) =
      st.pcbs.uncon d := rfl
  rw [hf, hu]
  cases hd with
  | @full k k' i hl hi hk hw =>
    have hfirst : l.find? (st.pcbs.full d) = some i := by
      refine List.find?_eq_some_iff_append.mpr ⟨hi, k, k', hl, fun j hj => ?_⟩
      rw [hk j hj]
      rfl
    rw [hfirst]
    rfl
  | uncon hnone hs =>
    have hno : l.find? (st.pcbs.full d) = none := List.find?_eq_none.mpr fun j hj => by
      rw [hnone j hj]
      exact Bool.false_ne_true
    rw [hno]
    rfl

end Found

/-! ## From one host to another -/

section RoundTrip

variable {s s' : Pcbs} {pcb fuel fuel' n : ℕ} {first : List UInt8} {rest : List (List UInt8)}
  {dst_ip : IpAddr}
  {dst_port ip_id : BitVec 16} {netif : NetIf} {ttl tos : UInt8} {room : Room} {out : Outgoing}
  {q : Arrived}
  {pad tail data : List UInt8} {sys : IpSystem} {inp : IpNetif} {src dest : IpAddr}
  {udphdr : UdpHdr}

/-- What `udp_sendto_if` passes on, for a pcb that is bound before or then. -/
theorem udpSendtoIf_ok (hlen : IP_HLEN + UDP_HLEN + (first :: rest).flatten.length ≤ 0xffff)
    (h : udpSendtoIf fuel s pcb first rest dst_ip dst_port netif ttl tos room ip_id =
      .ok (s', .ERR_OK, some out)) :
    ∃ udphdr, Sends (srcIp (s'.pcbs pcb) netif) dst_ip udphdr (first :: rest).flatten out ∧
      udphdr.src = BitVec.ofNat 16 (s'.pcbs pcb).local_port ∧ udphdr.dest = dst_port ∧
      ((s'.pcbs pcb).flags &&& UDP_FLAGS_NOCHKSUM = 0 → udphdr.chksum ≠ 0) := by
  unfold udpSendtoIf at h
  obtain ⟨bound, -, h⟩ := bind_eq_ok.mp h
  injection h with h
  injection h with hs h
  split at h
  · cases h
  · rw [← hs]
    exact udpSend_ok hlen h

/-- The host takes packets from `src` to `dest` that come in by the interface. -/
def Takes (sys : IpSystem) (inp : IpNetif) (src dest : IpAddr) : Prop :=
  forUs sys inp dest = true ∧ (ipAddrIsbroadcast src inp.netif || ipAddrIsmulticast src) = false

instance (sys : IpSystem) (inp : IpNetif) (src dest : IpAddr) :
    Decidable (Takes sys inp src dest) :=
  inferInstanceAs (Decidable (_ ∧ _))

/-- A packet with the header that was sent gets to `udp_input`, whatever is behind the header. -/
theorem ipInput_eq_udpInput (hs : Sends src dest udphdr data out)
    (hq : octets q.toInPacket = out.iphdr.octets ++ tail ++ pad)
    (htail : tail.length = out.payload.length)
    (hfirst : IP_HLEN + UDP_HLEN ≤ q.len) (htakes : Takes sys inp src dest) :
    ipInput sys inp q = Ip.udpInput sys inp q.trimmed ∧
    octets q.trimmed = out.iphdr.octets ++ tail ∧
      IP_HLEN + UDP_HLEN ≤ q.trimmed.len ∧ q.trimmed.totLen = IP_HLEN + out.payload.length := by
  obtain ⟨hacc, hiphdr, htrim⟩ := accepted_of_octets hs hq htail (by omega)
  have hpay : out.payload.length = UDP_HLEN + data.length := by
    rw [hs.payload, List.length_append, udphdr.length_octets]
  have hlen : IP_HLEN + UDP_HLEN ≤ q.trimmed.len := by
    rw [hacc.trimmed_len, hiphdr, hs.len]
    omega
  have htot : q.trimmed.totLen = IP_HLEN + out.payload.length := by
    rw [← length_octets, htrim, List.length_append, IpHdr.length_octets, htail]
  have hhdr : q.trimmed.iphdr = out.iphdr := by
    have hmem := (octetsFrom_of_octets htrim (by rw [IpHdr.length_octets]; omega)).1
    rw [IpHdr.length_octets] at hmem
    exact hdrAt_octets hmem
  refine ⟨?_, htrim, hlen, htot⟩
  -- Neither of the checks of `ip_input` finds anything, and the protocol is that of UDP.
  rw [ipInput_of_accepted hacc, ipInputTrimmed, hhdr, hs.src_eq, hs.dest_eq, htakes.2,
    if_neg Bool.false_ne_true, htakes.1, Bool.not_true, if_neg Bool.false_ne_true, hs.offset,
    if_neg (by decide), ipDeliver, hhdr, if_pos hs.proto]

/-- A datagram that verifies is for the pcb that `udp_input` finds among those of the host. -/
theorem delivered {st : State} {es : List Event} {d : Datagram} {p : InPacket} {iphdr : IpHdr}
    (hp : octets p = iphdr.octets ++ (udphdr.octets ++ data)) (hhl : iphdr.hl * 4 = IP_HLEN)
    (hfirst : IP_HLEN + UDP_HLEN ≤ p.len) (hmax : p.totLen ≤ 0xffff)
    (hchksum : udphdr.chksum ≠ 0 →
      Rep 0xffff (value (pseudoHeader (netOrder d.src) (netOrder d.dest)
        (UInt8.ofNat IP_PROTO_UDP) (BitVec.ofNat 16 (udphdr.octets ++ data).length)) +
        value (udphdr.octets ++ data)) 0xffff)
    (hsrc : iphdr.src = d.src) (hdest : iphdr.dest = d.dest) (hport : udphdr.src = d.srcPort)
    (hport' : udphdr.dest = d.destPort)
    (hbroadcast : ipAddrIsbroadcast d.dest inp.netif = d.broadcast)
    (hfuel : rounds n ≤ fuel') (hes : Along (udpStep fuel') (OnUsed n) (.init n) es)
    (hrun : run (udpStep fuel') (.init n) es = .ok st) (hsys : st.Lists sys) :
    ∃ pcbs r, udpInput fuel' st.pcbs d = .ok (pcbs, r) ∧ Receives n st d r ∧
      (Ip.udpInput sys inp p = .ok .passed ↔ r.isSome) ∧
      recvCall sys inp p = r.map fun i => ⟨ofPcb (st.pcbs.pcbs i), data, d.src, d.srcPort⟩ := by
  obtain ⟨hpassed, hfound, hcall⟩ := udpInput_iff sys inp hp hhl hfirst hmax
  rw [hsrc, hdest] at hpassed
  rw [hdest, hport, hport', hbroadcast] at hfound
  rw [hsrc, hport] at hcall
  -- The host has come to its pcbs by calls of the application and by datagrams.
  obtain ⟨l, ht⟩ : ∃ l, Table n st l := by
    obtain ⟨st', hrun', h⟩ := run_ok (I := fun s => ∃ l, Table n s l)
      (fun _ _ hI he => hI.elim fun _ h => h.step he hfuel) ⟨[], Table.init n⟩ hes
    cases hrun.symm.trans hrun'
    exact h
  obtain ⟨l', hw, hpcbs⟩ := hsys
  obtain rfl := ht.walk.unique hw
  obtain ⟨pcbs, r, -, hrun', -, hdem, -⟩ := ht.udpInput d hfuel
  have hfind : foundPcb sys inp p = r.map fun i => ofPcb (st.pcbs.pcbs i) := by
    rw [hfound, hpcbs]
    exact udpFind_eq ht hdem hsrc hdest
  refine ⟨pcbs, r, hrun', hdem.receives ht, ?_, ?_⟩
  · rw [hpassed, hfind, Option.isSome_map]
    exact and_iff_left hchksum
  · rw [hcall, hfind, Option.map_map]
    rfl

/-- A datagram gets from a pcb of one host to a pcb of another as it was sent. The octets arrive in
any pbufs with both headers in the first one, and with any padding. The pcb is the one that
`udp_input` finds among those of the host, and `Receives` says which one that is. -/
theorem udp_round_trip {st : State} {es : List Event}
    (hlen : IP_HLEN + UDP_HLEN + (first :: rest).flatten.length ≤ 0xffff)
    (hsend : udpSendtoIf fuel s pcb first rest dst_ip dst_port netif ttl tos room ip_id =
      .ok (s', .ERR_OK, some out))
    (hq : octets q.toInPacket = out.chain.flatten ++ pad) (hfirst : IP_HLEN + UDP_HLEN ≤ q.len)
    (htakes : Takes sys inp (srcIp (s'.pcbs pcb) netif) dst_ip)
    (hfuel : rounds n ≤ fuel') (hes : Along (udpStep fuel') (OnUsed n) (.init n) es)
    (hrun : run (udpStep fuel') (.init n) es = .ok st) (hsys : st.Lists sys) :
    ∃ pcbs r, udpInput fuel' st.pcbs ⟨srcIp (s'.pcbs pcb) netif, dst_ip,
        BitVec.ofNat 16 (s'.pcbs pcb).local_port, dst_port, ipAddrIsbroadcast dst_ip inp.netif⟩ =
          .ok (pcbs, r) ∧
      Receives n st ⟨srcIp (s'.pcbs pcb) netif, dst_ip,
      BitVec.ofNat 16 (s'.pcbs pcb).local_port, dst_port,
        ipAddrIsbroadcast dst_ip inp.netif⟩ r ∧
      (ipInput sys inp q = .ok .passed ↔ r.isSome) ∧
      recvCall sys inp q.trimmed = r.map fun i =>
        ⟨ofPcb (st.pcbs.pcbs i), (first :: rest).flatten, srcIp (s'.pcbs pcb) netif,
          BitVec.ofNat 16 (s'.pcbs pcb).local_port⟩ := by
  obtain ⟨udphdr, hs, hsrc, hdest, -⟩ := udpSendtoIf_ok hlen hsend
  have hchain : out.chain.flatten = out.iphdr.octets ++ out.payload := by
    rw [Outgoing.chain, Outgoing.payload, List.flatten_cons, List.flatten_cons, List.append_assoc]
  rw [hchain] at hq
  obtain ⟨hin, htrim, hfirst', htot⟩ := ipInput_eq_udpInput hs hq rfl hfirst htakes
  have hpay : out.payload.length = UDP_HLEN + (first :: rest).flatten.length := by
    rw [hs.payload, List.length_append, udphdr.length_octets]
  rw [hs.payload] at htrim
  rw [hin]
  refine delivered htrim hs.hl hfirst' (by omega) (fun hne => ?_) hs.src_eq hs.dest_eq hsrc hdest
    rfl hfuel hes hrun hsys
  rw [← hs.payload]
  exact hs.chksum hne

/-- A host with a pcb, and its interface. -/
def octetPcbs : Pcbs := ⟨fun _ => { local_port := 1000 }, none⟩

/-- The interface of this host. -/
def octetNetif : NetIf :=
  { ip_addr := 0x0a000001, netmask := 0xffffff00, gw := 0, hwaddr := Netif.ethzero }

/-- Three octets for another host. The first octet of the checksum is zero. -/
def octetOut : Outgoing where
  iphdr := {
    v_hl_tos := 0x4500, len := 31, id := 7, offset := 0, ttl_proto := 0xff11, chksum := 0xa7c4
    src := 0x0a000001, dest := 0x0a000002 }
  first := [3, 232, 7, 208, 0, 11, 0, 27, 1, 2, 223]
  rest := []

/-- The interface of the other host. -/
def octetInp : IpNetif := ⟨0, { octetNetif with ip_addr := 0x0a000002 }, true⟩

/-- The other host, with a pcb that was bound to the port. -/
def octetHost : IpSystem where
  netif_list := [octetInp]
  netif_default := none
  udp_pcbs := [⟨0, 2000, 0, 0, false⟩]
  forward := false
  alloc := true

/-- The octets in two pbufs, and padding behind them. -/
def octetArrived (l : List UInt8) : Arrived where
  type := .POOL
  mem i := l.getD i 0
  len := 30
  rest := [(l.drop 30).take 1, [0, 0]]
  left i := l.getD i 0
  left_eq _ _ _ := rfl

/-- The example is sent. -/
theorem udpSendtoIf_octetOut (fuel : ℕ) : udpSendtoIf fuel octetPcbs 0 [1, 2, 223]
    [] 0x0a000002 2000 octetNetif
    255 0 ⟨true, true, true⟩ 7 = .ok (octetPcbs, .ERR_OK, some octetOut) := by
  have hsend : udpSend (octetPcbs.pcbs 0) [1, 2, 223] [] 0x0a000002 2000 octetNetif 255 0
      ⟨true, true, true⟩ 7 = (.ERR_OK, some octetOut) := by decide +kernel
  exact congrArg (fun r => Except.ok (octetPcbs, r)) hsend

/-- How the other host has come to its pcb. -/
theorem octetHost_run : ∃ st, run (udpStep (rounds 1)) (.init 1) [.new, .bind 0 none 2000] =
    .ok st ∧ st.Lists octetHost := by
  obtain ⟨st, hrun, hhead, hnext, hpcb⟩ :
      ∃ st, run (udpStep (rounds 1)) (.init 1) [.new, .bind 0 none 2000] = .ok st ∧
        st.pcbs.udp_pcbs = some 0 ∧ st.pcbs.next 0 = none ∧
        ofPcb (st.pcbs.pcbs 0) = ⟨0, 2000, 0, 0, false⟩ := exists_of_any (by decide +kernel)
  refine ⟨st, hrun, [0], ?_, by rw [List.map_singleton, hpcb]; rfl⟩
  rw [hhead]
  refine .cons ?_
  rw [hnext]
  exact .nil

/-- The example arrives. -/
theorem udp_round_trip_octetOut : ∃ st r,
    run (udpStep (rounds 1)) (.init 1) [.new, .bind 0 none 2000] = .ok st ∧
      recvCall octetHost octetInp (octetArrived octetOut.chain.flatten).trimmed =
        some ⟨r, [1, 2, 223], 0x0a000001, 1000⟩ := by
  have hes : Along (udpStep (rounds 1)) (OnUsed 1) (.init 1) [.new, .bind 0 none 2000] := by
    decide +kernel
  obtain ⟨st, hrun, hlists⟩ := octetHost_run
  have hq : octets (octetArrived octetOut.chain.flatten).toInPacket =
      octetOut.chain.flatten ++ [0, 0] := by
    decide +kernel
  have htakes : Takes octetHost octetInp 0x0a000001 0x0a000002 := by decide +kernel
  obtain ⟨pcbs, r, -, -, hpassed, hcall⟩ :=
    udp_round_trip (by decide) (udpSendtoIf_octetOut 0) hq (by decide)
    htakes (Nat.le_refl _) hes hrun hlists
  have hin : ipInput octetHost octetInp (octetArrived octetOut.chain.flatten) = .ok .passed := by
    decide +kernel
  obtain ⟨i, rfl⟩ := Option.isSome_iff_exists.mp (hpassed.mp hin)
  exact ⟨st, _, hrun, hcall⟩

/-! ## One octet -/

/-- The number of some octets when one of them changes. -/
theorem value_set {l : List UInt8} {j : ℕ} (hj : j < l.length) (b : UInt8) :
    value (l.set j b) + 256^j * (l[j]).toNat = value l + 256^j * b.toNat := by
  induction l generalizing j with
  | nil => cases hj
  | cons a l ih =>
    cases j with
    | zero =>
      rw [List.set_cons_zero, value_cons, value_cons, List.getElem_cons_zero]
      omega
    | succ j =>
      rw [List.length_cons] at hj
      have h := ih (Nat.lt_of_succ_lt_succ hj)
      rw [List.set_cons_succ, value_cons, value_cons, List.getElem_cons_succ, Nat.pow_succ]
      calc a.toNat + 256 * value (l.set j b) + 256^j * 256 * (l[j]).toNat
          = a.toNat + 256 * (value (l.set j b) + 256^j * (l[j]).toNat) := by ring
        _ = a.toNat + 256 * (value l + 256^j * b.toNat) := by rw [h]
        _ = a.toNat + 256 * value l + 256^j * 256 * b.toNat := by ring

/-- Another octet in one place changes what the octets stand for. -/
theorem set_changes {l : List UInt8} {j m : ℕ} (hj : j < l.length) {b : UInt8}
    (h : Rep 0xffff (m + value l) 0xffff) (h' : Rep 0xffff (m + value (l.set j b)) 0xffff) :
    l[j] = b := by
  have hmod : m + value l ≡ m + value (l.set j b) [MOD 0xffff] := h.1.trans h'.1.symm
  have hval : value l ≡ value (l.set j b) [MOD 0xffff] := Nat.ModEq.add_left_cancel' m hmod
  have hmul : 256^j * b.toNat ≡ 256^j * (l[j]).toNat [MOD 0xffff] := by
    have hadd := value_set hj b
    have hsum : value l + 256^j * b.toNat ≡ value l + 256^j * (l[j]).toNat [MOD 0xffff] := by
      rw [← hadd]
      exact Nat.ModEq.add_right _ hval.symm
    exact Nat.ModEq.add_left_cancel' _ hsum
  have hcop : Nat.Coprime 0xffff (256^j) := Nat.Coprime.pow_right j (by decide)
  have hb : b.toNat ≡ (l[j]).toNat [MOD 0xffff] := Nat.ModEq.cancel_left_of_coprime hcop hmul
  have hlt := b.toNat_lt
  have hlt' := (l[j]).toNat_lt
  have heq : b.toNat = (l[j]).toNat := Nat.ModEq.eq_of_lt_of_lt hb (by omega) (by omega)
  exact (UInt8.toNat_inj.mp heq).symm

/-- Any two octets are a word. -/
theorem exists_be16 {l : List UInt8} (hl : l.length = 2) : ∃ w, be16 w = l := by
  obtain ⟨u, v, rfl⟩ := List.length_eq_two.mp hl
  have hu := u.toNat_lt
  have hv := v.toNat_lt
  refine ⟨BitVec.ofNat 16 (ntohs u v), ?_⟩
  rw [be16, ntohs, BitVec.toNat_ofNat, Nat.mod_eq_of_lt (by omega)]
  have hdiv : (u.toNat * 2^8 + v.toNat) / 2^8 = u.toNat := by omega
  have hmod : (u.toNat * 2^8 + v.toNat) % 2^8 = v.toNat := by omega
  rw [hdiv, hmod, UInt8.ofNat_toNat, UInt8.ofNat_toNat]

/-- Any `UDP_HLEN` octets are a header. -/
theorem exists_udpHdr {l : List UInt8} (hl : l.length = UDP_HLEN) : ∃ h : UdpHdr, h.octets = l := by
  have hlen : l.length = 8 := hl
  obtain ⟨src, hsrc⟩ := exists_be16 (l := l.take 2) (by rw [List.length_take]; omega)
  obtain ⟨dest, hdest⟩ := exists_be16 (l := (l.drop 2).take 2)
    (by rw [List.length_take, List.length_drop]; omega)
  obtain ⟨len, hlen'⟩ := exists_be16 (l := (l.drop 4).take 2)
    (by rw [List.length_take, List.length_drop]; omega)
  obtain ⟨chksum, hchksum⟩ := exists_be16 (l := (l.drop 6).reverse)
    (by rw [List.length_reverse, List.length_drop]; omega)
  refine ⟨⟨src, dest, len, chksum⟩, ?_⟩
  have hstore : store16 chksum.toNat = l.drop 6 := by
    have hrev : store16 chksum.toNat = (be16 chksum).reverse := rfl
    rw [hrev, hchksum, List.reverse_reverse]
  calc (UdpHdr.mk src dest len chksum).octets
      = be16 src ++ be16 dest ++ be16 len ++ store16 chksum.toNat := rfl
    _ = l.take 2 ++ (l.drop 2).take 2 ++ (l.drop 4).take 2 ++ l.drop 6 := by
      rw [hsrc, hdest, hlen', hstore]
    _ = l.take 6 ++ l.drop 6 := by rw [← List.take_add, ← List.take_add]
    _ = l := List.take_append_drop 6 l

/-- A word is known from its two octets. -/
theorem be16_inj {v w : BitVec 16} (h : be16 v = be16 w) : v = w := by
  have hv := congrArg value h
  rw [value_be16, value_be16] at hv
  have hvlt : v.toNat < 2^16 := v.isLt
  have hwlt : w.toNat < 2^16 := w.isLt
  apply BitVec.eq_of_toNat_eq
  unfold swapBytesInWord at hv
  omega

/-- A word is known from its stored number. -/
theorem store16_inj {v w : BitVec 16} (h : store16 v.toNat = store16 w.toNat) : v = w := by
  have hv := congrArg value h
  rw [value_store16 v.isLt, value_store16 w.isLt] at hv
  exact BitVec.eq_of_toNat_eq hv

/-- What is left of a header in one octet of which something else stands. -/
theorem udpHdr_set {g h : UdpHdr} {k : ℕ} {b : UInt8} (hg : g.octets = h.octets.set k b) :
    (6 ≤ k → g.src = h.src ∧ g.dest = h.dest) ∧ (k < 6 → g.chksum = h.chksum) := by
  have hfields : ∀ u : UdpHdr, u.octets.take 6 = be16 u.src ++ be16 u.dest ++ be16 u.len ∧
      u.octets.drop 6 = store16 u.chksum.toNat := fun u => ⟨rfl, rfl⟩
  constructor
  · intro hk
    have htake : g.octets.take 6 = h.octets.take 6 := by rw [hg, List.take_set_of_le hk]
    rw [(hfields g).1, (hfields h).1] at htake
    obtain ⟨hports, -⟩ := List.append_inj htake rfl
    obtain ⟨hsrc, hdest⟩ := List.append_inj hports rfl
    exact ⟨be16_inj hsrc, be16_inj hdest⟩
  · intro hk
    have hdrop : g.octets.drop 6 = h.octets.drop 6 := by rw [hg, List.drop_set_of_lt hk]
    rw [(hfields g).2, (hfields h).2] at hdrop
    exact store16_inj hdrop

/-- What `udp_input` finds in a datagram that was sent. -/
theorem recvCall_of_sent (hs : Sends src dest udphdr data out)
    (hq : octets q.toInPacket = out.iphdr.octets ++ out.payload ++ pad)
    (hfirst : IP_HLEN + UDP_HLEN ≤ q.len)
    (hmax : IP_HLEN + out.payload.length ≤ 0xffff) (htakes : Takes sys inp src dest)
    (h : ipInput sys inp q = .ok .passed) :
    ∃ r, udpFind sys.udp_pcbs (ipAddrIsbroadcast dest inp.netif) out.iphdr
    udphdr.src udphdr.dest = some r ∧
      recvCall sys inp q.trimmed = some ⟨r, data, src, udphdr.src⟩ := by
  obtain ⟨hin, htrim, hfirst', htot⟩ := ipInput_eq_udpInput hs hq rfl hfirst htakes
  rw [hs.payload] at htrim
  obtain ⟨hpassed, hfound, hcall⟩ := udpInput_iff sys inp htrim hs.hl hfirst' (by omega)
  rw [hin, hpassed] at h
  obtain ⟨r, hr⟩ := Option.isSome_iff_exists.mp h.1
  rw [hs.dest_eq, hr] at hfound
  rw [hs.src_eq, hr] at hcall
  exact ⟨r, hfound.symm, hcall⟩

/-- One octet of the IP header, but the first, is another one. Then it is the one that was sent, or
the packet is dropped. -/
theorem header_set (sys : IpSystem) (inp : IpNetif) (hs : Sends src dest udphdr data out)
    {j : ℕ} {b : UInt8}
    (hj : 0 < j) (hj' : j < IP_HLEN) (hq : octets q.toInPacket = out.iphdr.octets.set j b ++ tail)
    (hfirst : IP_HLEN ≤ q.len) :
    ipInput sys inp q = .ok .dropped ∨ out.iphdr.octets.set j b = out.iphdr.octets := by
  have hlen : (out.iphdr.octets.set j b).length = IP_HLEN := by
    rw [List.length_set, IpHdr.length_octets]
  have hmem := (octetsFrom_of_octets hq (by omega)).1
  rw [hlen] at hmem
  -- The first octet says that there are no options.
  have hzero : q.mem 0 = UInt8.ofNat (out.iphdr.v_hl_tos.toNat / 2^8) := by
    have hget := congrArg (·[0]?) hmem
    rw [List.getElem?_set_ne (by omega)] at hget
    simpa [octetsFrom, IP_HLEN, List.range', IpHdr.octets, IpHdr.words, be16] using hget
  have hhl : q.hlen = IP_HLEN := by
    have hv : out.iphdr.v_hl_tos.toNat < 2^16 := out.iphdr.v_hl_tos.isLt
    have hlow := (q.mem 1).toNat_lt
    rw [← hs.hl, InPacket.hlen, IpHdr.hl, IpHdr.hl, InPacket.iphdr, hdrAt]
    dsimp only
    rw [BitVec.toNat_and, BitVec.toNat_and, BitVec.toNat_ushiftRight, BitVec.toNat_ushiftRight,
      Nat.shiftRight_eq_div_pow, Nat.shiftRight_eq_div_pow, wordAt, Nat.zero_add,
      BitVec.toNat_ofNat, ntohs, hzero, toNat_high_octet hv, Nat.mod_eq_of_lt (by omega)]
    have hdiv : (out.iphdr.v_hl_tos.toNat / 2^8 * 2^8 + (q.mem 1).toNat) / 2^8 =
        out.iphdr.v_hl_tos.toNat / 2^8 := by omega
    rw [hdiv]
  by_cases hsum : inetChksum (out.iphdr.octets.set j b) = 0
  case neg =>
    rw [← hmem, ← hhl] at hsum
    refine .inl ?_
    unfold ipInput
    split
    · rfl
    split <;> rfl
  refine .inr ?_
  -- The header verifies, as it did when it was sent.
  have hrep := (inetChksum_eq_zero_iff (by rw [hlen]; decide)).mp hsum
  have hrep₀ := (inetChksum_eq_zero_iff (by rw [IpHdr.length_octets]; decide)).mp hs.hdr
  rw [← Nat.zero_add (value _)] at hrep hrep₀
  have hjlt : j < out.iphdr.octets.length := by rwa [IpHdr.length_octets]
  rw [← set_changes hjlt hrep₀ hrep, List.set_getElem_self]

/-- What arrives of a packet one octet of which is another one, if it is not dropped for its
header. -/
theorem ipInput_set (sys : IpSystem) (inp : IpNetif) (hs : Sends src dest udphdr data out)
    {j : ℕ} {b : UInt8}
    (hj : 0 < j) (hq : octets q.toInPacket = (out.iphdr.octets ++ out.payload).set j b ++ pad)
    (hfirst : IP_HLEN ≤ q.len) :
    ipInput sys inp q = .ok .dropped ∨
      octets q.toInPacket = out.iphdr.octets ++ out.payload.set (j - IP_HLEN) b ++ pad ∧
      IP_HLEN ≤ j ∨ octets q.toInPacket = out.iphdr.octets ++ out.payload ++ pad := by
  by_cases hjhdr : j < IP_HLEN
  · rw [List.set_append_left _ _ (by rwa [IpHdr.length_octets])] at hq
    obtain hdropped | hsame := header_set sys inp hs hj hjhdr (by rw [hq, List.append_assoc]) hfirst
    · exact .inl hdropped
    · rw [hsame] at hq
      exact .inr (.inr hq)
  · rw [List.set_append_right _ _ (by rw [IpHdr.length_octets]; omega), IpHdr.length_octets] at hq
    exact .inr (.inl ⟨hq, Nat.le_of_not_lt hjhdr⟩)

/-- `udp_input` fails no assertion on a packet with both headers in its first pbuf, if the payload
of this pbuf can be moved back. -/
theorem udpInput_isOk (sys : IpSystem) (inp : IpNetif) {p : InPacket} (hhl : p.hlen = IP_HLEN)
    (hfirst : IP_HLEN + UDP_HLEN ≤ p.len) (htype : p.type = .RAM ∨ p.type = .POOL) :
    ∃ o, Ip.udpInput sys inp p = .ok o := by
  have hip : p.hlen ≤ p.len := by omega
  have hudp : p.hlen + UDP_HLEN ≤ p.len := by omega
  unfold Ip.udpInput
  dsimp only
  split
  · exact ⟨_, rfl⟩
  rw [lwipAssert_ok hip, ok_bind]
  split
  · exact ⟨_, rfl⟩
  split
  · exact ⟨_, rfl⟩
  rw [lwipAssert_ok hudp, ok_bind]
  split
  · exact ⟨_, rfl⟩
  split
  · exact ⟨_, rfl⟩
  rw [lwipAssert_ok htype]
  exact ⟨_, rfl⟩

/-- A datagram one octet of which was changed on the way is dropped, or what arrives is what was
sent: the same data from the same sender, for the pcb that the datagram was for. The first octet is
not among these, as it says how long the IP header is. No assertion fails, if the packet is in pbufs
whose payload can be moved back, as those are that the interfaces allocate. -/
theorem udp_altered_octet {j : ℕ} {b : UInt8}
    (hlen : IP_HLEN + UDP_HLEN + (first :: rest).flatten.length ≤ 0xffff)
    (hsend : udpSendtoIf fuel s pcb first rest dst_ip dst_port netif ttl tos room ip_id =
      .ok (s', .ERR_OK, some out))
    (hflag : (s'.pcbs pcb).flags &&& UDP_FLAGS_NOCHKSUM = 0) (hj : 0 < j)
    (hq : octets q.toInPacket = out.chain.flatten.set j b ++ pad)
    (hfirst : IP_HLEN + UDP_HLEN ≤ q.len)
    (htakes : Takes sys inp (srcIp (s'.pcbs pcb) netif) dst_ip) :
    (q.type = .RAM ∨ q.type = .POOL → ∃ o, ipInput sys inp q = .ok o) ∧
    (ipInput sys inp q = .ok .passed →
      ∃ r, udpFind sys.udp_pcbs (ipAddrIsbroadcast dst_ip inp.netif) out.iphdr
            (BitVec.ofNat 16 (s'.pcbs pcb).local_port) dst_port = some r ∧
        recvCall sys inp q.trimmed = some ⟨r, (first :: rest).flatten, srcIp (s'.pcbs pcb) netif,
          BitVec.ofNat 16 (s'.pcbs pcb).local_port⟩) := by
  obtain ⟨udphdr, hs, hsrc, hdest, hchksum⟩ := udpSendtoIf_ok hlen hsend
  set data := (first :: rest).flatten with hdata
  have hpay : out.payload.length = UDP_HLEN + data.length := by
    rw [hs.payload, List.length_append, udphdr.length_octets]
  have hmax : IP_HLEN + out.payload.length ≤ 0xffff := by omega
  have hchain : out.chain.flatten = out.iphdr.octets ++ out.payload := by
    rw [Outgoing.chain, Outgoing.payload, List.flatten_cons, List.flatten_cons, List.append_assoc]
  rw [hchain] at hq
  rw [← hsrc, ← hdest]
  have hcases := ipInput_set sys inp hs hj hq (by omega)
  constructor
  · intro htype
    have hok : ∀ {tail}, tail.length = out.payload.length →
        octets q.toInPacket = out.iphdr.octets ++ tail ++ pad → ∃ o, ipInput sys inp q = .ok o := by
      intro tail htail hq
      obtain ⟨hin, htrim, hfirst', -⟩ := ipInput_eq_udpInput hs hq htail hfirst htakes
      rw [hin]
      refine udpInput_isOk sys inp ?_ hfirst' ?_
      · have hmem := (octetsFrom_of_octets htrim (by rw [IpHdr.length_octets]; omega)).1
        rw [IpHdr.length_octets] at hmem
        rw [InPacket.hlen, InPacket.iphdr, hdrAt_octets hmem]
        exact hs.hl
      · unfold Arrived.trimmed
        dsimp only
        split <;> exact htype
    obtain hdropped | ⟨hset, -⟩ | hsame := hcases
    · exact ⟨_, hdropped⟩
    · exact hok (List.length_set ..) hset
    · exact hok rfl hsame
  intro h
  obtain hdropped | ⟨hq, hj⟩ | hq := hcases
  · cases h.symm.trans hdropped
  case inr.inr => exact recvCall_of_sent hs hq hfirst hmax htakes h
  set k := j - IP_HLEN with hk
  by_cases hsame : out.payload.set k b = out.payload
  · rw [hsame] at hq
    exact recvCall_of_sent hs hq hfirst hmax htakes h
  -- The octet is another one, and what is behind the IP header is a header and data again.
  have hklt : k < out.payload.length := by
    by_contra hge
    exact hsame (List.set_eq_of_length_le (by omega))
  obtain ⟨udphdr', data', hset, hsrc', hdest', hdata', hchksum'⟩ : ∃ udphdr' data',
      out.payload.set k b = UdpHdr.octets udphdr' ++ data' ∧
      (udphdr'.chksum = 0 → udphdr'.src = udphdr.src) ∧
        (udphdr'.chksum = 0 → udphdr'.dest = udphdr.dest) ∧
      (udphdr'.chksum = 0 → data' = data) ∧ data'.length = data.length := by
    have hne := hchksum hflag
    rw [hs.payload]
    by_cases hkhdr : k < UDP_HLEN
    · obtain ⟨g, hg⟩ := exists_udpHdr (l := udphdr.octets.set k b)
        (by rw [List.length_set, udphdr.length_octets])
      obtain ⟨hports, hchk⟩ := udpHdr_set hg
      refine ⟨g, data, by rw [List.set_append_left _ _ (by rwa [udphdr.length_octets]), hg], ?_, ?_,
        fun _ => rfl, rfl⟩
      · intro hzero
        exact (hports (Nat.le_of_not_lt fun hlt => hne (by rw [← hchk hlt, hzero]))).1
      · intro hzero
        exact (hports (Nat.le_of_not_lt fun hlt => hne (by rw [← hchk hlt, hzero]))).2
    · refine ⟨udphdr, data.set (k - UDP_HLEN) b, ?_, fun _ => rfl, fun _ => rfl,
        fun hzero => absurd hzero hne, by rw [List.length_set]⟩
      rw [List.set_append_right _ _ (by rw [udphdr.length_octets]; omega), udphdr.length_octets]
  obtain ⟨hin, htrim, hfirst', htot⟩ :=
    ipInput_eq_udpInput hs hq (by rw [List.length_set]) hfirst htakes
  rw [hset] at htrim
  obtain ⟨hpassed, hfound, hcall⟩ := udpInput_iff sys inp htrim hs.hl hfirst' (by omega)
  rw [hin, hpassed] at h
  obtain ⟨hsome, hverify⟩ := h
  -- With a checksum, the octets verify as those that were sent, which differ from them in one
  -- octet.
  have hzero : udphdr'.chksum = 0 := by
    by_contra hne
    have hrep := hverify hne
    have hrep₀ := hs.chksum (hchksum hflag)
    rw [← hset, List.length_set, hs.src_eq, hs.dest_eq] at hrep
    rw [← set_changes hklt hrep₀ hrep, List.set_getElem_self] at hsame
    exact hsame rfl
  -- So it is an octet of the checksum, and there is none any more.
  obtain ⟨r, hr⟩ := Option.isSome_iff_exists.mp hsome
  rw [hs.dest_eq, hsrc' hzero, hdest' hzero, hr] at hfound
  rw [hs.src_eq, hr, hdata' hzero, hsrc' hzero] at hcall
  exact ⟨r, hfound.symm, hcall⟩

/-- The other octet of the checksum is lost, and the datagram is one without a checksum. -/
theorem udp_altered_octet_octetOut : ∃ r,
    recvCall octetHost octetInp (octetArrived (octetOut.chain.flatten.set 27 0)).trimmed =
      some ⟨r, [1, 2, 223], 0x0a000001, 1000⟩ := by
  have hq : octets (octetArrived (octetOut.chain.flatten.set 27 0)).toInPacket =
      octetOut.chain.flatten.set 27 0 ++ [0, 0] := by decide +kernel
  have htakes : Takes octetHost octetInp 0x0a000001 0x0a000002 := by decide +kernel
  obtain ⟨r, -, hcall⟩ := (udp_altered_octet (by decide) (udpSendtoIf_octetOut 0) (by decide)
    (by decide) hq (by decide) htakes).2 (by decide +kernel)
  exact ⟨r, hcall⟩

end RoundTrip

end Lwip.Udp
