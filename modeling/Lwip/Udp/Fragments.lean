import Lwip.Ip.Restore
import Lwip.Ip.RoundTrip
import Lwip.Udp.Datagram

/-!
# A datagram in fragments

A datagram that does not fit in the MTU is cut up by `ip_frag`, and every fragment arrives as octets
of its own. `ip_input` checks it and passes it to `ip_reass`, which returns the datagram when the
last one is there, and this goes on to `udp_input`. Other packets may come in between: datagrams for
any protocol, packets that are dropped, and fragments of other datagrams.

`udp_fragments` says that what arrives at the pcb is what was sent.
-/

namespace Lwip.Udp

open Ip
open Netif (NetIf ipAddrIsbroadcast ipAddrIsmulticast)

/-! ## The packets that come in -/

/-- What stops a host. -/
inductive HostAbort where
  | input (a : InputAbort)
  | reass (a : Ip.Abort)
  deriving DecidableEq, Repr

/-- `ip_input(p, inp)` up to where `ip_reass` returns, if the packet is a fragment for this host. -/
def ipInputReass (sys : IpSystem) (inp : IpNetif) (s : Reass) (q : Arrived) :
    Except HostAbort (Reass × Option Ip.Datagram) :=
  (ipInput sys inp q).mapError .input >>= fun o =>
  if o = .fragment then (ipReass s q.trimmed.frag).mapError .reass else .ok (s, none)

/-- Packets one after the other, and what `ip_reass` returns for each. -/
def ipInputs (sys : IpSystem) (inp : IpNetif) (s : Reass) :
    List Arrived → Except HostAbort (Reass × List (Option Ip.Datagram))
  | [] => .ok (s, [])
  | q :: qs =>
    ipInputReass sys inp s q >>= fun x =>
    ipInputs sys inp x.1 qs >>= fun y => .ok (y.1, x.2 :: y.2)

/-- The packet is the fragment in one pbuf, with padding behind it. -/
def Brings (f : Frag) (q : Arrived) :
    Prop := q.rest = [] ∧ f.hdr.octets ++ f.payload <+: octets q.toInPacket

instance (f : Frag) (q : Arrived) : Decidable (Brings f q) := inferInstanceAs (Decidable (_ ∧ _))

/-- A packet that `ip_reass` does not get, or drops, or that is a fragment of another datagram. -/
def Elsewhere (sys : IpSystem) (inp : IpNetif) (p : Outgoing) (q : Arrived) : Prop :=
  ipInput sys inp q = .ok .fragment → q.trimmed.hlen = IP_HLEN → p.Other q.trimmed.frag

instance (sys : IpSystem) (inp : IpNetif) (p : Outgoing) (q : Arrived) :
    Decidable (Elsewhere sys inp p q) :=
  inferInstanceAs (Decidable (_ → _ → _))

/-- The fragments of the packet from `k` on, in their order, and any packets in front of each. -/
inductive Comes (sys : IpSystem) (inp : IpNetif) (p : Outgoing) (mtu : ℕ) : ℕ → List Arrived → Prop
  | last {q : Arrived} : Brings (p.fragment mtu (p.full mtu)) q →
    Comes sys inp p mtu (p.full mtu) [q]
  | next {k : ℕ} {q : Arrived} {qs : List Arrived} : k < p.full mtu → Brings (p.fragment mtu k) q →
      Comes sys inp p mtu (k + 1) qs → Comes sys inp p mtu k (q :: qs)
  | other {k : ℕ} {q : Arrived} {qs : List Arrived} : Elsewhere sys inp p q →
      Comes sys inp p mtu k qs → Comes sys inp p mtu k (q :: qs)

/-- The packet stops nothing. If it is a fragment, it hits no limit, and one of another datagram
that completes it ends it. -/
def Fits (sys : IpSystem) (inp : IpNetif) (p : Outgoing) (s : Reass) (q : Arrived) : Prop :=
  (ipInput sys inp q).isOk = true ∧ (ipInput sys inp q = .ok .fragment → q.trimmed.hlen = IP_HLEN →
    HasRoom s q.trimmed.frag ∧ (p.Other q.trimmed.frag → EndOk s q.trimmed.frag))

instance (sys : IpSystem) (inp : IpNetif) (p : Outgoing) (s : Reass) (q : Arrived) :
    Decidable (Fits sys inp p s q) := inferInstanceAs (Decidable (_ ∧ (_ → _ → _)))

/-- A step of `ipInputs`. -/
def reassembly (sys : IpSystem) (inp : IpNetif) (s : Reass) (q : Arrived) :
    Except HostAbort Reass :=
  ipInputReass sys inp s q >>= fun x => .ok x.1

/-- The chain of a datagram as it goes on from `ip_reass`. -/
def Holds (p : InPacket) (d : Ip.Datagram) : Prop := octets p = d.hdr.octets ++ d.payload

instance (p : InPacket) (d : Ip.Datagram) : Decidable (Holds p d) := inferInstanceAs
    (Decidable (_ = _))

/-! ## One packet -/

section Step

variable {sys : IpSystem} {inp : IpNetif} {p p' : Outgoing} {mtu k : ℕ} {s s' : Reass} {q : Arrived}
  {f : Frag} {out : Option Ip.Datagram} {src dest : IpAddr} {udphdr : UdpHdr} {data : List UInt8}

/-- A fragment for the host gets to `ip_reass` as it was sent. -/
theorem frag_of_brings (hbring : Brings f q) (hf : FromInput f)
    (hversion : f.hdr.v_hl_tos.toNat / 2^12 = 4)
    (hchksum : inetChksum f.hdr.octets = 0) (htakes : Takes sys inp f.hdr.src f.hdr.dest) :
    ipInput sys inp q = .ok .fragment ∧ q.trimmed.frag = { f with clen := 1 } := by
  obtain ⟨hrest, pad, hpre⟩ := hbring
  obtain ⟨hhl, hlen, hoff⟩ := hf
  -- The only pbuf is the packet.
  have hone : (octets q.toInPacket).length = q.len := by
    rw [length_octets, InPacket.totLen, hrest, List.flatten_nil, List.length_nil, Nat.add_zero]
  have hfirst : IP_HLEN ≤ q.len := by
    rw [← hone, ← hpre, List.length_append, List.length_append, IpHdr.length_octets]
    omega
  obtain ⟨hacc, hiphdr, htrim⟩ := accepted_of_hdr hversion hhl (by omega) hchksum hpre.symm hfirst
  have hrest' : q.trimmed.rest = [] := by
    have htot : q.totLen = q.len := by rw [← length_octets, hone]
    unfold Arrived.trimmed
    dsimp only
    split
    · exact hrest
    · exact if_neg (by omega)
  have hlen' : IP_HLEN ≤ q.trimmed.len := by
    rw [hacc.trimmed_len, hiphdr, ← hlen]
    omega
  obtain ⟨hmem, htail⟩ := octetsFrom_of_octets htrim (by rw [IpHdr.length_octets]; exact hlen')
  rw [IpHdr.length_octets] at hmem htail
  have hhdr : q.trimmed.iphdr = f.hdr := hdrAt_octets hmem
  constructor
  · rw [ipInput_of_accepted hacc, ipInputTrimmed, hhdr, htakes.2, if_neg Bool.false_ne_true,
      htakes.1, Bool.not_true, if_neg Bool.false_ne_true, if_pos hoff]
  · rw [InPacket.frag, hhdr, htail, hrest']
    rfl

/-- What comes of a fragment is what `ip_reass` does. -/
theorem ipInputReass_fragment (h : ipInput sys inp q = .ok .fragment) :
    ipInputReass sys inp s q = (ipReass s q.trimmed.frag).mapError .reass := by
  have ho : (ipInput sys inp q).mapError HostAbort.input = .ok .fragment := mapError_eq_ok.mpr h
  rw [ipInputReass, ho]
  change (if Outcome.fragment = .fragment then (ipReass s q.trimmed.frag).mapError HostAbort.reass
    else .ok (s, none)) = _
  rw [if_pos rfl]

/-- A packet that is not one of the fragments leaves those that wait where they are, and does not
complete their datagram. -/
theorem ipInputReass_other (hinv : Inv s) (hw : p.Waits mtu s k) (hq : Elsewhere sys inp p q)
    (hfits : Fits sys inp p s q) : ∃ s' out, ipInputReass sys inp s q = .ok (s', out) ∧ Inv s' ∧
      p.Waits mtu s' k ∧ ∀ d, out = some d → d.hdr.addressesAndIdMatch p.iphdr = false := by
  have hstay : ∃ s' out, (.ok (s, none) : Except HostAbort (Reass × Option Ip.Datagram)) =
      .ok (s', out) ∧
      Inv s' ∧ p.Waits mtu s' k ∧ ∀ d, out = some d → d.hdr.addressesAndIdMatch p.iphdr = false :=
    ⟨s, none, rfl, hinv, hw, fun d hd => by cases hd⟩
  obtain ⟨o, ho⟩ := exists_of_isOk hfits.1
  by_cases hfrag : o = .fragment
  · rw [hfrag] at ho
    rw [ipInputReass_fragment ho]
    by_cases hhl : q.trimmed.hlen = IP_HLEN
    · have hother := hq ho hhl
      obtain ⟨hroom, hend⟩ := hfits.2 ho hhl
      obtain ⟨x, hx⟩ := (ipReass_isOk_iff hinv hother.1).mpr ⟨hroom.roomOk, hend hother⟩
      refine ⟨x.1, x.2, mapError_eq_ok.mpr hx, ipReass_inv hinv hother.1.1 hx,
        hw.other hinv hother hroom hx, fun d hd => ?_⟩
      -- A datagram that is complete is of the fragment that completes it.
      have hret : ipReass s q.trimmed.frag = .ok (x.1, some d) := by rw [hx, ← hd]
      obtain ⟨own, -, hof, -, -, rfl⟩ := ipReass_returns hinv hother.1 hret
      have hne := hother.2
      rw [← Bool.not_eq_true] at hne ⊢
      intro hmatch
      apply hne
      have hkey := isOf_iff.mp (noteFirstHdr_isOf hof)
      simp only [IpHdr.addressesAndIdMatch, reassDatagram, reassHdr, noteLastFrag_iphdr] at hmatch ⊢
      rwa [hkey.1, hkey.2.1, hkey.2.2] at hmatch
    · -- `ip_reass` drops a packet with options.
      have hopt : ipReass s q.trimmed.frag = .ok (s, none) := if_pos hhl
      rw [hopt]
      exact hstay
  · have hskip : ipInputReass sys inp s q = .ok (s, none) := by
      have ho' : (ipInput sys inp q).mapError HostAbort.input = .ok o := mapError_eq_ok.mpr ho
      rw [ipInputReass, ho']
      exact if_neg hfrag
    rw [hskip]
    exact hstay

/-- The fragments of a packet that was sent are for the host that it was for. -/
theorem ipInputReass_own (hs : Sends src dest udphdr data p') (hbig : p'.TooBig mtu)
    (htakes : Takes sys inp src dest) (hk : k ≤ p'.full mtu)
    (hbring : Brings (p'.fragment mtu k) q) :
    ipInput sys inp q = .ok .fragment ∧ q.trimmed.frag = p'.fragment mtu k := by
  refine frag_of_brings hbring (hbig.fromInput_fragment hk) hs.version (IpHdr.chksum_valid _) ?_
  have hsrc : (p'.fragment mtu k).hdr.src = src := hs.src_eq
  have hdest : (p'.fragment mtu k).hdr.dest = dest := hs.dest_eq
  rw [hsrc, hdest]
  exact htakes

/-- The datagram that is returned has the first word of the header that was sent. -/
theorem v_hl_tos_of_waits (hbig : p.TooBig mtu) (hinv : Inv s) (hw : p.Waits mtu s (p.full mtu))
    {d : Ip.Datagram} (hr : ipReass s (p.fragment mtu (p.full mtu)) = .ok (s', some d)) :
    d.hdr.v_hl_tos = p.iphdr.v_hl_tos := by
  obtain ⟨own, hmem, hof, -, -, rfl⟩ := ipReass_returns hinv (hbig.fromInput_fragment le_rfl) hr
  obtain ⟨k, hk⟩ : ∃ k, p.full mtu = k + 1 := ⟨p.full mtu - 1, by have := hbig.full_pos; omega⟩
  rw [hk] at hw
  obtain ⟨own', hmem', -, -, hhdr⟩ := hw
  -- There is one entry of the datagram, and its header is that of the first fragment.
  obtain rfl : own = own' :=
    hinv.wf.eq_of_isOf hmem hmem' hof (Outgoing.isOf_of_iphdr hhdr)
  have hnote : (noteFirstHdr own (p.fragment mtu (p.full mtu))).iphdr.v_hl_tos =
      p.iphdr.v_hl_tos := by
    rw [noteFirstHdr]
    split
    · rfl
    · rw [hhdr]
      rfl
  simp only [reassDatagram, reassHdr, noteLastFrag_iphdr]
  exact hnote

end Step

/-! ## All packets -/

section Run

variable {sys : IpSystem} {inp : IpNetif} {p : Outgoing} {mtu k : ℕ} {s : Reass} {src dest : IpAddr}
  {udphdr : UdpHdr} {data : List UInt8}

/-- The first packet and the rest. -/
theorem ipInputs_cons {q : Arrived} {qs : List Arrived} {s₁ s₂ : Reass} {o : Option Ip.Datagram}
    {outs : List (Option Ip.Datagram)} (h : ipInputReass sys inp s q = .ok (s₁, o))
    (h' : ipInputs sys inp s₁ qs = .ok (s₂, outs)) :
    ipInputs sys inp s (q :: qs) = .ok (s₂, o :: outs) := by
  rw [ipInputs, h]
  exact bind_eq_ok.mpr ⟨_, rfl, bind_eq_ok.mpr ⟨_, h', rfl⟩⟩

/-- A packet is a step. -/
theorem reassembly_of {q : Arrived} {s₁ : Reass} {o : Option Ip.Datagram}
    (h : ipInputReass sys inp s q = .ok (s₁, o)) : reassembly sys inp s q = .ok s₁ := by
  rw [reassembly, h]
  rfl

/-- The last packet completes the datagram, and none in front of it does. -/
theorem ipInputs_comes (hs : Sends src dest udphdr data p) (hbig : p.TooBig mtu)
    (htakes : Takes sys inp src dest) {qs : List Arrived} (hcomes : Comes sys inp p mtu k qs)
    (hinv : Inv s)
    (hw : p.Waits mtu s k) (hfits : Along (reassembly sys inp) (Fits sys inp p) s qs) :
    ∃ s' outs d, ipInputs sys inp s qs = .ok (s', outs ++ [some d]) ∧ p.Restored d ∧
      d.hdr.v_hl_tos = p.iphdr.v_hl_tos ∧
      ∀ d', some d' ∈ outs → d'.hdr.addressesAndIdMatch p.iphdr = false := by
  induction hcomes generalizing s with
  | @last q hbring =>
    obtain ⟨ho, hfrag⟩ := ipInputReass_own hs hbig htakes le_rfl hbring
    have hhl : q.trimmed.frag.hdr.hl * 4 = IP_HLEN := by
      rw [hfrag]
      exact hbig.hl
    have hroom := (hfits.1.2 ho hhl).1
    rw [hfrag] at hroom
    obtain ⟨s₁, d, hx, hd⟩ := hbig.ipReass_last hinv hw hroom
    refine ⟨s₁, [], d, ?_, hd, v_hl_tos_of_waits hbig hinv hw hx, fun d' hd' =>
      (List.not_mem_nil hd').elim⟩
    refine ipInputs_cons ?_ rfl
    rw [ipInputReass_fragment ho, hfrag]
    exact mapError_eq_ok.mpr hx
  | @next k q qs hk hbring _ ih =>
    obtain ⟨ho, hfrag⟩ := ipInputReass_own hs hbig htakes hk.le hbring
    have hhl : q.trimmed.frag.hdr.hl * 4 = IP_HLEN := by
      rw [hfrag]
      exact hbig.hl
    have hroom := (hfits.1.2 ho hhl).1
    rw [hfrag] at hroom
    obtain ⟨s₁, hx, hinv₁, hw₁⟩ := hbig.ipReass_next hk hinv hw hroom
    have hstep : ipInputReass sys inp s q = .ok (s₁, none) := by
      rw [ipInputReass_fragment ho, hfrag]
      exact mapError_eq_ok.mpr hx
    obtain ⟨s₂, outs, d, hrun, hd, hv, hothers⟩ := ih hinv₁ hw₁ (hfits.2 _ (reassembly_of hstep))
    refine ⟨s₂, none :: outs, d, ipInputs_cons hstep hrun, hd, hv, fun d' hd' => hothers d' ?_⟩
    exact (List.mem_cons.mp hd').resolve_left fun h => by cases h
  | @other k q qs helse _ ih =>
    obtain ⟨s₁, o, hstep, hinv₁, hw₁, ho⟩ := ipInputReass_other hinv hw helse hfits.1
    obtain ⟨s₂, outs, d, hrun, hd, hv, hothers⟩ := ih hinv₁ hw₁ (hfits.2 _ (reassembly_of hstep))
    refine ⟨s₂, o :: outs, d, ipInputs_cons hstep hrun, hd, hv, fun d' hd' => ?_⟩
    obtain h | h := List.mem_cons.mp hd'
    · exact ho d' h.symm
    · exact hothers d' h

/-- The datagram goes on to `udp_input`. -/
theorem ipDeliver_restored {d : Ip.Datagram} {q : InPacket} (hs : Sends src dest udphdr data p)
    (hd : p.Restored d) (hq : Holds q d) (hfirst : IP_HLEN ≤ q.len) :
    ipDeliver sys inp q = Ip.udpInput sys inp q := by
  have hmem := (octetsFrom_of_octets hq (by rw [IpHdr.length_octets]; exact hfirst)).1
  rw [IpHdr.length_octets] at hmem
  have hhdr : q.iphdr = d.hdr := hdrAt_octets hmem
  have hproto : q.iphdr.proto = IP_PROTO_UDP := by
    rw [hhdr, IpHdr.proto, hd.ttl_proto]
    exact hs.proto
  rw [ipDeliver, if_pos hproto]

/-- A datagram that does not fit in the MTU is cut up, and gets from a pcb of one host to a pcb of
another as it was sent. Each fragment arrives in one pbuf, in their order, with any packets in
between that hit no limit. The chain that `ip_reass` returns has both headers in its first pbuf. -/
theorem udp_fragments {pcbs pcbs' : Pcbs} {pcb fuel fuel' n : ℕ} {first : List UInt8}
    {rest : List (List UInt8)}
    {dst_ip : IpAddr} {dst_port ip_id : BitVec 16} {netif : NetIf} {ttl tos : UInt8} {room : Room}
    {out : Outgoing} {st : State} {es : List Event} {before : List Ip.Event} {s₀ : Reass}
    {qs : List Arrived} (hlen : IP_HLEN + UDP_HLEN + (first :: rest).flatten.length ≤ 0xffff)
    (hsend : udpSendtoIf fuel pcbs pcb first rest dst_ip dst_port netif ttl tos room ip_id =
      .ok (pcbs', .ERR_OK, some out))
    (hmtu : IP_HLEN + 8 ≤ mtu) (hbig : mtu < out.tot_len) (hwhole : out.Whole mtu)
    (hbefore : ∀ e ∈ before, e.FromInput) (hs₀ : run reassStep {} before = .ok s₀)
    (hnew : ∀ d ∈ s₀.datagrams, d.isOf out.iphdr = false)
    (htakes : Takes sys inp (srcIp (pcbs'.pcbs pcb) netif) dst_ip)
    (hcomes : Comes sys inp out mtu 0 qs)
    (hfits : Along (reassembly sys inp) (Fits sys inp out) s₀ qs)
    (hfuel : rounds n ≤ fuel') (hes : Along (udpStep fuel') (OnUsed n) (.init n) es)
    (hrun : run (udpStep fuel') (.init n) es = .ok st) (hsys : st.Lists sys) :
    ∃ sent s' outs d, ipFrag out mtu = .ok sent ∧
    sent.map Rambuf.received = out.fragmentsFrom mtu 0 ∧
      ipInputs sys inp s₀ qs = .ok (s', outs ++ [some d]) ∧
      (∀ d', some d' ∈ outs → d'.hdr.addressesAndIdMatch out.iphdr = false) ∧
      ∀ q : InPacket, Holds q d → IP_HLEN + UDP_HLEN ≤ q.len →
        ∃ pcbs r, udpInput fuel' st.pcbs ⟨srcIp (pcbs'.pcbs pcb) netif, dst_ip,
            BitVec.ofNat 16 (pcbs'.pcbs pcb).local_port, dst_port,
            ipAddrIsbroadcast dst_ip inp.netif⟩ =
              .ok (pcbs, r) ∧
          Receives n st ⟨srcIp (pcbs'.pcbs pcb) netif, dst_ip, BitVec.ofNat 16
          (pcbs'.pcbs pcb).local_port,
            dst_port, ipAddrIsbroadcast dst_ip inp.netif⟩ r ∧
          (ipDeliver sys inp q = .ok .passed ↔ r.isSome) ∧
          recvCall sys inp q = r.map fun i =>
            ⟨ofPcb (st.pcbs.pcbs i), (first :: rest).flatten, srcIp (pcbs'.pcbs pcb) netif,
              BitVec.ofNat 16 (pcbs'.pcbs pcb).local_port⟩ := by
  obtain ⟨udphdr, hs, hsrc, hdest, -⟩ := udpSendtoIf_ok hlen hsend
  set data := (first :: rest).flatten with hdata
  have hpay : out.payload.length = UDP_HLEN + data.length := by
    rw [hs.payload, List.length_append, udphdr.length_octets]
  have htoobig : out.TooBig mtu := by
    refine ⟨hs.hl, ?_, ?_, hmtu, hbig⟩
    · rw [hs.offset]
      decide
    · rw [Outgoing.tot_len_eq, hpay]
      omega
  have hinv : Inv s₀ := run_invariant (C := fun _ e => e.FromInput)
    (fun _ _ _ hI he hr => reassStep_inv hI he hr) Inv.empty (Along.of_forall _ hbefore) hs₀
  have hfrag := htoobig.ipFrag_eq
  rw [if_pos hwhole] at hfrag
  obtain ⟨sent, hsent, hmap⟩ := hfrag
  obtain ⟨s', outs, d, hin, hd, hv, hothers⟩ :=
    ipInputs_comes hs htoobig htakes hcomes hinv hnew hfits
  refine ⟨sent, s', outs, d, hsent, hmap, hin, hothers, fun q hq hfirst => ?_⟩
  rw [ipDeliver_restored hs hd hq (by omega)]
  have hhl : d.hdr.hl * 4 = IP_HLEN := by
    rw [IpHdr.hl, hv]
    exact hs.hl
  have htot : q.totLen = IP_HLEN + out.payload.length := by
    rw [← length_octets, hq, List.length_append, IpHdr.length_octets, hd.payload]
  rw [Holds, hd.payload, hs.payload] at hq
  refine delivered hq hhl hfirst (by omega) (fun hne => ?_) (hd.src.trans hs.src_eq)
    (hd.dest.trans hs.dest_eq) hsrc hdest rfl hfuel hes hrun hsys
  rw [← hs.payload]
  exact hs.chksum hne

/-- Twelve octets for the other host. -/
def twelveOut : Outgoing where
  iphdr := { octetOut.iphdr with len := 40, chksum := 0xa7bb }
  first := [3, 232, 7, 208, 0, 20, 193, 231, 0, 1, 2, 3, 4, 5, 6, 7, 8, 9, 10, 11]
  rest := []

/-- A fragment in one pbuf. -/
def arrivedFragment (f : Frag) : Arrived where
  type := .POOL
  mem i := (f.hdr.octets ++ f.payload).getD i 0
  len := IP_HLEN + f.payload.length
  rest := []
  left i := (f.hdr.octets ++ f.payload).getD i 0
  left_eq _ _ _ := rfl

/-- Twelve octets with another identification. -/
def otherOut : Outgoing := { twelveOut with iphdr := { twelveOut.iphdr with id := 8 } }

/-- The two fragments, with a fragment of another datagram in front of the first and a datagram in
front of the second. -/
def twelveArrived : List Arrived :=
  [arrivedFragment (otherOut.fragment 36 0), arrivedFragment (twelveOut.fragment 36 0),
    octetArrived octetOut.chain.flatten, arrivedFragment (twelveOut.fragment 36 1)]

/-- The three fragments of the example arrive as one datagram. -/
theorem udp_fragments_twelveOut : ∃ (st : State) (s' : Reass) (outs : List (Option Ip.Datagram))
    (d : Ip.Datagram),
    ipInputs octetHost octetInp {} twelveArrived = .ok (s', outs ++ [some d]) ∧
    ∀ q : InPacket, Holds q d → IP_HLEN + UDP_HLEN ≤ q.len → ∃ r : Option ℕ,
      recvCall octetHost octetInp q = r.map fun i =>
        ⟨ofPcb (st.pcbs.pcbs i), [0, 1, 2, 3, 4, 5, 6, 7, 8, 9, 10, 11], 0x0a000001, 1000⟩ := by
  have hes : Along (udpStep (rounds 1)) (OnUsed 1) (.init 1) [.new, .bind 0 none 2000] := by
    decide +kernel
  obtain ⟨st, hrun, hlists⟩ := octetHost_run
  have hsend : udpSendtoIf 0 octetPcbs 0 [0, 1, 2, 3, 4, 5, 6, 7, 8, 9, 10, 11] [] 0x0a000002 2000
      octetNetif 255 0 ⟨true, true, true⟩ 7 = .ok (octetPcbs, .ERR_OK, some twelveOut) := by
    have hsend : udpSend (octetPcbs.pcbs 0) [0, 1, 2, 3, 4, 5, 6, 7, 8, 9, 10, 11] [] 0x0a000002
        2000 octetNetif 255 0 ⟨true, true, true⟩ 7 = (.ERR_OK, some twelveOut) := by decide +kernel
    exact congrArg (fun r => Except.ok (octetPcbs, r)) hsend
  have hcomes : Comes octetHost octetInp twelveOut 36 0 twelveArrived :=
    .other (by decide +kernel) (.next (by decide +kernel) (by decide +kernel)
      (.other (by decide +kernel) (.last (by decide +kernel))))
  obtain ⟨sent, s', outs, d, -, -, hin, -, hq⟩ := udp_fragments (by decide) hsend (by decide)
    (by decide) (by decide +kernel) (fun e he => (List.not_mem_nil he).elim) rfl
    (fun d hd => (List.not_mem_nil hd).elim) (by decide +kernel) hcomes (by decide +kernel)
    (Nat.le_refl _) hes hrun hlists
  refine ⟨st, s', outs, d, hin, fun q hd hlen => ?_⟩
  obtain ⟨pcbs, r, -, -, -, hcall⟩ := hq q hd hlen
  exact ⟨r, hcall⟩

end Run

end Lwip.Udp
