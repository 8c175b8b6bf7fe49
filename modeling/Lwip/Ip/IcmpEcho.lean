import Lwip.Ip.Forward
import Lwip.Netif.Etharp

/-!
# Echo replies

`icmp_input` of `icmp.c`, for echo requests. A packet with room in front for the headers of a reply
is turned around where it is. Any other one is copied to a single pbuf first. The checksum of the
message is updated for the type, and that of the header computed anew.

The update is made with the end-around carry, which makes 0 of a message of zeros where the sum has
to be the other zero. It is made in the first pbuf, even if the message starts with less than four
octets there. And the checksum of the header covers no options. `icmpInput_right_iff` says when none
of this matters.
-/

namespace Lwip.Ip

open Netif (NetIf ipAddrIsmulticast ipAddrIsbroadcast)
open Pbuf (PbufType)

/-- `ICMP_ER`. -/
def ICMP_ER : UInt8 := 0

/-- `ICMP_ECHO`. -/
def ICMP_ECHO : UInt8 := 8

/-- `ICMP_TTL`. -/
def ICMP_TTL : ℕ := 255

/-- `PBUF_IP_HLEN + PBUF_LINK_HLEN`. -/
def IP_LINK_HLEN : ℕ := 20 + 16

/-- The assertions that `icmp_input` can run into. -/
inductive IcmpAbort where
  /-- `icmp_input: moving p->payload to ip header failed` -/
  | movingFailed
  /-- `check that first pbuf can hold struct the ICMP header` -/
  | firstPbuf
  /-- In `pbuf_copy`. -/
  | pbuf (a : Pbuf.Abort)
  deriving DecidableEq, Repr

/-- A packet as `icmp_input` gets it, with its header in the first pbuf. -/
structure EchoPacket where
  /-- The type of the first pbuf. -/
  type : PbufType
  /-- The octets between that pbuf and its payload. -/
  room : ℕ
  hdr : FullHdr
  /-- What is behind the header in the first pbuf. -/
  first : List UInt8
  /-- The memory behind the first pbuf. -/
  behind : List UInt8
  /-- The other pbufs. -/
  rest : List (List UInt8)
  hlen : hdr.octets.length = hdr.hdr.hl * 4
  behind_length : 4 ≤ behind.length
  tot_len_le : hdr.octets.length + (first ++ rest.flatten).length ≤ 0xffff

/-- What `icmp_input` passes to `ip_output_if`. -/
structure EchoReply where
  hdr : FullHdr
  /-- The message. -/
  pbufs : List (List UInt8)
  deriving DecidableEq, Repr

namespace EchoPacket

/-- The ICMP message. -/
def msg (p : EchoPacket) : List UInt8 := p.first ++ p.rest.flatten

/-- `p->payload` can be moved up by the headers of a reply. -/
def inPlace (p : EchoPacket) : Bool :=
  (p.type = .RAM || p.type = .POOL) && IP_LINK_HLEN ≤ p.room + p.hdr.octets.length

end EchoPacket

/-- The changes to `iecho`, in the memory from there on. -/
def adjustEcho : List UInt8 → List UInt8
  | _ :: code :: c₀ :: c₁ :: rest => ICMP_ER :: code :: store16
    (addChksum (8 * 2^8) (read16 c₀ c₁)) ++ rest
  | m => m

/-- The changes to `iphdr`. The checksum is computed over `IP_HLEN` octets. -/
def replyHdr (h : FullHdr) : FullHdr :=
  let iphdr := { h.hdr with src := h.hdr.dest, dest := h.hdr.src }
  let iphdr := { iphdr.setTtl ICMP_TTL with chksum := 0#16 }
  { h with hdr := { iphdr with chksum := inetChksum iphdr.octets } }

/-- `icmp_input(p, inp)`. The octets of the header are read once and not copied here, and `alloc`
says if there is memory for the copy of the packet. -/
def icmpInput (inp : NetIf) (alloc : Bool) (p : EchoPacket) : Except IcmpAbort (Option EchoReply) :=
  if p.msg.length < 4 then .ok none
  else if (p.first ++ p.behind).headD 0 ≠ ICMP_ECHO then .ok none
  else if ipAddrIsmulticast p.hdr.hdr.dest || ipAddrIsbroadcast p.hdr.hdr.dest inp then .ok none
  else if p.msg.length < 8 then .ok none
  else if inetChksumPbuf (p.first :: p.rest) ≠ 0 then .ok none
  else if p.inPlace then
    .ok (some ⟨replyHdr p.hdr, (adjustEcho (p.first ++ p.behind)).take p.first.length :: p.rest⟩)
  else
    let hlen := p.hdr.octets.length
    lwipAssert .movingFailed (p.type = .RAM ∨ p.type = .POOL) >>= fun _ =>
    if !alloc then .ok none
    else
      lwipAssert .firstPbuf (hlen + 8 ≤ hlen + p.msg.length) >>= fun _ =>
      (Pbuf.copyNew (hlen + p.msg.length) ((p.hdr.octets ++ p.first) :: p.rest)).mapError .pbuf >>=
        fun r =>
      .ok (some ⟨replyHdr p.hdr, [adjustEcho (r.drop hlen)]⟩)

/-! ## What is right -/

/-- `r` is a valid reply to `p`. -/
structure EchoPacket.Replied (p : EchoPacket) (r : EchoReply) : Prop where
  src : r.hdr.hdr.src = p.hdr.hdr.dest
  dest : r.hdr.hdr.dest = p.hdr.hdr.src
  type : r.pbufs.flatten.head? = some ICMP_ER
  /-- Identifier, sequence number and payload. -/
  same : r.pbufs.flatten.drop 4 = p.msg.drop 4
  chksum : inetChksumPbuf r.pbufs = 0
  hdrChksum : inetChksum r.hdr.octets = 0

/-- All octets but type and checksum are zero. -/
def Blank (msg : List UInt8) : Prop := msg.getD 1 0 = 0 ∧ ∀ b ∈ msg.drop 4, b = 0

/-- The update of the checksum is made in the message, and does not end in the wrong zero. With
three octets in the first pbuf, the upper octet of the sum must not change, nor that from behind the
pbuf matter. -/
def EchoPacket.Updates (p : EchoPacket) : Prop :=
  if p.inPlace = false ∨ 4 ≤ p.first.length then ¬ Blank p.msg
  else p.first.length = 3 ∧ (p.first.getD 2 0).toNat + 8 < 2^8 ∧
    read16 (p.first.getD 2 0) (p.behind.headD 0) + 8 < 0xffff

/-- The words of the options add up to zero, as those of no options do. -/
def FullHdr.ZeroOptions (h : FullHdr) : Prop := onesSum 0xffff (bigWords h.options) % 0xffff = 0

section Message

variable {m rest : List UInt8} {t code c₀ c₁ : UInt8}

/-- The test of `inet_chksum_pbuf` is passed by octets that stand for the second zero. -/
theorem inetChksumPbuf_eq_zero_iff {p : List (List UInt8)} (hp : ∀ q ∈ p, q.length ≤ 0xffff) :
    inetChksumPbuf p = 0 ↔ Rep 0xffff (value p.flatten) 0xffff := by
  obtain ⟨hle, hrep⟩ := chksumChain_spec hp
  have hzero : (0 : BitVec 16).toNat = 0 := rfl
  rw [inetChksumPbuf, ← BitVec.toNat_inj, toNat_not_ofNat hle, hzero]
  constructor
  · intro h
    obtain hfull : chksumChain p = 0xffff := by omega
    rw [hfull] at hrep
    exact hrep.symm
  · intro h
    rw [(hrep.trans h).unique (.refl _ _) hle (Nat.le_refl _)]

/-- Only zeros stand for 0. -/
theorem value_eq_zero_iff : value m = 0 ↔ ∀ b ∈ m, b = 0 := by
  induction m with
  | nil => exact iff_of_true rfl nofun
  | cons a m ih =>
    rw [value_cons, Nat.add_eq_zero_iff, Nat.mul_eq_zero, ih, List.forall_mem_cons]
    refine and_congr ?_ (or_iff_right (by decide))
    exact UInt8.toNat_inj (b := 0)

/-- A message by the two words of its header that matter. -/
theorem rep_message (t code c₀ c₁ : UInt8) (rest : List UInt8) :
    Rep 0xffff (value (t :: code :: c₀ :: c₁ :: rest))
      (t.toNat + code.toNat * 2^8 + (read16 c₀ c₁ + value rest)) :=
  (rep_cons₂ t code _).trans ((Rep.refl _ _).add (rep_cons₂ c₀ c₁ rest))

/-- Octets with no sum but a multiple of the largest word verify unless there is none. -/
theorem rep_full_iff {n : ℕ} (h : n % 0xffff = 0) : Rep 0xffff n 0xffff ↔ n ≠ 0 := by
  constructor
  · rintro ⟨-, hzero⟩ rfl
    exact absurd (hzero.mp rfl) (by decide)
  · intro hne
    exact ⟨h, iff_of_false hne (by decide)⟩

/-- A word that is stored is read. -/
theorem read16_store16 {w : ℕ} (hw : w ≤ 0xffff) :
    read16 (UInt8.ofNat (w % 2^8)) (UInt8.ofNat (w / 2^8)) = w := by
  have h := value_store16 (n := w) (by omega)
  rw [store16, value_cons, value_cons, value_nil] at h
  rw [read16]
  omega

/-- What the updated message stands for. -/
theorem rep_adjustEcho (t code c₀ c₁ : UInt8) (rest : List UInt8) :
    Rep 0xffff (value (adjustEcho (t :: code :: c₀ :: c₁ :: rest)))
      (code.toNat * 2^8 + (addChksum (8 * 2^8) (read16 c₀ c₁) + value rest)) := by
  have hrep := rep_message ICMP_ER code (UInt8.ofNat (addChksum (8 * 2^8) (read16 c₀ c₁) % 2^8))
    (UInt8.ofNat (addChksum (8 * 2^8) (read16 c₀ c₁) / 2^8)) rest
  rw [read16_store16 (addChksum_le _ _)] at hrep
  have hzero : ICMP_ER.toNat = 0 := rfl
  rw [hzero, Nat.zero_add] at hrep
  exact hrep

/-- The updated message verifies unless it is blank. -/
theorem adjustEcho_verifies
    (hv : Rep 0xffff (value (ICMP_ECHO :: code :: c₀ :: c₁ :: rest)) 0xffff) :
    Rep 0xffff (value (adjustEcho (ICMP_ECHO :: code :: c₀ :: c₁ :: rest))) 0xffff ↔
      ¬ Blank (ICMP_ECHO :: code :: c₀ :: c₁ :: rest) := by
  have hc := read16_lt c₀ c₁
  have hcode : code = 0 ↔ code.toNat = 0 := UInt8.toNat_inj.symm
  have height : swapBytesInWord (8 * 2^8) = 8 := rfl
  have hecho : ICMP_ECHO.toNat = 8 := rfl
  have hspec := addChksum_spec (d := 8 * 2^8) (c := read16 c₀ c₁) (by decide) (by omega)
  have hold := ((rep_message ICMP_ECHO code c₀ c₁ rest).symm.trans hv).1
  have hnew := rep_adjustEcho ICMP_ECHO code c₀ c₁ rest
  have hblank : Blank (ICMP_ECHO :: code :: c₀ :: c₁ :: rest) ↔ code.toNat = 0 ∧ value rest = 0 :=
    and_congr hcode value_eq_zero_iff.symm
  rw [height] at hspec
  rw [hecho, Nat.ModEq, Nat.mod_self] at hold
  -- The sum is a multiple of the largest word before and after.
  have hmod : (code.toNat * 2^8 + (addChksum (8 * 2^8) (read16 c₀ c₁) + value rest)) % 0xffff =
      0 := by omega
  have hiff : Rep 0xffff (value (adjustEcho (ICMP_ECHO :: code :: c₀ :: c₁ :: rest))) 0xffff ↔
      code.toNat * 2^8 + (addChksum (8 * 2^8) (read16 c₀ c₁) + value rest) ≠ 0 :=
    ⟨fun h => (rep_full_iff hmod).mp (hnew.symm.trans h),
      fun h => hnew.trans ((rep_full_iff hmod).mpr h)⟩
  rw [hiff, hblank]
  -- The sum with the update is zero only if the checksum goes around to zero.
  omega

end Message

/-! ## In the first pbuf -/

section InPlace

variable {first behind rest : List UInt8} {t code c₀ c₁ : UInt8}

/-- With four octets in the first pbuf the message itself is updated. -/
theorem take_adjustEcho (h : 4 ≤ first.length) :
    (adjustEcho (first ++ behind)).take first.length ++ rest = adjustEcho (first ++ rest) := by
  match first with
  | t :: code :: c₀ :: c₁ :: first =>
    simp only [List.cons_append, adjustEcho, store16, List.length_cons, List.take_succ_cons]
    simp
  | [] => simp at h
  | [_] => simp at h
  | [_, _] => simp at h
  | [_, _, _] => simp at h

/-- With three, only one octet of the checksum is. -/
theorem three_verifies (hv : Rep 0xffff (value (ICMP_ECHO :: code :: c₀ :: c₁ :: rest)) 0xffff)
    (b : UInt8) (behind : List UInt8) :
    Rep 0xffff (value ((adjustEcho (ICMP_ECHO :: code :: c₀ :: b :: behind)).take 3 ++ c₁ :: rest))
    0xffff ↔
      c₀.toNat + 8 < 2^8 ∧ read16 c₀ b + 8 < 0xffff := by
  have hb := b.toNat_lt
  have hc₀ := c₀.toNat_lt
  have height : swapBytesInWord (8 * 2^8) = 8 := rfl
  have hecho : ICMP_ECHO.toNat = 8 := rfl
  have hread := read16_lt c₀ b
  have hspec := addChksum_spec (d := 8 * 2^8) (c := read16 c₀ b) (by decide) (by omega)
  have hold := ((rep_message ICMP_ECHO code c₀ c₁ rest).symm.trans hv).1
  generalize hc : addChksum (8 * 2^8) (read16 c₀ b) = c at hspec
  have hmsg : (adjustEcho (ICMP_ECHO :: code :: c₀ :: b :: behind)).take 3 ++ c₁ :: rest =
      ICMP_ER :: code :: UInt8.ofNat (c % 2^8) :: c₁ :: rest := by
    rw [adjustEcho, hc]
    rfl
  have hnew := rep_message ICMP_ER code (UInt8.ofNat (c % 2^8)) c₁ rest
  have hzero : ICMP_ER.toNat = 0 := rfl
  rw [hecho, read16, Nat.ModEq, Nat.mod_self] at hold
  rw [hzero, read16, toNat_low_octet] at hnew
  rw [height, read16] at hspec
  rw [hmsg, read16]
  -- Only the low octet of the new checksum gets into the message.
  constructor
  · intro h
    have hmod := (hnew.symm.trans h).1
    rw [Nat.ModEq, Nat.mod_self] at hmod
    omega
  · rintro ⟨hcarry, hlt⟩
    exact hnew.trans ((rep_full_iff (by omega)).mpr (by omega))

/-- With fewer, the type is changed and the checksum is not. -/
theorem type_alone_fails (hv : Rep 0xffff (value (ICMP_ECHO :: rest)) 0xffff) :
    ¬ Rep 0xffff (value (ICMP_ER :: rest)) 0xffff := by
  intro h
  have hold := hv.1
  have hnew := h.1
  have hecho : ICMP_ECHO.toNat = 8 := rfl
  have hzero : ICMP_ER.toNat = 0 := rfl
  rw [value_cons, hecho, Nat.ModEq, Nat.mod_self] at hold
  rw [value_cons, hzero, Nat.ModEq, Nat.mod_self] at hnew
  omega

end InPlace

/-! ## The header -/

section Header

variable {h : FullHdr}

/-- With options, the header verifies if these add up to zero. -/
theorem replyHdr_verifies (hlen : h.octets.length ≤ 0xffff) :
    inetChksum (replyHdr h).octets = 0 ↔ h.ZeroOptions := by
  have hoctets : (replyHdr h).octets = (replyHdr h).hdr.octets ++ h.options := by
    rw [FullHdr.octets, replyHdr]
  have hlen' : ((replyHdr h).hdr.octets ++ h.options).length ≤ 0xffff := by
    rw [FullHdr.octets, List.length_append, IpHdr.length_octets] at hlen
    rwa [List.length_append, IpHdr.length_octets]
  have hfixed : inetChksum (replyHdr h).hdr.octets = 0 := IpHdr.chksum_valid _
  have hlenh : (replyHdr h).hdr.octets.length ≤ 0xffff := by
    rw [IpHdr.length_octets]
    decide
  have hrep := (inetChksum_eq_zero_iff hlenh).mp hfixed
  have hevenh : (replyHdr h).hdr.octets.length % 2 = 0 := by rw [IpHdr.length_octets, IP_HLEN]
  have hsum := (rep_append_even hevenh h.options).trans (hrep.add (.refl _ _))
  -- The options as words in network byte order, or as the machine reads them.
  have hoptions := rep_bigWords h.options
  have hones := onesSum_rep (bigWords_le h.options)
  have hzero : h.ZeroOptions ↔ value h.options % 0xffff = 0 := by
    have hmul : (2^8 * onesSum 0xffff (bigWords h.options)) % 0xffff = value h.options % 0xffff :=
      ((hones.mul_left (2^8)).trans hoptions).1
    have hle := onesSum_le (bigWords_le h.options)
    rw [FullHdr.ZeroOptions, ← hmul]
    omega
  rw [hzero, hoctets, inetChksum_eq_zero_iff hlen']
  constructor
  · intro hfull
    have hmod := (hsum.symm.trans hfull).1
    rw [Nat.ModEq] at hmod
    omega
  · intro hopt
    exact hsum.trans ((rep_full_iff (by omega)).mpr (by omega))

end Header

/-! ## The reply -/

/-- What is sent in reply to an echo request: the message is verified, and updated in the first
pbuf, or in a copy. -/
theorem icmpInput_eq {inp : NetIf} {alloc : Bool} {p : EchoPacket} {r : EchoReply}
    (h : icmpInput inp alloc p = .ok (some r)) :
    8 ≤ p.msg.length ∧ inetChksumPbuf (p.first :: p.rest) = 0 ∧ r.hdr = replyHdr p.hdr ∧
      r.pbufs = if p.inPlace then (adjustEcho (p.first ++ p.behind)).take p.first.length :: p.rest
        else [adjustEcho p.msg] := by
  rw [icmpInput] at h
  split at h
  · cases h
  split at h
  · cases h
  split at h
  · cases h
  split at h
  · cases h
  next hlen =>
  split at h
  · cases h
  next hv =>
  refine ⟨Nat.le_of_not_lt hlen, not_not.mp hv, ?_⟩
  split at h
  · next hplace =>
    rw [if_pos hplace]
    cases h
    exact ⟨rfl, rfl⟩
  · next hplace =>
    rw [if_neg hplace]
    obtain ⟨-, -, h⟩ := bind_eq_ok.mp h
    split at h
    · cases h
    obtain ⟨-, -, h⟩ := bind_eq_ok.mp h
    obtain ⟨d, hd, h⟩ := bind_eq_ok.mp h
    cases h
    refine ⟨rfl, ?_⟩
    have hcopy := Pbuf.copyNew_result (mapError_eq_ok.mp hd)
    rw [List.flatten_cons, List.append_assoc] at hcopy
    rw [hcopy, List.drop_left]
    rfl

/-- The message of a valid reply. -/
structure MsgRight (msg reply : List UInt8) : Prop where
  type : reply.head? = some ICMP_ER
  same : reply.drop 4 = msg.drop 4
  chksum : Rep 0xffff (value reply) 0xffff

section Reply

variable {msg first behind rest : List UInt8}

/-- A message of which the first four octets are there. -/
theorem exists_echo (hlen : 4 ≤ msg.length) (hecho : msg.head? = some ICMP_ECHO) :
    ∃ code c₀ c₁ tail, msg = ICMP_ECHO :: code :: c₀ :: c₁ :: tail := by
  match msg with
  | t :: code :: c₀ :: c₁ :: tail =>
    obtain rfl := Option.some_inj.mp hecho
    exact ⟨code, c₀, c₁, tail, rfl⟩
  | [] => simp at hlen
  | [_] => simp at hlen
  | [_, _] => simp at hlen
  | [_, _, _] => simp at hlen

/-- The whole header of the message is updated. -/
theorem whole_right_iff (hlen : 4 ≤ msg.length) (hecho : msg.head? = some ICMP_ECHO)
    (hv : Rep 0xffff (value msg) 0xffff) : MsgRight msg (adjustEcho msg) ↔ ¬ Blank msg := by
  obtain ⟨code, c₀, c₁, tail, rfl⟩ := exists_echo hlen hecho
  rw [← adjustEcho_verifies hv]
  exact ⟨fun h => h.chksum, fun h => ⟨rfl, rfl, h⟩⟩

/-- Less than four octets of it are in the first pbuf. -/
theorem short_right_iff (hshort : first.length < 4) (hlen : 4 ≤ (first ++ rest).length)
    (hecho : (first ++ rest).head? = some ICMP_ECHO)
    (hv : Rep 0xffff (value (first ++ rest)) 0xffff) (hbehind : 4 ≤ behind.length) :
    MsgRight (first ++ rest) ((adjustEcho (first ++ behind)).take first.length ++ rest) ↔
      first.length = 3 ∧ (first.getD 2 0).toNat + 8 < 2^8 ∧
        read16 (first.getD 2 0) (behind.headD 0) + 8 < 0xffff := by
  match first, behind with
  | [], behind =>
    refine iff_of_false (fun h => ?_) (fun h => absurd h.1 (by decide))
    have htype := hecho.symm.trans h.type
    exact absurd htype (by decide)
  | [t], b :: b' :: b'' :: behind =>
    obtain rfl := Option.some_inj.mp hecho
    exact iff_of_false (fun h => type_alone_fails hv h.chksum) (fun h => absurd h.1 (by simp))
  | [t, code], b :: b' :: behind =>
    obtain rfl := Option.some_inj.mp hecho
    exact iff_of_false (fun h => type_alone_fails hv h.chksum) (fun h => absurd h.1 (by simp))
  | [t, code, c₀], b :: behind =>
    obtain rfl := Option.some_inj.mp hecho
    cases rest with
    | nil => simp at hlen
    | cons c₁ tail =>
      have hthree : [ICMP_ECHO, code, c₀].length = 3 := rfl
      rw [and_iff_right hthree]
      refine .trans ?_ (three_verifies hv b behind)
      exact ⟨fun h => h.chksum, fun h => ⟨rfl, rfl, h⟩⟩
  | [_], [] => simp at hbehind
  | [_], [_] => simp at hbehind
  | [_], [_, _] => simp at hbehind
  | [_, _], [] => simp at hbehind
  | [_, _], [_] => simp at hbehind
  | [_, _, _], [] => simp at hbehind
  | _ :: _ :: _ :: _ :: _, _ =>
    simp only [List.length_cons] at hshort
    omega

/-- The changes keep the length of the message. -/
theorem length_adjustEcho (m : List UInt8) : (adjustEcho m).length = m.length := by
  unfold adjustEcho
  split
  · simp [store16]
  · rfl

end Reply

/-- A reply is valid exactly if the update of the message's checksum is right, and the options of
the header add up to zero. -/
theorem icmpInput_right_iff (inp : NetIf) (alloc : Bool) (p : EchoPacket) (r : EchoReply)
    (hecho : p.msg.head? = some ICMP_ECHO) (h : icmpInput inp alloc p = .ok (some r)) :
    p.Replied r ↔ p.Updates ∧ p.hdr.ZeroOptions := by
  obtain ⟨hlen, hv, hhdr, hpbufs⟩ := icmpInput_eq h
  have htot := p.tot_len_le
  have hhlen := p.hlen
  have hoctets : p.hdr.octets.length = 20 + p.hdr.options.length := by
    rw [FullHdr.octets, List.length_append, IpHdr.length_octets, IP_HLEN]
  have hmsglen : p.msg.length = p.first.length + p.rest.flatten.length := List.length_append
  rw [List.length_append] at htot
  have hrest : ∀ q ∈ p.rest, q.length ≤ 0xffff := by
    intro q hq
    have hle := (List.sublist_flatten_of_mem hq).length_le
    omega
  have hmsg : Rep 0xffff (value p.msg) 0xffff :=
    (inetChksumPbuf_eq_zero_iff (List.forall_mem_cons.mpr ⟨by omega, hrest⟩)).mp hv
  -- The message apart from the header.
  have hsplit : p.Replied r ↔ MsgRight p.msg r.pbufs.flatten ∧ p.hdr.ZeroOptions := by
    have hshort : ∀ q ∈ r.pbufs, q.length ≤ 0xffff := by
      rw [hpbufs]
      split
      · refine List.forall_mem_cons.mpr ⟨?_, hrest⟩
        rw [List.length_take]
        omega
      · rw [List.forall_mem_singleton, length_adjustEcho]
        omega
    rw [← replyHdr_verifies (by omega), ← hhdr]
    constructor
    · intro hr
      exact ⟨⟨hr.type, hr.same, (inetChksumPbuf_eq_zero_iff hshort).mp hr.chksum⟩, hr.hdrChksum⟩
    · rintro ⟨hm, hck⟩
      refine ⟨?_, ?_, hm.type, hm.same, (inetChksumPbuf_eq_zero_iff hshort).mpr hm.chksum, hck⟩
      · rw [hhdr]
        rfl
      · rw [hhdr]
        rfl
  rw [hsplit]
  refine and_congr_left fun _ => ?_
  rw [EchoPacket.Updates, hpbufs]
  by_cases hplace : p.inPlace = true
  · rw [if_pos hplace, List.flatten_cons]
    by_cases hfour : 4 ≤ p.first.length
    · rw [if_pos (.inr hfour), take_adjustEcho hfour]
      exact whole_right_iff (by omega) hecho hmsg
    · rw [if_neg (not_or.mpr ⟨by rw [hplace]; decide, hfour⟩)]
      refine short_right_iff (by omega) ?_ hecho hmsg p.behind_length
      rw [List.length_append]
      omega
  · rw [if_neg hplace, if_pos (.inl (Bool.eq_false_iff.mpr hplace)), List.flatten_singleton]
    exact whole_right_iff (by omega) hecho hmsg

/-- The interface 10.0.0.2/8. -/
def echoNetif : NetIf := ⟨0x0a000002, 0xff000000, 0, Netif.ethzero, true⟩

/-- The header of an echo request from 10.0.0.1, without options. -/
def echoHdr : IpHdr :=
  { v_hl_tos := 0x4500, len := 28, id := 1, offset := 0, ttl_proto := 0x4001, chksum := 0x66de,
    src := 0x0a000001, dest := 0x0a000002 }

/-- An echo request without payload in one pbuf. -/
def echoRequest (seqno : UInt8) : EchoPacket where
  type := .POOL
  room := 16
  hdr := ⟨echoHdr, []⟩
  first := [8, 0, 0xf7, 0xff - seqno, 0, 0, 0, seqno]
  behind := [0, 0, 0, 0]
  rest := []
  hlen := by decide +kernel
  behind_length := by decide
  tot_len_le := by simp [FullHdr.octets, IpHdr.length_octets, IP_HLEN]

/-- A request with one octet of data is replied to. -/
theorem icmpInput_right_iff_one :
    ∃ r, (echoRequest 1).msg.head? = some ICMP_ECHO ∧
      icmpInput echoNetif true (echoRequest 1) = .ok (some r) ∧
      (echoRequest 1).Replied r := by
  have hecho : (echoRequest 1).msg.head? = some ICMP_ECHO := rfl
  refine ⟨⟨replyHdr ⟨echoHdr, []⟩, [[0, 0, 0xff, 0xfe, 0, 0, 0, 1]]⟩, hecho, by decide +kernel, ?_⟩
  refine (icmpInput_right_iff echoNetif true (echoRequest 1) _ hecho
    (by decide +kernel)).mpr ⟨?_, ?_⟩
  · rw [EchoPacket.Updates, if_pos (.inr (by decide))]
    rintro ⟨-, hzero⟩
    exact absurd (hzero 1 (by decide)) (by decide)
  · exact (by decide +kernel : onesSum 0xffff (bigWords []) % 0xffff = 0)

/-- A message of zeros but for its type and checksum gets the checksum 0. -/
theorem blank_echo_not_replied :
    ∃ r, (echoRequest 0).msg.head? = some ICMP_ECHO ∧
      icmpInput echoNetif true (echoRequest 0) = .ok (some r) ∧
      ¬ (echoRequest 0).Replied r := by
  refine ⟨⟨replyHdr ⟨echoHdr, []⟩, [[0, 0, 0, 0, 0, 0, 0, 0]]⟩, rfl, by decide +kernel,
    fun hr => ?_⟩
  exact absurd hr.chksum (by decide +kernel)

end Lwip.Ip
