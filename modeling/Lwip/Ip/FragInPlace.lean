import Lwip.Ip.Fragment

/-!
# What `ip_frag` does to the packet

`ip_frag` again, with the fields of the caller's pbufs, and with allocations that may fail. In every
round the payload pointer of the pbuf the loop is in is moved over what is done, and its length is
cut by that. Nothing is put back, so the packet is the same after the call only if the loop was not
entered far enough (`ipFrag_intact_iff`). With a memory behind the pointers, and no allocation
failing, the fragments are those of `ipFrag` (`fragInPlaceLoop_read`).
-/

namespace Lwip.Ip

/-- The fields of a pbuf of the caller's chain. -/
structure FragPbuf where
  payload : ℕ
  len : ℕ
  tot_len : ℕ
  deriving DecidableEq, Repr

/-- A packet as the caller passes it. -/
structure FragPacket where
  iphdr : IpHdr
  first : FragPbuf
  rest : List FragPbuf
  deriving DecidableEq, Repr

/-- A fragment: its header, and the payload pointer and length of each `PBUF_REF`. -/
structure FragRefs where
  iphdr : IpHdr
  refs : List (ℕ × ℕ)
  deriving DecidableEq, Repr

/-- How `ip_frag` returns. -/
inductive FragErr where
  | ERR_OK
  | ERR_MEM
  deriving DecidableEq, Repr

/-- `ip_frag` has returned: the caller's chain, and what was passed to `netif->output`. -/
structure FragReturn where
  err : FragErr
  chain : List FragPbuf
  sent : List FragRefs
  deriving DecidableEq, Repr

/-- The inner loop, from the pbuf with the index `i` on. The allocations are counted by `c`. Without
memory for a `PBUF_REF` there is no result. -/
def mirrorInPlace (alloc : ℕ → Bool) (left_to_copy i c : ℕ) :
    List FragPbuf → Except FragAbort (ℕ × Option (List (ℕ × ℕ) × ℕ × ℕ))
  | [] => .error .nullPointer
  | p :: next =>
    let newpbuflen := if left_to_copy < p.len then left_to_copy else p.len
    if newpbuflen = 0 then mirrorInPlace alloc left_to_copy (i + 1) c next
    else if !alloc c then .ok (c + 1, none)
    else if left_to_copy - newpbuflen ≠ 0 then
      mirrorInPlace alloc (left_to_copy - newpbuflen) (i + 1) (c + 1) next >>= fun x =>
      .ok (x.1, x.2.map fun y => ((p.payload, newpbuflen) :: y.1, y.2))
    else .ok (c + 1, some ([(p.payload, newpbuflen)], i, newpbuflen))

/-- The outer loop, in the pbuf with the index `i` of the chain. -/
def fragInPlaceLoop (alloc : ℕ → Bool) (original_iphdr : IpHdr) (omf : BitVec 16) (mtu nfb : ℕ) :
    ℕ → List FragPbuf → ℕ → ℕ → ℕ → ℕ → BitVec 16 → Except FragAbort FragReturn
  | 0, chain, _, _, _, _, _ => .ok ⟨.ERR_OK, chain, []⟩
  | n + 1, chain, i, c, poff, left, ofo =>
    if left = 0 then .ok ⟨.ERR_OK, chain, []⟩
    else
      let last := left ≤ mtu - IP_HLEN
      let tmp := omf ||| (IP_OFFMASK &&& ofo)
      let tmp := if last then tmp else tmp ||| IP_MF
      let cop := if last then left else nfb * 8
      if !alloc c then .ok ⟨.ERR_MEM, chain, []⟩
      else
        match chain[i]? with
        | none => .error .nullPointer
        | some p =>
          lwipAssert .notInOnePiece (IP_HLEN ≤ p.len) >>= fun _ =>
          let chain := chain.set i { p with payload := p.payload + poff, len := u16sub p.len poff }
          mirrorInPlace alloc cop i (c + 1) (chain.drop i) >>= fun x =>
          match x with
          | (_, none) => .ok ⟨.ERR_MEM, chain, []⟩
          | (c, some (refs, i, newpbuflen)) =>
            fragInPlaceLoop alloc original_iphdr omf mtu nfb n chain i c newpbuflen (left - cop)
              (ofo + BitVec.ofNat 16 nfb) >>= fun r =>
            .ok { r with sent := ⟨fragHdr original_iphdr tmp cop, refs⟩ :: r.sent }

namespace FragPacket

/-- The caller's chain. -/
def chain (p : FragPacket) : List FragPbuf := p.first :: p.rest

/-- `p->tot_len - IP_HLEN`. -/
def left (p : FragPacket) : ℕ := u16sub p.first.tot_len IP_HLEN

end FragPacket

/-- `ip_frag(p, netif, dest)`. -/
def ipFragInPlace (alloc : ℕ → Bool) (p : FragPacket) (mtu : ℕ) : Except FragAbort FragReturn :=
  let tmp := p.iphdr.offset
  fragInPlaceLoop alloc p.iphdr (tmp &&& IP_MF) mtu ((mtu - IP_HLEN) / 8) p.left p.chain 0 0 IP_HLEN
    p.left (tmp &&& IP_OFFMASK)

/-- The caller finds its pbufs as they were. -/
def Intact (alloc : ℕ → Bool) (p : FragPacket) (mtu : ℕ) : Prop :=
  ∀ r, ipFragInPlace alloc p mtu = .ok r → r.chain = p.chain

/-! ## The chain moves on -/

/-- No payload pointer has moved back. -/
def Advanced (l l' : List FragPbuf) : Prop := List.Forall₂ (fun p p' => p.payload ≤ p'.payload) l l'

/-- Nothing was moved. -/
theorem Advanced.refl (l : List FragPbuf) : Advanced l l := List.forall₂_refl l

/-- What is moved in two steps. -/
theorem Advanced.trans {l l' l'' : List FragPbuf} (h : Advanced l l') (h' : Advanced l' l'') :
    Advanced l l'' := by
  induction h generalizing l'' with
  | nil => exact h'
  | cons hp _ ih =>
    cases h' with
    | cons hp' h' => exact .cons (hp.trans hp') (ih h')

/-- A pbuf whose payload pointer is moved on. -/
theorem Advanced.set {l : List FragPbuf} {i : ℕ} {p p' : FragPbuf} (h : l[i]? = some p)
    (hp : p.payload ≤ p'.payload) : Advanced l (l.set i p') := by
  induction l generalizing i with
  | nil => cases h
  | cons q l ih =>
    cases i with
    | zero =>
      obtain rfl := Option.some_inj.mp h
      exact .cons hp (Advanced.refl l)
    | succ i => exact .cons (Nat.le_refl _) (ih h)

section Loop

variable {alloc : ℕ → Bool} {iphdr : IpHdr} {omf ofo : BitVec 16} {mtu nfb n i c poff left : ℕ}
  {chain : List FragPbuf} {r : FragReturn}

/-- A round that gets past the allocation of `rambuf` has moved a pointer on. -/
theorem fragInPlaceLoop_round (hleft : left ≠ 0)
    (h : fragInPlaceLoop alloc iphdr omf mtu nfb (n + 1) chain i c poff left ofo = .ok r) :
    r.chain = chain ∧ alloc c = false ∨
      alloc c = true ∧ ∃ p chain', chain[i]? = some p ∧
        chain' = chain.set i { p with payload := p.payload + poff, len := u16sub p.len poff } ∧
        (r.chain = chain' ∨ ∃ i c poff left ofo r',
          fragInPlaceLoop alloc iphdr omf mtu nfb n chain' i c poff left ofo = .ok r' ∧
            r.chain = r'.chain) := by
  rw [fragInPlaceLoop, if_neg hleft] at h
  dsimp only at h
  split at h
  · -- No memory for `rambuf`.
    next hno =>
    cases h
    exact .inl ⟨rfl, by simpa using hno⟩
  · next hyes =>
    refine .inr ⟨by simpa using hyes, ?_⟩
    split at h
    · cases h
    · next p hp =>
      obtain ⟨-, -, h⟩ := bind_eq_ok.mp h
      obtain ⟨x, -, h⟩ := bind_eq_ok.mp h
      refine ⟨p, _, hp, rfl, ?_⟩
      obtain ⟨c', x⟩ := x
      cases x with
      | none =>
        -- No memory for a `PBUF_REF`: the function returns with the pointer moved.
        cases h
        exact .inl rfl
      | some y =>
        obtain ⟨r', hr', h⟩ := bind_eq_ok.mp h
        cases h
        exact .inr ⟨_, _, _, _, _, r', hr', rfl⟩

/-- The loop moves pointers on only. -/
theorem fragInPlaceLoop_advanced
    (h : fragInPlaceLoop alloc iphdr omf mtu nfb n chain i c poff left ofo = .ok r) :
    Advanced chain r.chain := by
  induction n generalizing chain i c poff left ofo r with
  | zero =>
    cases h
    exact .refl _
  | succ n ih =>
    by_cases hleft : left = 0
    · rw [fragInPlaceLoop, if_pos hleft] at h
      cases h
      exact .refl _
    · rcases fragInPlaceLoop_round hleft h with ⟨heq, -⟩ | ⟨-, p, chain', hp, rfl, hrest⟩
      · rw [heq]
        exact .refl _
      · have hset : Advanced chain
            (chain.set i { p with payload := p.payload + poff, len := u16sub p.len poff }) :=
          .set hp (Nat.le_add_right _ _)
        rcases hrest with heq | ⟨_, _, _, _, _, r', hr', heq⟩
        · rwa [heq]
        · rw [heq]
          exact hset.trans (ih hr')

end Loop

/-- The packet is left as it was exactly if it has no payload, or the first allocation fails. -/
theorem ipFrag_intact_iff (alloc : ℕ → Bool) (p : FragPacket) (mtu : ℕ)
    (hret : ∃ r, ipFragInPlace alloc p mtu = .ok r) :
    Intact alloc p mtu ↔ p.left = 0 ∨ alloc 0 = false := by
  constructor
  · intro hintact
    by_contra hnot
    obtain ⟨hleft, halloc⟩ := not_or.mp hnot
    obtain ⟨r, hr⟩ := hret
    have hsame := hintact r hr
    obtain ⟨n, hn⟩ : ∃ n, p.left = n + 1 := Nat.exists_eq_succ_of_ne_zero hleft
    rw [ipFragInPlace, hn] at hr
    rcases fragInPlaceLoop_round (Nat.succ_ne_zero n) hr
      with ⟨-, hno⟩ | ⟨-, q, chain', hq, rfl, hrest⟩
    · exact halloc hno
    · -- The first pbuf starts behind the header now.
      obtain rfl : p.first = q := Option.some_inj.mp hq
      have hmoved : Advanced
          (⟨p.first.payload + IP_HLEN, u16sub p.first.len IP_HLEN, p.first.tot_len⟩ :: p.rest)
          r.chain := by
        rcases hrest with heq | ⟨_, _, _, _, _, r', hr', heq⟩
        · rw [heq]
          exact .refl _
        · rw [heq]
          exact fragInPlaceLoop_advanced hr'
      rw [hsame] at hmoved
      cases hmoved with
      | cons hle _ =>
        dsimp only [IP_HLEN] at hle
        omega
  · rintro (hleft | hno) r hr
    · rw [ipFragInPlace, hleft] at hr
      cases hr
      rfl
    · rw [ipFragInPlace] at hr
      generalize hn : p.left = left at hr
      cases left with
      | zero =>
        cases hr
        rfl
      | succ n =>
        rcases fragInPlaceLoop_round (Nat.succ_ne_zero n) hr with ⟨heq, -⟩ | ⟨hyes, -⟩
        · exact heq
        · rw [hno] at hyes
          cases hyes

/-- One pbuf with a header and eight octets. -/
def eightOctets : FragPacket where
  iphdr :=
    { v_hl_tos := 0x4500, len := 28, id := 1, offset := 0, ttl_proto := 0x4011, chksum := 0#16,
      src := 0x0a000001, dest := 0x0a000002 }
  first := ⟨1000, 28, 28⟩
  rest := []

/-- Without memory the packet stays as it is. -/
theorem ipFrag_intact_iff_noMemory :
    (∃ r, ipFragInPlace (fun _ => false) eightOctets 28 = .ok r) ∧
    Intact (fun _ => false) eightOctets 28 := by
  have hret : ∃ r, ipFragInPlace (fun _ => false) eightOctets 28 = .ok r :=
    ⟨⟨.ERR_MEM, eightOctets.chain, []⟩, by decide +kernel⟩
  exact ⟨hret, (ipFrag_intact_iff _ _ _ hret).mpr (.inr rfl)⟩

/-- The packet is sent, and its pbuf is left without the header. -/
theorem header_cut_off :
    (ipFragInPlace (fun _ => true) eightOctets 28).map FragReturn.err = .ok .ERR_OK ∧
      ¬ Intact (fun _ => true) eightOctets 28 := by
  have hchain : (ipFragInPlace (fun _ => true) eightOctets 28).map FragReturn.chain =
      .ok [⟨1020, 8, 28⟩] := by
    decide +kernel
  refine ⟨by decide +kernel, fun hintact => ?_⟩
  cases hr : ipFragInPlace (fun _ => true) eightOctets 28 with
  | error e =>
    rw [hr] at hchain
    cases hchain
  | ok r =>
    rw [hr] at hchain
    have hcut : r.chain = [⟨1020, 8, 28⟩] := Except.ok.inj hchain
    rw [hintact r hr] at hcut
    exact absurd hcut (by decide)

/-! ## The fragments -/

/-- The octets of a pbuf. -/
def readPbuf (mem : ℕ → UInt8) (payload len : ℕ) : List UInt8 :=
  (List.range len).map fun i => mem (payload + i)

/-- The octets of a pbuf of the caller's chain. -/
def FragPbuf.read (mem : ℕ → UInt8) (p : FragPbuf) : List UInt8 := readPbuf mem p.payload p.len

/-- The octets of a fragment. -/
def FragRefs.read (mem : ℕ → UInt8) (f : FragRefs) : Rambuf :=
  ⟨f.iphdr, f.refs.map fun x => readPbuf mem x.1 x.2⟩

section Read

variable {mem : ℕ → UInt8}

/-- A pbuf has as many octets as it says. -/
theorem length_read (mem : ℕ → UInt8) (p : FragPbuf) : (p.read mem).length = p.len := by
  rw [FragPbuf.read, readPbuf, List.length_map, List.length_range]

/-- The first octets of a pbuf. -/
theorem take_read {p : FragPbuf} {n : ℕ} (h : n ≤ p.len) :
    (p.read mem).take n = readPbuf mem p.payload n := by
  rw [FragPbuf.read, readPbuf, readPbuf, ← List.map_take, List.take_range, Nat.min_eq_left h]

/-- The other octets of a pbuf. -/
theorem drop_read (p : FragPbuf) (n : ℕ) :
    (p.read mem).drop n = FragPbuf.read mem ⟨p.payload + n, p.len - n, p.tot_len⟩ := by
  rw [FragPbuf.read, FragPbuf.read, readPbuf, readPbuf]
  apply List.ext_getElem
  · simp
  · intro i _ _
    simp [Nat.add_assoc]

variable (mem) in
/-- With memory for every `PBUF_REF`, the inner loop mirrors the octets. -/
theorem mirrorInPlace_read (chain : List FragPbuf) (left i c : ℕ) :
    (∃ e, mirrorInPlace (fun _ => true) left i c chain = .error e ∧
      mirrorLoop left (chain.map (FragPbuf.read mem)) = .error e) ∨
    ∃ refs c' j len p, mirrorInPlace (fun _ => true) left i c chain = .ok
    (c', some (refs, i + j, len)) ∧
      chain[j]? = some p ∧ len ≤ p.len ∧
      mirrorLoop left (chain.map (FragPbuf.read mem)) =
        .ok (refs.map fun x => readPbuf mem x.1 x.2,
        (chain.drop j).map (FragPbuf.read mem), len) := by
  induction chain generalizing left i c with
  | nil => exact .inl ⟨_, rfl, rfl⟩
  | cons p next ih =>
    rw [mirrorInPlace, List.map_cons, mirrorLoop, length_read]
    generalize hnew : (if left < p.len then left else p.len) = newpbuflen
    have hle : newpbuflen ≤ p.len := by
      rw [← hnew]
      split <;> omega
    by_cases hzero : newpbuflen = 0
    · rw [if_pos hzero, if_pos hzero]
      rcases ih left (i + 1) c with ⟨e, he, he'⟩ | ⟨refs, c', j, len, q, hr, hq, hlen, hr'⟩
      · exact .inl ⟨e, he, he'⟩
      · refine .inr ⟨refs, c', j + 1, len, q, ?_, hq, hlen, hr'⟩
        rw [hr, Nat.add_assoc, Nat.add_comm 1 j]
    · rw [if_neg hzero, if_neg hzero, Bool.not_true, if_neg Bool.false_ne_true, take_read hle]
      by_cases hmore : left - newpbuflen ≠ 0
      · rw [if_pos hmore, if_pos hmore]
        rcases ih (left - newpbuflen) (i + 1) (c + 1) with
          ⟨e, he, he'⟩ | ⟨refs, c', j, len, q, hr, hq, hlen, hr'⟩
        · refine .inl ⟨e, ?_, ?_⟩
          · rw [he]
            rfl
          · rw [he']
            rfl
        · refine .inr ⟨(p.payload, newpbuflen) :: refs, c', j + 1, len, q, ?_, hq, hlen, ?_⟩
          · rw [hr, Nat.add_assoc, Nat.add_comm 1 j]
            rfl
          · rw [hr']
            rfl
      · rw [if_neg hmore, if_neg hmore]
        exact .inr ⟨_, _, 0, newpbuflen, p, rfl, rfl, hle, rfl⟩

/-- With all allocations, the outer loop sends the fragments of `ipFrag`. -/
theorem fragInPlaceLoop_read (iphdr : IpHdr) (omf : BitVec 16) (mtu nfb n : ℕ)
    (chain : List FragPbuf)
    (i c poff left : ℕ) (ofo : BitVec 16) {p : FragPbuf} (hp : chain[i]? = some p)
    (hpoff : poff ≤ p.len) (hlen : ∀ q ∈ chain, q.len < 2^16) :
    (fragInPlaceLoop (fun _ => true) iphdr omf mtu nfb n chain i c poff left ofo).map
        (fun r => r.sent.map (FragRefs.read mem)) =
      fragLoop iphdr omf mtu nfb n ((chain.drop i).map (FragPbuf.read mem)) poff left ofo := by
  induction n generalizing chain i c poff left ofo p with
  | zero => rfl
  | succ n ih =>
    obtain ⟨hi, hget⟩ := List.getElem?_eq_some_iff.mp hp
    have hdrop : chain.drop i = p :: chain.drop (i + 1) := by
      rw [← hget, List.drop_eq_getElem_cons hi]
    have hplen : p.len < 2^16 := hlen p (List.mem_of_getElem? hp)
    rw [fragInPlaceLoop, hdrop, List.map_cons, fragLoop]
    by_cases hleft : left = 0
    · rw [if_pos hleft, if_pos hleft]
      rfl
    rw [if_neg hleft, if_neg hleft, hp]
    dsimp only
    rw [Bool.not_true, if_neg Bool.false_ne_true, length_read]
    unfold lwipAssert
    split
    · -- The pbuf is cut in place, and so is what is left of its octets.
      have hsub : u16sub p.len poff = p.len - poff := by
        unfold u16sub
        omega
      set chain' := chain.set i ⟨p.payload + poff, u16sub p.len poff, p.tot_len⟩ with hchain'
      have hi' : i < chain'.length := by rwa [hchain', List.length_set]
      have hdrop' : chain'.drop i = ⟨p.payload + poff, u16sub p.len poff, p.tot_len⟩ ::
          chain.drop (i + 1) := by
        rw [List.drop_eq_getElem_cons hi']
        simp only [hchain', List.getElem_set_self, List.drop_set_of_lt (Nat.lt_succ_self i)]
      have hread : (p.read mem).drop poff :: (chain.drop (i + 1)).map (FragPbuf.read mem) =
          (chain'.drop i).map (FragPbuf.read mem) := by
        rw [hdrop', List.map_cons, drop_read, hsub]
      have hlen' : ∀ q ∈ chain', q.len < 2^16 := by
        intro q hq
        rcases List.mem_or_eq_of_mem_set hq with hq | rfl
        · exact hlen q hq
        · dsimp only
          omega
      dsimp only [bind, Except.bind]
      rw [hread]
      generalize (if left ≤ mtu - IP_HLEN then left else nfb * 8) = cop
      rcases mirrorInPlace_read mem (chain'.drop i) cop i (c + 1) with
        ⟨e, he, he'⟩ | ⟨refs, c', j, len, q, hr, hq, hqlen, hr'⟩
      · rw [he, he']
        rfl
      · rw [hr, hr']
        rw [List.getElem?_drop] at hq
        have hih := ih chain' (i + j) c' len (left - cop) (ofo + BitVec.ofNat 16 nfb) hq hqlen hlen'
        dsimp only
        rw [List.drop_drop, ← hih]
        cases fragInPlaceLoop (fun _ => true) iphdr omf mtu nfb n chain' (i + j) c' len (left - cop)
            (ofo + BitVec.ofNat 16 nfb) with
        | error e => rfl
        | ok r => rfl
    · rfl

end Read

/-- With a memory that holds the packet, and all allocations, `ip_frag` sends the fragments of
`ipFrag`. -/
theorem ipFragInPlace_read (mem : ℕ → UInt8) (p : FragPacket) (o : Outgoing) (mtu : ℕ)
    (hhdr : o.iphdr = p.iphdr) (hchain : p.chain.map (FragPbuf.read mem) = o.chain)
    (htot : p.first.tot_len = o.tot_len) (hfits : o.tot_len ≤ 0xffff) :
    (ipFragInPlace (fun _ => true) p mtu).map (fun r => r.sent.map (FragRefs.read mem)) =
    ipFrag o mtu := by
  have hlens : ∀ q ∈ p.chain, q.len ≤ o.tot_len := by
    intro q hq
    have hmem : q.read mem ∈ o.chain := hchain ▸ List.mem_map_of_mem hq
    rw [← length_read mem q]
    exact (List.sublist_flatten_of_mem hmem).length_le
  have hfirst : IP_HLEN ≤ p.first.len := by
    have hhead := congrArg (fun l => (l.headD []).length) hchain
    rw [FragPacket.chain, List.map_cons, Outgoing.chain] at hhead
    change (p.first.read mem).length = (o.iphdr.octets ++ o.first).length at hhead
    rw [length_read, List.length_append, IpHdr.length_octets] at hhead
    omega
  have htotal := o.tot_len_eq
  have hleft : p.left = o.tot_len - IP_HLEN := by
    rw [FragPacket.left, htot, u16sub, IP_HLEN]
    rw [IP_HLEN] at htotal
    omega
  rw [ipFragInPlace, hleft, ipFrag, ← hchain, hhdr]
  exact fragInPlaceLoop_read p.iphdr _ mtu _ _ p.chain 0 0 IP_HLEN _ _ rfl hfirst
    fun q hq => Nat.lt_succ_of_le ((hlens q hq).trans hfits)

end Lwip.Ip
