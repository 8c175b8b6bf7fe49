import Lwip.Ip.Hdr
import Mathlib.Data.List.Basic

/-!
# IP reassembly

`ip_reass`, `ip_reass_tmr` and their helpers of `ip_frag.c`, with the options of
`lib_test/lwipopts.h`. Overlaps are checked (`IP_REASS_CHECK_OVERLAP`) and the oldest datagram makes
room for a new fragment (`IP_REASS_FREE_OLDEST`).

The list `reassdatagrams` is a list, newest first, and a pointer into it is an index. A queued
fragment is the pbuf chain with the `struct ip_reass_helper` that overwrites its header. The message
`icmp_time_exceeded` sends is left out, and so are the counters.
-/

namespace Lwip.Ip

/-- `IP_REASS_MAX_PBUFS`, the number of pbufs that may wait to be reassembled. -/
def IP_REASS_MAX_PBUFS : ℕ := 10

/-- `IP_REASS_MAXAGE`, the life of an incomplete datagram in ticks. -/
def IP_REASS_MAXAGE : ℕ := 3

/-- `MEMP_NUM_REASSDATA`, the number of `struct ip_reassdata` in their pool. -/
def MEMP_NUM_REASSDATA : ℕ := 5

/-- The assertions of the reassembly code. -/
inductive Abort where
  /-- `prev != ipr` -/
  | prevIsIpr
  /-- `prev->next == ipr` -/
  | prevNextNotIpr
  /-- `ip_reass_pbufcount >= clen` -/
  | pbufcountLtClen
  /-- `sanity check linked list` -/
  | sanityCheckLinkedList
  /-- `check fragments don't overlap` -/
  | fragmentsOverlap
  /-- `no previous fragment, this must be the first fragment!` -/
  | noPreviousFragment
  /-- `sanity check` -/
  | sanityCheck
  /-- `validate_datagram:next_pbuf!=NULL` -/
  | nextPbufNotNull
  /-- `validate_datagram:datagram end!=datagram len` -/
  | datagramEndNotLen
  /-- Not an assertion: a `NULL` pointer is followed. -/
  | nullPointer
  deriving DecidableEq, Repr

/-- A fragment as `ip_reass` gets it. -/
structure Frag where
  /-- The header in front of the payload. -/
  hdr : IpHdr
  /-- The octets behind the header. -/
  payload : List UInt8
  /-- What `pbuf_clen` says of the chain. -/
  clen : ℕ
  deriving DecidableEq, Repr

/-- A queued fragment, a pbuf chain with a `struct ip_reass_helper` at its front. -/
structure Held where
  /-- `start`. -/
  start : ℕ
  /-- `end`. -/
  stop : ℕ
  /-- The octets behind the helper. -/
  payload : List UInt8
  /-- What `pbuf_clen` says of the chain. -/
  clen : ℕ
  deriving DecidableEq, Repr

/-- `struct ip_reassdata`. -/
structure ReassData where
  /-- The fragments linked by `next_pbuf`. -/
  p : List Held := []
  /-- A copy of the header of the first fragment, or of some fragment. -/
  iphdr : IpHdr
  /-- `datagram_len`. -/
  datagram_len : ℕ := 0
  /-- `IP_REASS_FLAG_LASTFRAG`. -/
  lastfrag : Bool := false
  /-- `timer`. -/
  timer : ℕ
  deriving DecidableEq, Repr

/-- The two global variables of `ip_frag.c`. -/
structure Reass where
  /-- `reassdatagrams`. -/
  datagrams : List ReassData := []
  /-- `ip_reass_pbufcount`. -/
  pbufcount : ℕ := 0
  deriving DecidableEq, Repr

/-- A reassembled datagram. -/
structure Datagram where
  /-- Its header. -/
  hdr : IpHdr
  /-- The octets of the chain behind the header. -/
  payload : List UInt8
  deriving DecidableEq, Repr

/-- The number of pbufs in a queue of fragments. -/
def heldPbufs (q : List Held) : ℕ := (q.map Held.clen).sum

/-- The number of pbufs in a list of datagrams. -/
def pbufs (l : List ReassData) : ℕ := (l.map fun d => heldPbufs d.p).sum

/-- `IP_ADDRESSES_AND_ID_MATCH(&ipr->iphdr, fraghdr)`. -/
def ReassData.isOf (d : ReassData) (fraghdr : IpHdr) : Bool := d.iphdr.addressesAndIdMatch fraghdr

/-! ## The list of datagrams -/

/-- `ip_reass_dequeue_datagram(ipr, prev)`. -/
def ipReassDequeueDatagram (l : List ReassData) (ipr : ℕ) (prev : Option ℕ) :
    Except Abort (List ReassData) :=
  if ipr = 0 then .ok l.tail
  else
    match prev with
    | none => .error .sanityCheckLinkedList
    | some k => .ok (l.take (k + 1) ++ l.drop (ipr + 1))

/-- `ip_reass_free_complete_datagram(ipr, prev)`, with the number of pbufs it frees. The first of
them is freed apart from the others when it starts the datagram, after the ICMP message. -/
def ipReassFreeCompleteDatagram (s : Reass) (ipr : ℕ) (prev : Option ℕ) :
    Except Abort (Reass × ℕ) := do
  lwipAssert .prevIsIpr (prev ≠ some ipr)
  lwipAssert .prevNextNotIpr (prev.all (· + 1 = ipr))
  match s.datagrams[ipr]? with
  | none => .error .nullPointer
  | some d =>
    lwipAssert .nullPointer (d.p ≠ [])
    let pbufsFreed := heldPbufs d.p
    let l ← ipReassDequeueDatagram s.datagrams ipr prev
    lwipAssert .pbufcountLtClen (pbufsFreed ≤ s.pbufcount)
    .ok (⟨l, s.pbufcount - pbufsFreed⟩, pbufsFreed)

/-- The loop of `ip_reass_tmr` from the entry `r` on. The first argument bounds the number of
rounds. -/
def ipReassTmrLoop : ℕ → Reass → ℕ → Option ℕ → Except Abort Reass
  | 0, s, _, _ => .ok s
  | n + 1, s, r, prev =>
    match s.datagrams[r]? with
    | none => .ok s
    | some d =>
      if 0 < d.timer then
        ipReassTmrLoop n { s with datagrams := s.datagrams.set r { d with timer := d.timer - 1 } }
          (r + 1) (some r)
      else
        ipReassFreeCompleteDatagram s r prev >>= fun x => ipReassTmrLoop n x.1 r prev

/-- `ip_reass_tmr()`. -/
def ipReassTmr (s : Reass) : Except Abort Reass := ipReassTmrLoop s.datagrams.length s 0 none

/-- What the inner loop of `ip_reass_remove_oldest_datagram` looks for. -/
structure Oldest where
  /-- `oldest`, with its timer. -/
  oldest : Option (ℕ × ℕ) := none
  /-- `prev`. -/
  prev : Option ℕ := none
  /-- `other_datagrams`. -/
  otherDatagrams : ℕ := 0
  deriving DecidableEq, Repr

/-- One round of that loop, at the entry `r` with the index `i`. -/
def oldestStep (fraghdr : IpHdr) (i : ℕ) (r : ReassData) (next : List ReassData) (x : Oldest) :
    Oldest where
  oldest :=
    if r.isOf fraghdr then x.oldest
    else
      match x.oldest with
      | none => some (i, r.timer)
      | some (j, t) => if r.timer ≤ t then some (i, r.timer) else some (j, t)
  prev := if next = [] then x.prev else some i
  otherDatagrams := if r.isOf fraghdr then x.otherDatagrams else x.otherDatagrams + 1

/-- The inner loop of `ip_reass_remove_oldest_datagram`. -/
def findOldest (fraghdr : IpHdr) (i : ℕ) (x : Oldest) : List ReassData → Oldest
  | [] => x
  | r :: next => findOldest fraghdr (i + 1) (oldestStep fraghdr i r next x) next

/-- The outer loop of `ip_reass_remove_oldest_datagram`. The third argument bounds the number of
rounds, the last one is `pbufs_freed`. -/
def removeOldestLoop (fraghdr : IpHdr) (pbufsNeeded : ℕ) :
    ℕ → Reass → ℕ → Except Abort (Reass × ℕ)
  | 0, s, pbufsFreed => .ok (s, pbufsFreed)
  | n + 1, s, pbufsFreed =>
    let x := findOldest fraghdr 0 {} s.datagrams
    (match x.oldest with
      | none => .ok (s, 0)
      | some (oldest, _) => ipReassFreeCompleteDatagram s oldest x.prev) >>= fun y =>
    if pbufsFreed + y.2 < pbufsNeeded ∧ 1 < x.otherDatagrams then
      removeOldestLoop fraghdr pbufsNeeded n y.1 (pbufsFreed + y.2)
    else .ok (y.1, pbufsFreed + y.2)

/-- `ip_reass_remove_oldest_datagram(fraghdr, pbufs_needed)`. Every round but the last one removes
an entry and leaves another one. -/
def ipReassRemoveOldestDatagram (s : Reass) (fraghdr : IpHdr) (pbufsNeeded : ℕ) :
    Except Abort (Reass × ℕ) :=
  removeOldestLoop fraghdr pbufsNeeded s.datagrams.length s 0

/-- The new entry of `ip_reass_enqueue_new_datagram`. -/
def newDatagram (fraghdr : IpHdr) : ReassData := { iphdr := fraghdr, timer := IP_REASS_MAXAGE }

/-- `ip_reass_enqueue_new_datagram(fraghdr, clen)`, with `none` for a full pool. -/
def ipReassEnqueueNewDatagram (s : Reass) (fraghdr : IpHdr) (clen : ℕ) :
    Except Abort (Reass × Option ReassData) :=
  if s.datagrams.length < MEMP_NUM_REASSDATA then
    .ok ({ s with datagrams := newDatagram fraghdr :: s.datagrams }, some (newDatagram fraghdr))
  else
    ipReassRemoveOldestDatagram s fraghdr clen >>= fun x =>
    if clen ≤ x.2 ∧ x.1.datagrams.length < MEMP_NUM_REASSDATA then
      .ok ({ x.1 with datagrams := newDatagram fraghdr :: x.1.datagrams },
        some (newDatagram fraghdr))
    else .ok (x.1, none)

/-! ## The queue of a datagram -/

/-- The loop of `ip_reass_chain_frag_into_datagram_and_validate` over the queue. `passed` are the
fragments before `q`, the last of them is `iprh_prev`. The result `none` is `goto freepbuf`. -/
def chainLoop (iprh : Held) (passed : List Held) (valid : Bool) :
    List Held → Option (List Held × List Held × Bool)
  | [] => some (passed, [], valid)
  | tmp :: q =>
    if iprh.start < tmp.start then
      match passed.getLast? with
      | some prev =>
        if iprh.start < prev.stop ∨ tmp.start < iprh.stop then none
        else some (passed, tmp :: q, valid)
      | none => some (passed, tmp :: q, valid)
    else if iprh.start = tmp.start then none
    else if iprh.start < tmp.stop then none
    else
      chainLoop iprh (passed ++ [tmp])
        (valid && passed.getLast?.all fun prev => prev.stop = tmp.start) q

/-- The loop that checks that there are no holes after the new fragment. It ends with `valid`, the
last `iprh` and the rest of the queue behind it. -/
def rescanLoop (prev : Held) : List Held → Bool × Held × List Held
  | [] => (true, prev, [])
  | iprh :: q => if prev.stop ≠ iprh.start then (false, iprh, q) else rescanLoop iprh q

/-- The part after the loop when it came to the end of the queue, with the new `valid`. -/
def chainAppend (ipr : ReassData) (iprh : Held) (passed : List Held) (valid : Bool) :
    Except Abort Bool :=
  match passed.getLast? with
  | some prev => do
    lwipAssert .fragmentsOverlap (prev.stop ≤ iprh.start)
    .ok (valid && prev.stop = iprh.start)
  | none => do
    lwipAssert .noPreviousFragment (ipr.p = [])
    .ok valid

/-- The validation part, for the queue `passed ++ iprh :: next`. -/
def validateDatagram (ipr : ReassData) (passed : List Held) (iprh : Held) (next : List Held)
    (valid : Bool) : Except Abort Bool :=
  if ipr.lastfrag = true ∧ valid = true then
    match passed ++ iprh :: next with
    | [] => .error .nullPointer
    | first :: rest =>
      if first.start ≠ 0 then .ok false
      else
        let x := rescanLoop iprh next
        if x.1 then do
          -- The first fragment is the last one when nothing is linked behind it.
          lwipAssert .sanityCheck (rest ≠ [])
          lwipAssert .nextPbufNotNull (x.2.2 = [])
          lwipAssert .datagramEndNotLen (x.2.1.stop = ipr.datagram_len)
          .ok true
        else .ok false
  else .ok false

/-- `ip_reass_chain_frag_into_datagram_and_validate(ipr, new_p)`, where `iprh` is the helper it sets
up. The result is the new queue with the return value, or `none` when the fragment is thrown
away. -/
def ipReassChainFragIntoDatagramAndValidate (ipr : ReassData) (iprh : Held) :
    Except Abort (Option (List Held × Bool)) :=
  match chainLoop iprh [] true ipr.p with
  | none => .ok none
  | some (passed, next, valid) => do
    let valid ← if next = [] then chainAppend ipr iprh passed valid else .ok valid
    let valid ← validateDatagram ipr passed iprh next valid
    .ok (some (passed ++ iprh :: next, valid))

/-! ## `ip_reass` -/

/-- The helper set up in place of the header of a fragment. -/
def Frag.held (p : Frag) : Held where
  start := p.hdr.fragOffset
  stop := u16 (p.hdr.fragOffset + p.hdr.fragLen)
  payload := p.payload
  clen := p.clen

/-- The check for 'no more fragments'. -/
def noteLastFrag (ipr : ReassData) (p : Frag) : ReassData :=
  if p.hdr.lastFrag then
    { ipr with lastfrag := true, datagram_len := u16 (p.hdr.fragOffset + p.hdr.fragLen) }
  else ipr

/-- The header of the reassembled datagram. -/
def reassHdr (ipr : ReassData) : IpHdr :=
  let fraghdr := { ipr.iphdr with
    len := BitVec.ofNat 16 (ipr.datagram_len + IP_HLEN), offset := 0, chksum := 0#16 }
  { fraghdr with chksum := inetChksum fraghdr.octets }

/-- The chain of all fragments, with the header copied back to the first one. -/
def reassDatagram (ipr : ReassData) : Datagram where
  hdr := reassHdr ipr
  payload := (ipr.p.map Held.payload).flatten

/-- `ip_reass(p)` from where the datagram of the fragment is found: `ipr` is its entry, at the index
`i` behind the entry `prev`. -/
def ipReassInto (s : Reass) (i : ℕ) (prev : Option ℕ) (ipr : ReassData) (p : Frag) :
    Except Abort (Reass × Option Datagram) :=
  let pbufcount := u16 (s.pbufcount + p.clen)
  let ipr := noteLastFrag ipr p
  ipReassChainFragIntoDatagramAndValidate ipr p.held >>= fun x =>
  match x with
  | none => .ok (⟨s.datagrams.set i ipr, u16sub pbufcount p.clen⟩, none)
  | some (q, false) => .ok (⟨s.datagrams.set i { ipr with p := q }, pbufcount⟩, none)
  | some (q, true) =>
    let ipr := { ipr with p := q }
    ipReassDequeueDatagram s.datagrams i prev >>= fun l =>
    .ok (⟨l, u16sub pbufcount (u8 (heldPbufs q))⟩, some (reassDatagram ipr))

/-- The header of the entry is replaced by that of the first fragment when it arrives. -/
def noteFirstHdr (ipr : ReassData) (p : Frag) : ReassData :=
  if p.hdr.offBits = 0 ∧ ipr.iphdr.offBits ≠ 0 then { ipr with iphdr := p.hdr } else ipr

/-- `ip_reass(p)` from where there is room for the fragment. -/
def ipReassFind (s : Reass) (p : Frag) : Except Abort (Reass × Option Datagram) :=
  match s.datagrams.findIdx? (·.isOf p.hdr) with
  | none =>
    ipReassEnqueueNewDatagram s p.hdr p.clen >>= fun x =>
    match x.2 with
    | none => .ok (x.1, none)
    -- The new entry is the first of the list, where the predecessor is not read.
    | some ipr => ipReassInto x.1 0 none ipr p
  | some i =>
    match s.datagrams[i]? with
    | none => .error .nullPointer
    | some ipr => ipReassInto s i (if i = 0 then none else some (i - 1)) (noteFirstHdr ipr p) p

/-- `ip_reass(p)`, with the datagram it returns if it returns one. -/
def ipReass (s : Reass) (p : Frag) : Except Abort (Reass × Option Datagram) :=
  if p.hdr.hl * 4 ≠ IP_HLEN then .ok (s, none)
  else if IP_REASS_MAX_PBUFS < s.pbufcount + p.clen then
    ipReassRemoveOldestDatagram s p.hdr p.clen >>= fun x =>
    if x.2 = 0 ∨ IP_REASS_MAX_PBUFS < x.1.pbufcount + p.clen then .ok (x.1, none)
    else ipReassFind x.1 p
  else ipReassFind s p

end Lwip.Ip
