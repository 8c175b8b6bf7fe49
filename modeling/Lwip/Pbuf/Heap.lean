import Lwip.Arch
import Lwip.Lib.Links

/-!
# Packet buffers

`pbuf.c`. A pbuf is known by a number, which is not used again when it is freed; `none` among the
pbufs is one that is not allocated, and to read it is an error. `payload` is an offset into the
memory that the payload pointer points into: the `size` bytes behind the `struct pbuf` of a
`PBUF_RAM` or `PBUF_POOL`, and for a `PBUF_ROM` or `PBUF_REF` the `len` bytes elsewhere that its
caller lets it point to. How many allocations succeed, and what the memory contains, are parameters.
`MEM_ALIGNMENT` is 1.
-/

namespace Lwip.Pbuf

/-- `pbuf_type`. -/
inductive PbufType where
  | RAM | ROM | REF | POOL
  deriving DecidableEq, Repr

/-- `pbuf_layer`. -/
inductive PbufLayer where
  | TRANSPORT | IP | LINK | RAW
  deriving DecidableEq, Repr

/-- The assertions of `pbuf.c`, and two ways to go wrong without one. `LWIP_ERROR` is an assertion
too in this build. -/
inductive Abort where
  /-- A pbuf is read that is not allocated. -/
  | dangling
  /-- A loop does not come to the end of a chain. -/
  | hang
  /-- `pbuf_free: p->ref > 0` -/
  | refPositive
  /-- `p->tot_len == p->len (of last pbuf in chain)` -/
  | catLast
  /-- `p->tot_len == p->len + q->tot_len` -/
  | dechainTail
  /-- `p->tot_len == p->len` -/
  | dechainAlone
  /-- `check p->payload + p->len does not overflow pbuf` -/
  | poolOverflow
  /-- `PBUF_POOL_BUFSIZE must be bigger than MEM_ALIGNMENT` -/
  | poolBufsize
  /-- `rem_len < max_u16_t` -/
  | remLen
  /-- `pbuf_realloc: q != NULL` -/
  | reallocEnd
  /-- `mem_realloc give q == NULL` -/
  | memRealloc
  /-- `increment_magnitude <= p->len` -/
  | headerLen
  /-- `pbuf_copy: target not big enough to hold source` -/
  | copyTarget
  /-- `p_to != NULL` -/
  | copyTo
  /-- `offset_to <= p_to->len` -/
  | copyOffsetTo
  /-- `offset_from <= p_from->len` -/
  | copyOffsetFrom
  /-- `pbuf_copy() does not allow packet queues!` -/
  | copyQueue
  deriving DecidableEq, Repr

end Lwip.Pbuf

namespace Lwip

/-- `struct pbuf`, with the memory that its payload pointer points into. -/
structure Pbuf where
  next : Option ℕ := none
  payload : ℕ
  tot_len : ℕ
  len : ℕ
  type : Pbuf.PbufType
  ref : ℕ := 1
  mem : ℕ → UInt8
  size : ℕ

namespace Pbuf

/-- The bytes of the payload. -/
def bytes (b : Pbuf) : List UInt8 := (List.range b.len).map fun i => b.mem (b.payload + i)

/-- The pbufs, and the number of the next one. -/
structure Heap where
  pbufs : ℕ → Option Pbuf := fun _ => none
  fresh : ℕ := 0

namespace Heap

/-- `p` is dereferenced. -/
def get (s : Heap) (p : ℕ) : Except Abort Pbuf :=
  match s.pbufs p with
  | some b => .ok b
  | none => .error .dangling

/-- The fields of `p` are assigned. -/
def set (s : Heap) (p : ℕ) (b : Pbuf) :
    Heap := { s with pbufs := Function.update s.pbufs p (some b) }

/-- `memp_free` or `mem_free`. -/
def remove (s : Heap) (p : ℕ) : Heap := { s with pbufs := Function.update s.pbufs p none }

/-- `memp_malloc` or `mem_malloc`, with the fields that are assigned then. -/
def add (s : Heap) (b : Pbuf) : Heap :=
  { pbufs := Function.update s.pbufs s.fresh (some b), fresh := s.fresh + 1 }

/-- `p->next`, for the pbufs that are allocated. -/
def succ (s : Heap) (p : ℕ) : Option ℕ := (s.pbufs p).bind Pbuf.next

/-- The number of allocated pbufs whose `next` points to `p`. -/
def links (s : Heap) (p : ℕ) : ℕ := linksTo s.fresh s.succ p

/-- The number of allocated pbufs. -/
def allocated (s : Heap) : ℕ := ((Finset.range s.fresh).filter fun p => (s.pbufs p).isSome).card

/-- The pbufs of the chain that starts with `p`, if there are at most `n`. -/
def chain (s : Heap) (n p : ℕ) : Option (List ℕ) := walk s.succ n (some p)

/-- The bytes of the payload of `p`. -/
def bytesOf (s : Heap) (p : ℕ) : List UInt8 := ((s.pbufs p).map Pbuf.bytes).getD []

/-- The bytes of the packet that the pbufs of a chain hold. -/
def packet (s : Heap) (l : List ℕ) : List UInt8 := l.flatMap s.bytesOf

end Heap

/-! ## Reference counts -/

/-- The loop of `pbuf_free`. -/
def pbufFreeLoop : ℕ → Heap → Option ℕ → ℕ → Except Abort (Heap × ℕ)
  | _, s, none, count => .ok (s, count)
  | 0, _, some _, _ => .error .hang
  | fuel + 1, s, some p, count => do
    let b ← s.get p
    lwipAssert .refPositive (b.ref > 0)
    let ref := b.ref - 1
    if ref = 0 then pbufFreeLoop fuel (s.remove p) b.next (u8 (count + 1))
    -- p->ref > 0, this pbuf is still referenced to (and so the remaining pbufs in chain as well)
    else .ok (s.set p { b with ref }, count)

/-- `pbuf_free`: the number of pbufs that were de-allocated is returned too. -/
def pbufFree (s : Heap) (p : ℕ) : Except Abort (Heap × ℕ) := pbufFreeLoop (s.fresh + 1) s (some p) 0

/-- `pbuf_ref`. -/
def pbufRef (s : Heap) (p : ℕ) : Except Abort Heap := do
  let b ← s.get p
  .ok (s.set p { b with ref := u16 (b.ref + 1) })

/-! ## Chains -/

/-- The loop of `pbuf_cat`, which returns the last pbuf of the chain. -/
def pbufCatLoop (t : ℕ) : ℕ → Heap → ℕ → Except Abort (Heap × ℕ)
  | 0, _, _ => .error .hang
  | fuel + 1, s, p => do
    let b ← s.get p
    match b.next with
    | none => .ok (s, p)
    | some q => do
      let tail ← s.get t
      pbufCatLoop t fuel (s.set p { b with tot_len := u16 (b.tot_len + tail.tot_len) }) q

/-- `pbuf_cat`. -/
def pbufCat (s : Heap) (h t : ℕ) : Except Abort Heap := do
  let (s, p) ← pbufCatLoop t (s.fresh + 1) s h
  let b ← s.get p
  lwipAssert .catLast (b.tot_len = b.len)
  let tail ← s.get t
  .ok (s.set p { b with tot_len := u16 (b.tot_len + tail.tot_len), next := some t })

/-- `pbuf_chain`. -/
def pbufChain (s : Heap) (h t : ℕ) : Except Abort Heap := do
  let s ← pbufCat s h t
  pbufRef s t

/-- `pbuf_dechain`: the remainder of the chain is returned too, unless it was de-allocated. -/
def pbufDechain (s : Heap) (p : ℕ) : Except Abort (Heap × Option ℕ) := do
  let b ← s.get p
  match b.next with
  | none => do
    lwipAssert .dechainAlone (b.tot_len = b.len)
    .ok (s, none)
  | some q => do
    let tail ← s.get q
    lwipAssert .dechainTail ((tail.tot_len : ℤ) = (b.tot_len : ℤ) - b.len)
    let s := s.set q { tail with tot_len := u16sub b.tot_len b.len }
    let b ← s.get p
    let (s, tail_gone) ← pbufFree (s.set p { b with next := none, tot_len := b.len }) q
    .ok (s, if tail_gone > 0 then none else some q)

/-! ## Lengths -/

/-- The loop of `pbuf_realloc`, which returns the new last pbuf and what remains of the length. The
chain grows by `grow` modulo `2^16`, a negative number before that. -/
def pbufReallocLoop (grow : ℕ) : ℕ → Heap → ℕ → ℕ → Except Abort (Heap × ℕ × ℕ)
  | 0, _, _, _ => .error .hang
  | fuel + 1, s, rem_len, q => do
    let b ← s.get q
    if rem_len > b.len then
      match b.next with
      | none => .error .reallocEnd
      | some next =>
        pbufReallocLoop grow fuel (s.set q { b with tot_len := u16 (b.tot_len + grow) })
          (rem_len - b.len) next
    else .ok (s, rem_len, q)

/-- `SIZEOF_STRUCT_PBUF`, with pointers of 8 octets. -/
def SIZEOF_STRUCT_PBUF : ℕ := 24

/-- `mem_realloc` of a `PBUF_RAM`, which gets smaller or stays. The size is a `mem_size_t`. -/
def memRealloc (b : Pbuf) (newsize : ℕ) : Except Abort Pbuf := do
  lwipAssert .memRealloc (u16 newsize ≤ SIZEOF_STRUCT_PBUF + b.size)
  .ok { b with size := u16 newsize - SIZEOF_STRUCT_PBUF }

/-- The new last pbuf of `pbuf_realloc`, before its length fields are adjusted. -/
def shrinkLast (b : Pbuf) (rem_len : ℕ) : Except Abort Pbuf :=
  -- shrink allocated memory for PBUF_RAM
  if b.type = .RAM ∧ rem_len ≠ b.len then memRealloc b (SIZEOF_STRUCT_PBUF + b.payload + rem_len)
  else .ok b

/-- `pbuf_realloc`. -/
def pbufRealloc (s : Heap) (p new_len : ℕ) : Except Abort Heap := do
  let b ← s.get p
  if new_len ≥ b.tot_len then .ok s
  else do
    let (s, rem_len, q) ← pbufReallocLoop (u16sub new_len b.tot_len) (s.fresh + 1) s new_len p
    let b ← s.get q
    let b ← shrinkLast b rem_len
    let s := s.set q { b with len := rem_len, tot_len := rem_len }
    match b.next with
    | none => .ok s
    | some next => do
      let (s, _) ← pbufFree s next
      let b ← s.get q
      .ok (s.set q { b with next := none })

/-- The fields after a header of `header_size_increment` bytes was revealed, or hidden. -/
def addHeader (b : Pbuf) (header_size_increment : ℤ) : Pbuf :=
  { b with
    payload := (b.payload - header_size_increment).toNat
    len := ((b.len + header_size_increment) % 2^16).toNat
    tot_len := ((b.tot_len + header_size_increment) % 2^16).toNat }

/-- `pbuf_header`: non-zero on failure is `true`. -/
def pbufHeader (s : Heap) (p : ℕ) (header_size_increment : ℤ) : Except Abort (Heap × Bool) := do
  let b ← s.get p
  if header_size_increment = 0 then .ok (s, false)
  else do
    let increment_magnitude := header_size_increment.natAbs
    -- Check that we aren't going to move off the end of the pbuf
    lwipAssert .headerLen (header_size_increment < 0 → increment_magnitude ≤ b.len)
    match b.type with
    | .RAM | .POOL =>
      -- boundary check fails?
      if (b.payload : ℤ) - header_size_increment < 0 then .ok (s, true)
      else .ok (s.set p (b.addHeader header_size_increment), false)
    | .REF | .ROM =>
      -- hide a header in the payload?
      if header_size_increment < 0 ∧ increment_magnitude ≤ b.len then
        .ok (s.set p (b.addHeader header_size_increment), false)
      else .ok (s, true)

/-! ## Allocation -/

/-- The header offset of a layer: `PBUF_LINK_HLEN`, `PBUF_IP_HLEN` and `PBUF_TRANSPORT_HLEN`. -/
def PbufLayer.offset : PbufLayer → ℕ
  | .TRANSPORT => 20 + 20 + 16
  | .IP => 20 + 16
  | .LINK => 16
  | .RAW => 0

/-- `PBUF_POOL_BUFSIZE_ALIGNED`. -/
def PBUF_POOL_BUFSIZE : ℕ := 536 + 40 + 16

/-- The loop of `pbuf_alloc` that allocates the tail of a `PBUF_POOL` chain, behind its last pbuf
`r`. At most `avail` allocations succeed. -/
def pbufAllocLoop (content : ℕ → ℕ → UInt8) (p : ℕ) :
    ℕ → Heap → ℕ → ℕ → Except Abort (Heap × Option ℕ)
  | avail, s, r, rem_len =>
    if rem_len = 0 then .ok (s, some p)
    else match avail with
      | 0 => do
        -- free chain so far allocated
        let (s, _) ← pbufFree s p
        .ok (s, none)
      | avail + 1 => do
        let q := s.fresh
        let qb : Pbuf :=
          { payload := 0, tot_len := u16 rem_len, len := min (u16 rem_len) PBUF_POOL_BUFSIZE,
            type := .POOL, mem := content q, size := PBUF_POOL_BUFSIZE }
        let s := s.add qb
        let rb ← s.get r
        let s := s.set r { rb with next := some q }
        lwipAssert .remLen (rem_len < 0xffff)
        let pb ← s.get p
        lwipAssert .poolOverflow (pb.payload + pb.len ≤ PBUF_POOL_BUFSIZE)
        pbufAllocLoop content p avail s q (rem_len - qb.len)

/-- `pbuf_alloc`, where at most `avail` allocations succeed and the memory of the pbuf `q` contains
`content q`. -/
def pbufAlloc (s : Heap) (layer : PbufLayer) (length : ℕ) (type : PbufType) (avail : ℕ)
    (content : ℕ → ℕ → UInt8) : Except Abort (Heap × Option ℕ) :=
  match avail with
  | 0 => .ok (s, none)
  | avail + 1 => do
    let offset := layer.offset
    let p := s.fresh
    match type with
    | .POOL => do
      let b : Pbuf :=
        { payload := offset, tot_len := length, len := min length (PBUF_POOL_BUFSIZE - offset),
          type, mem := content p, size := PBUF_POOL_BUFSIZE }
      lwipAssert .poolOverflow (b.payload + b.len ≤ PBUF_POOL_BUFSIZE)
      lwipAssert .poolBufsize (PBUF_POOL_BUFSIZE - offset > 0)
      pbufAllocLoop content p avail (s.add b) p (length - b.len)
    | .RAM =>
      -- the size is a mem_size_t
      .ok (s.add { payload := offset, tot_len := length, len := length, type, mem := content p,
                   size := u16 (SIZEOF_STRUCT_PBUF + offset + length) - SIZEOF_STRUCT_PBUF },
        some p)
    | .ROM | .REF =>
      .ok (s.add { payload := 0, tot_len := length, len := length, type, mem := content p,
                   size := length }, some p)

/-! ## Copies -/

/-- `MEMCPY` into the memory of `b`: `len` bytes of `src` to the offset `i`. -/
def write (b : Pbuf) (i len : ℕ) (src : ℕ → UInt8) : Pbuf :=
  { b with mem := fun k => if i ≤ k ∧ k < i + len then src (k - i) else b.mem k }

/-- Don't copy more than one packet! -/
def checkQueue (s : Heap) : Option ℕ → Except Abort Unit
  | none => .ok ()
  | some p => do
    let b ← s.get p
    lwipAssert .copyQueue (b.len = b.tot_len → b.next = none)

/-- The loop of `pbuf_copy`. -/
def pbufCopyLoop : ℕ → Heap → Option ℕ → ℕ → ℕ → ℕ → Except Abort Heap
  | 0, _, _, _, _, _ => .error .hang
  | _ + 1, _, none, _, _, _ => .error .copyTo
  | fuel + 1, s, some p_to, offset_to, p_from, offset_from => do
    let tb ← s.get p_to
    let fb ← s.get p_from
    let len := if tb.len - offset_to ≥ fb.len - offset_from then fb.len - offset_from
      else tb.len - offset_to
    let s := s.set p_to (tb.write (tb.payload + offset_to) len
      fun k => fb.mem (fb.payload + offset_from + k))
    let offset_to := offset_to + len
    let offset_from := offset_from + len
    lwipAssert .copyOffsetTo (offset_to ≤ tb.len)
    let (next_to, offset_to) := if offset_to = tb.len then (tb.next, 0) else (some p_to, offset_to)
    lwipAssert .copyOffsetFrom (offset_from ≤ fb.len)
    let (next_from, offset_from) :=
      if offset_from ≥ fb.len then (fb.next, 0) else (some p_from, offset_from)
    checkQueue s next_from
    checkQueue s next_to
    match next_from with
    | none => .ok s
    | some p_from => pbufCopyLoop fuel s next_to offset_to p_from offset_from

/-- `pbuf_copy`. -/
def pbufCopy (s : Heap) (p_to p_from : ℕ) : Except Abort Heap := do
  let tb ← s.get p_to
  let fb ← s.get p_from
  lwipAssert .copyTarget (tb.tot_len ≥ fb.tot_len)
  pbufCopyLoop (2 * s.fresh + 2) s (some p_to) 0 p_from 0

/-- `pbuf_coalesce`: the new pbuf is returned, or the old one. -/
def pbufCoalesce (s : Heap) (p : ℕ) (layer : PbufLayer) (avail : ℕ) (content : ℕ → ℕ → UInt8) :
    Except Abort (Heap × ℕ) := do
  let b ← s.get p
  if b.next = none then .ok (s, p)
  else do
    let (s, q) ← pbufAlloc s layer b.tot_len .RAM avail content
    match q with
    | none => .ok (s, p)
    | some q => do
      let s ← pbufCopy s q p
      let (s, _) ← pbufFree s p
      .ok (s, q)

/-! ## The machine -/

/-- The operations. -/
inductive Op where
  | alloc (layer : PbufLayer) (length : ℕ) (type : PbufType) (avail : ℕ) (content : ℕ → ℕ → UInt8)
  | ref (p : ℕ)
  | cat (h t : ℕ)
  | chain (h t : ℕ)
  | dechain (p : ℕ)
  | free (p : ℕ)
  | realloc (p new_len : ℕ)
  | header (p : ℕ) (header_size_increment : ℤ)
  | coalesce (p : ℕ) (layer : PbufLayer) (avail : ℕ) (content : ℕ → ℕ → UInt8)

/-- The pbufs, and for each the number of references that its holders own. -/
structure Pbufs where
  heap : Heap := {}
  own : ℕ → ℕ := fun _ => 0

/-- A reference to `r` more is owned. -/
def gain (own : ℕ → ℕ) (r : Option ℕ) : ℕ → ℕ := fun i => own i + hit r i

/-- A reference to `p` less is owned. -/
def lose (own : ℕ → ℕ) (p : ℕ) : ℕ → ℕ := fun i => own i - hit (some p) i

/-- One operation. The references of the holders change as the operation says: `pbuf_alloc` and
`pbuf_ref` create one, `pbuf_cat` and `pbuf_free` take one over. -/
def step (s : Pbufs) : Op → Except Abort Pbufs
  | .alloc layer length type avail content => do
    let (heap, p) ← pbufAlloc s.heap layer length type avail content
    .ok ⟨heap, gain s.own p⟩
  | .ref p => do
    let heap ← pbufRef s.heap p
    .ok ⟨heap, gain s.own (some p)⟩
  | .cat h t => do
    let heap ← pbufCat s.heap h t
    .ok ⟨heap, lose s.own t⟩
  | .chain h t => do
    let heap ← pbufChain s.heap h t
    .ok ⟨heap, s.own⟩
  | .dechain p => do
    let (heap, _) ← pbufDechain s.heap p
    .ok ⟨heap, s.own⟩
  | .free p => do
    let (heap, _) ← pbufFree s.heap p
    .ok ⟨heap, lose s.own p⟩
  | .realloc p new_len => do
    let heap ← pbufRealloc s.heap p new_len
    .ok ⟨heap, s.own⟩
  | .header p header_size_increment => do
    let (heap, _) ← pbufHeader s.heap p header_size_increment
    .ok ⟨heap, s.own⟩
  | .coalesce p layer avail content => do
    let (heap, q) ← pbufCoalesce s.heap p layer avail content
    -- the reference to the old pbuf, if it was freed, is now one to the new pbuf
    .ok ⟨heap, gain (lose s.own p) (some q)⟩

end Pbuf

end Lwip
