import Lwip.Pbuf.Copy

/-!
# The loopback queue

`netif_loop_output` and `netif_poll` of `netif.c`, with `LWIP_LOOPBACK_MAX_PBUFS` a parameter. The
copies of all packets are one chain of pbufs (`Queue`), and a packet ends at the pbuf with `len ==
tot_len`.

`loop_cnt_current` is to be the number of pbufs on the queue. `netif_loop_output` adds the pbufs of
its copy, but `netif_poll` subtracts what `pbuf_clen` says of the first pbuf, which is all of the
queue and not one packet. So the counter is right as long as `netif_poll` never finds two packets
(`loopback_right`).
-/

namespace Lwip.Loopback

open Pbuf (Heap ChainAt SinglePacket Written pbufAlloc pbufFree pbufFreeLoop pbufCopy)

/-- The assertions of `netif.c`. -/
inductive Abort where
  /-- `pbuf.c` stops, or a pbuf is read that is not allocated, or a loop does not come to an end. -/
  | pbuf (a : Pbuf.Abort)
  /-- `if first != NULL, last must also be != NULL` -/
  | lastNull
  /-- `netif->loop_cnt_current underflow` -/
  | cntUnderflow
  /-- `bogus pbuf: len != tot_len but next == NULL!` -/
  | bogusPbuf
  /-- `should not be null since first != last!` -/
  | firstNull
  deriving DecidableEq, Repr

/-- What `netif_loop_output` returns. -/
inductive Err where
  | ERR_OK | ERR_MEM
  deriving DecidableEq, Repr

/-- The loopback fields of `struct netif`, with the pbufs. -/
structure Netif where
  heap : Heap := {}
  loop_first : Option ℕ := none
  loop_last : Option ℕ := none
  loop_cnt_current : ℕ := 0

/-- The loop of `pbuf_clen`, which counts in a `u8_t`. -/
def pbufClenLoop (s : Heap) : ℕ → Option ℕ → ℕ → Except Abort ℕ
  | _, none, len => .ok len
  | 0, some _, _ => .error (.pbuf .hang)
  | fuel + 1, some p, len => do
    let b ← (s.get p).mapError .pbuf
    pbufClenLoop s fuel b.next (u8 (len + 1))

/-- `pbuf_clen`. -/
def pbufClen (s : Heap) (p : ℕ) : Except Abort ℕ := pbufClenLoop s (s.fresh + 1) (some p) 0

/-- The loop that lets `last` point to the last pbuf. -/
def lastLoop (s : Heap) : ℕ → ℕ → Except Abort ℕ
  | 0, _ => .error (.pbuf .hang)
  | fuel + 1, last => do
    let b ← (s.get last).mapError .pbuf
    match b.next with
    | none => .ok last
    | some next => lastLoop s fuel next

/-- `netif_loop_output`, where at most `avail` allocations succeed and the memory of a new pbuf `q`
contains `content q`. -/
def netifLoopOutput (max : ℕ) (s : Netif) (p avail : ℕ) (content : ℕ → ℕ → UInt8) :
    Except Abort (Netif × Err) := do
  let b ← (s.heap.get p).mapError .pbuf
  let (heap, r) ← (pbufAlloc s.heap .LINK b.tot_len .RAM avail content).mapError .pbuf
  match r with
  | none => .ok ({ s with heap }, .ERR_MEM)
  | some r => do
    let clen ← pbufClen heap r
    -- check for overflow or too many pbuf on queue; the sum is an int
    if s.loop_cnt_current + clen < s.loop_cnt_current ∨ s.loop_cnt_current + clen > max then do
      let (heap, _) ← (pbufFree heap r).mapError .pbuf
      .ok ({ s with heap }, .ERR_MEM)
    else do
      let loop_cnt_current := u16 (s.loop_cnt_current + clen)
      let heap ← (pbufCopy heap r p).mapError .pbuf
      let last ← lastLoop heap (heap.fresh + 1) r
      match s.loop_first with
      | some _ =>
        match s.loop_last with
        | none => .error .lastNull
        | some loop_last => do
          let b ← (heap.get loop_last).mapError .pbuf
          let heap := heap.set loop_last { b with next := some r }
          .ok ({ s with heap, loop_last := some last, loop_cnt_current }, .ERR_OK)
      | none =>
        .ok ({ heap, loop_first := some r, loop_last := some last, loop_cnt_current }, .ERR_OK)

/-- The loop that finds the last pbuf of a packet. -/
def inEndLoop (s : Heap) : ℕ → ℕ → Except Abort ℕ
  | 0, _ => .error (.pbuf .hang)
  | fuel + 1, in_end => do
    let b ← (s.get in_end).mapError .pbuf
    if b.len = b.tot_len then .ok in_end
    else match b.next with
      | none => .error .bogusPbuf
      | some next => inEndLoop s fuel next

/-- One round of the loop of `netif_poll`, with the packet that `ip_input` gets. -/
def pollRound (s : Netif) : Except Abort (Netif × Option ℕ) :=
  match s.loop_first with
  | none => .ok (s, none)
  | some p => do
    let clen ← pbufClen s.heap p
    -- adjust the number of pbufs on queue
    lwipAssert .cntUnderflow ((s.loop_cnt_current : ℤ) - clen < s.loop_cnt_current)
    let loop_cnt_current := u16sub s.loop_cnt_current clen
    let in_end ← inEndLoop s.heap (s.heap.fresh + 1) p
    let b ← (s.heap.get in_end).mapError .pbuf
    -- de-queue the pbuf from its successors on the 'loop_' list
    let heap := s.heap.set in_end { b with next := none }
    if some in_end = s.loop_last then
      .ok ({ heap, loop_cnt_current }, some p)
    else do
      lwipAssert .firstNull b.next.isSome
      .ok ({ s with heap, loop_first := b.next, loop_cnt_current }, some p)

/-! ## The machine -/

/-- What can happen. -/
inductive Event where
  /-- Other code, and `ip_input` with the packets that it got, change the pbufs. -/
  | other (heap : Heap)
  /-- `netif_loop_output` is called. -/
  | output (p avail : ℕ) (content : ℕ → ℕ → UInt8)
  /-- `netif_poll` begins a round. -/
  | round

/-- The interface, with the packets that it accepted and those that `ip_input` got. -/
structure State where
  netif : Netif := {}
  accepted : List (List UInt8) := []
  received : List (List UInt8) := []

/-- The bytes of the chain from `p` on. -/
def bytesFrom (s : Heap) (p : ℕ) : List UInt8 := s.packet ((s.chain s.fresh p).getD [])

/-- The state after an event. -/
def step (max : ℕ) (s : State) : Event → Except Abort State
  | .other heap => .ok { s with netif := { s.netif with heap } }
  | .output p avail content => do
    let (netif, err) ← netifLoopOutput max s.netif p avail content
    .ok { s with
      netif, accepted := s.accepted ++ if err = .ERR_OK then [bytesFrom s.netif.heap p] else [] }
  | .round => do
    let (netif, p) ← pollRound s.netif
    .ok { s with netif, received := s.received ++ p.toList.map (bytesFrom netif.heap) }

/-- `netif_poll`. When `ip_input` has a packet, the calls `ipInput` are made, which are no calls of
`netif_poll`. -/
def netifPoll (max : ℕ) (ipInput : State → List Event) : ℕ → State → Except Abort State
  | 0, _ => .error (.pbuf .hang)
  | fuel + 1, s => do
    let s' ← step max s .round
    let s' ← run (step max) s' (if s.netif.loop_first.isSome then ipInput s' else [])
    -- go on while there is a packet on the list
    if s'.netif.loop_first.isSome then netifPoll max ipInput fuel s' else .ok s'

/-- What the callers promise: a packet that is sent is a chain of pbufs, and other code leaves the
pbufs of the queue alone. -/
def Legal (s : State) : Event → Prop
  | .other heap => s.netif.heap.fresh ≤ heap.fresh ∧
      ∀ l, Walk s.netif.heap.succ s.netif.loop_first l → ∀ i ∈ l,
      heap.pbufs i = s.netif.heap.pbufs i
  | .output p _ _ => ∃ lp, ChainAt s.netif.heap (some p) lp
  | .round => True

/-- A packet that is sent is one packet for `pbuf_copy`, and the size of its copy fits into a
`u16_t`. -/
def Sendable (s : State) : Event → Prop
  | .output p _ _ => (∀ lp, ChainAt s.netif.heap (some p) lp → SinglePacket s.netif.heap lp) ∧
      Pbuf.SIZEOF_STRUCT_PBUF + Pbuf.PbufLayer.LINK.offset + s.netif.heap.totOf (some p) < 2^16
  | _ => True

/-- `netif_poll` finds at most one packet. -/
def OneQueued (s : State) : Event → Prop
  | .round => ∀ p, s.netif.loop_first = some p → s.netif.heap.succ p = none
  | _ => True

/-- The packets that were accepted are those that `ip_input` got and those on the queue, in their
order, and the counter is the number of pbufs on the queue. -/
def LoopRight (s : State) : Prop :=
  ∃ l, Walk s.netif.heap.succ s.netif.loop_first l ∧
    s.accepted = s.received ++ l.map s.netif.heap.bytesOf ∧ s.netif.loop_cnt_current = l.length

/-! ## The queue -/

/-- The pbufs of `l` are the queue. Each is a packet of its own. -/
structure Queue (s : Netif) (l : List ℕ) : Prop where
  walk : Walk s.heap.succ s.loop_first l
  last : s.loop_last = l.getLast?
  live : ∀ i ∈ l, i < s.heap.fresh ∧ ∃ b, s.heap.pbufs i = some b ∧ b.len = b.tot_len

section

variable {max p avail fuel n : ℕ} {content : ℕ → ℕ → UInt8} {s s' : Netif} {h h' : Heap}
  {r : Option ℕ} {l lp : List ℕ} {b : Pbuf}

/-- A pbuf that is allocated can be read. -/
theorem get_mapError (hb : h.pbufs p = some b) :
    (h.get p).mapError Abort.pbuf = .ok b := mapError_eq_ok.mpr (Pbuf.Heap.get_eq_ok.mpr hb)

/-- A pbuf that is the same has the same bytes. -/
theorem bytesOf_congr {i : ℕ} (hi : h'.pbufs i = h.pbufs i) : h'.bytesOf i = h.bytesOf i := by
  rw [Heap.bytesOf, Heap.bytesOf, hi]

/-- The link depends on the pbuf only. -/
theorem succ_congr {i : ℕ} (hi : h'.pbufs i = h.pbufs i) : h'.succ i = h.succ i := by
  rw [Heap.succ, Heap.succ, hi]

/-- Whether a chain is one packet depends on its pbufs. -/
theorem singlePacket_congr (hs : SinglePacket h lp) (hsame : ∀ i ∈ lp, h'.pbufs i = h.pbufs i) :
    SinglePacket h' lp := fun i hi b hb => hs i hi b (by rwa [← hsame i hi])

/-- The queue when its pbufs are the same. -/
theorem Queue.congr (hq : Queue s l) (hsame : ∀ i ∈ l, h.pbufs i = s.heap.pbufs i)
    (hfresh : s.heap.fresh ≤ h.fresh) (loop_cnt_current : ℕ) :
    Queue { s with heap := h, loop_cnt_current } l := by
  refine ⟨hq.walk.congr fun i hi => succ_congr (hsame i hi), hq.last, fun i hi => ?_⟩
  obtain ⟨hlt, b, hb, hlen⟩ := hq.live i hi
  exact ⟨Nat.lt_of_lt_of_le hlt hfresh, b, (hsame i hi).trans hb, hlen⟩

/-- The queue is not longer than numbers were used. -/
theorem Queue.length_le (hq : Queue s l) : l.length ≤ s.heap.fresh :=
  hq.walk.length_le fun i hi => (hq.live i hi).1

/-- `pbuf_clen` of a chain, modulo `2^8`. -/
theorem pbufClenLoop_eq (hw : Walk h.succ r l) (hl : ∀ i ∈ l, ∃ b, h.pbufs i = some b)
    (hfuel : l.length ≤ fuel) (hn : n < 2^8) :
    pbufClenLoop h fuel r n = .ok (u8 (n + l.length)) := by
  induction hw generalizing fuel n with
  | nil =>
    have hu8 : u8 (n + 0) = n := Nat.mod_eq_of_lt hn
    rw [List.length_nil, hu8]
    cases fuel <;> rfl
  | @cons p l hw ih =>
    obtain ⟨fuel, rfl⟩ : ∃ k, fuel = k + 1 := ⟨fuel - 1, by simp at hfuel; omega⟩
    obtain ⟨b, hb⟩ := hl p List.mem_cons_self
    rw [pbufClenLoop, get_mapError hb]
    have hrest : pbufClenLoop h fuel (h.succ p) (u8 (n + 1)) = .ok (u8 (u8 (n + 1) + l.length)) :=
      ih (fun i hi => hl i (List.mem_cons_of_mem p hi)) (by simpa using hfuel)
        (Nat.mod_lt _ (by decide))
    rw [Pbuf.Heap.succ_eq hb] at hrest
    refine hrest.trans (congrArg _ ?_)
    rw [List.length_cons]
    unfold u8
    omega

/-- A pbuf without a next one is the last one of its chain. -/
theorem lastLoop_self (hb : h.pbufs p = some b) (hn : b.next = none) :
    lastLoop h (fuel + 1) p = .ok p := by
  rw [lastLoop, get_mapError hb]
  dsimp only [bind, Except.bind]
  rw [hn]

/-- A pbuf with `len == tot_len` is the last one of its packet. -/
theorem inEndLoop_self (hb : h.pbufs p = some b) (hlen : b.len = b.tot_len) :
    inEndLoop h (fuel + 1) p = .ok p := by
  rw [inEndLoop, get_mapError hb]
  dsimp only [bind, Except.bind]
  rw [if_pos hlen]

/-- `pbuf_free` of a pbuf that nothing else refers to. -/
theorem pbufFree_alone (hb : h.pbufs p = some b) (href : b.ref = 1) (hn : b.next = none) :
    pbufFree h p = .ok (h.remove p, 1) := by
  unfold pbufFree
  rw [pbufFreeLoop, Pbuf.Heap.get_eq_ok.mpr hb]
  dsimp only [bind, Except.bind]
  rw [(lwipAssert_eq_ok (u := ())).mpr (by omega), if_pos (by omega), hn]
  have hend : ∀ fuel, pbufFreeLoop fuel (h.remove p) none 1 = .ok (h.remove p, 1) := by
    intro fuel
    cases fuel <;> rfl
  exact hend h.fresh

/-- The pbuf that `pbuf_alloc` makes for a copy of `length` bytes. -/
def copyPbuf (s : Heap) (length : ℕ) (content : ℕ → ℕ → UInt8) : Pbuf where
  payload := Pbuf.PbufLayer.LINK.offset
  tot_len := length
  len := length
  type := .RAM
  mem := content s.fresh
  size := u16 (Pbuf.SIZEOF_STRUCT_PBUF + Pbuf.PbufLayer.LINK.offset + length) -
    Pbuf.SIZEOF_STRUCT_PBUF

/-- `pbuf_copy` of a packet into a new pbuf. -/
theorem pbufCopy_new (hc : ChainAt h (some p) lp) (hs : SinglePacket h lp)
    (content : ℕ → ℕ → UInt8) :
    ∃ h' c, pbufCopy (h.add (copyPbuf h (h.totOf (some p)) content)) h.fresh p = .ok h' ∧
      h'.fresh = h.fresh + 1 ∧ (∀ i < h.fresh, h'.pbufs i = h.pbufs i) ∧ h'.pbufs h.fresh = some c ∧
      c.next = none ∧ c.len = c.tot_len ∧ h'.bytesOf h.fresh = h.packet lp := by
  set rb := copyPbuf h (h.totOf (some p)) content with hrb
  set h₁ := h.add rb with hh₁
  -- The pbufs of the packet are older than the new one, so the two chains have none in common.
  have hlp : ∀ i ∈ lp, i ≠ h.fresh := fun i hi => Nat.ne_of_lt (hc.lt_fresh i hi)
  have hold : ∀ i < h.fresh, h₁.pbufs i = h.pbufs i :=
    fun i hi => Pbuf.Heap.add_of_ne h (Nat.ne_of_lt hi) rb
  have hsame : ∀ i ∈ lp, h₁.pbufs i = h.pbufs i := fun i hi => hold i (hc.lt_fresh i hi)
  have hself : h₁.pbufs h.fresh = some rb := Pbuf.Heap.add_self h rb
  have hc₁ : ChainAt h₁ (some p) lp := hc.congr hsame (Nat.le_succ _)
  have hnew : ChainAt h₁ (some h.fresh) [h.fresh] := .cons hself (Nat.lt_succ_self _) rfl .nil
  have htot : h₁.totOf (some p) = h.totOf (some p) := by
    obtain ⟨pb, l', hpb, rfl, -⟩ := hc.head
    rw [Heap.totOf_some hpb, Heap.totOf_some ((hsame p List.mem_cons_self).trans hpb)]
  have hroom : h₁.totOf (some h.fresh) = h₁.totOf (some p) :=
    (Heap.totOf_some hself).trans htot.symm
  obtain ⟨h', hrun, hw, hpacket⟩ := Pbuf.pbufCopy_spec hnew hc₁
    (fun i hi hi' => hlp i hi (List.mem_singleton.mp hi'))
    (by
      intro i hi c hc _
      rw [List.mem_singleton.mp hi, hself] at hc
      rw [← Option.some.inj hc]
      rfl)
    (singlePacket_congr hs hsame) (Nat.le_of_eq hroom.symm)
  obtain ⟨m, hm, -⟩ := hw.live _ _ hself
  refine ⟨h', _, hrun, hw.fresh, fun i hi => ?_, hm, rfl, rfl, ?_⟩
  · rw [← hold i hi]
    have hne : i ∉ [h.fresh] := fun hi' => Nat.ne_of_lt hi (List.mem_singleton.mp hi')
    cases hib : h₁.pbufs i with
    | none => exact hw.dead i hib
    | some c =>
      obtain ⟨m, hm, heq, -⟩ := hw.live i c hib
      rw [hm, heq hne]
  · -- All of the new pbuf is written.
    have hlen : (h₁.packet [h.fresh]).length = (h₁.packet lp).length := by
      rw [← hnew.totOf_eq, ← hc₁.totOf_eq, hroom]
    have hbytes : h'.packet [h.fresh] = h₁.packet lp := by
      rw [hpacket, ← hlen, List.drop_length, List.append_nil]
    rw [← Pbuf.Heap.packet_congr fun i hi => bytesOf_congr (hsame i hi), ← hbytes]
    exact (List.append_nil _).symm

/-- A copy is put behind the last pbuf of the queue. -/
theorem Queue.snoc (hq : Queue s l) {c : Pbuf} (hfresh : h.fresh = s.heap.fresh + 1)
    (hold : ∀ i < s.heap.fresh, h.pbufs i = s.heap.pbufs i) (hc : h.pbufs s.heap.fresh = some c)
    (hn : c.next = none) (hlen : c.len = c.tot_len) (loop_cnt_current : ℕ) {last : ℕ} {lb : Pbuf}
    (hlast : s.loop_last = some last) (hlb : h.pbufs last = some lb) :
    Queue { s with
      heap := h.set last { lb with next := some s.heap.fresh }, loop_last := some s.heap.fresh,
      loop_cnt_current } (l ++ [s.heap.fresh]) ∧
      ∀ i < s.heap.fresh, (h.set last { lb with next := some s.heap.fresh }).bytesOf i =
        s.heap.bytesOf i := by
  obtain ⟨front, rfl⟩ : ∃ front, l = front ++ [last] :=
    List.getLast?_eq_some_iff.mp (hq.last.symm.trans hlast)
  set h' := h.set last { lb with next := some s.heap.fresh } with hh'
  have hltlast : last < s.heap.fresh := (hq.live last (by simp)).1
  have hself : h'.pbufs last = some { lb with next := some s.heap.fresh } := Pbuf.Heap.set_self ..
  have hnew : h'.pbufs s.heap.fresh = some c :=
    (Pbuf.Heap.set_of_ne h (Nat.ne_of_gt hltlast) _).trans hc
  -- Only the last pbuf of the queue is written.
  have hfront : ∀ i ∈ front, h'.pbufs i = s.heap.pbufs i := by
    intro i hi
    have hne : i ≠ last := fun hil =>
      (List.nodup_append.mp hq.walk.nodup).2.2 i hi last (List.mem_singleton_self last) hil
    exact (Pbuf.Heap.set_of_ne h hne _).trans (hold i (hq.live i (by simp [hi])).1)
  refine ⟨⟨?_, by simp, fun i hi => ?_⟩, fun i hi => ?_⟩
  · exact hq.walk.snoc (fun i hi => succ_congr (hfront i hi)) (Pbuf.Heap.succ_eq hself)
      ((Pbuf.Heap.succ_eq hnew).trans hn)
  · show i < h.fresh ∧ ∃ b, h'.pbufs i = some b ∧ b.len = b.tot_len
    rw [hfresh]
    rcases List.mem_append.mp hi with hi | hi
    · obtain ⟨hlt, b, hb, hblen⟩ := hq.live i hi
      refine ⟨Nat.lt_succ_of_lt hlt, ?_⟩
      rcases List.mem_append.mp hi with hi | hi
      · exact ⟨b, (hfront i hi).trans hb, hblen⟩
      · obtain rfl := List.mem_singleton.mp hi
        obtain rfl := Option.some.inj (hb.symm.trans ((hold i hlt).symm.trans hlb))
        exact ⟨_, hself, hblen⟩
    · obtain rfl := List.mem_singleton.mp hi
      exact ⟨Nat.lt_succ_self _, c, hnew, hlen⟩
  · by_cases hil : i = last
    · have hlb' : s.heap.pbufs last = some lb := (hold last hltlast).symm.trans hlb
      rw [hil, Pbuf.Heap.bytesOf_eq hself, Pbuf.Heap.bytesOf_eq hlb']
      rfl
    · exact bytesOf_congr ((Pbuf.Heap.set_of_ne h hil _).trans (hold i hi))

/-- A copy is the first on the queue. -/
theorem Queue.single {c : Pbuf} (hlt : p < h.fresh) (hc : h.pbufs p = some c) (hn : c.next = none)
    (hlen : c.len = c.tot_len) (loop_cnt_current : ℕ) :
    Queue { heap := h, loop_first := some p, loop_last := some p, loop_cnt_current } [p] := by
  refine ⟨.cons ?_, rfl, fun i hi => ?_⟩
  · rw [Pbuf.Heap.succ_eq hc, hn]
    exact .nil
  · obtain rfl := List.mem_singleton.mp hi
    exact ⟨hlt, c, hc, hlen⟩

/-- What `netif_loop_output` does with a packet: it refuses it and leaves the queue as it is, or
puts a copy behind the queue. -/
theorem netifLoopOutput_spec (hq : Queue s l) (hc : ChainAt s.heap (some p) lp)
    (hs : SinglePacket s.heap lp) (max avail : ℕ) (content : ℕ → ℕ → UInt8) :
    ∃ s' err, netifLoopOutput max s p avail content = .ok (s', err) ∧
      (∀ i ∈ l, s'.heap.bytesOf i = s.heap.bytesOf i) ∧
      ((err = .ERR_MEM ∧ Queue s' l ∧ s'.loop_cnt_current = s.loop_cnt_current) ∨
        (err = .ERR_OK ∧ Queue s' (l ++ [s.heap.fresh]) ∧
          s'.heap.bytesOf s.heap.fresh = s.heap.packet lp ∧ s.loop_cnt_current + 1 ≤ max ∧
          s'.loop_cnt_current = u16 (s.loop_cnt_current + 1))) := by
  obtain ⟨pb, -, hpb, -⟩ := hc.head
  have htot : s.heap.totOf (some p) = pb.tot_len := Pbuf.Heap.totOf_some hpb
  unfold netifLoopOutput
  rw [get_mapError hpb]
  dsimp only [bind, Except.bind]
  cases avail with
  | zero =>
    refine ⟨_, _, rfl, fun _ _ => rfl, .inl ⟨rfl, hq, rfl⟩⟩
  | succ avail =>
    set rb := copyPbuf s.heap pb.tot_len content with hrb
    have halloc : (pbufAlloc s.heap .LINK pb.tot_len .RAM (avail + 1) content).mapError Abort.pbuf =
        .ok (s.heap.add rb, some s.heap.fresh) := rfl
    have hself : (s.heap.add rb).pbufs s.heap.fresh = some rb := Pbuf.Heap.add_self ..
    have hclen : pbufClen (s.heap.add rb) s.heap.fresh = .ok 1 := by
      have hw : Walk (s.heap.add rb).succ (some s.heap.fresh) [s.heap.fresh] := by
        refine .cons ?_
        rw [Pbuf.Heap.succ_eq hself]
        exact .nil
      exact pbufClenLoop_eq hw (fun i hi => ⟨rb, by rw [List.mem_singleton.mp hi, hself]⟩)
        (by simp) (by decide)
    rw [halloc]
    dsimp only
    rw [hclen]
    dsimp only
    by_cases hfull : s.loop_cnt_current + 1 < s.loop_cnt_current ∨ s.loop_cnt_current + 1 > max
    -- The copy is given back, and the queue is as it was.
    · rw [if_pos hfull, mapError_eq_ok.mpr (pbufFree_alone hself rfl rfl)]
      have hsame : ∀ i ∈ l, ((s.heap.add rb).remove s.heap.fresh).pbufs i = s.heap.pbufs i := by
        intro i hi
        have hne : i ≠ s.heap.fresh := Nat.ne_of_lt (hq.live i hi).1
        rw [Pbuf.Heap.remove_of_ne _ hne, Pbuf.Heap.add_of_ne _ hne]
      exact ⟨_, _, rfl, fun i hi => bytesOf_congr (hsame i hi),
        .inl ⟨rfl, hq.congr hsame (Nat.le_succ _) _, rfl⟩⟩
    · obtain ⟨h', c, hcopy, hfresh, hold, hnew, hn, hlen, hbytes⟩ := pbufCopy_new hc hs content
      rw [htot] at hcopy
      rw [if_neg hfull, mapError_eq_ok.mpr hcopy]
      dsimp only
      rw [lastLoop_self hnew hn]
      dsimp only
      have hle : s.loop_cnt_current + 1 ≤ max := by omega
      cases hfirst : s.loop_first with
      | none =>
        -- The queue was empty.
        have hnil : l = [] := (hfirst ▸ hq.walk).unique .nil
        subst hnil
        exact ⟨_, _, rfl, fun i hi => (by cases hi),
          .inr ⟨rfl, .single (by omega) hnew hn hlen _, hbytes, hle, rfl⟩⟩
      | some first =>
        -- The copy is put behind the last pbuf of the queue.
        obtain ⟨last, hlast⟩ : ∃ last, s.loop_last = some last := by
          rw [hq.last]
          cases hl : l with
          | nil =>
            have hnone := hq.walk.head?_eq
            rw [hl, hfirst] at hnone
            cases hnone
          | cons i l => exact ⟨_, List.getLast?_eq_some_getLast (List.cons_ne_nil i l)⟩
        have hmem : last ∈ l := List.mem_of_getLast? (hq.last.symm.trans hlast)
        obtain ⟨hlt, lb, hlb, -⟩ := hq.live last hmem
        have hlb' : h'.pbufs last = some lb := (hold last hlt).trans hlb
        obtain ⟨hqueue, hsame⟩ :=
          hq.snoc hfresh hold hnew hn hlen (u16 (s.loop_cnt_current + 1)) hlast hlb'
        have hnewbytes : (h'.set last { lb with next := some s.heap.fresh }).bytesOf s.heap.fresh =
            s.heap.packet lp :=
          (bytesOf_congr (Pbuf.Heap.set_of_ne _ (Nat.ne_of_gt hlt) _)).trans hbytes
        rw [hlast]
        dsimp only
        rw [get_mapError hlb']
        rw [hfirst] at hqueue
        exact ⟨_, _, rfl, fun i hi => hsame i (hq.live i hi).1,
          .inr ⟨rfl, hqueue, hnewbytes, hle, rfl⟩⟩

/-- A round of `netif_poll`: the first packet leaves the queue, and all the pbufs leave the
counter. -/
theorem pollRound_spec {i : ℕ} (hq : Queue s (i :: l)) (hlen : u8 (i :: l).length ≠ 0) :
    ∃ s', pollRound s = .ok (s', some i) ∧ Queue s' l ∧
      (∀ j ∈ i :: l, s'.heap.bytesOf j = s.heap.bytesOf j) ∧
      s'.heap.chain s'.heap.fresh i = some [i] ∧
      s'.loop_cnt_current = u16sub s.loop_cnt_current (u8 (i :: l).length) := by
  obtain ⟨hlt, b, hb, hblen⟩ := hq.live i List.mem_cons_self
  obtain ⟨hi, hnodup⟩ := List.nodup_cons.mp hq.walk.nodup
  have hfirst : s.loop_first = some i := hq.walk.head?_eq.symm
  have hw : Walk s.heap.succ (some i) (i :: l) := hfirst ▸ hq.walk
  -- `pbuf_clen` counts the pbufs of all packets, since the queue is one chain.
  have hclen : pbufClen s.heap i = .ok (u8 (i :: l).length) := by
    rw [pbufClen, pbufClenLoop_eq hw (fun j hj => (hq.live j hj).2.imp fun _ h => h.1)
      (Nat.le_succ_of_le hq.length_le) (by decide), Nat.zero_add]
  have hwalk : Walk s.heap.succ b.next l := by
    cases hw with
    | cons hw => rwa [Pbuf.Heap.succ_eq hb] at hw
  set h' := s.heap.set i { b with next := none } with hh'
  have hself : h'.pbufs i = some { b with next := none } := Pbuf.Heap.set_self ..
  -- Only the link of the first pbuf is cut.
  have hother : ∀ j ∈ l, h'.pbufs j = s.heap.pbufs j := by
    intro j hj
    have hne : j ≠ i := by
      rintro rfl
      exact hi hj
    exact Pbuf.Heap.set_of_ne _ hne _
  have hbytes : ∀ j ∈ i :: l, h'.bytesOf j = s.heap.bytesOf j := by
    intro j hj
    rcases List.mem_cons.mp hj with rfl | hj
    · rw [Pbuf.Heap.bytesOf_eq hself, Pbuf.Heap.bytesOf_eq hb]
      rfl
    · exact bytesOf_congr (hother j hj)
  have hchain : h'.chain h'.fresh i = some [i] := by
    refine walk_eq_some.mpr ⟨.cons ?_, ?_⟩
    · rw [Pbuf.Heap.succ_eq hself]
      exact .nil
    · exact Nat.lt_of_le_of_lt (Nat.zero_le _) hlt
  have hwalk' : Walk h'.succ b.next l := hwalk.congr fun j hj => succ_congr (hother j hj)
  have hlive : ∀ j ∈ l, j < h'.fresh ∧ ∃ c, h'.pbufs j = some c ∧ c.len = c.tot_len := by
    intro j hj
    rw [hother j hj]
    exact hq.live j (List.mem_cons_of_mem i hj)
  unfold pollRound
  rw [hfirst]
  dsimp only
  rw [hclen]
  dsimp only [bind, Except.bind]
  rw [(lwipAssert_eq_ok (u := ())).mpr (by omega), inEndLoop_self hb hblen]
  dsimp only
  rw [get_mapError hb]
  dsimp only
  cases l with
  | nil =>
    have hlast : some i = s.loop_last := hq.last.symm
    rw [if_pos hlast]
    exact ⟨_, rfl, ⟨.nil, rfl, fun j hj => by cases hj⟩, hbytes, hchain, rfl⟩
  | cons j l =>
    have hlast : some i ≠ s.loop_last := by
      rw [hq.last, List.getLast?_cons_cons]
      exact fun heq => hi (List.mem_of_getLast? heq.symm)
    have hnext : b.next = some j := hwalk.head?_eq.symm
    rw [if_neg hlast, (lwipAssert_eq_ok (u := ())).mpr (by rw [hnext]; rfl)]
    refine ⟨_, rfl, ⟨hwalk', ?_, hlive⟩, hbytes, hchain, rfl⟩
    exact hq.last.trans List.getLast?_cons_cons

end

/-! ## Runs -/

section Runs

variable {max : ℕ} {s s' : State} {e : Event} {l : List ℕ}

/-- The pbufs of `l` are the queue, and hold the packets that `ip_input` did not get yet. -/
structure Waiting (s : State) (l : List ℕ) : Prop where
  queue : Queue s.netif l
  packets : s.accepted = s.received ++ l.map s.netif.heap.bytesOf

/-- What others do with pbufs leaves the queue alone. -/
theorem Waiting.other (h : Waiting s l) {heap : Heap} (hlegal : Legal s (.other heap)) :
    Waiting { s with netif := { s.netif with heap } } l := by
  obtain ⟨hfresh, hsame⟩ := hlegal
  have hsame := hsame l h.queue.walk
  refine ⟨h.queue.congr hsame hfresh _, h.packets.trans ?_⟩
  rw [List.map_congr_left fun i hi => bytesOf_congr (hsame i hi)]

/-- `netif_loop_output` counts the pbuf that it puts on the queue. -/
theorem Waiting.output (h : Waiting s l) (max : ℕ) {p avail : ℕ} {content : ℕ → ℕ → UInt8}
    (hlegal : Legal s (.output p avail content)) (hsend : Sendable s (.output p avail content)) :
    ∃ s' l', step max s (.output p avail content) = .ok s' ∧ Waiting s' l' ∧
      ((l' = l ∧ s'.netif.loop_cnt_current = s.netif.loop_cnt_current) ∨
        (l'.length = l.length + 1 ∧ s.netif.loop_cnt_current + 1 ≤ max ∧
          s'.netif.loop_cnt_current = u16 (s.netif.loop_cnt_current + 1))) := by
  obtain ⟨lp, hc⟩ := hlegal
  obtain ⟨n, err, hrun, hsame, hcase⟩ :=
    netifLoopOutput_spec h.queue hc (hsend.1 lp hc) max avail content
  have hmap : l.map n.heap.bytesOf = l.map s.netif.heap.bytesOf := List.map_congr_left hsame
  have hbytes : bytesFrom s.netif.heap p = s.netif.heap.packet lp := by
    have hchain : s.netif.heap.chain s.netif.heap.fresh p = some lp :=
      walk_eq_some.mpr ⟨hc.walk, hc.length_le⟩
    rw [bytesFrom, hchain, Option.getD_some]
  refine ⟨{ s with
      netif := n
      accepted := s.accepted ++ if err = .ERR_OK then [bytesFrom s.netif.heap p] else [] },
    if err = .ERR_OK then l ++ [s.netif.heap.fresh] else l, ?_, ?_, ?_⟩
  · rw [step, hrun]
    rfl
  · obtain ⟨rfl, hqueue, -⟩ | ⟨rfl, hqueue, hnew, -⟩ := hcase
    · refine ⟨hqueue, ?_⟩
      show s.accepted ++ [] = s.received ++ l.map n.heap.bytesOf
      rw [hmap, List.append_nil, h.packets]
    · refine ⟨hqueue, ?_⟩
      show s.accepted ++ [bytesFrom s.netif.heap p] =
        s.received ++ (l ++ [s.netif.heap.fresh]).map n.heap.bytesOf
      rw [List.map_append, List.map_singleton, hmap, hnew, hbytes, h.packets, List.append_assoc]
  · obtain ⟨rfl, -, hcnt⟩ | ⟨rfl, -, -, hle, hcnt⟩ := hcase
    · exact .inl ⟨rfl, hcnt⟩
    · exact .inr ⟨List.length_append, hle, hcnt⟩

/-- `netif_poll` finds no packet. -/
theorem Waiting.round_empty (h : Waiting s []) : step max s .round = .ok s := by
  have hfirst : s.netif.loop_first = none := h.queue.walk.head?_eq.symm
  rw [step, pollRound, hfirst]
  show Except.ok { s with received := s.received ++ [] } = .ok s
  rw [List.append_nil]

/-- `netif_poll` finds some packets. `ip_input` gets the first, and the number of all is
subtracted. -/
theorem Waiting.round {i : ℕ} (h : Waiting s (i :: l)) (max : ℕ) (hlen : u8 (i :: l).length ≠ 0) :
    ∃ s', step max s .round = .ok s' ∧ Waiting s' l ∧
      s'.netif.loop_cnt_current = u16sub s.netif.loop_cnt_current (u8 (i :: l).length) := by
  obtain ⟨n, hrun, hqueue, hsame, hchain, hcnt⟩ := pollRound_spec h.queue hlen
  have hbytes : bytesFrom n.heap i = n.heap.bytesOf i := by
    rw [bytesFrom, hchain, Option.getD_some]
    exact List.append_nil _
  refine ⟨{ s with netif := n, received := s.received ++ [bytesFrom n.heap i] }, ?_,
    ⟨hqueue, ?_⟩, hcnt⟩
  · rw [step, hrun]
    rfl
  · show s.accepted = (s.received ++ [bytesFrom n.heap i]) ++ l.map n.heap.bytesOf
    rw [h.packets, hbytes, List.append_assoc, ← List.map_congr_left hsame]
    rfl

/-- The state keeps the packets in their order, and the counter, at an event at which `netif_poll`
does not find two packets. -/
theorem step_right (hmax : max < 2^16) (h : Waiting s l)
    (hcnt : s.netif.loop_cnt_current = l.length)
    (hlegal : Legal s e) (hsend : Sendable s e) (hone : OneQueued s e) :
    ∃ s' l', step max s e = .ok s' ∧ Waiting s' l' ∧ s'.netif.loop_cnt_current = l'.length := by
  cases e with
  | other heap => exact ⟨_, l, rfl, h.other hlegal, hcnt⟩
  | output p avail content =>
    obtain ⟨s', l', hrun, hwait, ⟨rfl, hcnt'⟩ | ⟨hlen, hle, hcnt'⟩⟩ :=
      h.output max hlegal hsend
    · exact ⟨s', l', hrun, hwait, hcnt'.trans hcnt⟩
    · refine ⟨s', l', hrun, hwait, ?_⟩
      rw [hcnt', hlen, hcnt]
      exact Nat.mod_eq_of_lt (by omega)
  | round =>
    cases l with
    | nil => exact ⟨s, [], h.round_empty, h, hcnt⟩
    | cons i l =>
      -- There is no packet but the first one.
      have hnil : l = [] := by
        have hw := h.queue.walk
        have hfirst : s.netif.loop_first = some i := hw.head?_eq.symm
        rw [hfirst] at hw
        cases hw with
        | cons hw =>
          rw [hone i hfirst] at hw
          exact hw.unique .nil
      subst hnil
      obtain ⟨s', hrun, hwait, hcnt'⟩ := h.round max (by rw [List.length_singleton]; decide)
      refine ⟨s', [], hrun, hwait, ?_⟩
      rw [hcnt', hcnt, List.length_singleton]
      decide

/-- In every run whose packets can be sent and in which `netif_poll` never finds two packets,
`ip_input` gets the accepted packets in their order, and `loop_cnt_current` is right. -/
theorem loopback_right (max : ℕ) (heap : Heap) (es : List Event) (hmax : max < 2^16)
    (hlegal : Along (step max) Legal { netif := { heap } } es)
    (hsend : Along (step max) Sendable { netif := { heap } } es)
    (hone : Along (step max) OneQueued { netif := { heap } } es) :
    (∃ s, run (step max) { netif := { heap } } es = .ok s) ∧
      Always (step max) LoopRight { netif := { heap } } es := by
  have hstep : ∀ s e, (∃ l, Waiting s l ∧ s.netif.loop_cnt_current = l.length) →
      ((Legal s e ∧ Sendable s e) ∧ OneQueued s e) →
      ∃ s', step max s e = .ok s' ∧ ∃ l, Waiting s' l ∧ s'.netif.loop_cnt_current = l.length := by
    rintro s e ⟨l, hwait, hcnt⟩ ⟨⟨hlegal, hsend⟩, hone⟩
    obtain ⟨s', l', hrun, hwait', hcnt'⟩ := step_right hmax hwait hcnt hlegal hsend hone
    exact ⟨s', hrun, l', hwait', hcnt'⟩
  have hinit : ∃ l, Waiting { netif := { heap } } l ∧ (0 : ℕ) = l.length :=
    ⟨[], ⟨⟨.nil, rfl, fun i hi => by cases hi⟩, rfl⟩, rfl⟩
  have hcond := (hlegal.and hsend).and hone
  refine ⟨?_, fun es' es'' s' hes hr => ?_⟩
  · obtain ⟨s, hr, -⟩ := run_ok hstep hinit hcond
    exact ⟨s, hr⟩
  · rw [hes] at hcond
    obtain ⟨s, hr', l, hwait, hcnt⟩ := run_ok hstep hinit hcond.left
    obtain rfl : s' = s := Except.ok.inj (hr.symm.trans hr')
    exact ⟨l, hwait.queue.walk, hwait.packets, hcnt⟩

/-- `netif_poll` is some rounds with calls between them, and empties the queue. -/
theorem netifPoll_run {ipInput : State → List Event} {fuel : ℕ}
    (h : netifPoll max ipInput fuel s = .ok s') :
    (∃ es, run (step max) s es = .ok s') ∧ s'.netif.loop_first = none := by
  induction fuel generalizing s with
  | zero => cases h
  | succ fuel ih =>
    rw [netifPoll] at h
    obtain ⟨s₁, hround, hmore⟩ := bind_eq_ok.mp h
    obtain ⟨s₂, hcalls, hend⟩ := bind_eq_ok.mp hmore
    set calls := if s.netif.loop_first.isSome = true then ipInput s₁ else []
    have hrun : run (step max) s (.round :: calls) = .ok s₂ := bind_eq_ok.mpr ⟨s₁, hround, hcalls⟩
    split at hend
    · obtain ⟨⟨es, hrest⟩, hnone⟩ := ih hend
      refine ⟨⟨(.round :: calls) ++ es, ?_⟩, hnone⟩
      rw [run_append, hrun]
      exact hrest
    · next hnone =>
      cases hend
      exact ⟨⟨.round :: calls, hrun⟩, Option.not_isSome_iff_eq_none.mp hnone⟩

/-! ## Two packets -/

/-- A packet of 3 bytes in two pbufs. -/
def examplePacket : Heap where
  pbufs
    | 0 => some { next := some 1, payload := 0, tot_len := 3, len := 2, type := .RAM,
                  mem := fun _ => 7, size := 2 }
    | 1 => some { payload := 0, tot_len := 1, len := 1, type := .RAM, mem := fun _ => 8, size := 1 }
    | _ => none
  fresh := 2

/-- `netif_loop_output` is called for it. -/
def exampleOutput : Event := .output 0 1 fun _ _ => 0

/-- The example is a chain of two pbufs. -/
theorem examplePacket_chain : ChainAt examplePacket (some 0) [0, 1] :=
  .cons rfl (by decide) rfl (.cons rfl (by decide) rfl .nil)

/-- The example is sent with the counter right. -/
theorem loopback_right_examplePacket :
    Always (step 8) LoopRight { netif := { heap := examplePacket } } [exampleOutput, .round] := by
  have hsend : Sendable { netif := { heap := examplePacket } } exampleOutput := by
    refine ⟨fun lp hc => ?_, by decide⟩
    rw [hc.walk.unique examplePacket_chain.walk]
    simp [SinglePacket, examplePacket]
  refine (loopback_right 8 examplePacket [exampleOutput, .round] (by decide) ?_ ?_ ?_).2
  · exact ⟨⟨_, examplePacket_chain⟩, fun s hs => ⟨trivial, fun _ _ => trivial⟩⟩
  · exact ⟨hsend, fun s hs => ⟨trivial, fun _ _ => trivial⟩⟩
  · refine ⟨trivial, fun s hs => ⟨fun p hp => ?_, fun _ _ => trivial⟩⟩
    cases hs
    cases hp
    rfl

/-- With two packets on the queue, the first round of `netif_poll` subtracts 2, and the second one
1. -/
theorem poll_two_miscounts :
    ∃ s, Along (step 8) Legal { netif := { heap := examplePacket } }
        [exampleOutput, exampleOutput, .round, .round] ∧
      run (step 8) { netif := { heap := examplePacket } }
        [exampleOutput, exampleOutput, .round, .round] = .ok s ∧
      s.netif.loop_first = none ∧ s.netif.loop_cnt_current = 65535 ∧ ¬ LoopRight s := by
  refine ⟨_, ⟨⟨_, examplePacket_chain⟩, fun s hs => ?_⟩, rfl, rfl, rfl, ?_⟩
  · cases hs
    refine ⟨⟨[0, 1], ?_⟩, fun _ _ => ⟨trivial, fun _ _ => ⟨trivial, fun _ _ => trivial⟩⟩⟩
    exact .cons rfl (by decide) rfl (.cons rfl (by decide) rfl .nil)
  · rintro ⟨l, hw, -, hcnt⟩
    have hnil : l = [] := hw.unique .nil
    rw [hnil] at hcnt
    cases hcnt

end Runs

end Lwip.Loopback
