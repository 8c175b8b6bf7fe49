import Lwip.Pbuf.Realloc
import Mathlib.Data.List.Infix
import Mathlib.Data.List.DropRight

/-!
# SLIP

`slipif_output` and `slipif_input` of `slipif.c`. A pbuf chain is the list of the payloads of its
pbufs, and a pointer into it is an index. What `pbuf_alloc` returns, with the octets its memory
contains, is a parameter, and the empty chain is `NULL`. The octets that the serial line has for
`sio_tryread` are a list; a call reads it until a packet is complete or nothing is left.

`Decoder` is the same receiver on octets alone, without pbufs. `slip_round_trip` follows from what
it makes of the octets of `slipif_output`, and from `Holds`, which says that the chain that is
filled holds the octets of the packet so far.
-/

namespace Lwip.Slip

/-- `SLIP_END`. -/
def SLIP_END : UInt8 := 0xC0

/-- `SLIP_ESC`. -/
def SLIP_ESC : UInt8 := 0xDB

/-- `SLIP_ESC_END`. -/
def SLIP_ESC_END : UInt8 := 0xDC

/-- `SLIP_ESC_ESC`. -/
def SLIP_ESC_ESC : UInt8 := 0xDD

/-- `SLIP_MAX_SIZE`. -/
def SLIP_MAX_SIZE : ℕ := 1500

/-- `enum slipif_recv_state`. -/
inductive RecvState where
  | SLIP_RECV_NORMAL | SLIP_RECV_ESCAPE
  deriving DecidableEq, Repr

/-- `struct slipif_priv`. -/
structure Priv where
  /-- The whole pbuf chain for a packet. -/
  q : List (List UInt8) := []
  /-- The current pbuf in the chain. -/
  p : Option ℕ := none
  state : RecvState := .SLIP_RECV_NORMAL
  i : ℕ := 0
  recved : ℕ := 0
  deriving DecidableEq, Repr

/-! ## The functions -/

/-- What is sent for the octet `c`. -/
def sendOctet (c : UInt8) : List UInt8 :=
  if c = SLIP_END then [SLIP_ESC, SLIP_ESC_END]
  else if c = SLIP_ESC then [SLIP_ESC, SLIP_ESC_ESC]
  else [c]

/-- `slipif_output(netif, p, ipaddr)`, with the octets given to `sio_send`. -/
def slipifOutput (p : List (List UInt8)) : List UInt8 :=
  SLIP_END :: (p.flatMap fun q => q.flatMap sendOctet) ++ [SLIP_END]

/-- `pbuf_realloc(p, new_len)`, from the pbuf on where `new_len` octets remain. -/
def pbufRealloc : List (List UInt8) → ℕ → List (List UInt8)
  | [], _ => []
  | b :: next, new_len =>
    if b.length < new_len then b :: pbufRealloc next (new_len - b.length) else [b.take new_len]

/-- A byte is received, and the packet is not yet completely received. The result `none` is a failed
allocation. -/
def byteReceived (alloc : Priv → List (List UInt8)) (priv : Priv) (c : UInt8) : Option Priv :=
  let priv? :=
    match priv.p with
    | some _ => some priv
    | none =>
      match alloc priv with
      | [] => none
      -- 'chain' the pbuf to the existing chain
      | b :: next => some { priv with q := priv.q ++ b :: next, p := some priv.q.length }
  priv?.map fun priv =>
    -- this automatically drops bytes if > SLIP_MAX_SIZE
    match priv.p with
    | none => priv
    | some p =>
      if priv.recved ≤ SLIP_MAX_SIZE then
        let priv := { priv with
          q := priv.q.modify p (·.set priv.i c), recved := priv.recved + 1, i := priv.i + 1 }
        if (priv.q[p]?.getD []).length ≤ priv.i then
          -- on to the next pbuf
          { priv with i := 0, p := if priv.q[p + 1]?.getD [] ≠ [] then some (p + 1) else none }
        else priv
      else priv

/-- `slipif_input(netif, SLIP_DONTBLOCK)`, on the octets that can be read. The result is the pbuf
that is returned, if one is, with the octets that are not read. -/
def slipifInput (alloc : Priv → List (List UInt8)) :
    Priv → List UInt8 → Option (List (List UInt8)) × Priv × List UInt8
  | priv, [] => (none, priv, [])
  | priv, c :: rest =>
    match priv.state with
    | .SLIP_RECV_NORMAL =>
      if c = SLIP_END then
        if 0 < priv.recved then
          (some (pbufRealloc priv.q priv.recved), { state := priv.state }, rest)
        else slipifInput alloc priv rest
      else if c = SLIP_ESC then slipifInput alloc { priv with state := .SLIP_RECV_ESCAPE } rest
      else
        match byteReceived alloc priv c with
        | none => (none, priv, rest)
        | some priv => slipifInput alloc priv rest
    | .SLIP_RECV_ESCAPE =>
      let c := if c = SLIP_ESC_END then SLIP_END else if c = SLIP_ESC_ESC then SLIP_ESC else c
      let priv := { priv with state := .SLIP_RECV_NORMAL }
      match byteReceived alloc priv c with
      | none => (none, priv, rest)
      | some priv => slipifInput alloc priv rest

/-! ## The machine -/

/-- What can happen at the receiver. -/
inductive Event where
  /-- Octets come over the line. -/
  | arrive (octets : List UInt8)
  /-- `slipif_input` is called. -/
  | input
  deriving DecidableEq, Repr

/-- The receiver, with the octets not read yet and the packets returned so far. -/
structure Receiver where
  priv : Priv := {}
  unread : List UInt8 := []
  got : List (List (List UInt8)) := []
  deriving DecidableEq, Repr

/-- The receiver after an event. -/
def step (alloc : Priv → List (List UInt8)) (s : Receiver) : Event → Receiver
  | .arrive octets => { s with unread := s.unread ++ octets }
  | .input =>
    let x := slipifInput alloc s.priv s.unread
    ⟨x.2.1, x.2.2, s.got ++ x.1.toList⟩

/-- The octets that come over the line. -/
def arrivals (es : List Event) : List UInt8 :=
  es.flatMap fun
    | .arrive octets => octets
    | .input => []

/-! ## The receiver without pbufs -/

/-- The octets of the packet so far, and whether the last octet read was `SLIP_ESC`. -/
structure Decoder where
  pending : List UInt8 := []
  escape : Bool := false
  deriving DecidableEq, Repr

namespace Decoder

/-- The decoder has one more octet of the packet. -/
def add (d : Decoder) (c : UInt8) : Decoder :=
  { pending := if d.pending.length ≤ SLIP_MAX_SIZE then d.pending ++ [c] else d.pending }

/-- The decoder reads one octet, and may have a packet. -/
def read (d : Decoder) (c : UInt8) : Decoder × Option (List UInt8) :=
  if d.escape then
    (d.add (if c = SLIP_ESC_END then SLIP_END else if c = SLIP_ESC_ESC then SLIP_ESC else c), none)
  else if c = SLIP_END then
    if d.pending = [] then (d, none) else ({}, some d.pending)
  else if c = SLIP_ESC then ({ d with escape := true }, none)
  else (d.add c, none)

/-- The decoder reads some octets, and has these packets. -/
def feed (d : Decoder) : List UInt8 → Decoder × List (List UInt8)
  | [] => (d, [])
  | c :: rest => ((d.read c).1.feed rest).map id ((d.read c).2.toList ++ ·)

/-- The octets may come in two parts. -/
theorem feed_append (d : Decoder) (a b : List UInt8) :
    d.feed (a ++ b) = ((d.feed a).1.feed b).map id ((d.feed a).2 ++ ·) := by
  induction a generalizing d with
  | nil => rfl
  | cons c a ih =>
    rw [List.cons_append, feed, feed, ih]
    simp only [Prod.map, id, List.append_assoc]

/-- An octet of a packet. -/
theorem feed_sendOctet {d : Decoder} (he : d.escape = false) (c : UInt8) :
    d.feed (sendOctet c) = (d.add c, []) := by
  unfold sendOctet
  split
  · next h =>
    subst h
    simp [feed, read, he, add, SLIP_END, SLIP_ESC, SLIP_ESC_END]
  · next hend =>
    split
    · next h =>
      subst h
      simp [feed, read, he, add, SLIP_END, SLIP_ESC, SLIP_ESC_END, SLIP_ESC_ESC]
    · next hesc => simp [feed, read, he, hend, hesc]

/-- The octets of a packet that is not too long are put behind those before. -/
theorem feed_octets (pending octets : List UInt8)
    (h : pending.length + octets.length ≤ SLIP_MAX_SIZE + 1) :
    feed { pending } (octets.flatMap sendOctet) = ({ pending := pending ++ octets }, []) := by
  induction octets generalizing pending with
  | nil => simp [feed]
  | cons c octets ih =>
    rw [List.length_cons] at h
    have hadd : add { pending } c = { pending := pending ++ [c] } := by
      rw [add, if_pos (by dsimp only; omega)]
    rw [List.flatMap_cons, feed_append, feed_sendOctet rfl, hadd, ih _ (by simp; omega)]
    simp

/-- The octets of a packet are sent one after the other, however it is cut into pbufs. -/
theorem flatMap_sendOctet (p : List (List UInt8)) :
    (p.flatMap fun q => q.flatMap sendOctet) = p.flatten.flatMap sendOctet := by
  induction p with
  | nil => rfl
  | cons q p ih => rw [List.flatMap_cons, List.flatten_cons, List.flatMap_append, ih]

/-- What `slipif_output` sends for a packet is the packet. -/
theorem feed_slipifOutput {p : List (List UInt8)} (hpos : p.flatten ≠ [])
    (hle : p.flatten.length ≤ SLIP_MAX_SIZE) : feed {} (slipifOutput p) = ({}, [p.flatten]) := by
  have hstart : read {} SLIP_END = ({}, none) := rfl
  have hend : read { pending := p.flatten } SLIP_END = ({}, some p.flatten) := by
    simp [read, hpos]
  rw [slipifOutput, flatMap_sendOctet, List.cons_append, feed, hstart, feed_append,
    feed_octets _ _ (by simpa using Nat.le_succ_of_le hle), List.nil_append, feed, hend]
  rfl

/-- What `slipif_output` sends for a list of packets is that list. -/
theorem feed_packets {ps : List (List (List UInt8))}
    (h : ∀ p ∈ ps, p.flatten ≠ [] ∧ p.flatten.length ≤ SLIP_MAX_SIZE) :
    feed {} (ps.flatMap slipifOutput) = ({}, ps.map List.flatten) := by
  induction ps with
  | nil => rfl
  | cons p ps ih =>
    obtain ⟨hpos, hle⟩ := h p List.mem_cons_self
    rw [List.flatMap_cons, feed_append, feed_slipifOutput hpos hle,
      ih fun p hp => h p (List.mem_cons_of_mem _ hp)]
    rfl

end Decoder

/-! ## The chain that is filled -/

/-- A chain that is cut has the first octets. -/
theorem flatten_pbufRealloc (q : List (List UInt8)) (n : ℕ) :
    (pbufRealloc q n).flatten = q.flatten.take n := by
  induction q generalizing n with
  | nil => simp [pbufRealloc]
  | cons b q ih =>
    rw [pbufRealloc, List.flatten_cons, List.take_append]
    split
    · next hlt => rw [List.flatten_cons, ih, List.take_of_length_le hlt.le]
    · next hge =>
      have hzero : n - b.length = 0 := by omega
      rw [List.flatten_singleton, hzero, List.take_zero, List.append_nil]

/-- The pbufs in front of the last one that is left hold less than `n` octets. -/
theorem pbufRealloc_append (q : List (List UInt8)) (b : List UInt8) (next : List (List UInt8))
    {rem : ℕ} (hrem : rem ≤ b.length) (hpos : q = [] ∨ 0 < rem) :
    pbufRealloc (q ++ b :: next) (q.flatten.length + rem) = q ++ [b.take rem] := by
  induction q with
  | nil =>
    rw [List.nil_append, List.flatten_nil, List.length_nil, Nat.zero_add, pbufRealloc,
      if_neg (Nat.not_lt.mpr hrem)]
    rfl
  | cons a q ih =>
    have hpos : 0 < rem := hpos.resolve_left (List.cons_ne_nil a q)
    have hlen : (a :: q).flatten.length + rem - a.length = q.flatten.length + rem := by
      rw [List.flatten_cons, List.length_append]
      omega
    rw [List.cons_append, pbufRealloc, hlen, ih (.inr hpos), if_pos]
    · rfl
    · rw [List.flatten_cons, List.length_append]
      omega

/-- What is left of the payloads of a chain is what `pbuf_realloc` leaves of the pbufs in the
heap. -/
theorem map_bytesOf_pbufRealloc {own : ℕ → ℕ} {s : Pbuf.Heap} {p new_len : ℕ} {b : Pbuf}
    {l : List ℕ} (hp : Pbuf.PacketsRight own s) (hb : s.pbufs p = some b) (htop : s.Top p)
    (hshort : new_len < b.tot_len) (hw : Walk s.succ (some p) l) :
    ∃ s' l', Pbuf.pbufRealloc s p new_len = .ok s' ∧ Walk s'.succ (some p) l' ∧
      l'.map s'.bytesOf = pbufRealloc (l.map s.bytesOf) new_len := by
  obtain ⟨s', l', hrun, -, hw', l₁, q, l₂, rem, rfl, rfl, hother, hq, hrem, rfl, hpos⟩ :=
    Pbuf.pbufRealloc_shrunk hp hb htop hshort hw
  refine ⟨s', l₁ ++ [q], hrun, hw', ?_⟩
  have hpacket : s.packet l₁ = (l₁.map s.bytesOf).flatten := List.flatMap_def ..
  rw [List.map_append, List.map_singleton, List.map_append, List.map_cons, hpacket,
    pbufRealloc_append _ _ _ hrem (hpos.imp_left fun h => by rw [h]; rfl),
    List.map_congr_left hother, hq]

/-- The pbuf with this index is changed. -/
theorem modify_pbuf (pre post : List (List UInt8)) (b : List UInt8) (f : List UInt8 → List UInt8) :
    (pre ++ b :: post).modify pre.length f = pre ++ f b :: post := by
  induction pre with
  | nil => rfl
  | cons a pre ih => exact congrArg (a :: ·) ih

/-- A write into one pbuf is a write into the packet. -/
theorem flatten_modify (pre post : List (List UInt8)) (b : List UInt8) {i : ℕ} (hi : i < b.length)
    (c : UInt8) :
    ((pre ++ b :: post).modify pre.length (·.set i c)).flatten =
      (pre ++ b :: post).flatten.set (pre.flatten.length + i) c := by
  rw [modify_pbuf, List.flatten_append, List.flatten_append, List.flatten_cons, List.flatten_cons,
    List.set_append_right _ _ (Nat.le_add_right _ _), Nat.add_sub_cancel_left,
    List.set_append_left _ _ hi]

/-- The next octet of the packet goes to the place `priv.i` of the pbuf `b`, behind those of
`pre`. -/
structure At (priv : Priv) (pre : List (List UInt8)) (b : List UInt8) (post : List (List UInt8)) :
    Prop where
  q : priv.q = pre ++ b :: post
  p : priv.p = some pre.length
  i : priv.i < b.length
  recved : priv.recved = pre.flatten.length + priv.i

/-- The chain holds the octets that the decoder has. -/
structure Holds (priv : Priv) (d : Decoder) : Prop where
  octets : priv.q.flatten.take priv.recved = d.pending
  recved : priv.recved = d.pending.length
  escape : (priv.state = .SLIP_RECV_ESCAPE) ↔ d.escape = true
  nonempty : ∀ b ∈ priv.q, b ≠ []
  /-- There is no current pbuf when the chain is full. -/
  full : priv.p = none → priv.recved = priv.q.flatten.length ∧ priv.i = 0
  place : ∀ p, priv.p = some p → ∃ pre b post, At priv pre b post

/-- The receiver holds nothing at first. -/
theorem Holds.init : Holds {} {} where
  octets := rfl
  recved := rfl
  escape := by decide
  nonempty := fun b hb => (List.not_mem_nil hb).elim
  full := fun _ => ⟨rfl, rfl⟩
  place := fun p hp => nomatch hp

/-- `SLIP_ESC` was read. -/
theorem Holds.escaped {priv : Priv} {d : Decoder} (h : Holds priv d) :
    Holds { priv with state := .SLIP_RECV_ESCAPE } { d with escape := true } :=
  ⟨h.octets, h.recved, by simp, h.nonempty, h.full,
    fun p hp => (h.place p hp).imp fun _ ⟨b, post, ha⟩ => ⟨b, post, ha.q, ha.p, ha.i, ha.recved⟩⟩

/-- The octet behind a `SLIP_ESC` was read. -/
theorem Holds.unescaped {priv : Priv} {d : Decoder} (h : Holds priv d) :
    Holds { priv with state := .SLIP_RECV_NORMAL } { d with escape := false } :=
  ⟨h.octets, h.recved, by simp, h.nonempty, h.full,
    fun p hp => (h.place p hp).imp fun _ ⟨b, post, ha⟩ => ⟨b, post, ha.q, ha.p, ha.i, ha.recved⟩⟩

/-- An octet is written to its place. -/
theorem take_set {l : List UInt8} {n : ℕ} (hn : n < l.length) (c : UInt8) :
    (l.set n c).take (n + 1) = l.take n ++ [c] := by
  have hlt : n < (l.set n c).length := by rwa [List.length_set]
  rw [List.take_succ_eq_append_getElem hlt, List.take_set_of_le (Nat.le_refl n),
    List.getElem_set_self]

/-- The chain has a current pbuf after `pbuf_alloc`. -/
theorem Holds.alloc {priv : Priv} {d : Decoder} (h : Holds priv d) (hp : priv.p = none)
    {b : List UInt8} {next : List (List UInt8)} (hb : ∀ x ∈ b :: next, x ≠ []) :
    Holds { priv with q := priv.q ++ b :: next, p := some priv.q.length } d := by
  obtain ⟨hrecved, hi⟩ := h.full hp
  refine ⟨?_, h.recved, h.escape, ?_, fun hnone => (by cases hnone), fun p _ => ?_⟩
  · rw [← h.octets, List.flatten_append, hrecved, List.take_left, List.take_length]
  · intro x hx
    rcases List.mem_append.mp hx with hx | hx
    · exact h.nonempty x hx
    · exact hb x hx
  · refine ⟨priv.q, b, next, rfl, rfl, ?_, ?_⟩
    · rw [hi]
      exact List.length_pos_iff.mpr (hb b List.mem_cons_self)
    · rw [hi, hrecved, Nat.add_zero]

/-- The chain with one more octet. -/
theorem Holds.write {priv : Priv} {d : Decoder} (h : Holds priv d) {pre post : List (List UInt8)}
    {b : List UInt8} (ha : At priv pre b post) (hle : d.pending.length ≤ SLIP_MAX_SIZE) (c : UInt8)
    (hesc : d.escape = false) {i : ℕ} {p : Option ℕ}
    (hnext : (priv.i + 1 < b.length ∧ i = priv.i + 1 ∧ p = priv.p) ∨
      (b.length ≤ priv.i + 1 ∧ i = 0 ∧ p = if post ≠ [] then some (pre.length + 1) else none)) :
    Holds { priv with
      q := priv.q.modify pre.length (·.set priv.i c), recved := priv.recved + 1, i, p }
      (d.add c) := by
  have hlen := ha.i
  have hq : priv.q.modify pre.length (·.set priv.i c) = pre ++ b.set priv.i c :: post := by
    rw [ha.q, modify_pbuf]
  have hflat : priv.q.flatten.length = pre.flatten.length + (b.length + post.flatten.length) := by
    rw [ha.q, List.flatten_append, List.flatten_cons, List.length_append, List.length_append]
  have hadd : d.add c = { pending := d.pending ++ [c] } := by rw [Decoder.add, if_pos hle]
  have hmem : ∀ x ∈ pre ++ b :: post, x ≠ [] := by
    rw [← ha.q]
    exact h.nonempty
  rw [hadd]
  refine ⟨?_, ?_, ?_, ?_, fun hp => ?_, fun k hk => ?_⟩
  · dsimp only
    rw [ha.q, flatten_modify _ _ _ hlen, ← ha.q, ← ha.recved, take_set, h.octets]
    rw [hflat, ha.recved]
    omega
  · dsimp only
    rw [h.recved, List.length_append, List.length_singleton]
  · dsimp only
    rw [h.escape, hesc]
  · dsimp only
    rw [hq]
    intro x hx
    rcases List.mem_append.mp hx with hx | hx
    · exact hmem x (List.mem_append_left _ hx)
    · rcases List.mem_cons.mp hx with rfl | hx
      · intro hnil
        rw [← List.length_eq_zero_iff, List.length_set] at hnil
        omega
      · exact hmem x (List.mem_append_right _ (List.mem_cons_of_mem _ hx))
  · -- The current pbuf was the last one, and is full.
    dsimp only at hp ⊢
    obtain ⟨-, -, hp'⟩ | ⟨hge, hi, hp'⟩ := hnext
    · rw [hp', ha.p] at hp
      cases hp
    · rw [hp'] at hp
      have hpost : post = [] := by
        by_contra hne
        rw [if_pos hne] at hp
        cases hp
      refine ⟨?_, hi⟩
      rw [hq, hpost, List.flatten_append, List.flatten_singleton, List.length_append,
        List.length_set, ha.recved]
      omega
  · dsimp only at hk ⊢
    obtain ⟨hlt, hi, hp'⟩ | ⟨hge, hi, hp'⟩ := hnext
    · refine ⟨pre, b.set priv.i c, post, hq, hp'.trans ha.p, ?_, ?_⟩
      · rw [List.length_set]
        dsimp only
        omega
      · dsimp only
        rw [hi, ha.recved, Nat.add_assoc]
    · cases post with
      | nil =>
        rw [hp', if_neg (not_not.mpr rfl)] at hk
        cases hk
      | cons b' post =>
        refine ⟨pre ++ [b.set priv.i c], b', post, ?_, ?_, ?_, ?_⟩
        · dsimp only
          rw [hq, List.append_assoc]
          rfl
        · dsimp only
          rw [hp', if_pos (List.cons_ne_nil _ _), List.length_append, List.length_singleton]
        · dsimp only
          rw [hi]
          exact List.length_pos_iff.mpr (hmem b' (by simp))
        · dsimp only
          rw [hi, ha.recved, List.flatten_append, List.flatten_singleton, List.length_append,
            List.length_set]
          omega

/-- As long as no allocation fails the octet is added to the packet. -/
theorem byteReceived_holds {alloc : Priv → List (List UInt8)}
    (halloc : ∀ priv, alloc priv ≠ [] ∧ ∀ b ∈ alloc priv, b ≠ []) {priv : Priv} {d : Decoder}
    (h : Holds priv d) (hesc : d.escape = false) (c : UInt8) :
    ∃ priv', byteReceived alloc priv c = some priv' ∧ Holds priv' (d.add c) := by
  -- With a current pbuf, which may be new.
  have hwrite : ∀ {priv : Priv} {p : ℕ}, Holds priv d → priv.p = some p →
      Holds (match priv.p with
        | none => priv
        | some p =>
          if priv.recved ≤ SLIP_MAX_SIZE then
            let priv := { priv with
              q := priv.q.modify p (·.set priv.i c), recved := priv.recved + 1, i := priv.i + 1 }
            if (priv.q[p]?.getD []).length ≤ priv.i then
              { priv with i := 0, p := if priv.q[p + 1]?.getD [] ≠ [] then some (p + 1) else none }
            else priv
          else priv) (d.add c) := by
    intro priv p h hp
    obtain ⟨pre, b, post, ha⟩ := h.place p hp
    rw [ha.p]
    dsimp only
    split
    · next hle =>
      rw [h.recved] at hle
      have hmem : ∀ x ∈ pre ++ b :: post, x ≠ [] := by
        rw [← ha.q]
        exact h.nonempty
      have hb : ((priv.q.modify pre.length (·.set priv.i c))[pre.length]?.getD []).length =
          b.length := by
        rw [ha.q, modify_pbuf]
        simp
      have hb' : (priv.q.modify pre.length (·.set priv.i c))[pre.length + 1]?.getD [] ≠ [] ↔
          post ≠ [] := by
        rw [ha.q, modify_pbuf]
        cases post with
        | nil => simp
        | cons b' post => simpa using hmem b' (by simp)
      rw [hb]
      split
      · next hge =>
        rw [if_congr hb' rfl rfl]
        exact h.write ha hle c hesc (.inr ⟨hge, rfl, rfl⟩)
      · next hlt => exact h.write ha hle c hesc (.inl ⟨by omega, rfl, by rw [ha.p]⟩)
    · next hgt =>
      have hadd : d.add c = d := by
        rw [Decoder.add, if_neg (by rw [← h.recved]; exact hgt), ← hesc]
      rwa [hadd]
  unfold byteReceived
  cases hp : priv.p with
  | some p => exact ⟨_, rfl, hwrite h hp⟩
  | none =>
    obtain ⟨hne, hpos⟩ := halloc priv
    cases hal : alloc priv with
    | nil => exact absurd hal hne
    | cons b next =>
      rw [hal] at hpos
      exact ⟨_, rfl, hwrite (h.alloc hp hpos) rfl⟩

/-- A call reads what the decoder reads, up to the first packet or to the end. -/
theorem slipifInput_feed {alloc : Priv → List (List UInt8)}
    (halloc : ∀ priv, alloc priv ≠ [] ∧ ∀ b ∈ alloc priv, b ≠ []) {priv : Priv} {d : Decoder}
    (h : Holds priv d) (octets : List UInt8) :
    ∃ t priv' rest consumed, slipifInput alloc priv octets = (t, priv', rest) ∧
      octets = consumed ++ rest ∧ Holds priv' (d.feed consumed).1 ∧
      t.toList.map List.flatten = (d.feed consumed).2 ∧ (consumed = [] → rest = []) := by
  induction octets generalizing priv d with
  | nil => exact ⟨none, priv, [], [], rfl, rfl, h, rfl, fun _ => rfl⟩
  | cons c octets ih =>
    -- The octet does not complete a packet, and the call goes on.
    have hgo : ∀ priv' : Priv, slipifInput alloc priv (c :: octets) =
      slipifInput alloc priv' octets →
        Holds priv' (d.read c).1 → (d.read c).2 = none →
        ∃ t priv' rest consumed, slipifInput alloc priv (c :: octets) = (t, priv', rest) ∧
          c :: octets = consumed ++ rest ∧ Holds priv' (d.feed consumed).1 ∧
          t.toList.map List.flatten = (d.feed consumed).2 ∧ (consumed = [] → rest = []) := by
      intro priv' heq h' hnone
      obtain ⟨t, priv'', rest, consumed, hcall, hsplit, hholds, ht, -⟩ := ih h'
      refine ⟨t, priv'', rest, c :: consumed, heq.trans hcall, by rw [hsplit]; rfl, hholds, ?_,
        fun hnil => (by cases hnil)⟩
      rw [ht, Decoder.feed, hnone]
      rfl
    cases hstate : priv.state with
    | SLIP_RECV_NORMAL =>
      have hesc : d.escape = false := by
        rw [← Bool.not_eq_true, ← h.escape, hstate]
        decide
      by_cases hend : c = SLIP_END
      · by_cases hrecved : 0 < priv.recved
        · -- Received whole packet.
          have hpending : d.pending ≠ [] := by
            rw [h.recved] at hrecved
            exact List.length_pos_iff.mp hrecved
          have hread : d.read c = ({}, some d.pending) := by
            simp [Decoder.read, hesc, hend, hpending]
          refine ⟨some (pbufRealloc priv.q priv.recved), {}, octets, [c], ?_, rfl, ?_, ?_,
            fun hnil => (by cases hnil)⟩
          · rw [slipifInput, hstate]
            dsimp only
            rw [if_pos hend, if_pos hrecved]
          · rw [Decoder.feed, hread]
            exact Holds.init
          · rw [Decoder.feed, hread, ← h.octets, ← flatten_pbufRealloc]
            rfl
        · have hpending : d.pending = [] := by
            rw [h.recved] at hrecved
            exact List.length_eq_zero_iff.mp (by omega)
          have hread : d.read c = (d, none) := by simp [Decoder.read, hesc, hend, hpending]
          refine hgo priv ?_ (by rwa [hread]) (by rw [hread])
          rw [slipifInput, hstate]
          dsimp only
          rw [if_pos hend, if_neg hrecved]
      · by_cases hescape : c = SLIP_ESC
        · have hread : d.read c = ({ d with escape := true }, none) := by
            have hne : ¬SLIP_ESC = SLIP_END := by decide
            simp [Decoder.read, hesc, hescape, hne]
          refine hgo { priv with state := .SLIP_RECV_ESCAPE } ?_ ?_ (by rw [hread])
          · rw [slipifInput, hstate]
            dsimp only
            rw [if_neg hend, if_pos hescape]
          · rw [hread]
            exact h.escaped
        · have hread : d.read c = (d.add c, none) := by simp [Decoder.read, hesc, hend, hescape]
          obtain ⟨priv', hbyte, hholds⟩ := byteReceived_holds halloc h hesc c
          refine hgo priv' ?_ (by rwa [hread]) (by rw [hread])
          rw [slipifInput, hstate]
          dsimp only
          rw [if_neg hend, if_neg hescape, hbyte]
    | SLIP_RECV_ESCAPE =>
      have hesc : d.escape = true := h.escape.mp hstate
      have hnormal : Holds { priv with state := .SLIP_RECV_NORMAL } { pending := d.pending } :=
        h.unescaped
      have hread : d.read c = (Decoder.add { pending := d.pending }
          (if c = SLIP_ESC_END then SLIP_END else if c = SLIP_ESC_ESC then SLIP_ESC
          else c), none) := by
        rw [Decoder.read, if_pos hesc]
        rfl
      obtain ⟨priv', hbyte, hholds⟩ := byteReceived_holds halloc hnormal rfl
        (if c = SLIP_ESC_END then SLIP_END else if c = SLIP_ESC_ESC then SLIP_ESC else c)
      refine hgo priv' ?_ (by rwa [hread]) (by rw [hread])
      rw [slipifInput, hstate]
      dsimp only
      rw [hbyte]

/-! ## Runs -/

/-- The receiver is where the decoder is after the octets `consumed`. -/
structure Reached (consumed : List UInt8) (s : Receiver) : Prop where
  holds : Holds s.priv (Decoder.feed {} consumed).1
  got : s.got.map List.flatten = (Decoder.feed {} consumed).2

section Run

variable {alloc : Priv → List (List UInt8)}
  (halloc : ∀ priv, alloc priv ≠ [] ∧ ∀ b ∈ alloc priv, b ≠ [])

include halloc

/-- A call reads some of the octets that have arrived, if there are any. -/
theorem step_input {s : Receiver} {consumed : List UInt8} (h : Reached consumed s) :
    ∃ more, s.unread = more ++ (step alloc s .input).unread ∧
      Reached (consumed ++ more) (step alloc s .input) ∧
      (step alloc s .input).unread.length ≤ s.unread.length - 1 := by
  obtain ⟨t, priv', rest, more, hcall, hsplit, hholds, ht, hmore⟩ :=
    slipifInput_feed halloc h.holds s.unread
  have hstep : step alloc s .input = ⟨priv', rest, s.got ++ t.toList⟩ := by
    rw [step, hcall]
  rw [hstep]
  refine ⟨more, hsplit, ⟨?_, ?_⟩, ?_⟩
  · rw [Decoder.feed_append]
    exact hholds
  · rw [Decoder.feed_append, List.map_append, h.got, ht]
    rfl
  · dsimp only
    rw [hsplit, List.length_append]
    cases more with
    | nil =>
      rw [hmore rfl]
      exact Nat.zero_le _
    | cons c more => rw [List.length_cons]; omega

/-- In every run the receiver is where the decoder is after what has been read. -/
theorem run_reached (es : List Event) :
    ∃ consumed, arrivals es = consumed ++ (es.foldl (step alloc) {}).unread ∧
      Reached consumed (es.foldl (step alloc) {}) := by
  induction es using List.reverseRecOn with
  | nil => exact ⟨[], rfl, Holds.init, rfl⟩
  | append_singleton es e ih =>
    obtain ⟨consumed, hsplit, h⟩ := ih
    have harrivals : arrivals (es ++ [e]) = arrivals es ++ arrivals [e] := List.flatMap_append
    rw [List.foldl_append, List.foldl_cons, List.foldl_nil, harrivals, hsplit]
    cases e with
    | arrive octets =>
      refine ⟨consumed, ?_, h.holds, h.got⟩
      rw [List.append_assoc]
      simp [arrivals, step]
    | input =>
      obtain ⟨more, hunread, h', -⟩ := step_input halloc h
      refine ⟨consumed ++ more, ?_, h'⟩
      rw [List.append_assoc consumed more, ← hunread]
      simp [arrivals]

/-- Enough calls read all that has arrived. -/
theorem replicate_input (n : ℕ) {s : Receiver} {consumed : List UInt8} (h : Reached consumed s)
    (hn : s.unread.length ≤ n) :
    ((List.replicate n Event.input).foldl (step alloc) s).unread = [] := by
  induction n generalizing s consumed with
  | zero => exact List.length_eq_zero_iff.mp (Nat.le_zero.mp hn)
  | succ n ih =>
    obtain ⟨more, -, h', hlen⟩ := step_input halloc h
    exact ih h' (by omega)

end Run

/-- Packets of 1 to 1500 octets that are sent over a line come out of the receiver in this order and
nothing else does, wherever the reads are cut: at any time the packets returned are the first ones,
and when `slipif_input` has been called once more for each octet not read yet they are all. -/
theorem slip_round_trip (alloc : Priv → List (List UInt8))
    (halloc : ∀ priv, alloc priv ≠ [] ∧ ∀ b ∈ alloc priv, b ≠ []) (ps : List (List (List UInt8)))
    (hps : ∀ p ∈ ps, 1 ≤ p.flatten.length ∧ p.flatten.length ≤ SLIP_MAX_SIZE) (es : List Event)
    (hes : arrivals es = ps.flatMap slipifOutput) :
    (es.foldl (step alloc) {}).got.map List.flatten <+: ps.map List.flatten ∧
    ∀ n ≥ (es.foldl (step alloc) {}).unread.length,
      ((es ++ List.replicate n Event.input).foldl (step alloc) {}).got.map List.flatten =
        ps.map List.flatten := by
  have hps' : ∀ p ∈ ps, p.flatten ≠ [] ∧ p.flatten.length ≤ SLIP_MAX_SIZE :=
    fun p hp => ⟨List.length_pos_iff.mp (hps p hp).1, (hps p hp).2⟩
  have hall := Decoder.feed_packets hps'
  obtain ⟨consumed, hsplit, h⟩ := run_reached halloc es
  constructor
  · rw [h.got]
    rw [← hes, hsplit, Decoder.feed_append] at hall
    exact ⟨_, congrArg Prod.snd hall⟩
  · intro n hn
    have hunread := replicate_input halloc n h hn
    have harrivals : arrivals (es ++ List.replicate n Event.input) = arrivals es := by
      rw [arrivals, List.flatMap_append]
      simp [arrivals, List.flatMap_replicate]
    obtain ⟨consumed', hsplit', h'⟩ := run_reached halloc (es ++ List.replicate n Event.input)
    rw [List.foldl_append] at hsplit' h' ⊢
    rw [harrivals, hunread, List.append_nil, hes] at hsplit'
    rw [h'.got, ← hsplit', hall]

/-- What `pbuf_alloc` returns in this build for `PBUF_POOL_BUFSIZE - PBUF_LINK_HLEN` octets. -/
def onePoolPbuf (_ : Priv) : List (List UInt8) := [List.replicate 576 0]

/-- A packet with both special octets in it, and a pbuf without an octet. -/
def special : List (List UInt8) := [[1, SLIP_END], [], [SLIP_ESC, 2]]

/-- It is read in two parts, the first of which ends behind an escape. -/
def cutBehindEscape : List Event :=
  [.arrive ((slipifOutput special).take 3), .input, .arrive ((slipifOutput special).drop 3), .input]

/-- Octets that have to be escaped arrive. -/
theorem slip_round_trip_special :
    ((cutBehindEscape ++ List.replicate 0 Event.input).foldl (step onePoolPbuf) {}).got.map
    List.flatten =
      [[1, SLIP_END, SLIP_ESC, 2]] :=
  (slip_round_trip onePoolPbuf (fun _ => ⟨List.cons_ne_nil _ _, fun b hb => by
      rw [List.mem_singleton.mp hb]
      exact List.cons_ne_nil _ _⟩) [special]
    (by decide) cutBehindEscape (by decide)).2 0 (by decide +kernel)

end Lwip.Slip
