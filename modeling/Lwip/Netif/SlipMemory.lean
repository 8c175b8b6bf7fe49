import Lwip.Netif.Slip

/-!
# SLIP without memory

`slipif_input` when `pbuf_alloc` may fail: the call with number `calls` returns the chain `alloc
calls`, the empty one if it fails. The octet for which there is no pbuf is lost, but what was
received of the packet stays, and the octets behind it are received again as soon as there is
memory. So a packet gets shorter unless it needs no pbuf that it does not get, or gets none at all
(`delivers_whole_iff`).

`Line` is the receiver on octets alone, with the octets that are left in the chain.
-/

namespace Lwip.Slip.Pressure

/-! ## The machine -/

/-- `slipif_input(netif, SLIP_DONTBLOCK)`, on the octets that can be read, after `calls` calls of
`pbuf_alloc`. The result is the pbuf that is returned, if one is, with the octets that are not
read. -/
def slipifInput (alloc : ℕ → List (List UInt8)) :
    ℕ → Priv → List UInt8 → Option (List (List UInt8)) × ℕ × Priv × List UInt8
  | calls, priv, [] => (none, calls, priv, [])
  | calls, priv, c :: rest =>
    let after := if priv.p = none then calls + 1 else calls
    match priv.state with
    | .SLIP_RECV_NORMAL =>
      if c = SLIP_END then
        if 0 < priv.recved then
          (some (pbufRealloc priv.q priv.recved), calls, { state := priv.state }, rest)
        else slipifInput alloc calls priv rest
      else if c = SLIP_ESC then slipifInput alloc calls
        { priv with state := .SLIP_RECV_ESCAPE } rest
      else
        match byteReceived (fun _ => alloc calls) priv c with
        -- don't process any further since we got no pbuf to receive to
        | none => (none, after, priv, rest)
        | some priv => slipifInput alloc after priv rest
    | .SLIP_RECV_ESCAPE =>
      let c := if c = SLIP_ESC_END then SLIP_END else if c = SLIP_ESC_ESC then SLIP_ESC else c
      let priv := { priv with state := .SLIP_RECV_NORMAL }
      match byteReceived (fun _ => alloc calls) priv c with
      | none => (none, after, priv, rest)
      | some priv => slipifInput alloc after priv rest

/-- The receiver, with the number of calls of `pbuf_alloc` so far. -/
structure State extends Receiver where
  calls : ℕ := 0
  deriving DecidableEq, Repr

/-- The receiver after an event. -/
def step (alloc : ℕ → List (List UInt8)) (s : State) : Event → State
  | .arrive octets => { s with unread := s.unread ++ octets }
  | .input =>
    let x := slipifInput alloc s.calls s.priv s.unread
    { priv := x.2.2.1, unread := x.2.2.2, got := s.got ++ x.1.toList, calls := x.2.1 }

/-- The receiver after some events. -/
def after (alloc : ℕ → List (List UInt8)) (es : List Event) : State := es.foldl (step alloc) {}

/-- The packets that have been returned. -/
def got (alloc : ℕ → List (List UInt8)) (es : List Event) : List (List UInt8) :=
  (after alloc es).got.map List.flatten

/-- With calls that all return the same, this is the receiver that does not count them. -/
theorem slipifInput_const (a : List (List UInt8)) (calls : ℕ) (priv : Priv) (octets : List UInt8) :
    Slip.slipifInput (fun _ => a) priv octets =
      let x := slipifInput (fun _ => a) calls priv octets
      (x.1, x.2.2) := by
  induction octets generalizing calls priv with
  | nil => rfl
  | cons c octets ih =>
    rw [Slip.slipifInput, slipifInput]
    cases priv.state with
    | SLIP_RECV_NORMAL =>
      dsimp only
      split
      · split
        · rfl
        · exact ih calls priv
      · split
        · exact ih calls _
        · cases byteReceived (fun _ => a) priv c with
          | none => rfl
          | some priv' => exact ih _ priv'
    | SLIP_RECV_ESCAPE =>
      dsimp only
      cases byteReceived (fun _ => a) { priv with state := .SLIP_RECV_NORMAL }
          (if c = SLIP_ESC_END then SLIP_END else if c = SLIP_ESC_ESC then SLIP_ESC else c) with
      | none => rfl
      | some priv' => exact ih _ priv'

/-! ## The receiver without pbufs -/

/-- The octets of the packet so far, with the octets that are left in the chain and the number of
calls of `pbuf_alloc`. -/
structure Line extends Decoder where
  room : ℕ := 0
  calls : ℕ := 0
  deriving DecidableEq, Repr

namespace Line

variable (size : ℕ → ℕ)

/-- One more octet of the packet. It is lost if there is no room for it, and the call of
`pbuf_alloc` gives no octets. -/
def add (x : Line) (c : UInt8) : Line :=
  let used := if x.pending.length ≤ SLIP_MAX_SIZE then 1 else 0
  if x.room = 0 then
    if size x.calls = 0 then { x with escape := false, calls := x.calls + 1 }
    else { toDecoder := x.toDecoder.add c, room := size x.calls - used, calls := x.calls + 1 }
  else { x with toDecoder := x.toDecoder.add c, room := x.room - used }

/-- One octet is read, and there may be a packet. -/
def read (x : Line) (c : UInt8) : Line × Option (List UInt8) :=
  if x.escape then
    (x.add size (if c = SLIP_ESC_END then SLIP_END
      else if c = SLIP_ESC_ESC then SLIP_ESC else c), none)
  else if c = SLIP_END then
    if x.pending = [] then (x, none) else ({ calls := x.calls }, some x.pending)
  else if c = SLIP_ESC then ({ x with escape := true }, none)
  else (x.add size c, none)

/-- Some octets are read, and there are these packets. -/
def feed (x : Line) : List UInt8 → Line × List (List UInt8)
  | [] => (x, [])
  | c :: rest => ((x.read size c).1.feed rest).map id ((x.read size c).2.toList ++ ·)

/-- What is kept of some octets of a packet, with the room and the number of calls after them. -/
def keep : (room calls : ℕ) → List UInt8 → List UInt8 × ℕ × ℕ
  | room, calls, [] => ([], room, calls)
  | room + 1, calls, c :: l => (keep room calls l).map (c :: ·) id
  | 0, calls, c :: l =>
    if size calls = 0 then keep 0 (calls + 1) l
    else (keep (size calls - 1) (calls + 1) l).map (c :: ·) id

variable {size} {x : Line}

/-- The octets may come in two parts. -/
theorem feed_append (a b : List UInt8) :
    x.feed size (a ++ b) = ((x.feed size a).1.feed size b).map id ((x.feed size a).2 ++ ·) := by
  induction a generalizing x with
  | nil => rfl
  | cons c a ih =>
    rw [List.cons_append, feed, feed, ih]
    simp only [Prod.map, id, List.append_assoc]

/-- An octet of a packet. -/
theorem feed_sendOctet (he : x.escape = false) (c : UInt8) :
    x.feed size (sendOctet c) = (x.add size c, []) := by
  unfold sendOctet
  split
  · next h =>
    subst h
    simp [feed, read, he, add, Decoder.add, SLIP_END, SLIP_ESC, SLIP_ESC_END]
  · next hend =>
    split
    · next h =>
      subst h
      simp [feed, read, he, add, Decoder.add, SLIP_END, SLIP_ESC, SLIP_ESC_END, SLIP_ESC_ESC]
    · next hesc => simp [feed, read, he, hend, hesc]

/-- The octets of a packet that is not too long. -/
theorem feed_octets (pending : List UInt8) (room calls : ℕ) (octets : List UInt8)
    (h : pending.length + octets.length ≤ SLIP_MAX_SIZE + 1) :
    feed size { pending, room, calls } (octets.flatMap sendOctet) =
      ({ pending := pending ++ (keep size room calls octets).1,
         room := (keep size room calls octets).2.1,
         calls := (keep size room calls octets).2.2 }, []) := by
  induction octets generalizing pending room calls with
  | nil =>
    rw [List.flatMap_nil, feed, keep, List.append_nil]
  | cons c octets ih =>
    rw [List.length_cons] at h
    have hle : pending.length ≤ SLIP_MAX_SIZE := by omega
    have hdec : Decoder.add { pending } c = { pending := pending ++ [c] } := by
      rw [Decoder.add, if_pos hle]
    have hlen : (pending ++ [c]).length + octets.length ≤ SLIP_MAX_SIZE + 1 := by
      rw [List.length_append, List.length_singleton]
      omega
    rw [List.flatMap_cons, feed_append, feed_sendOctet rfl]
    -- The receiver asks for memory only when there is no room left.
    cases room with
    | zero =>
      by_cases hsize : size calls = 0
      · have hadd : add size { pending, calls } c = { pending, calls := calls + 1 } := by
          rw [add, if_pos rfl, if_pos hsize]
        rw [hadd, ih pending 0 (calls + 1) (by omega), keep, if_pos hsize]
        rfl
      · have hadd : add size { pending, calls } c =
            { pending := pending ++ [c], room := size calls - 1, calls := calls + 1 } := by
          rw [add, if_pos rfl, if_neg hsize]
          dsimp only
          rw [hdec, if_pos hle]
        rw [hadd, ih (pending ++ [c]) (size calls - 1) (calls + 1) hlen, keep, if_neg hsize]
        simp only [Prod.map, id, List.append_assoc, List.singleton_append, List.nil_append]
    | succ room =>
      have hadd : add size { pending, room := room + 1, calls } c =
          { pending := pending ++ [c], room, calls } := by
        rw [add, if_neg (Nat.succ_ne_zero room)]
        dsimp only
        rw [hdec, if_pos hle]
        rfl
      rw [hadd, ih (pending ++ [c]) room calls hlen, keep]
      simp only [Prod.map, id, List.append_assoc, List.singleton_append, List.nil_append]

/-- Not more octets are kept than there are. -/
theorem keep_length_le (room calls : ℕ) (l : List UInt8) :
    (keep size room calls l).1.length ≤ l.length := by
  induction l generalizing room calls with
  | nil => exact Nat.le_refl _
  | cons c l ih =>
    cases room with
    | zero =>
      rw [keep]
      split
      · exact Nat.le_succ_of_le (ih 0 (calls + 1))
      · exact Nat.succ_le_succ (ih _ _)
    | succ room => exact Nat.succ_le_succ (ih room calls)

/-- When every call fails, all octets are lost. -/
theorem keep_lost {calls : ℕ} {l : List UInt8} (h : ∀ j < l.length, size (calls + j) = 0) :
    keep size 0 calls l = ([], 0, calls + l.length) := by
  induction l generalizing calls with
  | nil => rfl
  | cons c l ih =>
    have hshift : calls + 1 + l.length = calls + (l.length + 1) := by omega
    have hfirst : size calls = 0 := h 0 (Nat.succ_pos _)
    rw [keep, if_pos hfirst, ih fun j hj => ?_, hshift]
    · rfl
    · rw [Nat.add_assoc, Nat.add_comm 1 j]
      exact h (j + 1) (Nat.succ_lt_succ hj)

/-- When all octets are lost, every call failed. -/
theorem keep_eq_nil {calls : ℕ} {l : List UInt8} (h : (keep size 0 calls l).1 = []) :
    ∀ j < l.length, size (calls + j) = 0 := by
  induction l generalizing calls with
  | nil => exact fun j hj => by cases hj
  | cons c l ih =>
    rw [keep] at h
    split at h
    · next hfirst =>
      intro j hj
      cases j with
      | zero => exact hfirst
      | succ j =>
        rw [← Nat.add_assoc, Nat.add_right_comm]
        exact ih h j (Nat.lt_of_succ_lt_succ hj)
    · cases h

/-- The number of pbufs of `bufsize` octets that `n` octets need, when there is room for some. -/
def pbufsFor (bufsize room n : ℕ) : ℕ := (n - room + (bufsize - 1)) / bufsize

section

variable {bufsize : ℕ} (hpos : 0 < bufsize)

include hpos

/-- No octets need no pbufs. -/
theorem pbufsFor_zero (room : ℕ) : pbufsFor bufsize room 0 = 0 := by
  rw [pbufsFor, Nat.zero_sub, Nat.zero_add]
  exact Nat.div_eq_of_lt (by omega)

/-- The first octet takes a new pbuf. -/
theorem pbufsFor_succ (n : ℕ) : pbufsFor bufsize 0 (n + 1) = pbufsFor bufsize
    (bufsize - 1) n + 1 := by
  have hfirst : n + 1 - 0 + (bufsize - 1) = n + bufsize := by omega
  have hrest : (n - (bufsize - 1) + (bufsize - 1)) / bufsize = n / bufsize := by
    by_cases hn : bufsize - 1 ≤ n
    · rw [Nat.sub_add_cancel hn]
    · rw [Nat.div_eq_of_lt (by omega), Nat.div_eq_of_lt (by omega)]
  rw [pbufsFor, hfirst, Nat.add_div_right n hpos, pbufsFor, hrest]

omit hpos in
/-- There is room for the first octet. -/
theorem pbufsFor_room (room n : ℕ) :
    pbufsFor bufsize (room + 1) (n + 1) = pbufsFor bufsize room n := by
  rw [pbufsFor, Nat.add_sub_add_right, pbufsFor]

variable (hsize : ∀ k, size k = 0 ∨ size k = bufsize)

include hsize

/-- When the calls that are needed succeed, all octets are kept. -/
theorem keep_all {room calls : ℕ} {l : List UInt8}
    (h : ∀ j < pbufsFor bufsize room l.length, size (calls + j) ≠ 0) :
    (keep size room calls l).1 = l ∧
      (keep size room calls l).2.2 = calls + pbufsFor bufsize room l.length := by
  induction l generalizing room calls with
  | nil => exact ⟨rfl, by rw [List.length_nil, pbufsFor_zero hpos]; rfl⟩
  | cons c l ih =>
    rw [List.length_cons] at h ⊢
    cases room with
    | zero =>
      rw [pbufsFor_succ hpos] at h ⊢
      have hfirst : size calls ≠ 0 := h 0 (Nat.succ_pos _)
      rw [keep, if_neg hfirst, (hsize calls).resolve_left hfirst]
      have hrest : ∀ j < pbufsFor bufsize (bufsize - 1) l.length, size (calls + 1 + j) ≠ 0 := by
        intro j hj
        rw [Nat.add_assoc, Nat.add_comm 1 j]
        exact h (j + 1) (Nat.succ_lt_succ hj)
      obtain ⟨hkeep, hcalls⟩ := ih hrest
      refine ⟨congrArg (c :: ·) hkeep, hcalls.trans ?_⟩
      omega
    | succ room =>
      rw [pbufsFor_room] at h ⊢
      obtain ⟨hkeep, hcalls⟩ := ih h
      exact ⟨congrArg (c :: ·) hkeep, hcalls⟩

/-- When all octets are kept, the calls that are needed succeeded. -/
theorem keep_eq_self {room calls : ℕ} {l : List UInt8} (h : (keep size room calls l).1 = l) :
    ∀ j < pbufsFor bufsize room l.length, size (calls + j) ≠ 0 := by
  induction l generalizing room calls with
  | nil =>
    rw [List.length_nil, pbufsFor_zero hpos]
    exact fun j hj => by cases hj
  | cons c l ih =>
    rw [List.length_cons]
    cases room with
    | zero =>
      rw [pbufsFor_succ hpos]
      rw [keep] at h
      split at h
      · -- The first octet was lost.
        have hle : (keep size 0 (calls + 1) l).1.length ≤ l.length := keep_length_le 0 (calls + 1) l
        rw [h, List.length_cons] at hle
        omega
      · next hfirst =>
        rw [(hsize calls).resolve_left hfirst] at h
        intro j hj
        cases j with
        | zero => exact hfirst
        | succ j =>
          rw [← Nat.add_assoc, Nat.add_right_comm]
          exact ih (List.cons_injective h) j (Nat.lt_of_succ_lt_succ hj)
    | succ room =>
      rw [pbufsFor_room]
      exact ih (List.cons_injective h)

end

/-- What `slipif_output` sends for a packet. What was kept of it is the packet that is returned. -/
theorem feed_slipifOutput (size : ℕ → ℕ) (calls : ℕ) {p : List (List UInt8)}
    (hle : p.flatten.length ≤ SLIP_MAX_SIZE) :
    feed size { calls } (slipifOutput p) =
      ({ calls := (keep size 0 calls p.flatten).2.2 },
        if (keep size 0 calls p.flatten).1 = [] then []
          else [(keep size 0 calls p.flatten).1]) := by
  have hstart : read size { calls } SLIP_END = ({ calls }, none) := rfl
  rw [slipifOutput, Decoder.flatMap_sendOctet, List.cons_append, feed, hstart, feed_append,
    feed_octets [] 0 calls _ (by simpa using Nat.le_succ_of_le hle), List.nil_append]
  by_cases hkept : (keep size 0 calls p.flatten).1 = []
  · have hlost := keep_lost (keep_eq_nil hkept)
    rw [if_pos hkept, hlost]
    rfl
  · generalize keep size 0 calls p.flatten = kept at hkept
    have hend : read size { pending := kept.1, room := kept.2.1, calls := kept.2.2 } SLIP_END =
        ({ calls := kept.2.2 }, some kept.1) := by
      simp [read, hkept]
    rw [if_neg hkept, feed, hend]
    rfl

end Line

/-! ## The chain that is filled -/

/-- The chain holds the octets of the line, and has its room. -/
structure Holds (priv : Priv) (calls : ℕ) (x : Line) : Prop where
  holds : Slip.Holds priv x.toDecoder
  room : priv.q.flatten.length = priv.recved + x.room
  calls : calls = x.calls

/-- The receiver holds nothing at first. -/
theorem Holds.init : Holds {} 0 {} := ⟨.init, rfl, rfl⟩

/-- A store does not change the length of a chain. -/
theorem length_flatten_modify_set (q : List (List UInt8)) (p i : ℕ) (c : UInt8) :
    (q.modify p (·.set i c)).flatten.length = q.flatten.length := by
  induction q generalizing p with
  | nil => cases p <;> rfl
  | cons b q ih =>
    cases p with
    | zero => simp
    | succ p => simpa using ih p

/-- The octet is written into the current pbuf. -/
def putByte (c : UInt8) (priv : Priv) : Priv :=
  match priv.p with
  | none => priv
  | some p =>
    if priv.recved ≤ SLIP_MAX_SIZE then
      let priv := { priv with
        q := priv.q.modify p (·.set priv.i c), recved := priv.recved + 1, i := priv.i + 1 }
      if (priv.q[p]?.getD []).length ≤ priv.i then
        { priv with i := 0, p := if priv.q[p + 1]?.getD [] ≠ [] then some (p + 1) else none }
      else priv
    else priv

/-- Writing an octet leaves the lengths of the pbufs as they are. -/
theorem length_putByte (c : UInt8) (priv : Priv) :
    (putByte c priv).q.flatten.length = priv.q.flatten.length := by
  unfold putByte
  split
  · rfl
  · dsimp only
    split
    · split <;> exact length_flatten_modify_set _ _ _ _
    · rfl

/-- The chain grows by what `pbuf_alloc` returns. -/
theorem length_byteReceived {alloc : Priv → List (List UInt8)} {priv priv' : Priv} {c : UInt8}
    (h : byteReceived alloc priv c = some priv') : priv'.q.flatten.length =
      priv.q.flatten.length + if priv.p = none then (alloc priv).flatten.length else 0 := by
  unfold byteReceived at h
  cases hp : priv.p with
  | some p =>
    rw [hp] at h
    obtain rfl := Option.some.inj h
    rw [if_neg (by simp)]
    exact length_putByte c priv
  | none =>
    rw [hp] at h
    rw [if_pos rfl]
    cases hal : alloc priv with
    | nil =>
      rw [hal] at h
      cases h
    | cons b next =>
      rw [hal] at h
      obtain rfl := Option.some.inj h
      refine (length_putByte c
        { priv with q := priv.q ++ b :: next, p := some priv.q.length }).trans ?_
      rw [List.flatten_append, List.length_append]

/-- A current pbuf has room. -/
theorem Holds.p_eq_none {priv : Priv} {calls : ℕ} {x : Line} (h : Holds priv calls x) :
    priv.p = none ↔ x.room = 0 := by
  constructor
  · intro hp
    have hfull := (h.holds.full hp).1
    have hroom := h.room
    omega
  · intro hroom
    by_contra hp
    obtain ⟨p, hp⟩ := Option.ne_none_iff_exists'.mp hp
    obtain ⟨pre, b, post, ha⟩ := h.holds.place p hp
    have hlen := h.room
    have hi := ha.i
    rw [ha.q, List.flatten_append, List.flatten_cons, List.length_append, List.length_append,
      ha.recved] at hlen
    omega

variable {alloc : ℕ → List (List UInt8)}

/-- The octets that the calls of `pbuf_alloc` give. -/
def sizeOf (alloc : ℕ → List (List UInt8)) (k : ℕ) : ℕ := (alloc k).flatten.length

/-- A call gives no octets if it fails. -/
theorem sizeOf_eq_zero (halloc : ∀ k, ∀ b ∈ alloc k, b ≠ []) {k : ℕ} :
    sizeOf alloc k = 0 ↔ alloc k = [] := by
  rw [sizeOf, List.length_eq_zero_iff, List.flatten_eq_nil_iff]
  constructor
  · intro hnil
    by_contra hne
    obtain ⟨b, hb⟩ := List.exists_mem_of_ne_nil _ hne
    exact halloc k b hb (hnil b hb)
  · intro hnil b hb
    rw [hnil] at hb
    cases hb

/-- An octet that is kept is behind the others, if they are not too many. -/
theorem length_add (d : Decoder) (c : UInt8) : (d.add c).pending.length =
    d.pending.length + if d.pending.length ≤ SLIP_MAX_SIZE then 1 else 0 := by
  unfold Decoder.add
  dsimp only
  split
  · rw [List.length_append, List.length_singleton]
  · rfl

/-- One octet of a packet is received, or lost when the call of `pbuf_alloc` fails. -/
theorem byteReceived_holds (halloc : ∀ k, ∀ b ∈ alloc k, b ≠ []) {priv : Priv} {calls : ℕ}
    {x : Line} (h : Holds priv calls x) (hesc : x.escape = false) (c : UInt8) :
    Holds ((byteReceived (fun _ => alloc calls) priv c).getD priv)
      (if priv.p = none then calls + 1 else calls) (x.add (sizeOf alloc) c) := by
  have hrecved := h.holds.recved
  have hlen := h.room
  have hadd := length_add x.toDecoder c
  cases hp : priv.p with
  | some p =>
    -- There is room, and `pbuf_alloc` is not called.
    have hroom : x.room ≠ 0 := fun hroom => by
      rw [h.p_eq_none.mpr hroom] at hp
      cases hp
    have hsame : byteReceived (fun _ => alloc calls) priv c =
        byteReceived (fun _ => [[0]]) priv c := by
      unfold byteReceived
      rw [hp]
    obtain ⟨priv', hbyte, hholds⟩ : ∃ priv', byteReceived (fun _ => [[0]]) priv c = some priv' ∧
        Slip.Holds priv' (x.toDecoder.add c) :=
      Slip.byteReceived_holds (fun _ => ⟨by decide, by decide⟩) h.holds hesc c
    have hlen' := length_byteReceived hbyte
    have hrecved' := hholds.recved
    rw [hp, if_neg (by simp)] at hlen'
    rw [hsame, hbyte, Option.getD_some, if_neg (by simp), Line.add, if_neg hroom]
    refine ⟨hholds, ?_, h.calls⟩
    dsimp only
    split at hadd <;> split <;> omega
  | none =>
    have hroom : x.room = 0 := h.p_eq_none.mp hp
    rw [if_pos rfl, Line.add, if_pos hroom, ← h.calls]
    by_cases hal : alloc calls = []
    · have hnone : byteReceived (fun _ => alloc calls) priv c = none := by
        unfold byteReceived
        rw [hp, hal]
        rfl
      rw [hnone, Option.getD_none, if_pos ((sizeOf_eq_zero halloc).mpr hal)]
      refine ⟨?_, hlen, rfl⟩
      rw [← hesc]
      exact h.holds
    · have hsize : sizeOf alloc calls ≠ 0 := fun hzero => hal ((sizeOf_eq_zero halloc).mp hzero)
      obtain ⟨priv', hbyte, hholds⟩ : ∃ priv', byteReceived (fun _ => alloc calls) priv c =
          some priv' ∧ Slip.Holds priv' (x.toDecoder.add c) :=
        Slip.byteReceived_holds (fun _ => ⟨hal, halloc calls⟩) h.holds hesc c
      have hlen' := length_byteReceived hbyte
      have hrecved' := hholds.recved
      rw [if_pos hp] at hlen'
      change priv'.q.flatten.length = priv.q.flatten.length + sizeOf alloc calls at hlen'
      rw [hbyte, Option.getD_some, if_neg hsize]
      refine ⟨hholds, ?_, rfl⟩
      dsimp only
      split at hadd <;> split <;> omega

/-- A call reads some of the octets, up to the first packet, to the first octet that is lost, or to
the end. -/
theorem slipifInput_feed (halloc : ∀ k, ∀ b ∈ alloc k, b ≠ []) {priv : Priv} {calls : ℕ} {x : Line}
    (h : Holds priv calls x) (octets : List UInt8) :
    ∃ t calls' priv' rest consumed, slipifInput alloc calls priv octets = (t, calls', priv', rest) ∧
      octets = consumed ++ rest ∧ Holds priv' calls' (x.feed (sizeOf alloc) consumed).1 ∧
      t.toList.map List.flatten = (x.feed (sizeOf alloc) consumed).2 ∧
      (consumed = [] → rest = []) := by
  induction octets generalizing priv calls x with
  | nil => exact ⟨none, calls, priv, [], [], rfl, rfl, h, rfl, fun _ => rfl⟩
  | cons c octets ih =>
    -- The octet does not complete a packet, and the call goes on.
    have hgo : ∀ {calls' : ℕ} {priv' : Priv},
        slipifInput alloc calls priv (c :: octets) = slipifInput alloc calls' priv' octets →
        Holds priv' calls' (x.read (sizeOf alloc) c).1 → (x.read (sizeOf alloc) c).2 = none →
        ∃ t calls' priv' rest consumed,
          slipifInput alloc calls priv (c :: octets) = (t, calls', priv', rest) ∧
          c :: octets = consumed ++ rest ∧ Holds priv' calls' (x.feed (sizeOf alloc) consumed).1 ∧
          t.toList.map List.flatten = (x.feed (sizeOf alloc) consumed).2 ∧
          (consumed = [] → rest = []) := by
      intro calls' priv' heq h' hnone
      obtain ⟨t, calls'', priv'', rest, consumed, hcall, hsplit, hholds, ht, -⟩ := ih h'
      refine ⟨t, calls'', priv'', rest, c :: consumed, heq.trans hcall, by rw [hsplit]; rfl, hholds,
        ?_, fun hnil => (by cases hnil)⟩
      rw [ht, Line.feed, hnone]
      rfl
    -- The octet is received for the packet, or lost, and then the call ends.
    have hbyte : ∀ {priv' : Priv} {x' : Line} {c' : UInt8}, Holds priv' calls x' →
      x'.escape = false →
        x.read (sizeOf alloc) c = (x'.add (sizeOf alloc) c', none) →
        slipifInput alloc calls priv (c :: octets) =
          (match byteReceived (fun _ => alloc calls) priv' c' with
            | none => (none, if priv'.p = none then calls + 1 else calls, priv', octets)
            | some priv => slipifInput alloc (if priv'.p = none then calls + 1
              else calls) priv octets) →
        ∃ t calls' priv' rest consumed,
          slipifInput alloc calls priv (c :: octets) = (t, calls', priv', rest) ∧
          c :: octets = consumed ++ rest ∧ Holds priv' calls' (x.feed (sizeOf alloc) consumed).1 ∧
          t.toList.map List.flatten = (x.feed (sizeOf alloc) consumed).2 ∧
          (consumed = [] → rest = []) := by
      intro priv' x' c' h' hesc hread hcall
      have hholds := byteReceived_holds halloc h' hesc c'
      cases hres : byteReceived (fun _ => alloc calls) priv' c' with
      | none =>
        rw [hres] at hcall hholds
        refine ⟨none, _, priv', octets, [c], hcall, rfl, ?_, ?_, fun hnil => (by cases hnil)⟩
        · rw [Line.feed, hread]
          exact hholds
        · rw [Line.feed, hread]
          rfl
      | some priv'' =>
        rw [hres] at hcall hholds
        exact hgo hcall (by rwa [hread]) (by rw [hread])
    cases hstate : priv.state with
    | SLIP_RECV_NORMAL =>
      have hesc : x.escape = false := by
        rw [← Bool.not_eq_true, ← h.holds.escape, hstate]
        decide
      by_cases hend : c = SLIP_END
      · by_cases hrecved : 0 < priv.recved
        · -- Received whole packet.
          have hpending : x.pending ≠ [] := by
            rw [h.holds.recved] at hrecved
            exact List.length_pos_iff.mp hrecved
          have hread : x.read (sizeOf alloc) c = ({ calls := x.calls }, some x.pending) := by
            simp [Line.read, hesc, hend, hpending]
          refine ⟨some (pbufRealloc priv.q priv.recved), calls, {}, octets, [c], ?_, rfl, ?_, ?_,
            fun hnil => (by cases hnil)⟩
          · rw [slipifInput, hstate]
            dsimp only
            rw [if_pos hend, if_pos hrecved]
          · rw [Line.feed, hread]
            exact ⟨.init, rfl, h.calls⟩
          · rw [Line.feed, hread, ← h.holds.octets, ← flatten_pbufRealloc]
            rfl
        -- Two marks with nothing between them are no packet.
        · have hpending : x.pending = [] := by
            have hlen := h.holds.recved
            exact List.length_eq_zero_iff.mp (by omega)
          have hread : x.read (sizeOf alloc) c = (x, none) := by
            simp [Line.read, hesc, hend, hpending]
          refine hgo ?_ (by rwa [hread]) (by rw [hread])
          rw [slipifInput, hstate]
          dsimp only
          rw [if_pos hend, if_neg hrecved]
      · by_cases hescape : c = SLIP_ESC
        · have hread : x.read (sizeOf alloc) c = ({ x with escape := true }, none) := by
            have hne : ¬SLIP_ESC = SLIP_END := by decide
            simp [Line.read, hesc, hescape, hne]
          have hcall : slipifInput alloc calls priv (c :: octets) =
              slipifInput alloc calls { priv with state := .SLIP_RECV_ESCAPE } octets := by
            rw [slipifInput, hstate]
            dsimp only
            rw [if_neg hend, if_pos hescape]
          refine hgo hcall ?_ (by rw [hread])
          rw [hread]
          exact ⟨h.holds.escaped, h.room, h.calls⟩
        · have hread : x.read (sizeOf alloc) c = (x.add (sizeOf alloc) c, none) := by
            simp [Line.read, hesc, hend, hescape]
          refine hbyte h hesc hread ?_
          rw [slipifInput, hstate]
          dsimp only
          rw [if_neg hend, if_neg hescape]
    | SLIP_RECV_ESCAPE =>
      have hesc : x.escape = true := h.holds.escape.mp hstate
      have hnormal : Holds { priv with state := .SLIP_RECV_NORMAL } calls
          { x with escape := false } :=
        ⟨h.holds.unescaped, h.room, h.calls⟩
      have hread : x.read (sizeOf alloc) c = (Line.add (sizeOf alloc) { x with escape := false }
          (if c = SLIP_ESC_END then SLIP_END else if c = SLIP_ESC_ESC then SLIP_ESC
          else c), none) := by
        rw [Line.read, if_pos hesc]
        rfl
      refine hbyte hnormal rfl hread ?_
      rw [slipifInput, hstate]

/-! ## Runs -/

/-- The receiver is where the line is after the octets `consumed`. -/
structure Reached (alloc : ℕ → List (List UInt8)) (consumed : List UInt8) (s : State) : Prop where
  holds : Holds s.priv s.calls (Line.feed (sizeOf alloc) {} consumed).1
  got : s.got.map List.flatten = (Line.feed (sizeOf alloc) {} consumed).2

section Run

variable (halloc : ∀ k, ∀ b ∈ alloc k, b ≠ [])

include halloc

/-- A call reads some of the octets that have arrived, if there are any. -/
theorem step_input {s : State} {consumed : List UInt8} (h : Reached alloc consumed s) :
    ∃ more, s.unread = more ++ (step alloc s .input).unread ∧
      Reached alloc (consumed ++ more) (step alloc s .input) ∧
      (step alloc s .input).unread.length ≤ s.unread.length - 1 := by
  obtain ⟨t, calls', priv', rest, more, hcall, hsplit, hholds, ht, hmore⟩ :=
    slipifInput_feed halloc h.holds s.unread
  have hstep : step alloc s .input =
      { priv := priv', unread := rest, got := s.got ++ t.toList, calls := calls' } := by
    rw [step, hcall]
  rw [hstep]
  refine ⟨more, hsplit, ⟨?_, ?_⟩, ?_⟩
  · rw [Line.feed_append]
    exact hholds
  · rw [Line.feed_append, List.map_append, h.got, ht]
    rfl
  · dsimp only
    rw [hsplit, List.length_append]
    cases more with
    | nil =>
      rw [hmore rfl]
      exact Nat.zero_le _
    | cons c more => rw [List.length_cons]; omega

/-- In every run the receiver is where the line is after what has been read. -/
theorem run_reached (es : List Event) : ∃ consumed,
    arrivals es = consumed ++ (after alloc es).unread ∧
    Reached alloc consumed (after alloc es) := by
  induction es using List.reverseRecOn with
  | nil => exact ⟨[], rfl, Holds.init, rfl⟩
  | append_singleton es e ih =>
    obtain ⟨consumed, hsplit, h⟩ := ih
    have harrivals : arrivals (es ++ [e]) = arrivals es ++ arrivals [e] := List.flatMap_append
    have hafter : after alloc (es ++ [e]) = step alloc (after alloc es) e := by
      rw [after, List.foldl_append, List.foldl_cons, List.foldl_nil, after]
    rw [hafter, harrivals, hsplit]
    cases e with
    | arrive octets =>
      refine ⟨consumed, ?_, h.holds, h.got⟩
      rw [List.append_assoc]
      simp [arrivals, step]
    | input =>
      obtain ⟨more, hunread, h', -⟩ := step_input halloc h
      refine ⟨consumed ++ more, ?_, h'⟩
      rw [List.append_assoc consumed more, ← hunread]
      simp [arrivals]

/-- When all that arrived has been read, the line has read it. -/
theorem reached_of_unread {es : List Event} {octets : List UInt8} (hes : arrivals es = octets)
    (hall : (after alloc es).unread = []) : Reached alloc octets (after alloc es) := by
  obtain ⟨consumed, hsplit, h⟩ := run_reached halloc es
  rw [hes, hall, List.append_nil] at hsplit
  rwa [hsplit]

/-- Enough calls read all that has arrived. -/
theorem replicate_input (n : ℕ) {s : State} {consumed : List UInt8} (h : Reached alloc consumed s)
    (hn : s.unread.length ≤ n) :
    ((List.replicate n Event.input).foldl (step alloc) s).unread = [] := by
  induction n generalizing s consumed with
  | zero => exact List.length_eq_zero_iff.mp (Nat.le_zero.mp hn)
  | succ n ih =>
    obtain ⟨more, -, h', hlen⟩ := step_input halloc h
    exact ih h' (by omega)

/-- Some octets can arrive and be read. -/
theorem exists_read (es : List Event) (octets : List UInt8) :
    ∃ es', arrivals es' = octets ∧ (after alloc (es ++ es')).unread = [] := by
  obtain ⟨consumed, -, h⟩ := run_reached halloc (es ++ [.arrive octets])
  refine ⟨.arrive octets :: List.replicate (after alloc (es ++ [.arrive octets])).unread.length
    .input, ?_, ?_⟩
  · simp [arrivals, List.flatMap_replicate]
  · have hsplit : ∀ l, es ++ .arrive octets :: l = (es ++ [.arrive octets]) ++ l := by simp
    rw [hsplit, after, List.foldl_append]
    exact replicate_input halloc _ h (Nat.le_refl _)

end Run

/-! ## Packets -/

/-- When each of the packets is returned, or none of its octets is, the condition on the calls of
`pbuf_alloc` from the call `calls` on: a packet of `n` octets gets all pbufs that it needs, or each
of its octets calls `pbuf_alloc` in vain. -/
def Spared (alloc : ℕ → List (List UInt8)) (bufsize : ℕ) : ℕ → List ℕ → Prop
  | _, [] => True
  | calls, n :: ns =>
    ((∀ j < Line.pbufsFor bufsize 0 n, alloc (calls + j) ≠ []) ∧
      Spared alloc bufsize (calls + Line.pbufsFor bufsize 0 n) ns) ∨
    ((∀ j < n, alloc (calls + j) = []) ∧ Spared alloc bufsize (calls + n) ns)

/-- Each packet is returned as a whole, or nothing is returned for it: when it is sent to a receiver
that has read all the packets before, and has been read, it is the only new packet, or there is
none. -/
def DeliversWhole (alloc : ℕ → List (List UInt8)) (ps : List (List (List UInt8))) : Prop :=
  ∀ before p behind, ps = before ++ p :: behind → ∀ es es',
    arrivals es = before.flatMap slipifOutput → (after alloc es).unread = [] →
    arrivals es' = slipifOutput p → (after alloc (es ++ es')).unread = [] →
    got alloc (es ++ es') = got alloc es ∨ got alloc (es ++ es') = got alloc es ++ [p.flatten]

section Packets

/-- A call gives as many octets as the pool says, or none. -/
theorem sizeOf_cases {bufsize : ℕ} (halloc : ∀ k, ∀ b ∈ alloc k, b ≠ [])
    (hsize : ∀ k, alloc k = [] ∨ (alloc k).flatten.length = bufsize) (k : ℕ) :
    sizeOf alloc k = 0 ∨ sizeOf alloc k = bufsize := (hsize k).imp_left (sizeOf_eq_zero halloc).mpr

variable {bufsize : ℕ} (hpos : 0 < bufsize) (halloc : ∀ k, ∀ b ∈ alloc k, b ≠ [])
  (hsize : ∀ k, alloc k = [] ∨ (alloc k).flatten.length = bufsize)

include hpos halloc hsize

/-- A packet that is spared is returned, or it is lost. -/
theorem Spared.packet {calls : ℕ} {p : List (List UInt8)} {ns : List ℕ}
    (h : Spared alloc bufsize calls (p.flatten.length :: ns))
    (hp : 1 ≤ p.flatten.length ∧ p.flatten.length ≤ SLIP_MAX_SIZE) :
    ∃ calls' ds, Line.feed (sizeOf alloc) { calls } (slipifOutput p) = ({ calls := calls' }, ds) ∧
      Spared alloc bufsize calls' ns ∧ (ds = [] ∨ ds = [p.flatten]) := by
  have hne : p.flatten ≠ [] := List.length_pos_iff.mp hp.1
  have hfeed := Line.feed_slipifOutput (sizeOf alloc) calls hp.2
  obtain ⟨hall, hrest⟩ | ⟨hnone, hrest⟩ := h
  · obtain ⟨hkept, hcalls⟩ := Line.keep_all hpos (sizeOf_cases halloc hsize) fun j hj hzero =>
      hall j hj ((sizeOf_eq_zero halloc).mp hzero)
    rw [hkept, hcalls, if_neg hne] at hfeed
    exact ⟨_, _, hfeed, hrest, .inr rfl⟩
  · have hkept := Line.keep_lost fun j hj => (sizeOf_eq_zero halloc).mpr (hnone j hj)
    rw [hkept, if_pos rfl] at hfeed
    exact ⟨_, _, hfeed, hrest, .inl rfl⟩

/-- A packet that is returned, or is lost, is spared if the packets behind it are. -/
theorem Spared.of_packet {calls calls' : ℕ} {p : List (List UInt8)} {ns : List ℕ}
    {ds : List (List UInt8)} (hp : 1 ≤ p.flatten.length ∧ p.flatten.length ≤ SLIP_MAX_SIZE)
    (hfeed : Line.feed (sizeOf alloc) { calls } (slipifOutput p) = ({ calls := calls' }, ds))
    (hds : ds = [] ∨ ds = [p.flatten]) (hrest : Spared alloc bufsize calls' ns) :
    Spared alloc bufsize calls (p.flatten.length :: ns) := by
  have hne : p.flatten ≠ [] := List.length_pos_iff.mp hp.1
  rw [Line.feed_slipifOutput _ calls hp.2] at hfeed
  obtain ⟨hline, hout⟩ := Prod.mk.inj hfeed
  have hcalls : (Line.keep (sizeOf alloc) 0 calls p.flatten).2.2 = calls' :=
    congrArg Line.calls hline
  by_cases hkept : (Line.keep (sizeOf alloc) 0 calls p.flatten).1 = []
  · have hnone := Line.keep_eq_nil hkept
    rw [Line.keep_lost hnone] at hcalls
    refine .inr ⟨fun j hj => (sizeOf_eq_zero halloc).mp (hnone j hj), ?_⟩
    rwa [show calls + p.flatten.length = calls' from hcalls]
  · rw [if_neg hkept] at hout
    have hself : (Line.keep (sizeOf alloc) 0 calls p.flatten).1 = p.flatten := by
      rcases hds with rfl | rfl
      · cases hout
      · exact (List.cons.inj hout).1
    have hall := Line.keep_eq_self hpos (sizeOf_cases halloc hsize) hself
    have hneeded := (Line.keep_all hpos (sizeOf_cases halloc hsize) hall).2
    refine .inl ⟨fun j hj hnil => hall j hj ((sizeOf_eq_zero halloc).mpr hnil), ?_⟩
    rwa [← hneeded, hcalls]

/-- Packets that are spared are returned, or lost. -/
theorem Spared.packets {calls : ℕ} {ps : List (List (List UInt8))} {ns : List ℕ}
    (h : Spared alloc bufsize calls (ps.map (·.flatten.length) ++ ns))
    (hps : ∀ p ∈ ps, 1 ≤ p.flatten.length ∧ p.flatten.length ≤ SLIP_MAX_SIZE) :
    ∃ calls' ds, Line.feed (sizeOf alloc) { calls } (ps.flatMap slipifOutput) =
    ({ calls := calls' }, ds) ∧
      Spared alloc bufsize calls' ns ∧ ds.Sublist (ps.map List.flatten) := by
  induction ps generalizing calls with
  | nil => exact ⟨calls, [], rfl, h, .slnil⟩
  | cons p ps ih =>
    obtain ⟨calls₁, ds₁, hfeed₁, h₁, hds₁⟩ :=
      Spared.packet hpos halloc hsize h (hps p List.mem_cons_self)
    obtain ⟨calls₂, ds₂, hfeed₂, h₂, hsub⟩ := ih h₁ fun q hq => hps q (List.mem_cons_of_mem p hq)
    refine ⟨calls₂, ds₁ ++ ds₂, ?_, h₂, ?_⟩
    · rw [List.flatMap_cons, Line.feed_append, hfeed₁]
      dsimp only
      rw [hfeed₂]
      rfl
    · rcases hds₁ with rfl | rfl
      · exact hsub.cons _
      · exact hsub.cons_cons _

/-- When each packet is returned or lost, the packets are spared. -/
theorem spared_of_deliversWhole {ps : List (List (List UInt8))}
    (hps : ∀ p ∈ ps, 1 ≤ p.flatten.length ∧ p.flatten.length ≤ SLIP_MAX_SIZE)
    (h : DeliversWhole alloc ps) (before rest : List (List (List UInt8)))
    (hsplit : ps = before ++ rest) {calls : ℕ} {ds : List (List UInt8)}
    (hfeed : Line.feed (sizeOf alloc) {} (before.flatMap slipifOutput) = ({ calls }, ds)) :
    Spared alloc bufsize calls (rest.map (·.flatten.length)) := by
  induction rest generalizing before calls ds with
  | nil => trivial
  | cons p behind ih =>
    have hp := hps p (by rw [hsplit]; simp)
    -- The receiver reads all that is sent up to this packet, and then the packet.
    obtain ⟨es, hes, hread⟩ := exists_read halloc [] (before.flatMap slipifOutput)
    obtain ⟨es', hes', hread'⟩ := exists_read halloc es (slipifOutput p)
    have hreached := reached_of_unread halloc hes hread
    have harrivals : arrivals (es ++ es') = before.flatMap slipifOutput ++ slipifOutput p := by
      rw [arrivals, List.flatMap_append]
      exact congrArg₂ _ hes hes'
    have hreached' := reached_of_unread halloc harrivals hread'
    have hgot : got alloc es = ds := hreached.got.trans (by rw [hfeed])
    set y := Line.feed (sizeOf alloc) { calls } (slipifOutput p) with hy
    have hline := Line.feed_slipifOutput (sizeOf alloc) calls hp.2
    have hgot' : got alloc (es ++ es') = ds ++ y.2 := by
      refine hreached'.got.trans ?_
      rw [Line.feed_append, hfeed]
      rfl
    have hbefore : Line.feed (sizeOf alloc) {} ((before ++ [p]).flatMap slipifOutput) =
        (y.1, ds ++ y.2) := by
      rw [List.flatMap_append, List.flatMap_singleton, Line.feed_append, hfeed]
      rfl
    -- What it returns for the packet is what the line returns for it.
    have hout : y.2 = [] ∨ y.2 = [p.flatten] := by
      have hcase := h before p behind hsplit es es' hes hread hes' hread'
      rw [hgot, hgot'] at hcase
      exact hcase.imp List.append_right_eq_self.mp List.append_cancel_left
    have hy₁ : y.1 = { calls := y.1.calls } := by rw [hy, hline]
    rw [hy₁] at hbefore
    refine Spared.of_packet hpos halloc hsize hp ?_ hout
      (ih (before ++ [p]) (by rw [hsplit]; simp) hbefore)
    rw [← hy₁]

end Packets

/-- Under memory pressure the packets that come out are some of those sent, each as a whole, exactly
when no packet gets some of the pbufs that it needs and not the others. -/
theorem delivers_whole_iff (bufsize : ℕ) (hpos : 0 < bufsize) (alloc : ℕ → List (List UInt8))
    (halloc : ∀ k, ∀ b ∈ alloc k, b ≠ [])
    (hsize : ∀ k, alloc k = [] ∨ (alloc k).flatten.length = bufsize) (ps : List (List (List UInt8)))
    (hps : ∀ p ∈ ps, 1 ≤ p.flatten.length ∧ p.flatten.length ≤ SLIP_MAX_SIZE) :
    (DeliversWhole alloc ps ∧
        ∀ es, arrivals es = ps.flatMap slipifOutput →
        (got alloc es).Sublist (ps.map List.flatten)) ↔
      Spared alloc bufsize 0 (ps.map (·.flatten.length)) := by
  constructor
  · rintro ⟨h, -⟩
    exact spared_of_deliversWhole hpos halloc hsize hps h [] ps rfl rfl
  · intro h
    refine ⟨fun before p behind hsplit es es' hes hread hes' hread' => ?_, fun es hes => ?_⟩
    · rw [hsplit, List.map_append] at h
      obtain ⟨calls, ds, hfeed, hspared, -⟩ := Spared.packets hpos halloc hsize h fun q hq =>
        hps q (by rw [hsplit]; simp [hq])
      obtain ⟨calls', ds', hfeed', -, hds⟩ := Spared.packet hpos halloc hsize hspared
        (hps p (by rw [hsplit]; simp))
      have harrivals : arrivals (es ++ es') = before.flatMap slipifOutput ++ slipifOutput p := by
        rw [arrivals, List.flatMap_append]
        exact congrArg₂ _ hes hes'
      have hgot : got alloc es = ds :=
        (reached_of_unread halloc hes hread).got.trans (by rw [hfeed])
      have hgot' : got alloc (es ++ es') = ds ++ ds' := by
        refine (reached_of_unread halloc harrivals hread').got.trans ?_
        rw [Line.feed_append, hfeed]
        dsimp only
        rw [hfeed']
        rfl
      rw [hgot, hgot']
      exact hds.imp (fun hnil => by rw [hnil, List.append_nil]) fun hone => by rw [hone]
    · rw [← List.append_nil (ps.map (·.flatten.length))] at h
      obtain ⟨calls, ds, hfeed, -, hsub⟩ := Spared.packets hpos halloc hsize h hps
      obtain ⟨consumed, hsplit, hreached⟩ := run_reached halloc es
      -- What has been returned is the first part of all that is returned.
      have hprefix : got alloc es <+: ds := by
        rw [got, hreached.got]
        rw [← hes, hsplit, Line.feed_append] at hfeed
        exact ⟨_, congrArg Prod.snd hfeed⟩
      exact hprefix.sublist.trans hsub

/-- The first call of `pbuf_alloc` fails, and the others return a pbuf of this build. -/
def firstFails : ℕ → List (List UInt8)
  | 0 => []
  | _ + 1 => [List.replicate 576 0]

/-- The packets of the example, of which one is lost as a whole. -/
theorem delivers_whole_iff_firstFails : DeliversWhole firstFails [[[1]], [[2], [3]]] := by
  refine ((delivers_whole_iff 576 (by decide) firstFails ?_ ?_
    [[[1]], [[2], [3]]] (by decide)).mpr ?_).1
  · intro k b hb
    cases k with
    | zero => cases hb
    | succ k =>
      rw [List.mem_singleton.mp hb]
      exact List.cons_ne_nil _ _
  · intro k
    cases k with
    | zero => exact .inl rfl
    | succ k =>
      right
      rw [firstFails, List.flatten_singleton, List.length_replicate]
  · refine .inr ⟨fun j hj => ?_, .inl ⟨fun j hj => ?_, trivial⟩⟩
    · obtain rfl : j = 0 := Nat.lt_one_iff.mp hj
      rfl
    · have hcall : 0 + ([[1]] : List (List UInt8)).flatten.length + j = j + 1 := Nat.add_comm _ _
      rw [hcall]
      exact List.cons_ne_nil _ _

/-- A packet of two octets is sent. Without memory for the first one, a packet of the second one
comes out. -/
theorem slip_shortens_packet :
    arrivals [.arrive (slipifOutput [[1, 2]]), .input, .input] = slipifOutput [[1, 2]] ∧
    (after firstFails [.arrive (slipifOutput [[1, 2]]), .input, .input]).unread = [] ∧
    got firstFails [.arrive (slipifOutput [[1, 2]]), .input, .input] = [[2]] ∧
    ¬ ([[2]] : List (List UInt8)).Sublist [[1, 2]] := by
  decide +kernel

end Lwip.Slip.Pressure
