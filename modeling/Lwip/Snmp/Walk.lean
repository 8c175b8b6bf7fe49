import Lwip.Arch
import Mathlib.Tactic.Common

/-!
# Walks over a chain of pbufs

How `asn1_enc.c` and `asn1_dec.c` go through a message. A chain is the list of the payloads of its
pbufs. Every function looks for the pbuf with its offset (`seek`), and then writes or reads octet by
octet (`put`, `take`), moving on to the next octet in the same pbuf or in the next one (`step`). At
a position in a chain without empty pbufs, this is the same as to write and read the octets of the
chain in one piece (`Ptr.Valid`, `writeAll_spec`).
-/

namespace Lwip.Snmp

/-- Why a function stops: it returns `ERR_ARG`, or it leaves the payload of an empty pbuf. -/
inductive Stop where
  | ARG
  | outOfBounds
  deriving DecidableEq, Repr

/-- The local variables of a walk: `p` is cut out of its chain, and `msg_ptr` is an index into
`p`. -/
structure Ptr where
  before : List (List UInt8)
  p : List UInt8
  next : List (List UInt8)
  ofs : ℕ
  plen : ℕ
  msg_ptr : ℕ
  deriving DecidableEq, Repr

/-- The chain in which a walk is. -/
def Ptr.chain (x : Ptr) : List (List UInt8) := x.before ++ x.p :: x.next

/-- A part of a walk. The chain is also left as it is where the walk stops. -/
def Walk (α : Type) : Type := Ptr → Except Stop α × Ptr

instance : Monad Walk where
  pure a x := (.ok a, x)
  bind m f x :=
    match m x with
    | (.ok a, x) => f a x
    | (.error e, x) => (.error e, x)

/-- `return ERR_ARG`. -/
def stop {α : Type} (e : Stop) : Walk α := fun x => (.error e, x)

/-- `*msg_ptr = b`. -/
def put (b : UInt8) : Walk Unit := fun x =>
  if x.msg_ptr < x.p.length then (.ok (), { x with p := x.p.set x.msg_ptr b })
    else (.error .outOfBounds, x)

/-- `*msg_ptr`. -/
def take : Walk UInt8 := fun x =>
  match x.p[x.msg_ptr]? with
  | some b => (.ok b, x)
  | none => (.error .outOfBounds, x)

/-- The next octet, in the same pbuf or in the next one. -/
def step : Walk Unit := fun x =>
  let ofs := u16 (x.ofs + 1)
  if ofs ≥ x.plen then
    match x.next with
    | [] => (.error .ARG, { x with ofs })
    | p :: next =>
      (.ok (), ⟨x.before ++ [x.p], p, next, ofs, u16 (x.plen + p.length), 0⟩)
  else (.ok (), { x with ofs, msg_ptr := x.msg_ptr + 1 })

/-- The pbuf with the octet at `ofs`. -/
def seek (ofs : ℕ) : (before : List (List UInt8)) → (plen : ℕ) → List (List UInt8) → Option Ptr
  | _, _, [] => none
  | before, plen, p :: next =>
    let base := plen
    let plen := u16 (plen + p.length)
    if ofs < plen then some ⟨before, p, next, ofs, plen, u16sub ofs base⟩
    else seek ofs (before ++ [p]) plen next

/-- A function of the module: the result of a walk from `ofs`, and the chain after it. -/
def walk {α : Type} (m : Walk α) (p : List (List UInt8)) (ofs : ℕ) :
    Except Stop α × List (List UInt8) :=
  match seek ofs [] 0 p with
  | none => (.error .ARG, p)
  | some x =>
    let r := m x
    (r.1, r.2.chain)

/-- Octets are written one after the other. -/
def writeAll : List UInt8 → Walk Unit
  | [] => pure ()
  | [b] => put b
  | b :: b' :: bs => do
    put b
    step
    writeAll (b' :: bs)

/-! ## Sequences -/

section Monad

variable {α β γ : Type} {m : Walk α} {f : α → Walk β} {x x' : Ptr}

/-- A walk goes on from where its first part ends. -/
theorem bind_ok {a : α} (h : m x = (.ok a, x')) : (m >>= f) x = f a x' := by
  show (match m x with | (.ok a, x) => f a x | (.error e, x) => (.error e, x)) = _
  rw [h]

/-- A walk ends where its first part fails. -/
theorem bind_error {e : Stop} (h : m x = (.error e, x')) : (m >>= f) x = (.error e, x') := by
  show (match m x with | (.ok a, x) => f a x | (.error e, x) => (.error e, x)) = _
  rw [h]

/-- A sequence with a result has one of its first part. -/
theorem bind_fst_ok {b : β} (h : ((m >>= f) x).1 = .ok b) :
    ∃ a x', m x = (.ok a, x') ∧ (f a x').1 = .ok b := by
  cases hm : m x with
  | mk r x' =>
    cases r with
    | ok a =>
      rw [bind_ok hm] at h
      exact ⟨a, x', rfl, h⟩
    | error e =>
      rw [bind_error hm] at h
      cases h

/-- Walks in sequence may be grouped in another way. -/
theorem walk_bind_assoc (m : Walk α) (f : α → Walk β) (g : β → Walk γ) :
    m >>= f >>= g = m >>= fun a => f a >>= g := by
  funext x
  show (match (m >>= f) x with | (.ok b, x) => g b x | (.error e, x) => (.error e, x)) = _
  cases h : m x with
  | mk r x' =>
    cases r with
    | ok a =>
      have hr : (m >>= fun a => f a >>= g) x = (f a >>= g) x' := bind_ok h
      rw [bind_ok h, hr]
      rfl
    | error e => rw [bind_error h, bind_error h]

/-- To return nothing adds nothing. -/
theorem walk_bind_unit (m : Walk Unit) : (do m; pure ()) = m := by
  funext x
  cases h : m x with
  | mk r x' =>
    cases r with
    | ok a => exact bind_ok h
    | error e => exact bind_error h

end Monad

/-! ## Positions -/

section Position

variable {x : Ptr}

/-- A walk is at an octet of a chain without empty pbufs, and `ofs` and `plen` tell where. -/
structure Ptr.Valid (x : Ptr) : Prop where
  lt : x.msg_ptr < x.p.length
  ofs : x.ofs = x.before.flatten.length + x.msg_ptr
  plen : x.plen = x.before.flatten.length + x.p.length
  nonempty : ∀ q ∈ x.next, q ≠ []
  fits : x.chain.flatten.length < 2^16

/-- The octets before the position. -/
def Ptr.done (x : Ptr) : List UInt8 := x.before.flatten ++ x.p.take x.msg_ptr

/-- The octets from the position on. -/
def Ptr.rest (x : Ptr) : List UInt8 := x.p.drop x.msg_ptr ++ x.next.flatten

/-- The octets before and behind a place are the chain. -/
theorem Ptr.chain_flatten (x : Ptr) : x.chain.flatten = x.done ++ x.rest := by
  unfold Ptr.chain Ptr.done Ptr.rest
  rw [List.flatten_append, List.flatten_cons, List.append_assoc, ← List.append_assoc (x.p.take _),
    List.take_append_drop]

/-- The octets before a place. -/
theorem Ptr.Valid.done_length (h : x.Valid) : x.done.length = x.ofs := by
  have hlt := h.lt
  unfold Ptr.done
  rw [List.length_append, List.length_take, h.ofs]
  omega

/-- The octets of the pbufs to the end of this one, and of the others. -/
theorem Ptr.Valid.length (h : x.Valid) :
    x.chain.flatten.length = x.plen + x.next.flatten.length := by
  unfold Ptr.chain
  rw [List.flatten_append, List.flatten_cons, List.length_append, List.length_append, h.plen]
  omega

/-- The octet at the position. -/
theorem Ptr.Valid.rest_eq (h : x.Valid) :
    x.rest = x.p.get ⟨x.msg_ptr, h.lt⟩ :: (x.p.drop (x.msg_ptr + 1) ++ x.next.flatten) := by
  unfold Ptr.rest
  rw [List.drop_eq_getElem_cons h.lt, List.cons_append]
  rfl

/-- The next octet is read. -/
theorem take_spec (h : x.Valid) {b : UInt8} {bs : List UInt8} (hr : x.rest = b :: bs) :
    take x = (.ok b, x) := by
  rw [h.rest_eq] at hr
  cases hr
  unfold take
  rw [List.getElem?_eq_getElem h.lt]
  rfl

/-- An octet is written, and the others stay. -/
theorem put_spec (h : x.Valid) {b : UInt8} {bs : List UInt8} (hr : x.rest = b :: bs) (b' : UInt8) :
    ∃ x' : Ptr, put b' x = (.ok (), x') ∧ x'.Valid ∧ x'.rest = b' :: bs ∧ x'.done = x.done ∧
      x'.chain.map List.length = x.chain.map List.length := by
  have hlt := h.lt
  refine ⟨{ x with p := x.p.set x.msg_ptr b' }, if_pos hlt,
    ⟨?_, h.ofs, ?_, h.nonempty, ?_⟩, ?_, ?_, ?_⟩
  · rwa [List.length_set]
  · rw [h.plen, List.length_set]
  · have hfits := h.fits
    unfold Ptr.chain at hfits ⊢
    simpa using hfits
  · rw [h.rest_eq] at hr
    cases hr
    unfold Ptr.rest
    dsimp only
    rw [List.drop_set, if_neg (Nat.lt_irrefl _), Nat.sub_self, List.drop_eq_getElem_cons hlt,
      List.set_cons_zero, List.cons_append]
  · unfold Ptr.done
    rw [List.take_set_of_le (Nat.le_refl _)]
  · unfold Ptr.chain
    simp

/-- The next octet is the one that follows in the chain. -/
theorem step_spec (h : x.Valid) {b b' : UInt8} {bs : List UInt8} (hr : x.rest = b :: b' :: bs) :
    ∃ x', step x = (.ok (), x') ∧ x'.Valid ∧ x'.rest = b' :: bs ∧ x'.done = x.done ++ [b] ∧
      x'.chain = x.chain := by
  have hlt := h.lt
  have hofs := h.ofs
  have hplen := h.plen
  have hlen : x.ofs + 1 < 2^16 := by
    have hfits := h.fits
    rw [x.chain_flatten, List.length_append, h.done_length, hr] at hfits
    simp only [List.length_cons] at hfits
    omega
  have hu16 : u16 (x.ofs + 1) = x.ofs + 1 := Nat.mod_eq_of_lt hlen
  rw [h.rest_eq] at hr
  obtain ⟨hb, hr⟩ := List.cons.inj hr
  unfold step
  dsimp only
  rw [hu16]
  by_cases hge : x.ofs + 1 ≥ x.plen
  · -- The octet is the last one of its pbuf.
    rw [if_pos hge]
    have hlast : x.p.length = x.msg_ptr + 1 := by omega
    have hp : x.p.drop (x.msg_ptr + 1) = [] := List.drop_eq_nil_of_le (by omega)
    rw [hp, List.nil_append] at hr
    cases hnext : x.next with
    | nil =>
      rw [hnext] at hr
      cases hr
    | cons p' next' =>
      rw [hnext, List.flatten_cons] at hr
      have hfits := h.fits
      rw [h.length, hnext, List.flatten_cons, List.length_append] at hfits
      have hp' : p' ≠ [] := h.nonempty p' (by rw [hnext]; exact List.mem_cons_self)
      have hpos := List.length_pos_iff.mpr hp'
      have hflat : (x.before ++ [x.p]).flatten.length = x.plen := by
        rw [List.flatten_append, List.length_append, hplen, List.flatten_singleton]
      have hplen' : u16 (x.plen + p'.length) = x.plen + p'.length := Nat.mod_eq_of_lt (by omega)
      refine ⟨_, rfl, ⟨hpos, ?_, ?_, ?_, ?_⟩, hr, ?_, ?_⟩
      · show x.ofs + 1 = (x.before ++ [x.p]).flatten.length + 0
        omega
      · show u16 (x.plen + p'.length) = (x.before ++ [x.p]).flatten.length + p'.length
        rw [hflat, hplen']
      · exact fun q hq => h.nonempty q (by rw [hnext]; exact List.mem_cons_of_mem _ hq)
      · show ((x.before ++ [x.p]) ++ p' :: next').flatten.length < 2^16
        have heq := h.fits
        unfold Ptr.chain at heq
        rw [hnext] at heq
        rwa [List.append_assoc]
      · show (x.before ++ [x.p]).flatten ++ p'.take 0 = x.before.flatten ++
          x.p.take x.msg_ptr ++ [b]
        rw [List.take_zero, List.append_nil, List.flatten_append, List.flatten_singleton, ← hb,
          List.append_assoc]
        congr 1
        show x.p = x.p.take x.msg_ptr ++ [x.p[x.msg_ptr]]
        rw [← List.take_succ_eq_append_getElem hlt, ← hlast, List.take_length]
      · show (x.before ++ [x.p]) ++ p' :: next' = x.before ++ x.p :: x.next
        rw [hnext, List.append_assoc]
        rfl
  · rw [if_neg hge]
    have hlt' : x.msg_ptr + 1 < x.p.length := by omega
    refine ⟨_, rfl, ⟨hlt', ?_, hplen, h.nonempty, h.fits⟩, hr, ?_, rfl⟩
    · show x.ofs + 1 = x.before.flatten.length + (x.msg_ptr + 1)
      omega
    · show x.before.flatten ++ x.p.take (x.msg_ptr + 1) = x.before.flatten ++
        x.p.take x.msg_ptr ++ [b]
      rw [← hb, List.append_assoc, List.take_succ_eq_append_getElem hlt]
      rfl

/-- Behind the last octet there is none. -/
theorem step_end (h : x.Valid) {b : UInt8} (hr : x.rest = [b]) : (step x).1 = .error .ARG := by
  have hlt := h.lt
  have hofs := h.ofs
  have hplen := h.plen
  rw [h.rest_eq] at hr
  obtain ⟨-, hr⟩ := List.cons.inj hr
  obtain ⟨hp, hnext⟩ := List.append_eq_nil_iff.mp hr
  have hlast : x.p.length ≤ x.msg_ptr + 1 := List.drop_eq_nil_iff.mp hp
  have hnil : x.next = [] := by
    cases hn : x.next with
    | nil => rfl
    | cons p' next' =>
      rw [hn, List.flatten_cons] at hnext
      have hne := h.nonempty p' (by rw [hn]; exact List.mem_cons_self)
      exact absurd (List.append_eq_nil_iff.mp hnext).1 hne
  have hfits := h.fits
  rw [h.length] at hfits
  have hu16 : u16 (x.ofs + 1) = x.ofs + 1 := Nat.mod_eq_of_lt (by omega)
  unfold step
  dsimp only
  rw [hu16, if_pos (by omega), hnil]

/-- A step leaves the chain as it is, also where it fails. -/
theorem step_chain (x : Ptr) : (step x).2.chain = x.chain := by
  unfold step
  dsimp only
  split
  · split
    · rfl
    · rename_i p next hnext
      unfold Ptr.chain
      rw [hnext, List.append_assoc]
      rfl
  · rfl

/-- The pbuf with the octet at `ofs` is found. -/
theorem seek_spec {ofs : ℕ} (before : List (List UInt8)) (plen : ℕ) {p : List (List UInt8)}
    (hne : ∀ q ∈ p, q ≠ [])
    (hfits : (before ++ p).flatten.length < 2^16) (hplen : plen = before.flatten.length)
    (hle : plen ≤ ofs) (hlt : ofs < (before ++ p).flatten.length) :
    ∃ x, seek ofs before plen p = some x ∧ x.Valid ∧ x.chain = before ++ p ∧ x.ofs = ofs := by
  induction p generalizing before plen with
  | nil =>
    rw [List.append_nil] at hlt
    omega
  | cons q next ih =>
    have hlen : (before ++ q :: next).flatten.length = plen + q.length + next.flatten.length := by
      rw [List.flatten_append, List.flatten_cons, List.length_append, List.length_append, hplen]
      omega
    have hu16 : u16 (plen + q.length) = plen + q.length := Nat.mod_eq_of_lt (by omega)
    unfold seek
    dsimp only
    rw [hu16]
    by_cases hq : ofs < plen + q.length
    · rw [if_pos hq]
      have hsub : u16sub ofs plen = ofs - plen := by
        unfold u16sub
        omega
      rw [hsub]
      refine ⟨_, rfl, ⟨?_, ?_, ?_, fun r hr => hne r (List.mem_cons_of_mem _ hr), hfits⟩, rfl, rfl⟩
      · show ofs - plen < q.length
        omega
      · show ofs = before.flatten.length + (ofs - plen)
        omega
      · show plen + q.length = before.flatten.length + q.length
        omega
    · rw [if_neg hq]
      have happ : before ++ [q] ++ next = before ++ q :: next := by rw [List.append_assoc]; rfl
      rw [← happ] at hfits hlt ⊢
      apply ih _ _ (fun r hr => hne r (List.mem_cons_of_mem _ hr)) hfits
      · rw [List.flatten_append, List.flatten_singleton, List.length_append, hplen]
      · omega
      · exact hlt

/-- Behind the chain there is no pbuf. -/
theorem seek_none {ofs plen : ℕ} (before : List (List UInt8)) {p : List (List UInt8)}
    (hfits : plen + p.flatten.length < 2^16) (hge : plen + p.flatten.length ≤ ofs) :
      seek ofs before plen p = none := by
  induction p generalizing before plen with
  | nil => rfl
  | cons q next ih =>
    rw [List.flatten_cons, List.length_append] at hfits hge
    have hu16 : u16 (plen + q.length) = plen + q.length := Nat.mod_eq_of_lt (by omega)
    have hq : ¬ ofs < plen + q.length := by omega
    unfold seek
    dsimp only
    rw [hu16, if_neg hq]
    exact ih _ (by omega) (by omega)

/-- Octets that are written replace as many octets from the position on. -/
theorem writeAll_spec {bs : List UInt8} (h : x.Valid) (hlen : bs.length ≤ x.rest.length) :
    ∃ x' : Ptr, writeAll bs x = (.ok (), x') ∧
    x'.chain.flatten = x.done ++ bs ++ x.rest.drop bs.length ∧
      x'.chain.map List.length = x.chain.map List.length := by
  induction bs generalizing x with
  | nil =>
    refine ⟨x, rfl, ?_, rfl⟩
    rw [x.chain_flatten, List.append_nil]
    rfl
  | cons b bs ih =>
    cases hrest : x.rest with
    | nil =>
      rw [hrest] at hlen
      cases hlen
    | cons c cs =>
      obtain ⟨x₁, hput, hv₁, hr₁, hd₁, hs₁⟩ := put_spec h hrest b
      cases bs with
      | nil =>
        refine ⟨x₁, hput, ?_, hs₁⟩
        rw [x₁.chain_flatten, hd₁, hr₁, List.append_assoc]
        rfl
      | cons b' bs =>
        rw [hrest] at hlen
        cases cs with
        | nil =>
          simp only [List.length_cons, List.length_nil] at hlen
          omega
        | cons c' cs =>
          obtain ⟨x₂, hstep, hv₂, hr₂, hd₂, hs₂⟩ := step_spec hv₁ hr₁
          have hlen₂ : (b' :: bs).length ≤ x₂.rest.length := by
            rw [hr₂]
            simpa using hlen
          obtain ⟨x₃, hwrite, hflat, hs₃⟩ := ih hv₂ hlen₂
          refine ⟨x₃, ?_, ?_, hs₃.trans (by rw [hs₂, hs₁])⟩
          · show (put b >>= fun _ => step >>= fun _ => writeAll (b' :: bs)) x = _
            rw [bind_ok hput, bind_ok hstep, hwrite]
          · rw [hflat, hd₂, hd₁, hr₂]
            simp

end Position

/-! ## Chains -/

/-- A chain of non-empty pbufs. -/
structure Chain where
  pbufs : List (List UInt8)
  nonempty : ∀ p ∈ pbufs, p ≠ []
  tot_len : pbufs.flatten.length < 2^16

/-- The octets of a chain. -/
def Chain.octets (c : Chain) : List UInt8 := c.pbufs.flatten

/-- Payloads of the lengths of a chain are a chain. -/
theorem Chain.of_lengths (c : Chain) {pbufs : List (List UInt8)}
    (h : pbufs.map List.length = c.pbufs.map List.length) : ∃ c' : Chain, c'.pbufs = pbufs := by
  refine ⟨⟨pbufs, fun p hp hnil => ?_, ?_⟩, rfl⟩
  · have hmem : 0 ∈ c.pbufs.map List.length := by
      rw [← h]
      exact List.mem_map.mpr ⟨p, hp, by rw [hnil]; rfl⟩
    obtain ⟨q, hq, hlen⟩ := List.mem_map.mp hmem
    exact c.nonempty q hq (List.length_eq_zero_iff.mp hlen)
  · have hsum := c.tot_len
    rw [List.length_flatten] at hsum ⊢
    rwa [h]

/-- A walk starts at the octet at `ofs`. -/
theorem walk_eq (c : Chain) {ofs : ℕ} (h : ofs < c.octets.length) :
    ∃ x : Ptr, x.Valid ∧ x.chain = c.pbufs ∧ x.done = c.octets.take ofs ∧
    x.rest = c.octets.drop ofs ∧
      ∀ {α : Type} (m : Walk α), walk m c.pbufs ofs = ((m x).1, (m x).2.chain) := by
  obtain ⟨x, hseek, hv, hchain, hofs⟩ :=
    seek_spec [] 0 c.nonempty c.tot_len rfl (Nat.zero_le ofs) h
  have hchain : x.chain = c.pbufs := hchain
  have hflat : c.octets = x.done ++ x.rest := by
    rw [← x.chain_flatten, hchain]
    rfl
  have hlen : x.done.length = ofs := hv.done_length.trans hofs
  refine ⟨x, hv, hchain, ?_, ?_, ?_⟩
  · rw [hflat, ← hlen, List.take_left]
  · rw [hflat, ← hlen, List.drop_left]
  · intro α m
    unfold walk
    rw [hseek]

/-- A walk from behind the chain fails. -/
theorem walk_end {α : Type} (c : Chain) {ofs : ℕ} (h : c.octets.length ≤ ofs) (m : Walk α) :
    walk m c.pbufs ofs = (.error .ARG, c.pbufs) := by
  have hfits := c.tot_len
  have hnone : seek ofs [] 0 c.pbufs = none := by
    apply seek_none
    · omega
    · rw [Nat.zero_add]
      exact h
  unfold walk
  rw [hnone]

/-- A walk with a result starts somewhere. -/
theorem walk_fst_ok {α : Type} {m : Walk α} {p : List (List UInt8)} {ofs : ℕ} {a : α}
    (h : (walk m p ofs).1 = .ok a) : ∃ x, (m x).1 = .ok a := by
  unfold walk at h
  split at h
  · cases h
  · exact ⟨_, h⟩

/-- Octets that are written from `ofs` on. -/
theorem walk_writeAll (c : Chain) {ofs : ℕ} {bs : List UInt8} (hne : bs ≠ [])
    (h : ofs + bs.length ≤ c.octets.length) :
    ∃ c' : Chain, walk (writeAll bs) c.pbufs ofs = (.ok (), c'.pbufs) ∧
      c'.pbufs.map List.length = c.pbufs.map List.length ∧
      c'.octets = c.octets.take ofs ++ bs ++ c.octets.drop (ofs + bs.length) := by
  have hpos := List.length_pos_iff.mpr hne
  obtain ⟨x, hv, hchain, hdone, hrest, hwalk⟩ := walk_eq c (by omega : ofs < c.octets.length)
  have hlen : bs.length ≤ x.rest.length := by
    rw [hrest, List.length_drop]
    omega
  obtain ⟨x', hwrite, hflat, hshape⟩ := writeAll_spec hv hlen
  rw [hchain] at hshape
  obtain ⟨c', hc'⟩ := c.of_lengths hshape
  refine ⟨c', by rw [hwalk, hwrite, hc'], by rw [hc', hshape], ?_⟩
  unfold Chain.octets
  rw [hc', hflat, hdone, hrest, List.drop_drop]
  rfl

end Lwip.Snmp
